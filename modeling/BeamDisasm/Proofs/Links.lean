import BeamDisasm.Analysis.Graph
import BeamDisasm.Proofs.Itemize
import Mathlib.Data.List.Perm.Subperm

/-!
# Links of blocks

The code of the blocks fixes which links a block can get: its jumps up to the first one with a missing target, each
kept once. What a list of blocks has at a number is its links out, its links in and the block behind it; a change to
one block is seen there only.
-/
namespace BeamDisasm

/-! ## Lists with repetitions removed -/

section EraseDups

variable {α : Type} [BEq α] [LawfulBEq α] {a : α} {l start seen rest : List α}

theorem nodup_eraseDups (l : List α) : l.eraseDups.Nodup := by
  induction hn : l.length using Nat.strongRecOn generalizing l with
  | _ n ih =>
    cases l with
    | nil => simp
    | cons a as =>
        have hlength := List.length_filter_le (fun b => !b == a) as
        rw [List.length_cons] at hn
        rw [List.eraseDups_cons, List.nodup_cons]
        exact ⟨by simp [List.mem_eraseDups], ih _ (by omega) _ rfl⟩

theorem length_eraseDups_le (l : List α) : l.eraseDups.length ≤ l.length :=
  ((nodup_eraseDups l).subperm fun _ ha => List.mem_eraseDups.mp ha).length_le

/-- A start that has every member is all of the list. -/
theorem eq_eraseDups (h : start <+: l.eraseDups) (hall : l ⊆ start) : start = l.eraseDups := by
  have hsub : l.eraseDups ⊆ start := fun _ ha => hall (List.mem_eraseDups.mp ha)
  exact h.eq_of_length_le ((nodup_eraseDups l).subperm hsub).length_le

/-- A start that has every member up to the first new one goes on with this one. -/
theorem concat_eraseDups (h : start <+: (seen ++ a :: rest).eraseDups) (hseen : seen ⊆ start)
    (ha : a ∉ start) : start ++ [a] <+: (seen ++ a :: rest).eraseDups := by
  have hnew : seen.contains a = false := by
    rw [← Bool.not_eq_true, List.contains_iff_mem]
    exact fun hmem => ha (hseen hmem)
  obtain ⟨tail, htail⟩ : ∃ tail, (seen ++ a :: rest).eraseDups = seen.eraseDups ++ [a] ++ tail := by
    refine ⟨((rest.removeAll seen).filter fun b => !b == a).eraseDups, ?_⟩
    rw [List.eraseDups_append, List.cons_removeAll, if_pos hnew, List.eraseDups_cons, List.append_assoc,
      List.singleton_append]
  rw [htail] at h ⊢
  have hshort : start <+: seen.eraseDups := by
    rcases List.prefix_or_prefix_of_prefix h (List.prefix_append _ tail) with hle | hge
    · rcases List.prefix_concat_iff.mp hle with heq | hle
      · exact absurd (by simp [heq]) ha
      · exact hle
    · exact absurd (hge.subset (by simp)) ha
  rw [eq_eraseDups hshort hseen]
  exact List.prefix_append _ tail

end EraseDups

namespace Block

/-! ## What the code fixes -/

/-- The part of a block that is code: its label and its instructions. -/
def code (b : Block) : Index × List Placed :=
  (b.label, b.insts)

/-- The same code, block by block. -/
def SameCode (cs bs : List Block) : Prop :=
  cs.map code = bs.map code

/-- Some block has this number. -/
def Defines (bs : List Block) (n : Int) : Prop :=
  (find? bs (.number n)).isSome

instance (bs : List Block) (n : Int) : Decidable (Defines bs n) :=
  inferInstanceAs (Decidable ((find? bs (.number n)).isSome = true))

/-- The jumps of the block with a number. -/
def jumpsAt (bs : List Block) (n : Int) : List (Nat × Int) :=
  ((find? bs (.number n)).map jumps).getD []

/-- The jumps that are taken up: none behind the first one with a missing target. -/
def followed (bs : List Block) : List (Nat × Int) → List (Nat × Int)
  | [] => []
  | j :: js => if Defines bs j.2 then j :: followed bs js else [j]

/-- The links that the block with a number can get, in the order of the code. -/
def links (bs : List Block) (n : Int) : List (Nat × Int) :=
  (followed bs (jumpsAt bs n)).eraseDups

variable {bs cs : List Block} {b : Block} {n k : Int} {js seen : List (Nat × Int)}

theorem jumps_of_code {c : Block} (h : b.code = c.code) : b.jumps = c.jumps := by
  have hinsts : b.insts = c.insts := congrArg Prod.snd h
  rw [jumps, jumps, hinsts]

theorem jumpsAt_of_find? (h : find? bs (.number n) = some b) : jumpsAt bs n = b.jumps := by
  simp [jumpsAt, h]

theorem followed_append (h : ∀ j ∈ seen, Defines bs j.2) (js : List (Nat × Int)) :
    followed bs (seen ++ js) = seen ++ followed bs js := by
  induction seen with
  | nil => rfl
  | cons j seen ih =>
      rw [List.cons_append, followed, if_pos (h j (by simp)), ih fun i hi => h i (by simp [hi]),
        List.cons_append]

theorem followed_eq_self (h : ∀ j ∈ js, Defines bs j.2) : followed bs js = js := by
  simpa [followed] using followed_append h []

theorem length_followed_le (js : List (Nat × Int)) : (followed bs js).length ≤ js.length := by
  induction js with
  | nil => simp [followed]
  | cons j js ih =>
      rw [followed]
      split
      · simpa using ih
      · simp

theorem length_links_le (n : Int) : (links bs n).length ≤ (jumpsAt bs n).length :=
  Nat.le_trans (length_eraseDups_le _) (length_followed_le _)

/-- Where no target is missing, the links are the jumps. -/
theorem links_eq (h : ∀ j ∈ jumpsAt bs n, Defines bs j.2) : links bs n = (jumpsAt bs n).eraseDups := by
  rw [links, followed_eq_self h]

theorem links_of_find?_none (h : find? bs (.number n) = none) : links bs n = [] := by
  simp [links, jumpsAt, h, followed]

namespace SameCode

theorem find?_map (h : SameCode cs bs) (i : Index) : (find? cs i).map code = (find? bs i).map code := by
  have hfind : ∀ bs : List Block, (find? bs i).map code = (bs.map code).find? fun c => c.1.same i := by
    intro bs
    rw [find?, List.find?_map]
    rfl
  rw [hfind, hfind, h]

theorem defines_iff (h : SameCode cs bs) : Defines cs n ↔ Defines bs n := by
  have hsome := congrArg Option.isSome (h.find?_map (.number n))
  rw [Option.isSome_map, Option.isSome_map] at hsome
  rw [Defines, Defines, hsome]

theorem exists_code_eq (h : SameCode cs bs) (hb : b ∈ cs) : ∃ c ∈ bs, c.code = b.code := by
  have hmem : b.code ∈ cs.map code := List.mem_map_of_mem hb
  rw [h] at hmem
  exact List.mem_map.mp hmem

theorem jumpsAt_eq (h : SameCode cs bs) (hb : find? cs (.number n) = some b) :
    jumpsAt bs n = b.jumps := by
  have hmap := h.find?_map (.number n)
  rw [hb, Option.map_some] at hmap
  obtain ⟨c, hc, hcode⟩ := Option.map_eq_some_iff.mp hmap.symm
  rw [jumpsAt_of_find? hc, jumps_of_code hcode]

theorem flatMap_jumps (h : SameCode cs bs) : cs.flatMap jumps = bs.flatMap jumps := by
  have hcode : ∀ bs : List Block, bs.flatMap jumps =
      (bs.map code).flatMap fun c => jumps { label := c.1, insts := c.2 } := by
    intro bs
    rw [List.flatMap_map]
    rfl
  rw [hcode, hcode, h]

theorem numbered {labels : List Int} (h : SameCode cs bs) (hbs : Numbered bs labels) :
    Numbered cs labels := by
  have hlabels : cs.map Block.label = bs.map Block.label := by
    have hmap := congrArg (List.map Prod.fst) h
    rwa [List.map_map, List.map_map] at hmap
  exact ⟨hlabels.trans hbs.labels_eq, hbs.nodup⟩

/-- A change that leaves the code of every block alone. -/
theorem update {f : Block → Block} (hf : ∀ b, (f b).code = b.code) (i : Index) :
    SameCode (update i f cs) cs :=
  map_update hf i cs

end SameCode

/-! ## What blocks have at a number -/

/-- A part of the block with a number. -/
def field {α : Type} (p : Block → α) (bs : List Block) (n : Int) : Option α :=
  (find? bs (.number n)).map p

/-- The links out of the block with a number. -/
def outs (bs : List Block) (n : Int) : List (Nat × Int) :=
  (field outRefs bs n).getD []

/-- The links into the block with a number. -/
def ins (bs : List Block) (n : Int) : List Index :=
  (field inRefs bs n).getD []

/-- What the block with a number is chained to. -/
def nextAt (bs : List Block) (n : Int) : Option Successor :=
  (field next bs n).join

section Field

variable {α : Type} {p : Block → α} {f : Block → Block}

theorem field_of_find? (h : find? bs (.number n) = some b) : field p bs n = some (p b) := by
  rw [field, h, Option.map_some]

theorem field_update (hf : ∀ b, (f b).label = b.label) :
    field p (update (.number k) f bs) n = if n = k then field (p ∘ f) bs n else field p bs n := by
  rw [field, find?_update hf]
  split
  · rw [Option.map_map, field]
  · rfl

/-- A change that leaves a part alone is not seen in it. -/
theorem field_update_of_eq (hf : ∀ b, (f b).label = b.label) (hp : ∀ b, p (f b) = p b) :
    field p (update (.number k) f bs) n = field p bs n := by
  have hcomp : p ∘ f = p := funext hp
  rw [field_update hf, hcomp, ite_self]

end Field

theorem Numbered.find?_of_mem {labels : List Int} (h : Numbered bs labels) (hb : b ∈ bs)
    (hn : b.label = .number n) : find? bs (.number n) = some b :=
  h.find?_eq_some_iff.mpr ⟨hb, hn⟩

theorem outs_of_find? (h : find? bs (.number n) = some b) : outs bs n = b.outRefs := by
  rw [outs, field_of_find? h, Option.getD_some]

theorem ins_of_find? (h : find? bs (.number n) = some b) : ins bs n = b.inRefs := by
  rw [ins, field_of_find? h, Option.getD_some]

theorem defines_of_outs (h : outs bs n ≠ []) : Defines bs n := by
  by_contra hno
  have hnone : find? bs (.number n) = none := by simpa [Defines] using hno
  simp [outs, field, hnone] at h

theorem nextAt_of_find? (h : find? bs (.number n) = some b) : nextAt bs n = b.next := by
  rw [nextAt, field_of_find? h, Option.join_some]

/-- Fresh blocks have no links and are not chained. -/
theorem empty_of_fresh (h : ∀ b ∈ bs, b.Fresh) (n : Int) :
    outs bs n = [] ∧ ins bs n = [] ∧ nextAt bs n = none := by
  cases hb : find? bs (.number n) with
  | none => simp [outs, ins, nextAt, field, hb]
  | some b =>
      rw [outs_of_find? hb, ins_of_find? hb, nextAt_of_find? hb, h b (List.mem_of_find?_eq_some hb)]
      exact ⟨rfl, rfl, rfl⟩

/-! ## The changes -/

section AddOutLink

variable {position : Nat} {target : Int}

theorem code_addOutLink (b : Block) : (b.addOutLink position target).code = b.code := by
  rw [addOutLink]
  split <;> rfl

theorem label_addOutLink (b : Block) : (b.addOutLink position target).label = b.label :=
  congrArg Prod.fst (code_addOutLink b)

theorem ins_addOutLink : ins (update (.number k) (·.addOutLink position target) bs) n = ins bs n := by
  have hkeep : ∀ b : Block, (b.addOutLink position target).inRefs = b.inRefs := by
    intro b
    rw [addOutLink]
    split <;> rfl
  rw [ins, field_update_of_eq label_addOutLink hkeep, ins]

theorem nextAt_addOutLink :
    nextAt (update (.number k) (·.addOutLink position target) bs) n = nextAt bs n := by
  have hkeep : ∀ b : Block, (b.addOutLink position target).next = b.next := by
    intro b
    rw [addOutLink]
    split <;> rfl
  rw [nextAt, field_update_of_eq label_addOutLink hkeep, nextAt]

/-- A new link out is put behind those that are there. -/
theorem outs_addOutLink (hk : Defines bs k) (hnew : (position, target) ∉ outs bs k) :
    outs (update (.number k) (·.addOutLink position target) bs) n =
      if n = k then outs bs k ++ [(position, target)] else outs bs n := by
  obtain ⟨b, hb⟩ := Option.isSome_iff_exists.mp hk
  rw [outs_of_find? hb] at hnew ⊢
  rw [outs, field_update label_addOutLink]
  split
  · next heq =>
    subst heq
    have hadd : (b.addOutLink position target).outRefs = b.outRefs ++ [(position, target)] := by
      rw [addOutLink, hasOutRef, if_neg (by rwa [List.contains_iff_mem])]
    rw [field_of_find? hb, Option.getD_some, Function.comp_apply, hadd]
  · rfl

end AddOutLink

section AddInLink

theorem code_addInLink (b : Block) (i : Index) : (b.addInLink i).code = b.code := by
  rw [addInLink]
  split <;> rfl

theorem label_addInLink (i : Index) (b : Block) : (b.addInLink i).label = b.label :=
  congrArg Prod.fst (code_addInLink b i)

theorem outs_addInLink (i : Index) : outs (update (.number k) (·.addInLink i) bs) n = outs bs n := by
  have hkeep : ∀ b : Block, (b.addInLink i).outRefs = b.outRefs := by
    intro b
    rw [addInLink]
    split <;> rfl
  rw [outs, field_update_of_eq (label_addInLink i) hkeep, outs]

theorem nextAt_addInLink (i : Index) : nextAt (update (.number k) (·.addInLink i) bs) n = nextAt bs n := by
  have hkeep : ∀ b : Block, (b.addInLink i).next = b.next := by
    intro b
    rw [addInLink]
    split <;> rfl
  rw [nextAt, field_update_of_eq (label_addInLink i) hkeep, nextAt]

theorem hasInLink_number (b : Block) (k : Int) : b.hasInLink (.number k) = true ↔ .number k ∈ b.inRefs := by
  rw [hasInLink, List.any_eq_true]
  constructor
  · rintro ⟨i, hi, hsame⟩
    rwa [(Index.same_number i k).mp hsame] at hi
  · intro hk
    exact ⟨_, hk, (Index.same_number _ k).mpr rfl⟩

/-- A link in is put behind those that are there, unless it is one of them. -/
theorem ins_addInLink {target : Int} (ht : Defines bs target) :
    ins (update (.number target) (·.addInLink (.number k)) bs) n =
      if n = target ∧ .number k ∉ ins bs n then ins bs n ++ [.number k] else ins bs n := by
  obtain ⟨b, hb⟩ := Option.isSome_iff_exists.mp ht
  rw [ins, field_update (label_addInLink _)]
  by_cases hn : n = target
  · subst hn
    rw [if_pos rfl, field_of_find? hb, ins_of_find? hb, Option.getD_some, Function.comp_apply, addInLink]
    by_cases hk : .number k ∈ b.inRefs
    · rw [if_pos ((hasInLink_number b k).mpr hk), if_neg fun h => h.2 hk]
    · rw [if_neg (mt (hasInLink_number b k).mp hk), if_pos ⟨rfl, hk⟩]
  · rw [if_neg hn, if_neg fun h => hn h.1, ins]

end AddInLink

section SetNext

/-- The block with something behind it. -/
def setNext (s : Successor) (b : Block) : Block :=
  { b with next := some s }

variable {s : Successor}

theorem code_setNext (b : Block) : (b.setNext s).code = b.code := rfl

theorem label_setNext (b : Block) : (b.setNext s).label = b.label := rfl

theorem outs_setNext : outs (update (.number k) (setNext s) bs) n = outs bs n := by
  have hkeep : ∀ b : Block, (b.setNext s).outRefs = b.outRefs := fun _ => rfl
  rw [outs, field_update_of_eq label_setNext hkeep, outs]

theorem ins_setNext : ins (update (.number k) (setNext s) bs) n = ins bs n := by
  have hkeep : ∀ b : Block, (b.setNext s).inRefs = b.inRefs := fun _ => rfl
  rw [ins, field_update_of_eq label_setNext hkeep, ins]

theorem nextAt_setNext (hk : Defines bs k) :
    nextAt (update (.number k) (setNext s) bs) n = if n = k then some s else nextAt bs n := by
  obtain ⟨b, hb⟩ := Option.isSome_iff_exists.mp hk
  rw [nextAt, field_update label_setNext]
  split
  · next heq =>
    subst heq
    rw [field_of_find? hb, Option.join_some]
    rfl
  · rfl

end SetNext

end Block

end BeamDisasm
