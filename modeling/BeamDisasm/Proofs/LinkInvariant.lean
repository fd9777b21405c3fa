import BeamDisasm.Proofs.Links
import Mathlib.Algebra.GroupWithZero.Nat
import Mathlib.Algebra.Order.BigOperators.Group.List
import Mathlib.Algebra.Order.Group.Nat

/-!
# What holds while links are followed

The links out of a block are at every moment a start of the links that it can get. Blocks whose scan is still open
are pending: they may lack links, and so may the blocks behind them. Every other block that has a link out has them
all. The links that are not there yet bound how deep the search can still go.
-/
namespace BeamDisasm.Block

variable {bs cs ds es : List Block} {reached pending : Int → Prop} {n target : Int} {j : Nat × Int}
  {seen rest : List (Nat × Int)}

/-! ## Growth -/

/-- Links are put behind those that are there. -/
structure Grows (cs ds : List Block) : Prop where
  sameCode : SameCode ds cs
  outs_le : ∀ n, outs cs n <+: outs ds n
  ins_le : ∀ n, ins cs n <+: ins ds n

/-- Links are put behind those that are there, and no block is chained. -/
structure Extends (cs ds : List Block) : Prop extends Grows cs ds where
  nextAt_eq : ∀ n, nextAt ds n = nextAt cs n

theorem Grows.refl (cs : List Block) : Grows cs cs :=
  ⟨rfl, fun _ => List.prefix_rfl, fun _ => List.prefix_rfl⟩

theorem Grows.trans (h : Grows cs ds) (h' : Grows ds es) : Grows cs es where
  sameCode := Eq.trans h'.sameCode h.sameCode
  outs_le n := (h.outs_le n).trans (h'.outs_le n)
  ins_le n := (h.ins_le n).trans (h'.ins_le n)

theorem Extends.refl (cs : List Block) : Extends cs cs :=
  ⟨Grows.refl cs, fun _ => rfl⟩

theorem Extends.trans (h : Extends cs ds) (h' : Extends ds es) : Extends cs es :=
  ⟨h.toGrows.trans h'.toGrows, fun n => (h'.nextAt_eq n).trans (h.nextAt_eq n)⟩

theorem extends_addOutLink (hn : Defines cs n) (hnew : j ∉ outs cs n) :
    Extends cs (update (.number n) (·.addOutLink j.1 j.2) cs) where
  sameCode := SameCode.update code_addOutLink _
  outs_le k := by
    rw [outs_addOutLink hn hnew]
    split
    · next h => exact h ▸ List.prefix_append _ _
    · exact List.prefix_rfl
  ins_le k := ⟨[], by rw [ins_addOutLink, List.append_nil]⟩
  nextAt_eq k := nextAt_addOutLink

theorem extends_addInLink (ht : Defines cs target) :
    Extends cs (update (.number target) (·.addInLink (.number n)) cs) where
  sameCode := SameCode.update (fun b => code_addInLink b _) _
  outs_le k := ⟨[], by rw [outs_addInLink, List.append_nil]⟩
  ins_le k := by
    rw [ins_addInLink ht]
    split
    · exact List.prefix_append _ _
    · exact List.prefix_rfl
  nextAt_eq k := nextAt_addInLink _

theorem grows_setNext {s : Successor} : Grows cs (update (.number n) (setNext s) cs) where
  sameCode := SameCode.update code_setNext _
  outs_le k := ⟨[], by rw [outs_setNext, List.append_nil]⟩
  ins_le k := ⟨[], by rw [ins_setNext, List.append_nil]⟩

/-! ## Blocks that are done -/

/-- All links of the block with a number are there, at both of their ends. -/
structure Done (bs cs : List Block) (n : Int) : Prop where
  outs_eq : outs cs n = links bs n
  mem_ins : ∀ j ∈ links bs n, Defines bs j.2 → .number n ∈ ins cs j.2

theorem Done.mono (h : Done bs cs n) (hgrow : Grows cs ds) (hle : outs ds n <+: links bs n) :
    Done bs ds n := by
  have hge : links bs n <+: outs ds n := h.outs_eq ▸ hgrow.outs_le n
  exact ⟨hle.eq_of_length_le hge.length_le, fun j hj hdef => (hgrow.ins_le j.2).subset (h.mem_ins j hj hdef)⟩

/-- Without a block there is nothing to do. -/
theorem done_of_not_defines (hcode : SameCode cs bs) (h : ¬ Defines bs n) : Done bs cs n := by
  have hnone : find? bs (.number n) = none := by simpa [Defines] using h
  have hnone' : find? cs (.number n) = none := by simpa [Defines] using mt hcode.defines_iff.mp h
  have hlinks := links_of_find?_none hnone
  refine ⟨?_, by simp [hlinks]⟩
  rw [hlinks, outs, field, hnone']
  rfl

/-- A scan that has seen everything that is taken up, and has linked it at both ends. -/
theorem done_of_seen (hseen : followed bs (jumpsAt bs n) ⊆ outs cs n) (hle : outs cs n <+: links bs n)
    (hins : ∀ j ∈ followed bs (jumpsAt bs n), Defines bs j.2 → .number n ∈ ins cs j.2) :
    Done bs cs n :=
  ⟨eq_eraseDups hle hseen, fun j hj => hins j (List.mem_eraseDups.mp hj)⟩

/-- The jumps that a scan has seen have their targets and are linked at both ends. -/
def Linked (bs cs : List Block) (n : Int) (seen : List (Nat × Int)) : Prop :=
  ∀ i ∈ seen, Defines bs i.2 ∧ i ∈ outs cs n ∧ .number n ∈ ins cs i.2

namespace Linked

theorem mono (h : Linked bs cs n seen) (hgrow : Grows cs ds) : Linked bs ds n seen := by
  intro i hi
  obtain ⟨hdef, hout, hin⟩ := h i hi
  exact ⟨hdef, (hgrow.outs_le n).subset hout, (hgrow.ins_le i.2).subset hin⟩

theorem concat (h : Linked bs cs n seen) (hdef : Defines bs j.2) (hout : j ∈ outs cs n)
    (hin : .number n ∈ ins cs j.2) : Linked bs cs n (seen ++ [j]) := by
  intro i hi
  rcases List.mem_append.mp hi with hi | hi
  · exact h i hi
  · rw [List.mem_singleton.mp hi]
    exact ⟨hdef, hout, hin⟩

theorem followed_eq (h : Linked bs cs n seen) (hjumps : jumpsAt bs n = seen ++ rest) :
    followed bs (jumpsAt bs n) = seen ++ followed bs rest := by
  rw [hjumps, followed_append fun i hi => (h i hi).1]

/-- A scan that has seen all jumps. -/
theorem done (h : Linked bs cs n seen) (hjumps : jumpsAt bs n = seen) (hle : outs cs n <+: links bs n) :
    Done bs cs n := by
  have hscan : followed bs (jumpsAt bs n) = seen := by
    simpa [followed] using h.followed_eq (hjumps.trans (List.append_nil seen).symm)
  apply done_of_seen _ hle <;> rw [hscan]
  · exact fun i hi _ => (h i hi).2.2
  · exact fun i hi => (h i hi).2.1

/-- A scan that has come to a missing target. -/
theorem done_of_missing (h : Linked bs cs n seen) (hjumps : jumpsAt bs n = seen ++ j :: rest)
    (hmissing : ¬ Defines bs j.2) (hout : j ∈ outs cs n) (hle : outs cs n <+: links bs n) :
    Done bs cs n := by
  have hscan : followed bs (jumpsAt bs n) = seen ++ [j] := by
    rw [h.followed_eq hjumps, followed, if_neg hmissing]
  apply done_of_seen _ hle <;> rw [hscan]
  · intro i hi hdef
    rcases List.mem_append.mp hi with hi | hi
    · exact (h i hi).2.2
    · exact absurd (List.mem_singleton.mp hi ▸ hdef) hmissing
  · intro i hi
    rcases List.mem_append.mp hi with hi | hi
    · exact (h i hi).2.1
    · exact List.mem_singleton.mp hi ▸ hout

end Linked

/-! ## The invariant -/

/-- The links in `cs` are links of the code `bs`. Blocks with links out are reached, and they are done unless they
are pending; so are the targets of their links. Links in are kept once and have their other end. -/
structure Sound (bs : List Block) (reached pending : Int → Prop) (cs : List Block) : Prop where
  sameCode : SameCode cs bs
  outs_le : ∀ n, outs cs n <+: links bs n
  reached_of_outs : ∀ n, outs cs n ≠ [] → reached n
  done_of_outs : ∀ n, outs cs n ≠ [] → Done bs cs n ∨ pending n
  done_of_mem : ∀ n, ∀ j ∈ outs cs n, Done bs cs j.2 ∨ pending j.2
  ins_nodup : ∀ n, (ins cs n).Nodup
  mem_outs : ∀ n, ∀ i ∈ ins cs n, ∃ k position, i = .number k ∧ (position, n) ∈ outs cs k

namespace Sound

theorem defines_iff (h : Sound bs reached pending cs) : Defines cs n ↔ Defines bs n :=
  h.sameCode.defines_iff

/-- Pending blocks may be added. -/
theorem weaken (h : Sound bs reached pending cs) {pending' : Int → Prop} (hp : ∀ n, pending n → pending' n) :
    Sound bs reached pending' cs :=
  { h with
    done_of_outs := fun n hn => (h.done_of_outs n hn).imp_right (hp n)
    done_of_mem := fun n j hj => (h.done_of_mem n j hj).imp_right (hp j.2) }

/-- A pending block that is done is no longer pending. -/
theorem close (h : Sound bs reached (fun k => pending k ∨ k = target) cs) (hdone : Done bs cs target) :
    Sound bs reached pending cs := by
  have hsettled : ∀ k, Done bs cs k ∨ pending k ∨ k = target → Done bs cs k ∨ pending k := by
    rintro k (hk | hk | rfl)
    · exact .inl hk
    · exact .inr hk
    · exact .inl hdone
  exact { h with
    done_of_outs := fun n hn => hsettled n (h.done_of_outs n hn)
    done_of_mem := fun n j hj => hsettled j.2 (h.done_of_mem n j hj) }

/-- What is done stays done where only links of the code are added. -/
theorem settled_mono (hgrow : Grows cs ds) (hle : ∀ n, outs ds n <+: links bs n)
    (h : Done bs cs n ∨ pending n) : Done bs ds n ∨ pending n :=
  h.imp_left fun hdone => hdone.mono hgrow (hle n)

/-- The next jump of a pending block becomes a link out of it; its target is then pending as well. -/
theorem addOutLink (h : Sound bs reached pending cs) (hn : reached n) (hp : pending n) (hdef : Defines bs n)
    (hscan : followed bs (jumpsAt bs n) = seen ++ j :: rest) (hseen : seen ⊆ outs cs n)
    (hnew : j ∉ outs cs n) :
    Sound bs reached (fun k => pending k ∨ k = j.2) (update (.number n) (·.addOutLink j.1 j.2) cs) := by
  have hcs : Defines cs n := h.defines_iff.mpr hdef
  have hgrow := (extends_addOutLink hcs hnew).toGrows
  have houts : ∀ k, outs (update (.number n) (·.addOutLink j.1 j.2) cs) k =
      if k = n then outs cs n ++ [j] else outs cs k := fun k => outs_addOutLink hcs hnew
  have hle : ∀ k, outs (update (.number n) (·.addOutLink j.1 j.2) cs) k <+: links bs k := by
    intro k
    rw [houts]
    split
    · next hk =>
      have hstart := h.outs_le n
      rw [hk, links, hscan]
      rw [links, hscan] at hstart
      exact concat_eraseDups hstart hseen hnew
    · exact h.outs_le k
  refine ⟨Eq.trans hgrow.sameCode h.sameCode, hle, ?_, ?_, ?_, ?_, ?_⟩
  · intro k hk
    rw [houts] at hk
    split at hk
    · next heq => exact heq ▸ hn
    · exact h.reached_of_outs k hk
  · intro k hk
    rw [houts] at hk
    split at hk
    · next heq => exact .inr (.inl (heq ▸ hp))
    · exact (settled_mono hgrow hle (h.done_of_outs k hk)).imp_right .inl
  · intro k i hi
    rw [houts] at hi
    split at hi
    · rcases List.mem_append.mp hi with hold | hlast
      · exact (settled_mono hgrow hle (h.done_of_mem n i hold)).imp_right .inl
      · exact .inr (.inr (congrArg Prod.snd (List.mem_singleton.mp hlast)))
    · exact (settled_mono hgrow hle (h.done_of_mem k i hi)).imp_right .inl
  · intro k
    rw [ins_addOutLink]
    exact h.ins_nodup k
  · intro k i hi
    rw [ins_addOutLink] at hi
    obtain ⟨m, position, rfl, hmem⟩ := h.mem_outs k i hi
    exact ⟨m, position, rfl, (hgrow.outs_le m).subset hmem⟩

/-- Without a new link out only the links in have to be looked at. -/
theorem of_outs_eq (h : Sound bs reached pending cs) (hgrow : Grows cs ds)
    (houts : ∀ k, outs ds k = outs cs k) (hnodup : ∀ k, (ins ds k).Nodup)
    (hmem : ∀ k, ∀ i ∈ ins ds k, ∃ m position, i = .number m ∧ (position, k) ∈ outs cs m) :
    Sound bs reached pending ds := by
  have hle : ∀ k, outs ds k <+: links bs k := fun k => houts k ▸ h.outs_le k
  refine ⟨Eq.trans hgrow.sameCode h.sameCode, hle, ?_, ?_, ?_, hnodup, ?_⟩
  · intro k hk
    exact h.reached_of_outs k (houts k ▸ hk)
  · intro k hk
    exact settled_mono hgrow hle (h.done_of_outs k (houts k ▸ hk))
  · intro k i hi
    exact settled_mono hgrow hle (h.done_of_mem k i (houts k ▸ hi))
  · intro k i hi
    obtain ⟨m, position, rfl, hm⟩ := hmem k i hi
    exact ⟨m, position, rfl, (houts m).symm ▸ hm⟩

/-- A link out gets its other end. -/
theorem addInLink (h : Sound bs reached pending cs) (hj : j ∈ outs cs n) (hdef : Defines bs j.2) :
    Sound bs reached pending (update (.number j.2) (·.addInLink (.number n)) cs) := by
  have hcs : Defines cs j.2 := h.defines_iff.mpr hdef
  refine h.of_outs_eq (extends_addInLink hcs).toGrows (fun k => outs_addInLink _) ?_ ?_
  · intro k
    rw [ins_addInLink hcs]
    split
    · next hk =>
      rw [← List.concat_eq_append]
      exact (h.ins_nodup k).concat hk.2
    · exact h.ins_nodup k
  · intro k i hi
    rw [ins_addInLink hcs] at hi
    split at hi
    · next hk =>
      rcases List.mem_append.mp hi with hold | hlast
      · exact h.mem_outs k i hold
      · exact ⟨n, j.1, List.mem_singleton.mp hlast, hk.1 ▸ hj⟩
    · exact h.mem_outs k i hi

/-- Chaining a block changes no link. -/
theorem setNext {s : Successor} (h : Sound bs reached pending cs) :
    Sound bs reached pending (update (.number n) (setNext s) cs) := by
  refine h.of_outs_eq grows_setNext (fun k => outs_setNext) ?_ ?_
  · intro k
    rw [ins_setNext]
    exact h.ins_nodup k
  · intro k i hi
    rw [ins_setNext] at hi
    exact h.mem_outs k i hi

/-- Blocks that have no links yet. -/
theorem of_fresh (hfresh : ∀ b ∈ bs, b.Fresh) : Sound bs reached pending bs := by
  have houts : ∀ n, outs bs n = [] := fun n => (empty_of_fresh hfresh n).1
  have hins : ∀ n, ins bs n = [] := fun n => (empty_of_fresh hfresh n).2.1
  refine ⟨rfl, ?_, ?_, ?_, ?_, ?_, ?_⟩ <;> simp [houts, hins]

end Sound

/-! ## Room for links -/

/-- Fewer than `depth` links are not there yet. -/
def Room (bs : List Block) (labels : List Int) (depth : Nat) (cs : List Block) : Prop :=
  (labels.map fun n => (links bs n).length).sum < depth + (labels.map fun n => (outs cs n).length).sum

variable {labels : List Int} {depth : Nat}

theorem Room.mono (h : Room bs labels depth cs) (hgrow : Grows cs ds) : Room bs labels depth ds := by
  have hle : (labels.map fun n => (outs cs n).length).sum ≤ (labels.map fun n => (outs ds n).length).sum :=
    List.sum_le_sum fun n _ => (hgrow.outs_le n).length_le
  unfold Room at h ⊢
  omega

/-- A new link uses up one step of the depth. -/
theorem Room.addOutLink (h : Room bs labels (depth + 1) cs) (hcs : Defines cs n) (hn : n ∈ labels)
    (hnew : j ∉ outs cs n) : Room bs labels depth (update (.number n) (·.addOutLink j.1 j.2) cs) := by
  have hgrow := (extends_addOutLink hcs hnew).toGrows
  have hlonger : (outs cs n).length < (outs (update (.number n) (·.addOutLink j.1 j.2) cs) n).length := by
    rw [outs_addOutLink hcs hnew, if_pos rfl, List.length_append, List.length_singleton]
    omega
  have hlt := List.sum_lt_sum (l := labels) (fun k => (outs cs k).length) _
    (fun k _ => (hgrow.outs_le k).length_le) ⟨n, hn, hlonger⟩
  unfold Room at h ⊢
  omega

/-- There is never more than the links of the code. -/
theorem Sound.room_ne_zero (h : Sound bs reached pending cs) (hroom : Room bs labels depth cs) : depth ≠ 0 := by
  rintro rfl
  have hle : (labels.map fun n => (outs cs n).length).sum ≤ (labels.map fun n => (links bs n).length).sum :=
    List.sum_le_sum fun n _ => (h.outs_le n).length_le
  unfold Room at hroom
  omega

/-- The jumps of all blocks leave room for all links. -/
theorem Numbered.room (h : Numbered bs labels) (cs : List Block) :
    Room bs labels (Graph.depthBound bs) cs := by
  let count : Index → Nat := fun i => (((find? bs i).map jumps).getD []).length
  have hcount : ∀ b ∈ bs, count b.label = b.jumps.length := by
    intro b hb
    obtain ⟨n, -, hn⟩ := h.label_mem hb
    simp [count, hn, h.find?_of_mem hb hn]
  have hjumps : (labels.map fun n => (jumpsAt bs n).length).sum = (bs.flatMap jumps).length := by
    calc (labels.map fun n => (jumpsAt bs n).length).sum
        = ((labels.map Index.number).map count).sum := by rw [List.map_map]; rfl
      _ = (bs.map fun b => b.jumps.length).sum := by
          rw [← h.labels_eq, List.map_map]
          exact congrArg List.sum (List.map_congr_left hcount)
      _ = (bs.flatMap jumps).length := by rw [List.length_flatMap]
  have hle : (labels.map fun n => (links bs n).length).sum ≤ (labels.map fun n => (jumpsAt bs n).length).sum :=
    List.sum_le_sum fun n _ => length_links_le n
  unfold Room Graph.depthBound
  omega

end BeamDisasm.Block
