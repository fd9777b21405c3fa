import BeamDisasm.Proofs.Links
import BeamDisasm.Proofs.Removal

/-!
# Jumps without those of one instruction

The jumps of a block without an instruction are the jumps of the block without those at its position. If all targets
of the instruction are missing, the scan of the block ends there at the latest; without the instruction it may go on.
-/
namespace BeamDisasm

namespace Block

variable {bs : List Block} {k : Nat} {n : Int} {i : Nat × Int} {js : List (Nat × Int)}

/-! ## Jumps without those of one instruction -/

/-- Jumps without those at position `k`. -/
def withoutJumps (k : Nat) (js : List (Nat × Int)) : List (Nat × Int) :=
  (js.filter fun j => j.1 != k).map fun j => (lowered k j.1, j.2)

@[simp] theorem withoutJumps_nil : withoutJumps k [] = [] := rfl

theorem withoutJumps_cons_self (h : i.1 = k) (js : List (Nat × Int)) :
    withoutJumps k (i :: js) = withoutJumps k js := by
  simp [withoutJumps, h]

theorem withoutJumps_cons_of_ne (h : i.1 ≠ k) (js : List (Nat × Int)) :
    withoutJumps k (i :: js) = (lowered k i.1, i.2) :: withoutJumps k js := by
  simp [withoutJumps, h]

theorem mem_withoutJumps : i ∈ withoutJumps k js ↔ ∃ x ∈ js, x.1 ≠ k ∧ (lowered k x.1, x.2) = i := by
  simp [withoutJumps, and_assoc]

theorem lowered_pair_inj {x y : Nat × Int} (hx : x.1 ≠ k) (hy : y.1 ≠ k)
    (h : (lowered k x.1, x.2) = (lowered k y.1, y.2)) : x = y :=
  Prod.ext (lowered_injOn hx hy (Prod.mk.inj h).1) (Prod.mk.inj h).2

/-- Leaving out repetitions and leaving out an instruction can be done in either order. -/
theorem withoutJumps_eraseDups (js : List (Nat × Int)) :
    withoutJumps k js.eraseDups = (withoutJumps k js).eraseDups := by
  induction hn : js.length using Nat.strongRecOn generalizing js with
  | _ n ih =>
    cases js with
    | nil => rfl
    | cons i js =>
        have hlength := List.length_filter_le (fun x => !x == i) js
        rw [List.length_cons] at hn
        have hrest := ih _ (by omega) (js.filter fun x => !x == i) rfl
        by_cases hi : i.1 = k
        · have hfilter : withoutJumps k (js.filter fun x => !x == i) = withoutJumps k js := by
            rw [withoutJumps, withoutJumps, List.filter_filter]
            refine congrArg _ (List.filter_congr fun x _ => ?_)
            by_cases hx : x = i
            · simp [hx, hi]
            · simp [hx]
          rw [List.eraseDups_cons, withoutJumps_cons_self hi, hrest, hfilter, withoutJumps_cons_self hi]
        · have hfilter : withoutJumps k (js.filter fun x => !x == i) =
              (withoutJumps k js).filter fun x => !x == (lowered k i.1, i.2) := by
            rw [withoutJumps, withoutJumps, List.filter_map, List.filter_filter, List.filter_filter]
            refine congrArg _ (List.filter_congr fun x _ => ?_)
            by_cases hx : x.1 = k
            · simp [hx]
            · have hsame : (lowered k x.1, x.2) = (lowered k i.1, i.2) ↔ x = i :=
                ⟨lowered_pair_inj hx hi, fun h => h ▸ rfl⟩
              rw [Bool.eq_iff_iff]
              simp only [Function.comp_apply, Bool.and_eq_true, Bool.not_eq_true', beq_eq_false_iff_ne, ne_eq,
                bne_iff_ne, hsame]
              exact and_comm
          rw [List.eraseDups_cons, withoutJumps_cons_of_ne hi, hrest, hfilter, withoutJumps_cons_of_ne hi,
            List.eraseDups_cons]

theorem jumps_without (b : Block) : (b.without k).jumps = withoutJumps k b.jumps := by
  have hinsts : ∀ ps : List Placed,
      (removeAt k ps).flatMap (fun p => p.inst.jumpTargets.map fun t => (p.position, t)) =
        withoutJumps k (ps.flatMap fun p => p.inst.jumpTargets.map fun t => (p.position, t)) := by
    intro ps
    induction ps with
    | nil => rfl
    | cons p ps ih =>
        rw [List.flatMap_cons, withoutJumps, List.filter_append, List.map_append]
        by_cases hp : p.position = k
        · rw [removeAt_cons_self hp, ih, withoutJumps]
          simp [List.filter_map, Function.comp_def, hp]
        · have hkeep : (p.position != k) = true := by simpa using hp
          rw [removeAt_cons_of_ne hp, List.flatMap_cons, ih, withoutJumps]
          simp [List.filter_map, Function.comp_def, hkeep, Placed.lower]
  exact hinsts b.insts

theorem find?_without (bs : List Block) (i : Index) :
    find? (bs.map (without k)) i = (find? bs i).map (without k) := by
  rw [find?, List.find?_map]
  rfl

theorem jumpsAt_without (bs : List Block) (n : Int) :
    jumpsAt (bs.map (without k)) n = withoutJumps k (jumpsAt bs n) := by
  rw [jumpsAt, find?_without, jumpsAt]
  cases find? bs (.number n) with
  | none => rfl
  | some b => exact jumps_without b

theorem defines_without : Defines (bs.map (without k)) n ↔ Defines bs n := by
  rw [Defines, find?_without, Option.isSome_map, Defines]

theorem defines_of_mem_jumpsAt (h : i ∈ jumpsAt bs n) : Defines bs n := by
  by_contra hno
  have hnone : find? bs (.number n) = none := by simpa [Defines] using hno
  simp [jumpsAt, hnone] at h

/-! ## The scan without the instruction -/

theorem followed_without_blocks (js : List (Nat × Int)) : followed (bs.map (without k)) js = followed bs js := by
  induction js with
  | nil => rfl
  | cons j js ih => rw [followed, followed, if_congr defines_without rfl rfl, ih]

theorem followed_withoutJumps_of_ne (h : ∀ i ∈ js, i.1 ≠ k) :
    followed bs (withoutJumps k js) = withoutJumps k (followed bs js) := by
  induction js with
  | nil => rfl
  | cons i js ih =>
      rw [withoutJumps_cons_of_ne (h i (by simp)), followed, followed]
      split
      · rw [withoutJumps_cons_of_ne (h i (by simp)), ih fun x hx => h x (by simp [hx])]
      · rw [withoutJumps_cons_of_ne (h i (by simp)), withoutJumps_nil]

/-- Where the scan ends before the instruction, or no other jump is behind it, the scan without it makes the same
links. -/
theorem followed_withoutJumps (hsorted : js.Pairwise fun i j => i.1 ≤ j.1)
    (hmissing : ∀ i ∈ js, i.1 = k → ¬ Defines bs i.2)
    (h : (∃ i ∈ js, i.1 < k ∧ ¬ Defines bs i.2) ∨ ∀ i ∈ js, i.1 ≤ k) :
    followed bs (withoutJumps k js) = withoutJumps k (followed bs js) := by
  induction js with
  | nil => rfl
  | cons i js ih =>
      rw [List.pairwise_cons] at hsorted
      rcases Nat.lt_trichotomy i.1 k with hi | hi | hi
      · have hne : i.1 ≠ k := by omega
        rw [withoutJumps_cons_of_ne hne, followed, followed]
        by_cases hdef : Defines bs i.2
        · have hrest : (∃ x ∈ js, x.1 < k ∧ ¬ Defines bs x.2) ∨ ∀ x ∈ js, x.1 ≤ k := by
            rcases h with ⟨x, hx, hlt, hno⟩ | h
            · rcases List.mem_cons.mp hx with rfl | hx
              · exact absurd hdef hno
              · exact .inl ⟨x, hx, hlt, hno⟩
            · exact .inr fun x hx => h x (by simp [hx])
          rw [if_pos hdef, if_pos hdef, withoutJumps_cons_of_ne hne,
            ih hsorted.2 (fun x hx => hmissing x (by simp [hx])) hrest]
        · rw [if_neg hdef, if_neg hdef, withoutJumps_cons_of_ne hne, withoutJumps_nil]
      · -- All jumps from here on are made by the instruction.
        have hall : ∀ x ∈ js, x.1 = k := by
          intro x hx
          have hge := hsorted.1 x hx
          rcases h with ⟨y, hy, hlt, -⟩ | h
          · rcases List.mem_cons.mp hy with rfl | hy
            · omega
            · have := hsorted.1 y hy
              omega
          · have := h x (by simp [hx])
            omega
        have hnil : withoutJumps k js = [] := by
          rw [withoutJumps, List.filter_eq_nil_iff.mpr, List.map_nil]
          intro x hx
          simp [hall x hx]
        have hend : followed bs (i :: js) = [i] := by rw [followed, if_neg (hmissing i (by simp) hi)]
        rw [withoutJumps_cons_self hi, hnil, hend, withoutJumps_cons_self hi]
        rfl
      · refine followed_withoutJumps_of_ne fun x hx => ?_
        rcases List.mem_cons.mp hx with rfl | hx
        · omega
        · have := hsorted.1 x hx
          omega

theorem followed_subset (js : List (Nat × Int)) : followed bs js ⊆ js := by
  induction js with
  | nil => simp [followed]
  | cons j js ih =>
      rw [followed]
      split
      · exact List.cons_subset_cons j ih
      · simp

/-- What the scan takes up without the instruction is at least what it took up before. -/
theorem mem_followed_withoutJumps (hmissing : ∀ i ∈ js, i.1 = k → ¬ Defines bs i.2)
    (hi : i ∈ followed bs js) (hne : i.1 ≠ k) : (lowered k i.1, i.2) ∈ followed bs (withoutJumps k js) := by
  induction js with
  | nil => simp [followed] at hi
  | cons x js ih =>
      rw [followed] at hi
      by_cases hx : x.1 = k
      · rw [if_neg (hmissing x (by simp) hx), List.mem_singleton] at hi
        exact absurd (hi ▸ hx) hne
      · rw [withoutJumps_cons_of_ne hx, followed]
        by_cases hdef : Defines bs x.2
        · rw [if_pos hdef] at hi ⊢
          rcases List.mem_cons.mp hi with rfl | hi
          · simp
          · exact List.mem_cons_of_mem _ (ih (fun y hy => hmissing y (by simp [hy])) hi)
        · rw [if_neg hdef, List.mem_singleton] at hi
          rw [if_neg hdef, hi]
          simp

/-- Without the instruction the scan comes to the jumps behind it, unless it ends before. -/
theorem exists_followed_behind (hdef : ∀ i ∈ js, i.1 < k → Defines bs i.2) (hi : i ∈ js) (hlt : k < i.1) :
    ∃ x ∈ js, k < x.1 ∧ (lowered k x.1, x.2) ∈ followed bs (withoutJumps k js) := by
  induction js with
  | nil => simp at hi
  | cons y js ih =>
      have hlater : y.1 ≤ k → i ∈ js := by
        intro hy
        rcases List.mem_cons.mp hi with rfl | hi
        · omega
        · exact hi
      rcases Nat.lt_trichotomy y.1 k with hy | hy | hy
      · obtain ⟨x, hx, hkx, hmem⟩ := ih (fun z hz => hdef z (by simp [hz])) (hlater (by omega))
        refine ⟨x, by simp [hx], hkx, ?_⟩
        rw [withoutJumps_cons_of_ne (by omega), followed, if_pos (hdef y (by simp) hy)]
        exact List.mem_cons_of_mem _ hmem
      · obtain ⟨x, hx, hkx, hmem⟩ := ih (fun z hz => hdef z (by simp [hz])) (hlater (by omega))
        exact ⟨x, by simp [hx], hkx, by rwa [withoutJumps_cons_self hy]⟩
      · refine ⟨y, by simp, hy, ?_⟩
        rw [withoutJumps_cons_of_ne (by omega), followed]
        split <;> simp

/-- With the instruction the scan does not come further. -/
theorem le_of_mem_followed (hsorted : js.Pairwise fun i j => i.1 ≤ j.1) {y : Nat × Int} (hy : y ∈ js)
    (hyk : y.1 = k) (hmissing : ¬ Defines bs y.2) (hi : i ∈ followed bs js) : i.1 ≤ k := by
  induction js with
  | nil => simp at hy
  | cons x js ih =>
      rw [List.pairwise_cons] at hsorted
      have hx : x.1 ≤ k := by
        rcases List.mem_cons.mp hy with rfl | hy
        · omega
        · have := hsorted.1 y hy
          omega
      rw [followed] at hi
      split at hi
      · next hdef =>
        rcases List.mem_cons.mp hi with rfl | hi
        · exact hx
        · refine ih hsorted.2 ((List.mem_cons.mp hy).resolve_left ?_) hi
          rintro rfl
          exact hmissing hdef
      · rwa [List.mem_singleton.mp hi]

theorem Numbered.map_without {labels : List Int} (h : Numbered bs labels) (k : Nat) :
    Numbered (bs.map (without k)) labels := by
  refine ⟨?_, h.nodup⟩
  rw [List.map_map]
  exact h.labels_eq

theorem fresh_without (h : ∀ b ∈ bs, b.Fresh) : ∀ b ∈ bs.map (without k), b.Fresh := by
  intro c hc
  obtain ⟨b, hb, rfl⟩ := List.mem_map.mp hc
  rw [Fresh, without, h b hb]

end Block

/-! ## Positions in the code -/

section Positions

open Block (Numbered SameCode jumpsAt)

variable {pre post : List Instruction} {j : Instruction} {bs cs : List Block} {b : Block} {n : Int}

theorem Block.inst_of_position (hbs : Block.itemize (pre ++ j :: post) = .ok bs) (hb : b ∈ bs) {p : Placed}
    (hp : p ∈ b.insts) (hposition : p.position = pre.length) : p = ⟨pre.length, j⟩ := by
  have hget := (Block.mem_placeFrom ((Block.insts_sublist hbs hb).subset hp)).2
  rw [hposition] at hget
  have hinst : j = p.inst := by simpa using hget
  rw [hinst, ← hposition]

theorem Block.exists_jump_of_mem (hp : (⟨pre.length, j⟩ : Placed) ∈ b.insts) (hjump : j.jumpTargets ≠ []) :
    ∃ i ∈ b.jumps, i.1 = pre.length := by
  obtain ⟨t, ht⟩ := List.exists_mem_of_ne_nil _ hjump
  exact ⟨(pre.length, t), List.mem_flatMap.mpr ⟨_, hp, List.mem_map_of_mem ht⟩, rfl⟩

/-- Only the instruction itself jumps from its position. -/
theorem Block.eq_of_mem_jumps (hbs : Block.itemize (pre ++ j :: post) = .ok bs) (hb : b ∈ bs) {i : Nat × Int}
    (hi : i ∈ b.jumps) (hposition : i.1 = pre.length) :
    (⟨pre.length, j⟩ : Placed) ∈ b.insts ∧ i.2 ∈ j.jumpTargets := by
  obtain ⟨p, hp, hip⟩ := List.mem_flatMap.mp hi
  obtain ⟨t, ht, rfl⟩ := List.mem_map.mp hip
  have hinst := Block.inst_of_position hbs hb hp hposition
  rw [hinst] at hp ht
  exact ⟨hp, ht⟩

theorem Block.target_of_position (hbs : Block.itemize (pre ++ j :: post) = .ok bs) {i : Nat × Int}
    (hi : i ∈ jumpsAt bs n) (hposition : i.1 = pre.length) : i.2 ∈ j.jumpTargets := by
  obtain ⟨b, hfind⟩ := Option.isSome_iff_exists.mp (Block.defines_of_mem_jumpsAt hi)
  rw [Block.jumpsAt_of_find? hfind] at hi
  exact (Block.eq_of_mem_jumps hbs (List.mem_of_find?_eq_some hfind) hi hposition).2

theorem Block.mem_of_exists_jump (hbs : Block.itemize (pre ++ j :: post) = .ok bs) (hcode : SameCode cs bs)
    (hfind : Block.find? cs (.number n) = some b) (hk : ∃ i ∈ jumpsAt bs n, i.1 = pre.length) :
    (⟨pre.length, j⟩ : Placed) ∈ b.insts := by
  obtain ⟨i, hi, hposition⟩ := hk
  obtain ⟨c, hc, heq⟩ := hcode.exists_code_eq (List.mem_of_find?_eq_some hfind)
  rw [hcode.jumpsAt_eq hfind, ← Block.jumps_of_code heq] at hi
  have hinsts : c.insts = b.insts := congrArg Prod.snd heq
  rw [← hinsts]
  exact (Block.eq_of_mem_jumps hbs hc hi hposition).1

/-- The jumps of a block stand in the order of the code. -/
theorem Block.pairwise_jumps {code : List Instruction} (hbs : Block.itemize code = .ok bs) (hb : b ∈ bs) :
    b.jumps.Pairwise fun i j => i.1 ≤ j.1 := by
  have hinsts := (Block.pairwise_placeFrom 0 code).sublist (Block.insts_sublist hbs hb)
  rw [Block.jumps, List.pairwise_flatMap]
  refine ⟨fun p _ => ?_, hinsts.imp fun hlt x hx y hy => ?_⟩
  · rw [List.pairwise_map]
    exact List.pairwise_of_forall fun _ _ => Nat.le_refl _
  · obtain ⟨t, -, rfl⟩ := List.mem_map.mp hx
    obtain ⟨u, -, rfl⟩ := List.mem_map.mp hy
    exact Nat.le_of_lt hlt

theorem Block.pairwise_jumpsAt {code : List Instruction} (hbs : Block.itemize code = .ok bs) (n : Int) :
    (jumpsAt bs n).Pairwise fun i j => i.1 ≤ j.1 := by
  cases hfind : Block.find? bs (.number n) with
  | none => simp [jumpsAt, hfind]
  | some b =>
      rw [Block.jumpsAt_of_find? hfind]
      exact Block.pairwise_jumps hbs (List.mem_of_find?_eq_some hfind)

end Positions

end BeamDisasm
