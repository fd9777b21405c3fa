import BeamDisasm.Analysis.Function
import BeamDisasm.Proofs.Itemize

/-!
# Code without one of its instructions

An instruction that is neither a label nor a header can be taken out of the code before the code is cut into blocks
or afterwards: the blocks are the same, and so are the functions. The instructions behind it move up by one position.
-/
namespace BeamDisasm

/-- A position when the instruction at position `k` is gone. -/
def lowered (k n : Nat) : Nat :=
  if n < k then n else n - 1

theorem lowered_injOn {k n n' : Nat} (hn : n ≠ k) (hn' : n' ≠ k) (h : lowered k n = lowered k n') : n = n' := by
  unfold lowered at h
  split at h <;> split at h <;> omega

/-- An instruction at its position when the one at position `k` is gone. -/
def Placed.lower (k : Nat) (p : Placed) : Placed :=
  { p with position := lowered k p.position }

namespace Block

variable {k : Nat}

/-- Instructions without the one at position `k`. -/
def removeAt (k : Nat) (ps : List Placed) : List Placed :=
  (ps.filter fun p => p.position != k).map (Placed.lower k)

/-- A block without the instruction at position `k`. -/
def without (k : Nat) (b : Block) : Block :=
  { b with insts := removeAt k b.insts }

@[simp] theorem label_without (b : Block) : (b.without k).label = b.label := rfl

theorem removeAt_cons_self {p : Placed} (h : p.position = k) (ps : List Placed) :
    removeAt k (p :: ps) = removeAt k ps := by
  simp [removeAt, h]

theorem removeAt_cons_of_ne {p : Placed} (h : p.position ≠ k) (ps : List Placed) :
    removeAt k (p :: ps) = p.lower k :: removeAt k ps := by
  simp [removeAt, h]

theorem removeAt_append (ps qs : List Placed) : removeAt k (ps ++ qs) = removeAt k ps ++ removeAt k qs := by
  simp [removeAt]

/-! ## Positions -/

theorem placeFrom_append (n : Nat) (xs ys : List Instruction) :
    placeFrom n (xs ++ ys) = placeFrom n xs ++ placeFrom (n + xs.length) ys := by
  induction xs generalizing n with
  | nil => rfl
  | cons x xs ih =>
      have hnext : n + 1 + xs.length = n + (x :: xs).length := by
        simp only [List.length_cons]
        omega
      rw [List.cons_append, placeFrom, placeFrom, ih, hnext, List.cons_append]

/-- Positions count the instructions. -/
theorem mem_placeFrom {n : Nat} {xs : List Instruction} {p : Placed} (h : p ∈ placeFrom n xs) :
    n ≤ p.position ∧ xs[p.position - n]? = some p.inst := by
  induction xs generalizing n with
  | nil => simp [placeFrom] at h
  | cons x xs ih =>
      rw [placeFrom, List.mem_cons] at h
      rcases h with rfl | h
      · simp
      · obtain ⟨hle, hget⟩ := ih h
        have hsucc : p.position - n = p.position - (n + 1) + 1 := by omega
        refine ⟨by omega, ?_⟩
        rw [hsucc, List.getElem?_cons_succ, hget]

theorem pairwise_placeFrom (n : Nat) (xs : List Instruction) :
    (placeFrom n xs).Pairwise fun p q => p.position < q.position := by
  induction xs generalizing n with
  | nil => simp [placeFrom]
  | cons x xs ih =>
      rw [placeFrom, List.pairwise_cons]
      exact ⟨fun p hp => (mem_placeFrom hp).1, ih (n + 1)⟩

/-- Where the position is not among those of the instructions, they are counted from where the first of them goes. -/
theorem removeAt_placeFrom_of_lowered {n n' : Nat} {xs : List Instruction}
    (h : ∀ i < xs.length, n + i ≠ k ∧ lowered k (n + i) = n' + i) :
    removeAt k (placeFrom n xs) = placeFrom n' xs := by
  induction xs generalizing n n' with
  | nil => rfl
  | cons x xs ih =>
      obtain ⟨hne, hlowered⟩ := h 0 (by simp)
      have hlower : (⟨n, x⟩ : Placed).lower k = ⟨n', x⟩ := congrArg (Placed.mk · x) hlowered
      have hrest : ∀ i < xs.length, n + 1 + i ≠ k ∧ lowered k (n + 1 + i) = n' + 1 + i := by
        intro i hi
        rw [Nat.add_right_comm, Nat.add_right_comm n']
        exact h (i + 1) (by simpa using hi)
      rw [placeFrom, removeAt_cons_of_ne hne, hlower, ih hrest, placeFrom]

/-- Taking an instruction out of the code is taking it out of the code with its positions. -/
theorem removeAt_placeFrom (pre post : List Instruction) (j : Instruction) :
    removeAt pre.length (placeFrom 0 (pre ++ j :: post)) = placeFrom 0 (pre ++ post) := by
  have hself : (⟨pre.length, j⟩ : Placed).position = pre.length := rfl
  have hpre : removeAt pre.length (placeFrom 0 pre) = placeFrom 0 pre :=
    removeAt_placeFrom_of_lowered fun i hi => by simp [lowered]; omega
  have hpost : removeAt pre.length (placeFrom (pre.length + 1) post) = placeFrom pre.length post :=
    removeAt_placeFrom_of_lowered fun i hi => by simp [lowered]; omega
  rw [placeFrom_append, removeAt_append, hpre, placeFrom_append, Nat.zero_add, placeFrom, removeAt_cons_self hself,
    hpost]

/-! ## Blocks -/

theorem cut_cons_label {p : Placed} (h : p.inst.isLabel = true) (ps : List Placed) :
    cut (p :: ps) = ([], (p, (cut ps).1) :: (cut ps).2) := by
  simp [cut, h]

theorem cut_cons_other {p : Placed} (h : p.inst.isLabel = false) (ps : List Placed) :
    cut (p :: ps) = (p :: (cut ps).1, (cut ps).2) := by
  simp [cut, h]

/-- An instruction that is no label is taken out of its part. -/
theorem cut_removeAt {ps : List Placed} (h : ∀ p ∈ ps, p.position = k → p.inst.isLabel = false) :
    cut (removeAt k ps) =
      (removeAt k (cut ps).1, (cut ps).2.map fun part => (part.1.lower k, removeAt k part.2)) := by
  induction ps with
  | nil => rfl
  | cons p ps ih =>
      have hps := ih fun q hq => h q (by simp [hq])
      by_cases hp : p.position = k
      · rw [removeAt_cons_self hp, hps, cut_cons_other (h p (by simp) hp), removeAt_cons_self hp]
      · rw [removeAt_cons_of_ne hp]
        cases hlabel : p.inst.isLabel with
        | true => rw [cut_cons_label (p := p.lower k) hlabel, hps, cut_cons_label hlabel]; rfl
        | false =>
            rw [cut_cons_other (p := p.lower k) hlabel, hps, cut_cons_other hlabel, removeAt_cons_of_ne hp]

theorem mapM_ofPart_removeAt (parts : List (Placed × List Placed)) :
    (parts.map fun part => (part.1.lower k, removeAt k part.2)).mapM ofPart =
      (parts.mapM ofPart).map (List.map (without k)) := by
  induction parts with
  | nil => rfl
  | cons part parts ih =>
      rw [List.map_cons, List.mapM_cons, List.mapM_cons, ih]
      have hpart : ofPart (part.1.lower k, removeAt k part.2) = (ofPart part).map (without k) := by
        change (part.1.inst.indexOf 0 >>= _) = Except.map _ (part.1.inst.indexOf 0 >>= _)
        cases part.1.inst.indexOf 0 <;> rfl
      rw [hpart]
      cases ofPart part with
      | error e => rfl
      | ok b => cases parts.mapM ofPart <;> rfl

theorem ofPart_spec {part : Placed × List Placed} {b : Block} (h : ofPart part = .ok b) :
    b.insts = part.2 ∧ b.callers = [] := by
  obtain ⟨label, -, h⟩ := exists_of_bind h
  rw [← Except.ok.inj h]
  exact ⟨rfl, rfl⟩

/-- The instructions of a block stand in the code, in their order. -/
theorem insts_sublist {code : List Instruction} {bs : List Block} (h : itemize code = .ok bs) {b : Block}
    (hb : b ∈ bs) : b.insts.Sublist (placeFrom 0 code) := by
  obtain ⟨part, hpart, hblock⟩ := exists_part h hb
  have hflat : part.2.Sublist ((cut (placeFrom 0 code)).2.flatMap fun part => part.1 :: part.2) :=
    (List.sublist_cons_self part.1 part.2).trans
      (List.sublist_flatten_of_mem (List.mem_map_of_mem hpart))
  rw [(ofPart_spec hblock).1, ← cut_flatten (placeFrom 0 code)]
  exact hflat.trans (List.sublist_append_right _ _)

section Relabelled

variable {f : Block → Block} (hf : ∀ b, (f b).label = b.label)

include hf

theorem keepLast_map (bs : List Block) : keepLast (bs.map f) = (keepLast bs).map f := by
  induction bs with
  | nil => rfl
  | cons b bs ih =>
      have hany : ((bs.map f).any fun c => c.label.same (f b).label) = bs.any fun c => c.label.same b.label := by
        simp [List.any_map, Function.comp_def, hf]
      rw [List.map_cons, keepLast, keepLast, hany, ih]
      split <;> rfl

theorem inOrder_map (bs : List Block) : inOrder (bs.map f) = (inOrder bs).map (List.map f) := by
  have hcomparable : comparable (bs.map f) = comparable bs := by
    simp [comparable, List.all_map, Function.comp_def, hf]
  have hsort : (bs.map f).mergeSort (fun a b => a.label.le b.label) =
      (bs.mergeSort fun a b => a.label.le b.label).map f := by
    refine (List.map_mergeSort fun a _ b _ => ?_).symm
    rw [hf, hf]
  rw [inOrder, inOrder, hcomparable, hsort]
  split <;> rfl

end Relabelled

/-- The blocks of code without an instruction are the blocks of the code without it. -/
theorem itemize_without {pre post : List Instruction} {j : Instruction} (hj : j.isLabel = false) :
    itemize (pre ++ post) = (itemize (pre ++ j :: post)).map (List.map (without pre.length)) := by
  have hlabel : ∀ p ∈ placeFrom 0 (pre ++ j :: post), p.position = pre.length → p.inst.isLabel = false := by
    intro p hp hposition
    have hget := (mem_placeFrom hp).2
    rw [hposition] at hget
    simp at hget
    rwa [← hget]
  rw [itemize, itemize, ← removeAt_placeFrom pre post j, cut_removeAt hlabel, mapM_ofPart_removeAt]
  cases (cut (placeFrom 0 (pre ++ j :: post))).2.mapM ofPart with
  | error e => rfl
  | ok bs =>
      change inOrder (keepLast (bs.map (without pre.length))) = Except.map _ (inOrder (keepLast bs))
      rw [keepLast_map label_without, inOrder_map label_without]

end Block

namespace Function

open Block (removeAt without)

variable {k : Nat}

theorem foldlM_meet_removeAt {ps : List Placed} (h : ∀ p ∈ ps, p.position = k → p.inst.isHeader = false)
    (s : Search) : (removeAt k ps).foldlM Search.meet s = ps.foldlM Search.meet s := by
  induction ps generalizing s with
  | nil => rfl
  | cons p ps ih =>
      have hps := ih fun q hq => h q (by simp [hq])
      by_cases hp : p.position = k
      · have hmeet : s.meet p = .ok s := by simp [Search.meet, h p (by simp) hp]
        rw [Block.removeAt_cons_self hp, hps, List.foldlM_cons, hmeet]
        rfl
      · rw [Block.removeAt_cons_of_ne hp, List.foldlM_cons, List.foldlM_cons]
        exact bind_congr fun t => hps t

/-- An instruction that is no header does not count in the search for functions. -/
theorem findAll_without {bs : List Block}
    (h : ∀ b ∈ bs, ∀ p ∈ b.insts, p.position = k → p.inst.isHeader = false) :
    findAll (bs.map (without k)) = findAll bs := by
  have hfold : ∀ s, (bs.map (without k)).foldlM Search.enter s = bs.foldlM Search.enter s := by
    induction bs with
    | nil => exact fun s => rfl
    | cons b bs ih =>
        intro s
        have henter : s.enter (b.without k) = s.enter b := foldlM_meet_removeAt (h b (by simp)) _
        rw [List.map_cons, List.foldlM_cons, List.foldlM_cons, henter]
        exact bind_congr fun t => ih (fun c hc => h c (by simp [hc])) t
  rw [findAll, findAll, hfold]

end Function

end BeamDisasm
