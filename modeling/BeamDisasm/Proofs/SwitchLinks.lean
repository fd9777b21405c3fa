import BeamDisasm.Proofs.LinkMirror
import Mathlib

/-!
# The links of switches

A switch goes to the label of one of its cases or to its default label. The graph has only the links that operations
declare: a switch over values declares its list of cases and not its default label, and a switch over the sizes of
tuples declares neither. The labels of a switch are therefore all linked exactly if other instructions of its block go
to the ones that are left out.
-/
namespace BeamDisasm

namespace Instruction

variable {inst : Instruction} {bySize : Bool} {otherwise t : Int} {branches : List (Term × Int)}

/-- The list operand of a switch: the terms of its cases, each with the label that it leads to. -/
def caseList (branches : List (Term × Int)) : List Term :=
  branches.flatMap fun branch => [branch.1, .label branch.2]

/-- The instruction is a switch over values, or over the sizes of tuples, with a default label and cases. -/
structure Selects (inst : Instruction) (bySize : Bool) (otherwise : Int) (branches : List (Term × Int)) : Prop where
  operation_eq : Operation.find? (if bySize then 60 else 59) = some inst.operation
  otherwise_eq : inst.operands[1]? = some (.label otherwise)
  branches_eq : inst.operands[2]? = some (.list (caseList branches))

theorem mem_labelsOf_iff {ts : List Term} : t ∈ labelsOf ts ↔ .label t ∈ ts := by
  fun_induction labelsOf ts with
  | case1 => simp
  | case2 i ts ih => simp [ih]
  | case3 u ts hu ih =>
      have hne : Term.label t ≠ u := fun heq => hu t heq.symm
      simp [ih, hne]

theorem label_mem_caseList {branch : Term × Int} (h : branch ∈ branches) : .label branch.2 ∈ caseList branches :=
  List.mem_flatMap.mpr ⟨branch, h, by simp⟩

theorem Selects.jumps_eq (h : inst.Selects bySize otherwise branches) :
    inst.operation.jumps = if bySize then [] else [2] := by
  have hdeclared : ∀ bySize : Bool,
      (Operation.find? (if bySize then 60 else 59)).map Operation.jumps = some (if bySize then [] else [2]) := by decide
  have hjumps := hdeclared bySize
  rw [h.operation_eq] at hjumps
  exact Option.some.inj hjumps

/-- Only a switch over values jumps, and not to its default label unless this is in its list too. -/
theorem Selects.mem_jumpTargets_iff (h : inst.Selects bySize otherwise branches) :
    t ∈ inst.jumpTargets ↔ bySize = false ∧ .label t ∈ caseList branches := by
  rw [jumpTargets, h.jumps_eq]
  cases bySize with
  | true => simp
  | false => simp [h.branches_eq, targetsOf, mem_labelsOf_iff]

end Instruction

namespace Block

variable {bs cs : List Block} {b : Block} {p q : Placed} {code : List Instruction} {n : Int}

/-- The block goes to the block with a number, which is reached from it. -/
def LinkedTo (bs : List Block) (b : Block) (target : Int) : Prop :=
  b.hasOutLink target = true ∧ ∃ c ∈ find? bs (.number target), c.hasInLink b.label = true

instance (bs : List Block) (b : Block) (target : Int) : Decidable (LinkedTo bs b target) :=
  inferInstanceAs (Decidable (_ ∧ ∃ c ∈ find? bs (.number target), c.hasInLink b.label = true))

theorem comparable_of_itemize (h : itemize code = .ok bs) : comparable bs = true := by
  obtain ⟨cs, -, hcomparable, hperm⟩ := exists_of_itemize h
  rw [← hcomparable, comparable, comparable, hperm.length_eq, hperm.all_eq, hperm.all_eq]

/-- Where one block has a number, all have. -/
theorem exists_numbered_of_defines (h : itemize code = .ok bs) (hn : Defines bs n) : ∃ labels, Numbered bs labels := by
  obtain ⟨c, hc⟩ := Option.isSome_iff_exists.mp hn
  have hlabel := label_of_find? hc
  have hmem := List.mem_of_find?_eq_some hc
  have hnumbers : ∀ b ∈ bs, ∃ n, b.label = .number n := by
    intro b hb
    have hcomparable := comparable_of_itemize h
    simp only [comparable, Bool.or_eq_true, decide_eq_true_eq, List.all_eq_true] at hcomparable
    rcases hcomparable with (hone | hall) | hall
    · have hpos := List.length_pos_of_mem hmem
      obtain ⟨d, rfl⟩ := List.length_eq_one_iff.mp (Nat.le_antisymm hone hpos)
      rw [List.mem_singleton.mp hb, ← List.mem_singleton.mp hmem]
      exact ⟨n, hlabel⟩
    · have hnumber := hall b hb
      cases hb' : b.label with
      | number k => exact ⟨k, rfl⟩
      | _ => simp [hb', Index.isNumber] at hnumber
    · have hraw := hall c hmem
      simp [hlabel, Index.isRaw] at hraw
  have hnodup := (cut_of_itemize h).labels_nodup
  rw [map_number hnumbers] at hnodup
  exact ⟨bs.map number, map_number hnumbers, hnodup.of_map _⟩

theorem getElem?_position (h : itemize code = .ok bs) (hb : b ∈ bs) (hp : p ∈ b.insts) :
    code[p.position]? = some p.inst := by
  simpa using (mem_placeFrom ((insts_sublist h hb).subset hp)).2

theorem defines_target_of_mem_jumpsAt (h : itemize code = .ok bs)
    (htargets : ∀ inst ∈ code, ∀ t ∈ inst.jumpTargets, Defines bs t) (n : Int) (j : Nat × Int) (hj : j ∈ jumpsAt bs n) :
    Defines bs j.2 := by
  cases hb : find? bs (.number n) with
  | none => simp [jumpsAt, hb] at hj
  | some b =>
      rw [jumpsAt_of_find? hb] at hj
      obtain ⟨p, hp, hjp⟩ := List.mem_flatMap.mp hj
      obtain ⟨t, ht, rfl⟩ := List.mem_map.mp hjp
      exact htargets p.inst (List.mem_of_getElem? (getElem?_position h (List.mem_of_find?_eq_some hb) hp)) t ht

end Block

namespace Graph

open Block (Defines LinkedTo Numbered)

variable {bs cs : List Block} {fs : List Function} {labels : List Int} {b : Block} {t : Int}

/-- A block that is reached is linked to the targets of its instructions, and to nothing else. -/
theorem Exact.linkedTo_iff (h : Exact bs fs cs) (hcs : Numbered cs labels) (hb : b ∈ cs)
    (hreached : Reached bs fs b.label) (ht : Defines cs t) :
    LinkedTo cs b t ↔ ∃ p ∈ b.insts, t ∈ p.inst.jumpTargets := by
  have hout : b.hasOutLink t = true ↔ ∃ p ∈ b.insts, t ∈ p.inst.jumpTargets := by
    rw [Block.hasOutLink_iff, h.outRefs_eq b hb hreached]
    simp [Block.jumps]
  refine ⟨fun hlinked => hout.mp hlinked.1, fun htarget => ⟨hout.mpr htarget, ?_⟩⟩
  obtain ⟨c, hc⟩ := Option.isSome_iff_exists.mp ht
  obtain ⟨p, hp, htp⟩ := htarget
  have hin : b.label ∈ c.inRefs := by
    rw [h.mem_inRefs_iff c (List.mem_of_find?_eq_some hc)]
    refine ⟨b, hb, rfl, hreached, (p.position, t), ?_, Block.label_of_find? hc⟩
    exact List.mem_flatMap.mpr ⟨p, hp, List.mem_map_of_mem htp⟩
  obtain ⟨n, -, hn⟩ := hcs.label_mem hb
  rw [hn] at hin ⊢
  exact ⟨c, hc, (Block.hasInLink_number c n).mpr hin⟩

end Graph

namespace Analysis

open Block (Defines LinkedTo SameCode)

open Instruction (caseList)

variable {m : Module} {code : List Instruction} {a : Analysis} {warnings : Nat} {f : Function} {b : Block} {p : Placed}

/-- In code whose jumps all go to blocks, the blocks behind the headers are linked to the targets of their
instructions. -/
theorem linkedTo_iff {n : Int} (hcode : m.code = some code) (hbuild : build m = .ok (a, warnings))
    (htargets : ∀ inst ∈ code, ∀ t ∈ inst.jumpTargets, Defines a.blocks t) (hf : f ∈ a.functions) (hb : b ∈ a.blocks)
    (hown : b.label ∈ f.blocks.drop 1) (hn : Defines a.blocks n) :
    (∀ p ∈ b.insts, code[p.position]? = some p.inst) ∧
    ∀ t, Defines a.blocks t → (LinkedTo a.blocks b t ↔ ∃ p ∈ b.insts, t ∈ p.inst.jumpTargets) := by
  obtain ⟨code', bs, fs, hcode', hbs, hfs, rfl⟩ := exists_of_build hbuild
  obtain rfl : code = code' := Option.some.inj (hcode.symm.trans hcode')
  have hsame : SameCode (Graph.ofFunctions bs fs).blocks bs :=
    (Graph.allKeep_foldl_addFunction fs { blocks := bs }).sameCode
  obtain ⟨labels, hnumbered⟩ := Block.exists_numbered_of_defines hbs (hsame.defines_iff.mp hn)
  have hjumps := Block.defines_target_of_mem_jumpsAt hbs fun inst hinst t ht =>
    hsame.defines_iff.mp (htargets inst hinst t ht)
  have hexact := Graph.ofFunctions_exact hnumbered (Block.fresh_of_itemize hbs) hjumps hfs
  constructor
  · intro p hp
    obtain ⟨c, hc, heq⟩ := hsame.exists_code_eq hb
    have hinsts : c.insts = b.insts := congrArg Prod.snd heq
    exact Block.getElem?_position hbs hc (hinsts ▸ hp)
  · intro t ht
    exact hexact.linkedTo_iff (hsame.numbered hnumbered) hb (.own hf hown) ht

/-- The block stands behind the header of a function and holds a switch with labels that have blocks. -/
structure HoldsSwitch (a : Analysis) (b : Block) (p : Placed) (bySize : Bool) (otherwise : Int)
    (branches : List (Term × Int)) : Prop where
  mem : b ∈ a.blocks
  owned : ∃ f ∈ a.functions, b.label ∈ f.blocks.drop 1
  placed : p ∈ b.insts
  selects : p.inst.Selects bySize otherwise branches
  defined : ∀ t ∈ otherwise :: branches.map Prod.snd, Defines a.blocks t

/-- The labels of a switch are all linked exactly if every one that is not in the list of a switch over values is the
target of another instruction of the block. The cases of a switch over values always are. -/
theorem build_switch_linked_iff {bySize : Bool} {otherwise : Int} {branches : List (Term × Int)}
    (hcode : m.code = some code) (hbuild : build m = .ok (a, warnings))
    (htargets : ∀ inst ∈ code, ∀ t ∈ inst.jumpTargets, Defines a.blocks t)
    (hswitch : a.HoldsSwitch b p bySize otherwise branches) :
    (bySize = false → ∀ t ∈ branches.map Prod.snd, LinkedTo a.blocks b t) ∧
    ((∀ t ∈ otherwise :: branches.map Prod.snd, LinkedTo a.blocks b t) ↔
      ∀ t ∈ otherwise :: branches.map Prod.snd, (bySize = false ∧ .label t ∈ caseList branches) ∨
        ∃ q ∈ b.insts, q.position ≠ p.position ∧ t ∈ q.inst.jumpTargets) := by
  obtain ⟨hb, ⟨f, hf, hown⟩, hp, hselects, hdefined⟩ := hswitch
  obtain ⟨hplaced, hlinked⟩ := linkedTo_iff hcode hbuild htargets hf hb hown (hdefined otherwise (by simp))
  have hsplit : ∀ t, (∃ q ∈ b.insts, t ∈ q.inst.jumpTargets) ↔ (bySize = false ∧ .label t ∈ caseList branches) ∨
      ∃ q ∈ b.insts, q.position ≠ p.position ∧ t ∈ q.inst.jumpTargets := by
    intro t
    rw [← hselects.mem_jumpTargets_iff]
    constructor
    · rintro ⟨q, hq, ht⟩
      by_cases hposition : q.position = p.position
      · have hinst := (hplaced q hq).symm.trans (hposition ▸ hplaced p hp)
        exact .inl (Option.some.inj hinst ▸ ht)
      · exact .inr ⟨q, hq, hposition, ht⟩
    · rintro (ht | ⟨q, hq, -, ht⟩)
      · exact ⟨p, hp, ht⟩
      · exact ⟨q, hq, ht⟩
  constructor
  · intro hvalues t ht
    obtain ⟨branch, hbranch, rfl⟩ := List.mem_map.mp ht
    rw [hlinked _ (hdefined _ (by simp [ht])), hsplit]
    exact .inl ⟨hvalues, Instruction.label_mem_caseList hbranch⟩
  · refine forall₂_congr fun t ht => ?_
    rw [hlinked t (hdefined t ht), hsplit]

/-- A switch over values whose default label is tested for first, and a switch over sizes behind tests for both of its
labels. -/
def covered : List Instruction :=
  assembled [(1, [.literal 1]), (2, [.atom 1, .atom 2, .literal 0]),
    (1, [.literal 2]), (41, [.label 3, .xreg (.number 0), .xreg (.number 1)]),
    (59, [.xreg (.number 0), .label 3, .list [.integer 7, .label 4, .integer 8, .label 2]]),
    (1, [.literal 3]), (41, [.label 2, .xreg (.number 0), .xreg (.number 1)]),
    (41, [.label 4, .xreg (.number 0), .xreg (.number 1)]),
    (60, [.xreg (.number 0), .label 2, .list [.literal 2, .label 4]]),
    (1, [.literal 4]), (19, [])]

theorem build_switch_linked_covered :
    ∃ a warnings b c p q, build { code := some covered } = .ok (a, warnings) ∧
      (∀ inst ∈ covered, ∀ t ∈ inst.jumpTargets, Defines a.blocks t) ∧
      a.HoldsSwitch b p false 3 [(.integer 7, 4), (.integer 8, 2)] ∧ a.HoldsSwitch c q true 2 [(.literal 2, 4)] ∧
      (∀ t ∈ [3, 4, 2], LinkedTo a.blocks b t) ∧ ∀ t ∈ [2, 4], LinkedTo a.blocks c t := by
  obtain ⟨a, warnings, b, c, p, q, hbuild, htargets, hb, hc, hotherwise, hothers⟩ : ∃ a warnings b c p q,
      build { code := some covered } = .ok (a, warnings) ∧
      (∀ inst ∈ covered, ∀ t ∈ inst.jumpTargets, Defines a.blocks t) ∧
      a.HoldsSwitch b p false 3 [(.integer 7, 4), (.integer 8, 2)] ∧ a.HoldsSwitch c q true 2 [(.literal 2, 4)] ∧
      (∃ r ∈ b.insts, r.position ≠ p.position ∧ 3 ∈ r.inst.jumpTargets) ∧
      ∀ t ∈ ([2, 4] : List Int), ∃ r ∈ c.insts, r.position ≠ q.position ∧ t ∈ r.inst.jumpTargets :=
    ⟨_, _, _, _, _, _, by cbv, of_decide_eq_true (by cbv),
      ⟨List.mem_of_getElem? (i := 1) (by cbv), ⟨_, List.mem_of_getElem? (i := 0) (by cbv), by decide⟩,
        List.mem_of_getElem? (i := 1) (by cbv), ⟨by cbv, by cbv, by cbv⟩, of_decide_eq_true (by cbv)⟩,
      ⟨List.mem_of_getElem? (i := 2) (by cbv), ⟨_, List.mem_of_getElem? (i := 0) (by cbv), by decide⟩,
        List.mem_of_getElem? (i := 2) (by cbv), ⟨by cbv, by cbv, by cbv⟩, of_decide_eq_true (by cbv)⟩,
      of_decide_eq_true (by cbv), of_decide_eq_true (by cbv)⟩
  refine ⟨a, warnings, b, c, p, q, hbuild, htargets, hb, hc, ?_, ?_⟩
  · refine (build_switch_linked_iff rfl hbuild htargets hb).2.mpr ?_
    intro t ht
    rcases List.mem_cons.mp ht with rfl | ht
    · exact .inr hotherwise
    · obtain ⟨branch, hbranch, rfl⟩ := List.mem_map.mp ht
      exact .inl ⟨rfl, Instruction.label_mem_caseList hbranch⟩
  · refine (build_switch_linked_iff rfl hbuild htargets hc).2.mpr ?_
    intro t ht
    exact .inr (hothers t ht)

/-- A switch over values, and a switch over sizes, alone in their blocks. -/
def uncovered : List Instruction :=
  assembled [(1, [.literal 1]), (2, [.atom 1, .atom 2, .literal 0]),
    (1, [.literal 2]), (59, [.xreg (.number 0), .label 3, .list [.integer 7, .label 4]]),
    (1, [.literal 3]), (19, []),
    (1, [.literal 4]), (60, [.xreg (.number 0), .label 3, .list [.literal 2, .label 5]]),
    (1, [.literal 5]), (19, [])]

/-- The default label of the switch over values is not linked, and no label of the switch over sizes is. -/
theorem build_switch_unlinked :
    ∃ a warnings b c p q, build { code := some uncovered } = .ok (a, warnings) ∧
      (∀ inst ∈ uncovered, ∀ t ∈ inst.jumpTargets, Defines a.blocks t) ∧
      a.HoldsSwitch b p false 3 [(.integer 7, 4)] ∧ a.HoldsSwitch c q true 3 [(.literal 2, 5)] ∧
      LinkedTo a.blocks b 4 ∧ ¬ LinkedTo a.blocks b 3 ∧ ¬ LinkedTo a.blocks c 3 ∧ ¬ LinkedTo a.blocks c 5 :=
  ⟨_, _, _, _, _, _, by cbv, of_decide_eq_true (by cbv),
    ⟨List.mem_of_getElem? (i := 1) (by cbv), ⟨_, List.mem_of_getElem? (i := 0) (by cbv), by decide⟩,
      List.mem_of_getElem? (i := 0) (by cbv), ⟨by cbv, by cbv, by cbv⟩, of_decide_eq_true (by cbv)⟩,
    ⟨List.mem_of_getElem? (i := 3) (by cbv), ⟨_, List.mem_of_getElem? (i := 0) (by cbv), by decide⟩,
      List.mem_of_getElem? (i := 0) (by cbv), ⟨by cbv, by cbv, by cbv⟩, of_decide_eq_true (by cbv)⟩,
    of_decide_eq_true (by cbv), of_decide_eq_true (by cbv), of_decide_eq_true (by cbv), of_decide_eq_true (by cbv)⟩

end Analysis

end BeamDisasm
