import BeamDisasm.Proofs.CallNotes
import BeamDisasm.Proofs.Numerals

/-!
# Where annotation ends with a fault

A graph is built from every function, also from one that has a header and no block behind it, and a jump to a label that
no block has is passed over. Annotation is less tolerant. It looks up the block where each function starts and the
block that each case of a switch leads to, and ends with a fault where there is none, or where the arity of a function
cannot be written.
-/
namespace BeamDisasm

/-- The index is a number that can be written in decimal. -/
def Index.isShort : Index → Bool
  | .number n => decide (Text.Short n)
  | _ => false

theorem Index.exists_decimal_iff {i : Index} : (∃ s, i.decimal = .ok s) ↔ i.isShort = true := by
  cases i <;> simp [Index.decimal, Index.isShort]

namespace Instruction

variable {inst : Instruction} {ts : List Term} {branches : List (Term × Int)}

/-- The instruction switches over values or over the sizes of tuples. -/
def isSwitch (inst : Instruction) : Bool :=
  inst.isValueSwitch || inst.isAritySwitch

/-- The operand is a label. -/
def hasLabelAt (inst : Instruction) (i : Nat) : Bool :=
  match inst.operands[i]? with
  | some (.label _) => true
  | _ => false

/-- Terms and labels by turns. -/
def isCaseList : List Term → Bool
  | [] => true
  | _ :: .label _ :: ts => isCaseList ts
  | _ => false

/-- The operand is a list of terms, each with a label. -/
def hasCasesAt (inst : Instruction) (i : Nat) : Bool :=
  match inst.operands[i]? with
  | some (.list items) => isCaseList items
  | _ => false

/-- The labels in a list of cases. -/
def caseLabels : List Term → List Int
  | _ :: .label n :: ts => n :: caseLabels ts
  | _ => []

/-- The labels that the cases of a switch lead to. -/
def caseTargets (inst : Instruction) : List Int :=
  if inst.isSwitch then
    match inst.operands[2]? with
    | some (Term.list items) => caseLabels items
    | _ => []
  else []

/-- If the instruction is a call it has a label, and if it is a switch it has a list of cases. -/
def Fits (inst : Instruction) : Prop :=
  (inst.isLocalCall = true → inst.hasLabelAt 1 = true) ∧ (inst.isSwitch = true → inst.hasCasesAt 2 = true)

instance (inst : Instruction) : Decidable inst.Fits :=
  inferInstanceAs (Decidable (_ ∧ _))

theorem exists_caseList (h : isCaseList ts = true) : ∃ branches, ts = caseList branches := by
  fun_induction isCaseList ts with
  | case1 => exact ⟨[], rfl⟩
  | case2 t n ts ih =>
      obtain ⟨branches, rfl⟩ := ih h
      exact ⟨(t, n) :: branches, rfl⟩
  | case3 => simp at h

theorem caseLabels_caseList (branches : List (Term × Int)) :
    caseLabels (caseList branches) = branches.map Prod.snd := by
  induction branches with
  | nil => rfl
  | cons branch branches ih => exact congrArg (branch.2 :: ·) ih

theorem twoByTwo_caseList (branches : List (Term × Int)) :
    Member.twoByTwo ((caseList branches).map .term) =
      branches.map fun branch => (.term branch.1, .term (.label branch.2)) := by
  induction branches with
  | nil => rfl
  | cons branch branches ih => exact congrArg (_ :: ·) ih

theorem Fits.indexOf_eq (h : inst.Fits) (hcall : inst.isLocalCall = true) : ∃ target, inst.indexOf 1 = .ok target := by
  have hlabel := h.1 hcall
  unfold hasLabelAt at hlabel
  split at hlabel
  · next n hn => exact ⟨.number n, by simp [indexOf, operand, hn, Term.index, bind, Except.bind]⟩
  · simp at hlabel

/-- The cases of a switch, as annotation takes them and by the labels that they lead to. -/
theorem Fits.exists_branches (h : inst.Fits) (hswitch : inst.isSwitch = true) :
    ∃ branches : List (Term × Int), inst.caseTargets = branches.map Prod.snd ∧
      inst.cases 2 = .ok (branches.map fun branch => (.term branch.1, .term (.label branch.2))) := by
  have hcases := h.2 hswitch
  unfold hasCasesAt at hcases
  split at hcases
  · next items hitems =>
    obtain ⟨branches, rfl⟩ := exists_caseList hcases
    refine ⟨branches, ?_, ?_⟩
    · rw [caseTargets, if_pos hswitch, hitems]
      exact caseLabels_caseList branches
    · rw [← twoByTwo_caseList]
      simp [cases, operand, hitems, Member.ofTerm, bind, Except.bind, pure, Except.pure]
  · simp at hcases

theorem caseTargets_of_not_switch (h : inst.isSwitch = false) : inst.caseTargets = [] := by
  simp [caseTargets, h]

theorem not_switch_of_isLocalCall (h : inst.isLocalCall = true) : inst.isSwitch = false := by
  simp only [isLocalCall, Bool.or_eq_true, beq_iff_eq] at h
  rcases h with (h | h) | h <;> simp [isSwitch, isValueSwitch, isAritySwitch, h]

theorem not_switch_of_isRemoteCall (h : inst.isRemoteCall = true) : inst.isSwitch = false := by
  simp only [isRemoteCall, Bool.or_eq_true, beq_iff_eq] at h
  rcases h with (h | h) | h <;> simp [isSwitch, isValueSwitch, isAritySwitch, h]

end Instruction

namespace Analysis

open Block (Defines)

variable {c : Context} {current : Option Function} {p : Placed} {b : Block} {f : Function} {a : Analysis} {es : Entries}

/-! ## Parts of the listing that fail -/

/-- A case is marked if its label is there; a note that cannot be written is no fault. -/
theorem exists_caseMarks_iff {byArity : Bool} {source : Index} {key : Member} {n : Int} :
    (∃ ms, caseMarks c byArity source (key, .term (.label n)) = .ok ms) ↔ Defines c.own.blocks n := by
  rw [caseMarks, exists_bind_ok_iff]
  simp only [exists_bind_ok_iff, Member.index, Term.index, Except.ok.injEq, exists_eq_left', Block.get, Defines]
  cases Block.find? c.own.blocks (.number n) with
  | none => simp
  | some b =>
      simp only [Except.ok.injEq, exists_eq_left', Option.isSome_some, iff_true]
      split <;> exact ⟨_, rfl⟩

theorem fault_switchMarks_iff {byArity : Bool} {source : Index} (hfits : p.inst.Fits)
    (hswitch : p.inst.isSwitch = true) :
    (switchMarks c byArity source p).fault = none ↔ ∀ t ∈ p.inst.caseTargets, Defines c.own.blocks t := by
  obtain ⟨branches, htargets, hcases⟩ := hfits.exists_branches hswitch
  rw [switchMarks, hcases, htargets]
  simp only [Marks.fault_all_iff, Marks.fault_ofExcept_iff, List.forall_mem_map, exists_caseMarks_iff]

theorem fault_instMarks_iff {source : Index} (hfits : p.inst.Fits) :
    (instMarks c current source p).fault = none ↔
      (p.inst.isLocalCall = true → ∃ ms, localCallMarks c p = .ok ms) ∧
        ∀ t ∈ p.inst.caseTargets, Defines c.own.blocks t := by
  unfold instMarks
  split_ifs with hlocal hremote hvalue harity
  · simp [Instruction.caseTargets_of_not_switch (Instruction.not_switch_of_isLocalCall hlocal), hlocal,
      Marks.fault_ofExcept_iff]
  · simp [Instruction.caseTargets_of_not_switch (Instruction.not_switch_of_isRemoteCall hremote), hlocal]
  · simp [fault_switchMarks_iff hfits (by simp [Instruction.isSwitch, hvalue]), hlocal]
  · simp [fault_switchMarks_iff hfits (by simp [Instruction.isSwitch, harity]), hlocal]
  · have hswitch : p.inst.isSwitch = false := by simp [Instruction.isSwitch, hvalue, harity]
    simp [Instruction.caseTargets_of_not_switch hswitch, hlocal, Marks.none]

theorem fault_startMarks_iff :
    (startMarks c b).fault = none ↔
      ∀ f, c.entries.startingAt b.label = some f → ∃ s, f.signature c.own.module = .ok s := by
  unfold startMarks
  cases hstart : c.entries.startingAt b.label with
  | none => simp [Marks.none]
  | some f =>
      simp only [Marks.fault_ofExcept_iff, headerMarks, exists_wrap_ok_iff, Option.some.injEq, forall_eq']

/-- A call fails only where the signature of the function that it calls does. -/
theorem exists_localCallMarks (hfits : p.inst.Fits) (hcall : p.inst.isLocalCall = true)
    (hsignatures : ∀ l f, c.entries.startingAt l = some f → ∃ s, f.signature c.own.module = .ok s) :
    ∃ ms, localCallMarks c p = .ok ms := by
  obtain ⟨target, htarget⟩ := hfits.indexOf_eq hcall
  cases hstart : c.entries.startingAt target with
  | none => exact ⟨[], localCallMarks_eq_ok_iff.mpr ⟨target, htarget, .inl ⟨hstart, rfl⟩⟩⟩
  | some f =>
      obtain ⟨s, hs⟩ := hsignatures target f hstart
      exact ⟨_, localCallMarks_eq_ok_iff.mpr ⟨target, htarget, .inr ⟨f, s, hstart, hs, rfl⟩⟩⟩

/-! ## Modules that are annotated alone -/

/-- The functions have names, and calls and switches have operands of the kinds that they need. -/
structure Regular (a : Analysis) : Prop where
  names : ∀ f ∈ a.functions, (a.module.atomName f.module).isOk = true ∧ (a.module.atomName f.name).isOk = true
  fits : ∀ b ∈ a.blocks, ∀ p ∈ b.insts, p.inst.Fits

theorem exists_entries_iff : (∃ es, a.entries = .ok es) ↔ ∀ f ∈ a.functions, 2 ≤ f.blocks.length := by
  have hentry : ∀ f : Function, (∃ i, f.entry = .ok i) ↔ 2 ≤ f.blocks.length := by
    intro f
    unfold Function.entry
    cases h : f.blocks[1]? with
    | none => simpa using h
    | some i =>
        obtain ⟨hlength, -⟩ := List.getElem?_eq_some_iff.mp h
        exact iff_of_true ⟨i, rfl⟩ hlength
  rw [entries, exists_mapM_ok_iff]
  simp only [exists_wrap_ok_iff, hentry]

/-- A function with names has a signature exactly if its arity can be written. -/
theorem exists_signature_iff (hregular : a.Regular) (hf : f ∈ a.functions) :
    (∃ s, f.signature a.module = .ok s) ↔ f.arity.isShort = true := by
  obtain ⟨hmodule, hname⟩ := hregular.names f hf
  unfold Function.signature
  cases hm : a.module.atomName f.module with
  | error e => simp [hm, Except.isOk, Except.toBool] at hmodule
  | ok x =>
      cases hn : a.module.atomName f.name with
      | error e => simp [hn, Except.isOk, Except.toBool] at hname
      | ok y => exact exists_wrap_ok_iff.trans Index.exists_decimal_iff

/-- The listing alone: no signature fails, and every case has its block. -/
theorem fault_blockMarks_alone_iff (hbuilt : a.Built) (hregular : a.Regular) (hes : a.entries = .ok es) :
    (blockMarks ⟨a, es, [], []⟩ current a.blocks).fault = none ↔
      (∀ f ∈ a.functions, f.arity.isShort = true) ∧
        ∀ b ∈ a.blocks, ∀ p ∈ b.insts, ∀ t ∈ p.inst.caseTargets, Defines a.blocks t := by
  -- the function that a block belongs to matters for callers only, and these never fail
  have hblocks : (blockMarks ⟨a, es, [], []⟩ current a.blocks).fault = none ↔ ∀ b ∈ a.blocks,
      (∀ f, es.startingAt b.label = some f → ∃ s, f.signature a.module = .ok s) ∧
        ∀ p ∈ b.insts, (p.inst.isLocalCall = true → ∃ ms, localCallMarks ⟨a, es, [], []⟩ p = .ok ms) ∧
          ∀ t ∈ p.inst.caseTargets, Defines a.blocks t := by
    rw [fault_blockMarks_iff, ← forall_attributed_iff es current]
    refine forall₂_congr fun ob hob => ?_
    have hb := mem_of_attributed hob
    refine and_congr fault_startMarks_iff (forall₂_congr fun p hp => ?_)
    exact fault_instMarks_iff (hregular.fits ob.2 hb p hp)
  rw [hblocks]
  constructor
  · intro h
    refine ⟨fun f hf => ?_, fun b hb p hp => ((h b hb).2 p hp).2⟩
    obtain ⟨i, hentry, -⟩ := (entries_spec hes).2 f hf
    obtain ⟨b, hb, rfl⟩ := hbuilt.exists_block hf (List.mem_of_getElem? hentry)
    have hstart := (startingAt_eq_some_iff hbuilt hes).mpr ⟨hf, hentry⟩
    exact (exists_signature_iff hregular hf).mp ((h b hb).1 f hstart)
  · rintro ⟨harity, hcases⟩ b hb
    have hsignatures : ∀ l f, es.startingAt l = some f → ∃ s, f.signature a.module = .ok s := by
      intro l f hstart
      have hf := ((startingAt_eq_some_iff hbuilt hes).mp hstart).1
      exact (exists_signature_iff hregular hf).mpr (harity f hf)
    refine ⟨hsignatures b.label, fun p hp => ⟨fun hcall => ?_, hcases b hb p hp⟩⟩
    exact exists_localCallMarks (hregular.fits b hb p hp) hcall hsignatures

theorem fault_marks_alone_iff :
    (a.marks []).fault = none ↔
      ∃ es, a.entries = .ok es ∧ (blockMarks ⟨a, es, [], []⟩ a.functions.getLast? a.blocks).fault = none := by
  unfold marks
  cases a.entries with
  | error e => simp [bind, Except.bind]
  | ok es => simp [signatures, bind, Except.bind, pure, Except.pure]

/-- A module that was built and whose operands are of the expected kinds is annotated alone to the end exactly if every
function has a block behind its header and a number for its arity that can be written, and every case of a switch leads
to a block. -/
theorem annotate_alone_ends_iff {m : Module} {warnings : Nat} {as : List Analysis} {own : Nat}
    (hbuild : build m = .ok (a, warnings)) (hown : as[own]? = some a) (hregular : a.Regular) :
    (annotate as own []).2 = none ↔
      (∀ f ∈ a.functions, 2 ≤ f.blocks.length ∧ f.arity.isShort = true) ∧
        ∀ b ∈ a.blocks, ∀ p ∈ b.insts, ∀ t ∈ p.inst.caseTargets, Defines a.blocks t := by
  have hfault : (annotate as own []).2 = (a.marks []).fault := by
    rw [annotate, hown]
    rfl
  have hbuilt := built_of_build hbuild
  rw [hfault, fault_marks_alone_iff]
  constructor
  · rintro ⟨es, hes, hmarks⟩
    obtain ⟨harity, hcases⟩ := (fault_blockMarks_alone_iff hbuilt hregular hes).mp hmarks
    exact ⟨fun f hf => ⟨exists_entries_iff.mp ⟨es, hes⟩ f hf, harity f hf⟩, hcases⟩
  · rintro ⟨hfunctions, hcases⟩
    obtain ⟨es, hes⟩ := exists_entries_iff.mpr fun f hf => (hfunctions f hf).1
    refine ⟨es, hes, (fault_blockMarks_alone_iff hbuilt hregular hes).mpr ⟨fun f hf => ?_, hcases⟩⟩
    exact (hfunctions f hf).2

/-- A module with the function `m:f/1` and the given code behind its header. -/
def withBody (body : List (Nat × List Term)) : Module :=
  { atoms := some ⟨AtomTable.placeholder :: ["m", "f"].map Bytes.ofText⟩
    code := some (assembled ([(1, [Term.literal 1]), (2, [.atom 1, .atom 2, .literal 1])] ++ body)) }

/-- A function with both kinds of switches that calls itself. -/
def dispatch : Module :=
  withBody [(1, [.literal 2]), (59, [.xreg (.number 0), .label 4, .list [.integer 7, .label 3]]),
    (1, [.literal 3]), (60, [.xreg (.number 0), .label 4, .list [.literal 2, .label 4, .literal 3, .label 2]]),
    (1, [.literal 4]), (6, [.literal 1, .label 2])]

theorem annotate_alone_ends_dispatch :
    ∃ a, build dispatch = .ok (a, 0) ∧ a.Regular ∧ a.functions ≠ [] ∧
      (∃ b ∈ a.blocks, ∃ p ∈ b.insts, p.inst.caseTargets = [4, 2]) ∧ (annotate [a] 0 []).2 = none := by
  obtain ⟨a, hbuild, hregular, hfunctions, hends, hcases, hswitch⟩ :
      ∃ a, build dispatch = .ok (a, 0) ∧ a.Regular ∧ a.functions ≠ [] ∧
        (∀ f ∈ a.functions, 2 ≤ f.blocks.length ∧ f.arity.isShort = true) ∧
        (∀ b ∈ a.blocks, ∀ p ∈ b.insts, ∀ t ∈ p.inst.caseTargets, Defines a.blocks t) ∧
        ∃ b ∈ a.blocks, ∃ p ∈ b.insts, p.inst.caseTargets = [4, 2] :=
    ⟨_, by cbv, ⟨of_decide_eq_true (by cbv), of_decide_eq_true (by cbv)⟩, of_decide_eq_true (by cbv),
      of_decide_eq_true (by cbv), of_decide_eq_true (by cbv), of_decide_eq_true (by cbv)⟩
  exact ⟨a, hbuild, hregular, hfunctions, hswitch, (annotate_alone_ends_iff hbuild rfl hregular).mpr ⟨hends, hcases⟩⟩

/-- A function without a block behind its header, and a case that leads to no block: both are built, and annotation
ends with a fault. -/
theorem annotate_alone_stops :
    (∃ a, build (withBody []) = .ok (a, 0) ∧ a.Regular ∧ a.functions.map Function.blocks = [[.number 1]] ∧
      (annotate [a] 0 []).2 = some .noSuchEntry) ∧
    ∃ a, build (withBody [(1, [.literal 2]), (60, [.xreg (.number 0), .label 2, .list [.literal 2, .label 9]]),
        (19, [])]) = .ok (a, 0) ∧
      a.Regular ∧ a.functions.map Function.blocks = [[.number 1, .number 2]] ∧
      (annotate [a] 0 []).2 = some .noSuchEntry :=
  ⟨⟨_, by cbv, ⟨of_decide_eq_true (by cbv), of_decide_eq_true (by cbv)⟩, by cbv, by cbv⟩,
    _, by cbv, ⟨of_decide_eq_true (by cbv), of_decide_eq_true (by cbv)⟩, by cbv, by cbv⟩

end Analysis

end BeamDisasm
