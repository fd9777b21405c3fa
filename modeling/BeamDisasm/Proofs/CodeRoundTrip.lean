import BeamDisasm.Instruction.Encode
import BeamDisasm.Proofs.TermRoundTrip
import BeamDisasm.Table.Code

/-!
# Code is read as it was written

Nothing but the operations tells where an instruction ends: the opcode announces how many operands follow, and each
operand is read from exactly its bytes. So written instructions one after the other are read back one by one, up to
the end of the code.
-/
namespace BeamDisasm

open Reader (Reads reads_byte reads_exactly reads_lift untilEnd_flatten)

/-! ## The table of operations -/

namespace Operation

/-- The rows of the table stand in the order of their opcodes, which start at one. -/
theorem codes_table : table.map code = List.range' 1 184 := by
  decide +kernel

/-- The operation of an opcode has this opcode. -/
theorem code_of_find? {code : Nat} {op : Operation} (h : find? code = some op) : op.code = code := by
  cases code with
  | zero => simp [find?] at h
  | succ n =>
      have hcode := congrArg (fun codes => codes[n]?) codes_table
      simp only [List.getElem?_map, show table[n]? = some op from h, Option.map_some] at hcode
      obtain ⟨hn, heq⟩ := List.getElem?_eq_some_iff.mp hcode.symm
      rw [List.getElem_range'] at heq
      omega

/-- Opcodes fit a byte. -/
theorem lt_of_find? {code : Nat} {op : Operation} (h : find? code = some op) : code < 256 := by
  cases code with
  | zero => omega
  | succ n =>
      have hlength : table.length = 184 := by
        simpa using congrArg List.length codes_table
      have hn := (List.getElem?_eq_some_iff.mp (show table[n]? = some op from h)).1
      omega

end Operation

/-! ## Instructions -/

/-- An opcode and operands in the forms in which they are written. -/
structure InstructionForm where
  code : Nat
  operands : List TermForm

namespace InstructionForm

/-- The instruction as it is written. -/
def encode (f : InstructionForm) : Bytes :=
  Instruction.encodeForms f.code f.operands

/-- The opcode has an operation that takes as many operands as there are, and all of them can be read. -/
structure Fits (f : InstructionForm) (op : Operation) : Prop where
  operation : Operation.find? f.code = some op
  arity : f.operands.length = op.arity
  operands : TermForm.AllFit f.operands

/-- The instruction has the operation of the opcode and the terms that the operands stand for. -/
structure Denotes (f : InstructionForm) (inst : Instruction) : Prop where
  operation : Operation.find? f.code = some inst.operation
  code : inst.operation.code = f.code
  operands : inst.operands = TermForm.terms f.operands

theorem encode_ne_nil (f : InstructionForm) : f.encode ≠ [] :=
  List.cons_ne_nil _ _

/-- Operands one after the other are read from their bytes, whatever follows them. -/
theorem reads_operands {ts : List TermForm} (h : TermForm.AllFit ts) :
    List.Forall₂ (Reads Term.read) (ts.map TermForm.encode) (TermForm.terms ts) := by
  induction ts with
  | nil => exact .nil
  | cons t ts ih =>
      rw [TermForm.AllFit] at h
      refine .cons ?_ (ih h.2)
      intro rest
      exact TermForm.reads_encode t h.1 _ (by simp) rest

theorem reads_encode {f : InstructionForm} {op : Operation} (h : f.Fits op) :
    Reads Instruction.read f.encode ⟨op, TermForm.terms f.operands⟩ := by
  have hcode : Instruction.operationOf (UInt8.ofNat f.code) = .ok op := by
    have hnat : (UInt8.ofNat f.code).toNat = f.code := by
      rw [UInt8.toNat_ofNat']
      exact Nat.mod_eq_of_lt (Operation.lt_of_find? h.operation)
    simp [Instruction.operationOf, hnat, h.operation]
  have hoperands := Reads.times (reads_operands h.operands)
  rw [List.length_map, h.arity] at hoperands
  refine (reads_byte .shortField (UInt8.ofNat f.code)).bind (b := [_]) ?_
  rw [hcode]
  exact (reads_lift op).bind (hoperands.map _)

/-- Instructions one after the other are read back one by one. -/
theorem reads_all {forms : List InstructionForm} (h : ∀ f ∈ forms, ∃ op, f.Fits op) :
    ∃ insts, List.Forall₂ (Reads Instruction.read) (forms.map encode) insts ∧
      List.Forall₂ Denotes forms insts := by
  induction forms with
  | nil => exact ⟨[], .nil, .nil⟩
  | cons f forms ih =>
      obtain ⟨op, hop⟩ := h f (by simp)
      obtain ⟨insts, hread, hinsts⟩ := ih fun g hg => h g (by simp [hg])
      have hf : f.Denotes ⟨op, TermForm.terms f.operands⟩ :=
        ⟨hop.operation, Operation.code_of_find? hop.operation, rfl⟩
      exact ⟨_, .cons (reads_encode hop) hread, .cons hf hinsts⟩

end InstructionForm

namespace Code

/-- A header of any content and instructions one after the other are read as these instructions, in their order, and
nothing is left. -/
theorem read_encode (header : Bytes) (forms : List InstructionForm) (hheader : header.length = 20)
    (hforms : ∀ f ∈ forms, ∃ op, f.Fits op) :
    ∃ insts, read (header ++ forms.flatMap InstructionForm.encode) = .ok insts [] ∧
      List.Forall₂ InstructionForm.Denotes forms insts := by
  obtain ⟨insts, hread, hinsts⟩ := InstructionForm.reads_all hforms
  refine ⟨insts, ?_, hinsts⟩
  have hlength : header.length = headerLength := hheader
  have hne : ∀ b ∈ forms.map InstructionForm.encode, b ≠ [] := by
    simp [InstructionForm.encode_ne_nil]
  rw [read, (reads_exactly hlength).bind_append, List.flatMap_def]
  exact untilEnd_flatten hread hne

/-- A header, a switch with a list of cases, a move of a typed register and the end of the code. -/
theorem read_encode_switch :
    let forms : List InstructionForm :=
      [⟨2, [.atom 1, .atom 2, .literal 1]⟩,
        ⟨59, [.xreg 0, .label 3, .list [.integer 70000, .label 4, .atom 0, .label 5]]⟩,
        ⟨64, [.typed (.yreg 2) (.extLiteral 1), .xreg 2500]⟩, ⟨3, []⟩]
    (∀ f ∈ forms, ∃ op, f.Fits op) ∧
    ∃ insts, read (List.replicate 20 7 ++ forms.flatMap InstructionForm.encode) = .ok insts [] ∧
      List.Forall₂ InstructionForm.Denotes forms insts := by
  intro forms
  have hsmall : ∀ v < 256 ^ 3, Term.Readable v := fun v hv => Term.readable_of_lt hv (by norm_num)
  have hforms : ∀ f ∈ forms, ∃ op, f.Fits op := by
    intro f hf
    simp only [forms, List.mem_cons, List.not_mem_nil, or_false] at hf
    rcases hf with rfl | rfl | rfl | rfl <;> refine ⟨_, rfl, rfl, ?_⟩ <;>
      simp [TermForm.AllFit, TermForm.Fits, TermForm.atom, TermForm.literal, TermForm.xreg, TermForm.yreg,
        TermForm.label, TermForm.integer, hsmall]
  exact ⟨hforms, read_encode _ forms (by simp) hforms⟩

end Code

end BeamDisasm
