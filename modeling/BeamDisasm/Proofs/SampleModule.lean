import BeamDisasm.Proofs.CodeRoundTrip
import BeamDisasm.Proofs.FunctionLayout
import BeamDisasm.Proofs.Graph
import BeamDisasm.Proofs.ModuleFile
import BeamDisasm.Proofs.StoredStreams
import BeamDisasm.Proofs.Tables
import BeamDisasm.Sample.Module

/-!
# Sample modules are read and analysed as they were made

A sample of any size that can be written is read as one module, whichever form its atoms have and whether or not its
literals are compressed. Its tables do not depend on the size. Its code is laid out function by function with ascending
labels, so these are the functions that are found.
-/
namespace BeamDisasm

/-! ## Forms with small numbers -/

namespace TermForm

mutual

/-- The tags of the form are those of basic terms, and its numbers and counts are below a bound. -/
def bounded (bound : Nat) : TermForm → Bool
  | .basic tag v => tag < 7 && v < bound
  | .list items => items.length < bound && allBounded bound items
  | .alloc items => items.length < bound && pairsBounded bound items
  | .fpreg i | .extLiteral i => i < bound
  | .typed r t => bounded bound r && bounded bound t

/-- All of the forms are below a bound. -/
def allBounded (bound : Nat) : List TermForm → Bool
  | [] => true
  | t :: ts => bounded bound t && allBounded bound ts

/-- Both forms of each pair are below a bound. -/
def pairsBounded (bound : Nat) : List (TermForm × TermForm) → Bool
  | [] => true
  | (k, v) :: ps => bounded bound k && (bounded bound v && pairsBounded bound ps)

end

theorem readable_word {v : Nat} (h : v < 256 ^ 4) : Term.Readable v :=
  Term.readable_of_lt h (by norm_num)

mutual

/-- Numbers that fit four bytes can be read. -/
theorem fits_of_bounded : ∀ (t : TermForm), t.bounded (256 ^ 4) = true → t.Fits
  | .basic tag v, h => by
      simp only [bounded, Bool.and_eq_true, decide_eq_true_eq] at h
      exact ⟨h.1, readable_word h.2⟩
  | .list items, h => by
      simp only [bounded, Bool.and_eq_true, decide_eq_true_eq] at h
      exact ⟨readable_word h.1, allFit_of_bounded items h.2⟩
  | .alloc items, h => by
      simp only [bounded, Bool.and_eq_true, decide_eq_true_eq] at h
      exact ⟨readable_word h.1, pairsFit_of_bounded items h.2⟩
  | .fpreg i, h | .extLiteral i, h => by
      simp only [bounded, decide_eq_true_eq] at h
      exact readable_word h
  | .typed r t, h => by
      simp only [bounded, Bool.and_eq_true] at h
      exact ⟨fits_of_bounded r h.1, fits_of_bounded t h.2⟩

theorem allFit_of_bounded : ∀ (ts : List TermForm), allBounded (256 ^ 4) ts = true → AllFit ts
  | [], _ => trivial
  | t :: ts, h => by
      simp only [allBounded, Bool.and_eq_true] at h
      exact ⟨fits_of_bounded t h.1, allFit_of_bounded ts h.2⟩

theorem pairsFit_of_bounded : ∀ (ps : List (TermForm × TermForm)), pairsBounded (256 ^ 4) ps = true → PairsFit ps
  | [], _ => trivial
  | (key, value) :: ps, h => by
      simp only [pairsBounded, Bool.and_eq_true] at h
      exact ⟨fits_of_bounded key h.1, fits_of_bounded value h.2.1, pairsFit_of_bounded ps h.2.2⟩

end

end TermForm

/-! ## Instructions of forms -/

namespace InstructionForm

/-- The instruction that a form is read as. -/
def instruction (f : InstructionForm) : Instruction :=
  ⟨(Operation.find? f.code).getD { code := f.code, arity := f.operands.length, mnemonic := "" },
    TermForm.terms f.operands⟩

theorem code_instruction (f : InstructionForm) : f.instruction.code = f.code := by
  rw [Instruction.code, instruction]
  cases h : Operation.find? f.code with
  | none => rfl
  | some op => exact Operation.code_of_find? h

theorem reads_instruction {f : InstructionForm} {op : Operation} (h : f.Fits op) :
    Reader.Reads Instruction.read f.encode f.instruction := by
  rw [instruction, h.operation]
  exact reads_encode h

/-- A header and forms one after the other are read as the instructions of the forms. -/
theorem run_code {header : Bytes} (hheader : header.length = Code.headerLength) {forms : List InstructionForm}
    (h : ∀ f ∈ forms, ∃ op, f.Fits op) :
    Code.read.run (header ++ forms.flatMap encode) = .ok (forms.map instruction) := by
  have hreads : List.Forall₂ (Reader.Reads Instruction.read) (forms.map encode) (forms.map instruction) := by
    rw [List.forall₂_map_left_iff, List.forall₂_map_right_iff, List.forall₂_same]
    intro f hf
    obtain ⟨op, hop⟩ := h f hf
    exact reads_instruction hop
  have hne : ∀ b ∈ forms.map encode, b ≠ [] := by
    simp [encode_ne_nil]
  rw [Reader.run, Code.read, (Reader.reads_exactly hheader).bind_append, List.flatMap_def,
    Reader.untilEnd_flatten hreads hne]

end InstructionForm

namespace Sample

open TermForm

/-! ## Tables -/

/-- A count and rows are read back when each row is. -/
theorem reads_rows {α : Type} {entry : Reader α} {n : Nat} (hn : n < 256 ^ 4) {row : Nat → List Nat} {value : Nat → α}
    (h : ∀ i < n, Reader.Reads entry (encodeWords (row i)) (value i)) :
    Reader.Reads (countedEntries entry) (rows n row) ((List.range n).map value) := by
  have hrows : List.Forall₂ (Reader.Reads entry) ((List.range n).map fun i => encodeWords (row i))
      ((List.range n).map value) := by
    rw [List.forall₂_map_left_iff, List.forall₂_map_right_iff, List.forall₂_same]
    exact fun i hi => h i (List.mem_range.mp hi)
  have hread := reads_countedEntries hrows (by simpa using hn)
  rw [List.length_map, List.length_range, ← List.flatMap_def] at hread
  rw [rows, encodeWords, List.flatMap_cons, List.flatMap_assoc]
  exact hread

/-- The imported functions. -/
def importRow (i : Nat) : ImportEntry :=
  ⟨(1 : Nat), (2 + i % 3 : Nat), (1 : Nat)⟩

theorem reads_imports {n : Nat} (hn : n < 256 ^ 4) :
    Reader.Reads (countedEntries ImportEntry.read) (imports n) ((List.range n).map importRow) :=
  reads_rows hn fun i _ => ImportEntry.reads_row (by simp; omega)

/-- The exported functions. -/
def exportRow (i : Nat) : ExportEntry :=
  ⟨(2 + i % 3 : Nat), (i % 4 : Nat), (2 : Nat)⟩

theorem reads_exports {n : Nat} (hn : n < 256 ^ 4) :
    Reader.Reads (countedEntries ExportEntry.read) (exports n) ((List.range n).map exportRow) :=
  reads_rows hn fun i _ => ExportEntry.reads_row (by simp; omega)

/-- The local functions. -/
def functionRow (i : Nat) : FunctionEntry :=
  ⟨(2 + i % 3 : Nat), (i % 3 : Nat), (2 : Nat), i, (0 : Nat), (0 : Nat)⟩

theorem reads_functions {n : Nat} (hn : n < 256 ^ 4) :
    Reader.Reads (countedEntries FunctionEntry.read) (functions n) ((List.range n).map functionRow) :=
  reads_rows hn fun i hi => FunctionEntry.reads_row (by simp; omega)

/-- The atoms are read from both forms. -/
theorem run_atoms (compactLengths : Bool) :
    AtomTable.read.run (atoms 16 compactLengths) = .ok ⟨AtomTable.placeholder :: atomNames 16⟩ := by
  have hshort : (atomNames 16).all (fun name => name.length < 256) = true := by with_unfolding_all rfl
  have hnames : ∀ name ∈ atomNames 16, name.length < 256 := by simpa using hshort
  have hcount : (atomNames 16).length < 2 ^ 31 := by simp [atomNames]
  cases compactLengths with
  | false => exact (AtomTable.reads_encodeClassic hcount hnames).run
  | true => exact (AtomTable.reads_encodeLiteral hcount fun name hname => (hnames name hname).trans (by norm_num)).run

/-- The literals in the forms in which they are written. -/
def literalForms : List ExtForm :=
  [.smallInteger 42,
    .integer 123456,
    .string (Bytes.ofAscii "he\nlo"),
    .binary (Bytes.ofAscii "bin"),
    .smallTuple [.atom .smallUtf8 (Bytes.ofAscii "mod"), .smallInteger 1],
    .largeTuple [.smallInteger 1, .smallInteger 2],
    .map [(.atom .smallUtf8 (Bytes.ofAscii "mod"), .smallInteger 9)],
    .list [.smallInteger 1, .smallInteger 2],
    .smallBig 0 [1, 2, 3],
    .newFloat [0, 0, 0, 0, 0, 0, 0, 0],
    .atom .utf8 (Bytes.ofAscii "atom"),
    .atom .latin (Bytes.ofAscii "atom"),
    .remoteFun .smallUtf8 (Bytes.ofAscii "mod") .smallUtf8 (Bytes.ofAscii "fun") 2,
    .nil,
    .cacheRef 5]

theorem literalForms_fit : ∀ f ∈ literalForms, f.Fits := by
  simp [literalForms, ExtForm.Fits, ExtForm.AllFit, ExtForm.EntriesFit, AtomForm.width, Bytes.ofAscii]

theorem reads_literals : Reader.Reads LiteralTable.readBody (LiteralTable.encodeBody literals)
    ⟨literalForms.map ExtForm.term⟩ := by
  have hforms : literals.map ExtTerm.encode = literalForms.map ExtForm.encode := by decide
  have hentries : ∀ e ∈ literalForms.map (fun f => (Bytes.ofNat 4 (f.encode.length + 1), f)),
      e.1.length = 4 ∧ e.2.Fits := by
    intro e he
    obtain ⟨f, hf, rfl⟩ := List.mem_map.mp he
    exact ⟨Bytes.length_ofNat 4 _, literalForms_fit f hf⟩
  have hread := LiteralTable.reads_layOut (by decide) hentries
  rwa [← LiteralTable.encodeBody_eq hforms, List.map_map] at hread

/-- The literals are read from the stored table and from the compressed one. -/
theorem parse_literalChunkBy {pack : Bytes → Bytes} (hpack : ∀ b, Compression.decompress (pack b) = .ok b)
    (compressed : Bool) :
    LiteralTable.parse (literalChunkBy pack compressed) = .ok ⟨literalForms.map ExtForm.term⟩ := by
  cases compressed with
  | false => exact LiteralTable.parse_stored reads_literals
  | true =>
      have hsize : (LiteralTable.encodeBody literals).length < 256 ^ 4 := by decide +kernel
      have hne : (LiteralTable.encodeBody literals).length ≠ 0 := by simp [LiteralTable.encodeBody]
      have hpacked := LiteralTable.parse_packed hpack hsize hne (LiteralTable.encodeBody literals)
      exact hpacked.trans (LiteralTable.parse_stored reads_literals)

/-- The references and the names of files. -/
def lineTable : LineTable :=
  ⟨[⟨0, 0⟩, ⟨0, 10⟩, ⟨1, 20⟩, ⟨1, 30⟩],
    [.text "invalid location", .raw (Bytes.ofAscii "test.ex"), .raw (Bytes.ofAscii "other.ex")]⟩

theorem run_lines : LineTable.read.run lines = .ok lineTable := by
  with_unfolding_all rfl

/-! ## Code -/

/-- Instructions as they are written. -/
def formsOf (lines : List Line) : List InstructionForm :=
  lines.map fun line => ⟨line.1, line.2⟩

/-- The instructions that lines are read as. -/
def instructions (lines : List Line) : List Instruction :=
  (formsOf lines).map InstructionForm.instruction

theorem codeBody_eq (n : Nat) : codeBody n = (formsOf (codeLines n)).flatMap InstructionForm.encode := by
  rw [codeBody, formsOf, List.flatMap_map]
  rfl

/-- The opcode of the line has an operation, which takes as many operands as there are, and their numbers fit four
bytes. -/
def Line.isPlain (line : Line) : Bool :=
  match Operation.find? line.1 with
  | some op => line.2.length == op.arity && allBounded (256 ^ 4) line.2
  | none => false

theorem Line.exists_fits {line : Line} (h : line.isPlain = true) :
    ∃ op, InstructionForm.Fits ⟨line.1, line.2⟩ op := by
  rw [isPlain] at h
  cases hop : Operation.find? line.1 with
  | none => simp [hop] at h
  | some op =>
      simp only [hop, Bool.and_eq_true, beq_iff_eq] at h
      exact ⟨op, hop, h.1, allFit_of_bounded _ h.2⟩

theorem functionLines_fit {i : Nat} (hi : 4 * i + 4 < 256 ^ 4) :
    ∀ line ∈ functionLines i, ∃ op, InstructionForm.Fits ⟨line.1, line.2⟩ op := by
  intro line hline
  simp only [functionLines, List.mem_cons, List.not_mem_nil, or_false] at hline
  rcases hline with rfl | rfl | rfl | rfl | rfl | rfl | rfl | rfl | rfl | rfl | rfl | rfl | rfl | rfl | rfl | rfl |
    rfl | rfl
  all_goals refine ⟨_, rfl, rfl, allFit_of_bounded _ ?_⟩
  all_goals simp [allBounded, bounded, literal, atom, xreg, label, valueCases, sizeCases]
  all_goals omega

theorem otherLines_plain : ∀ line ∈ everyOperation ++ unusualLines, Line.isPlain line = true := by
  decide +kernel

theorem codeLines_fit {n : Nat} (hn : 4 * n + 2 < 256 ^ 4) : ∀ f ∈ formsOf (codeLines n), ∃ op, f.Fits op := by
  intro f hf
  obtain ⟨line, hline, rfl⟩ := List.mem_map.mp hf
  rw [codeLines, lastLines, List.append_assoc, List.mem_append, List.mem_append, List.mem_flatMap] at hline
  rcases hline with ⟨i, hi, hline⟩ | hline | hline
  · have hlt := List.mem_range.mp hi
    exact functionLines_fit (by omega) line hline
  · simp only [List.mem_cons, List.not_mem_nil, or_false] at hline
    rcases hline with rfl | rfl | rfl
    all_goals refine ⟨_, rfl, rfl, allFit_of_bounded _ ?_⟩
    all_goals simp [allBounded, bounded, literal, atom]
    all_goals omega
  · exact Line.exists_fits (otherLines_plain line hline)

/-- The code is read as its instructions. -/
theorem run_code {n : Nat} (hn : 4 * n + 2 < 256 ^ 4) : Code.read.run (code n) = .ok (instructions (codeLines n)) := by
  rw [code, codeBody_eq]
  exact InstructionForm.run_code (length_encodeWords _) (codeLines_fit hn)

theorem length_instructions (n : Nat) : (instructions (codeLines n)).length = 18 * n + 192 := by
  have hlast : (lastLines n).length = 192 := rfl
  simp only [instructions, formsOf, codeLines, List.length_map, List.length_append, hlast, List.length_flatMap]
  simp [functionLines, Nat.mul_comm]

/-- A function of the common shape as it is laid out. -/
def functionLayout (i : Nat) : FunctionLayout :=
  ⟨InstructionForm.instruction ⟨2, [atom 1, atom (2 + i % 3), literal 1]⟩, 4 * i + 1,
    [4 * i + 2, 4 * i + 3, 4 * i + 4]⟩

/-- The last function as it is laid out, behind `n` others. -/
def lastLayout (n : Nat) : FunctionLayout :=
  ⟨InstructionForm.instruction ⟨2, [atom 1, atom 5, literal 0]⟩, 4 * n + 1, [4 * n + 2]⟩

/-- The functions of a sample with `n` functions of the common shape. -/
def layouts (n : Nat) : List FunctionLayout :=
  (List.range n).map functionLayout ++ [lastLayout n]

theorem layouts_indexes (n : Nat) : ∀ f ∈ layouts n, f.header.HasIndexes := by
  intro f hf k hk
  rw [layouts, List.mem_append, List.mem_map, List.mem_singleton] at hf
  rcases hf with ⟨i, -, rfl⟩ | rfl
  · interval_cases k <;> exact ⟨_, rfl⟩
  · interval_cases k <;> exact ⟨_, rfl⟩

/-- The labels count up from one. -/
theorem labels_layouts (n : Nat) :
    (layouts n).flatMap FunctionLayout.labels = (List.range (4 * n + 2)).map fun k : Nat => (k : Int) + 1 := by
  have hfunctions : ((List.range n).map functionLayout).flatMap FunctionLayout.labels =
      (List.range (4 * n)).map fun k : Nat => (k : Int) + 1 := by
    induction n with
    | zero => rfl
    | succ n ih =>
        rw [List.range_succ, List.map_append, List.flatMap_append, ih]
        simp [Nat.mul_succ, List.range_succ, functionLayout, FunctionLayout.labels]
        omega
  rw [layouts, List.flatMap_append, hfunctions]
  simp [List.range_succ, lastLayout, FunctionLayout.labels]
  omega

theorem labels_ascending (n : Nat) : ((layouts n).flatMap FunctionLayout.labels).Pairwise (· < ·) := by
  rw [labels_layouts, List.pairwise_map]
  exact List.pairwise_lt_range.imp fun h => by omega

theorem outline_functionLines (i : Nat) : Block.outline (instructions (functionLines i)) =
    (functionLayout i).outline.map fun part => (.ok (.number part.1), part.2) :=
  rfl

/-- Behind the header and the second label of the last function stands neither a label nor a header. -/
theorem code_of_mem_rest {inst : Instruction} (h : inst ∈ instructions (everyOperation ++ unusualLines)) :
    3 ≤ inst.code := by
  have hlines : ∀ line ∈ everyOperation ++ unusualLines, 3 ≤ line.1 := by decide +kernel
  simp only [instructions, formsOf, List.mem_map] at h
  obtain ⟨f, ⟨line, hline, rfl⟩, rfl⟩ := h
  rw [InstructionForm.code_instruction]
  exact hlines line hline

theorem segments_lastLines (n : Nat) : Block.segments (instructions (lastLines n)) =
    ([], [(InstructionForm.instruction ⟨1, [literal (4 * n + 1)]⟩, [(lastLayout n).header]),
      (InstructionForm.instruction ⟨1, [literal (4 * n + 2)]⟩, instructions (everyOperation ++ unusualLines))]) := by
  have hrest : Block.segments (instructions (everyOperation ++ unusualLines)) =
      (instructions (everyOperation ++ unusualLines), []) := by
    refine Block.segments_of_no_label fun inst hinst => ?_
    have hcode := code_of_mem_rest hinst
    simp [Instruction.isLabel]
    omega
  have hlines : instructions (lastLines n) =
      InstructionForm.instruction ⟨1, [literal (4 * n + 1)]⟩ :: (lastLayout n).header ::
        InstructionForm.instruction ⟨1, [literal (4 * n + 2)]⟩ :: instructions (everyOperation ++ unusualLines) := rfl
  rw [hlines, Block.segments_label rfl, Block.segments_other rfl, Block.segments_label rfl, hrest]

theorem outline_lastLines (n : Nat) : Block.outline (instructions (lastLines n)) =
    (lastLayout n).outline.map fun part => (.ok (.number part.1), part.2) := by
  have hrest : (instructions (everyOperation ++ unusualLines)).filter Instruction.isHeader = [] := by
    refine List.filter_eq_nil_iff.mpr fun inst hinst => ?_
    have hcode := code_of_mem_rest hinst
    simp [Instruction.isHeader]
    omega
  rw [Block.outline, segments_lastLines]
  simp only [List.map_cons, List.map_nil, hrest]
  rfl

/-- The code shows the functions one after the other. -/
theorem outline_instructions (n : Nat) : Block.outline (instructions (codeLines n)) =
    ((layouts n).flatMap FunctionLayout.outline).map fun part => (.ok (.number part.1), part.2) := by
  have hpieces : instructions (codeLines n) =
      ((List.range n).map (fun i => instructions (functionLines i)) ++ [instructions (lastLines n)]).flatten := by
    simp [instructions, formsOf, codeLines, List.flatMap_def, Function.comp_def]
  have hfirst : ∀ piece ∈ (List.range n).map (fun i => instructions (functionLines i)) ++ [instructions (lastLines n)],
      (Block.segments piece).1 = [] := by
    intro piece hpiece
    rw [List.mem_append, List.mem_map, List.mem_singleton] at hpiece
    rcases hpiece with ⟨i, -, rfl⟩ | rfl
    · rfl
    · rw [segments_lastLines]
  rw [hpieces, Block.outline_flatten hfirst, layouts, List.flatMap_append, List.flatMap_append, List.map_append,
    List.flatMap_map, List.flatMap_map, List.map_flatMap, List.flatMap_singleton, List.flatMap_singleton,
    outline_lastLines]
  simp only [outline_functionLines]

/-- The functions that are found in the code of a sample. -/
theorem exists_findAll (n : Nat) :
    ∃ bs found, Block.itemize (instructions (codeLines n)) = .ok bs ∧ Function.findAll bs = .ok found ∧
      found.map Function.blocks = (layouts n).map fun f => f.labels.map Index.number :=
  Function.findAll_layout (by simp [layouts]) (outline_instructions n) (labels_ascending n) (layouts_indexes n)

/-! ## Files -/

/-- The module that a sample is read as. -/
def module (n : Nat) : Module :=
  { atoms := some ⟨AtomTable.placeholder :: atomNames 16⟩
    code := some (instructions (codeLines n))
    functions := some ((List.range 3).map functionRow)
    exports := some ((List.range 4).map exportRow)
    literals := some ⟨literalForms.map ExtForm.term⟩
    imports := some ((List.range 4).map importRow)
    lines := some lineTable }

theorem parse_imports : ChunkKind.imports.parse (imports 4) = .ok ((List.range 4).map importRow) :=
  (reads_imports (n := 4) (by norm_num)).run

theorem parse_exports : ChunkKind.exports.parse (exports 4) = .ok ((List.range 4).map exportRow) :=
  (reads_exports (n := 4) (by norm_num)).run

theorem parse_functions : ChunkKind.functions.parse (functions 3) = .ok ((List.range 3).map functionRow) :=
  (reads_functions (n := 3) (by norm_num)).run

/-- The chunks give the same module in all forms. -/
theorem addChunks_chunksBy {pack : Bytes → Bytes} (hpack : ∀ b, Compression.decompress (pack b) = .ok b) {n : Nat}
    (hn : 4 * n + 2 < 256 ^ 4) (compactLengths compressed : Bool) :
    Module.addChunks {} (chunksBy pack n compactLengths compressed) = .ok (module n) := by
  have hatoms := Module.addChunk_of_parse (Bytes.ofAscii "AtU8") .atoms rfl (run_atoms compactLengths)
  have himports := Module.addChunk_of_parse (Bytes.ofAscii "ImpT") .imports rfl parse_imports
  have hexports := Module.addChunk_of_parse (Bytes.ofAscii "ExpT") .exports rfl parse_exports
  have hfunctions := Module.addChunk_of_parse (Bytes.ofAscii "FunT") .functions rfl parse_functions
  have hliterals := Module.addChunk_of_parse (Bytes.ofAscii "LitT") .literals rfl
    (parse_literalChunkBy hpack compressed)
  have hlines := Module.addChunk_of_parse (Bytes.ofAscii "Line") .lines rfl run_lines
  have hcode := Module.addChunk_of_parse (Bytes.ofAscii "Code") .code rfl (run_code hn)
  have hunknown : ∀ m : Module, m.addChunk (Bytes.ofAscii "StrT") (Bytes.ofAscii "ignored") = .ok m := fun _ => rfl
  simp only [Module.addChunks, chunksBy, List.foldlM_cons, List.foldlM_nil, bind, Except.bind, hatoms, himports,
    hexports, hfunctions, hliterals, hlines, hcode, hunknown]
  rfl

theorem exists_encodeWord_iff {v : Int} : (∃ b, encodeWord? v = .ok b) ↔ 0 ≤ v ∧ v < 256 ^ 4 := by
  rw [encodeWord?]
  split
  · next h => simpa using h
  · next h => simpa using h

/-- A size is accepted when the number of labels fits its field. -/
theorem checkSize_eq_ok_iff {n : Int} : checkSize n = .ok () ↔ 0 ≤ n ∧ 4 * n.toNat + 2 < 256 ^ 4 := by
  constructor
  · intro h
    obtain ⟨labels, hlabels, -⟩ := exists_of_bind h
    have hfits := exists_encodeWord_iff.mp ⟨labels, hlabels⟩
    omega
  · intro h
    have hword : 0 ≤ 4 * n + 2 ∧ 4 * n + 2 < 256 ^ 4 := by omega
    have hnext : 0 ≤ n + 1 ∧ n + 1 < 256 ^ 4 := by omega
    obtain ⟨labels, hlabels⟩ := exists_encodeWord_iff.mpr hword
    obtain ⟨functions, hfunctions⟩ := exists_encodeWord_iff.mpr hnext
    simp [checkSize, hlabels, hfunctions, bind, Except.bind, pure, Except.pure]

/-- A file can be written when its labels and its length fit their fields, and then it is the file of its chunks. -/
theorem fileBy_eq_ok_iff {pack : Bytes → Bytes} {n : Int} {compactLengths compressed : Bool} {b : Bytes} :
    fileBy? pack n compactLengths compressed = .ok b ↔
      (0 ≤ n ∧ 4 * n.toNat + 2 < 256 ^ 4) ∧
        (Module.encodeChunks (chunksBy pack n.toNat compactLengths compressed)).length + 4 < 256 ^ 4 ∧
        Module.encodeFile (chunksBy pack n.toNat compactLengths compressed) = b := by
  rw [fileBy?, ← checkSize_eq_ok_iff]
  cases checkSize n with
  | error e => simp [bind, Except.bind]
  | ok u =>
      simp only [bind, Except.bind, true_and]
      exact Module.encodeFile_eq_ok_iff

/-- A file that can be written is read as the module of its size. -/
theorem parse_of_fileBy {pack : Bytes → Bytes} (hpack : ∀ b, Compression.decompress (pack b) = .ok b) {n : Int}
    {compactLengths compressed : Bool} {b : Bytes} (h : fileBy? pack n compactLengths compressed = .ok b) :
    Module.parse b = .ok (module n.toNat) := by
  obtain ⟨⟨-, hlabels⟩, hsize, rfl⟩ := fileBy_eq_ok_iff.mp h
  have hmarkers : ∀ c ∈ chunksBy pack n.toNat compactLengths compressed, c.1.length = 4 := by
    simp [chunksBy, Bytes.ofAscii]
  have hread := Module.read_encodeFile_of_addChunks hmarkers hsize
    (addChunks_chunksBy hpack hlabels compactLengths compressed) []
  rw [List.append_nil] at hread
  rw [Module.parse, Reader.run, hread]

/-- A sample that can be written is read as one and the same module in all forms, and its functions have the labels
that they were given. -/
theorem fileBy_module (pack : Bytes → Bytes) (hpack : ∀ b, Compression.decompress (pack b) = .ok b) (n : Int) :
    ∃ m code a warnings,
      (∀ compactLengths compressed b, fileBy? pack n compactLengths compressed = .ok b →
        0 ≤ n ∧ Module.parse b = .ok m) ∧
      m.name = .ok (some "atom0") ∧ m.code = some code ∧ code.length = 18 * n.toNat + 192 ∧
      Analysis.build m = .ok (a, warnings) ∧
      a.functions.map Function.blocks =
        (List.range n.toNat).map (fun i =>
          [4 * i + 1, 4 * i + 2, 4 * i + 3, 4 * i + 4].map fun k : Nat => Index.number k) ++
        [[4 * n.toNat + 1, 4 * n.toNat + 2].map fun k : Nat => Index.number k] := by
  obtain ⟨bs, found, hbs, hfound, hblocks⟩ := exists_findAll n.toNat
  refine ⟨module n.toNat, _, _, _, ?_, ?_, rfl, length_instructions n.toNat, Analysis.build_eq rfl hbs hfound, ?_⟩
  · intro compactLengths compressed b h
    exact ⟨(fileBy_eq_ok_iff.mp h).1.1, parse_of_fileBy hpack h⟩
  · with_unfolding_all rfl
  · refine hblocks.trans ?_
    simp [layouts, functionLayout, lastLayout, FunctionLayout.labels]

/-- Two functions of the common shape can be written in all forms. -/
theorem fileBy_module_two :
    ∃ m code a warnings,
      (∀ compactLengths compressed, ∃ b, fileBy? Compression.compress 2 compactLengths compressed = .ok b ∧
        Module.parse b = .ok m) ∧
      m.code = some code ∧ code.length = 228 ∧ Analysis.build m = .ok (a, warnings) ∧
      a.functions.map Function.blocks = [[1, 2, 3, 4], [5, 6, 7, 8], [9, 10]].map (List.map Index.number) := by
  have hsize : ∀ compactLengths compressed,
      (Module.encodeChunks (chunksBy Compression.compress (2 : Int).toNat compactLengths compressed)).length + 4 <
        256 ^ 4 := by
    decide +kernel
  obtain ⟨m, code, a, warnings, hparse, -, hcode, hlength, hbuild, hblocks⟩ :=
    fileBy_module Compression.compress Compression.decompress_compress 2
  refine ⟨m, code, a, warnings, fun compactLengths compressed => ?_, hcode, hlength, hbuild, hblocks⟩
  have hfile := fileBy_eq_ok_iff.mpr ⟨⟨by decide, by decide⟩, hsize compactLengths compressed, rfl⟩
  exact ⟨_, hfile, (hparse _ _ _ hfile).2⟩

end Sample

end BeamDisasm
