import BeamDisasm.Instruction.Layout

/-!
# Operations

The operations of the machine, one row for each opcode from 1 to 184. A row says how many operands follow the
opcode, how the instruction is called and written, and what it does to the flow of control.
-/
namespace BeamDisasm

/-- A kind of instruction. -/
structure Operation where
  code : Nat
  arity : Nat
  mnemonic : String
  /-- The operands that hold the labels to jump to. -/
  jumps : List Nat := []
  /-- Control leaves the function here. -/
  exits : Bool := false
  /-- Control may go on with the next instruction or at a label. -/
  branches : Bool := false
  layout : Layout := .operands
  deriving Repr, DecidableEq

namespace Operation

/-- Fixed text. -/
def say (s : String) : List (Piece Field) := [.text s]

/-- The index of an operand, as it is. -/
def index (i : Nat) : List (Piece Field) := [.slot .plain (.index i)]

/-- The index of an operand, which has to be a number. -/
def number (i : Nat) : List (Piece Field) := [.slot .decimal (.index i)]

/-- The index of an operand, which has to be a number, in hexadecimal digits. -/
def hexNumber (i : Nat) : List (Piece Field) := [.text "0x", .slot .hexUpper (.index i)]

/-- The name of a label by a field. -/
def labelOf (f : Field) : List (Piece Field) := [.text "label", .slot .decimal f]

/-- The name of the label that an operand refers to. -/
def label (i : Nat) : List (Piece Field) := labelOf (.index i)

/-- An operand as the module knows it. -/
def value (i : Nat) : List (Piece Field) := [.slot .plain (.value i)]

/-- An operand itself. -/
def operand (i : Nat) : List (Piece Field) := [.slot .plain (.operand i)]

/-- The atom that an operand refers to. -/
def atom (i : Nat) : List (Piece Field) := [.slot .plain (.atom i)]

/-- The imported function that an operand refers to. -/
def imported (i : Nat) : List (Piece Field) := [.slot .plain (.imported i)]

/-- The exported function that an operand refers to. -/
def exported (i : Nat) : List (Piece Field) := [.slot .plain (.exported i)]

/-- The number of a literal or an integer. -/
def payload (i : Nat) : List (Piece Field) := [.slot .plain (.payload i)]

/-- The number of a literal, or else an operand as the module knows it. -/
def count (i : Nat) : List (Piece Field) := [.slot .plain (.count i)]

/-- Parts with commas between them. -/
def commas : List (List (Piece Field)) → List (Piece Field)
  | [] => []
  | [p] => p
  | p :: ps => p ++ say ", " ++ commas ps

/-- An operation that writes every operand. -/
def plainRow (code arity : Nat) (mnemonic : String) : Operation :=
  { code, arity, mnemonic }

/-- An operation with a layout of its own. -/
def row (code arity : Nat) (mnemonic : String) (ps : List (Piece Field)) : Operation :=
  { code, arity, mnemonic, layout := .pieces [] ps }

/-- An operation that leaves the function. -/
def final (code arity : Nat) (mnemonic : String) : Operation :=
  { code, arity, mnemonic, exits := true }

/-- A test that writes every operand. -/
def plainTest (code arity : Nat) (mnemonic : String) : Operation :=
  { code, arity, mnemonic, jumps := [0], branches := true }

/-- A test, which goes to the label of its first operand when it fails. -/
def test (code arity : Nat) (mnemonic : String) (ps : List (Piece Field)) : Operation :=
  { code, arity, mnemonic, jumps := [0], branches := true, layout := .pieces [] ps }

/-- An operation that ends with the cases of a switch, which are looked at first. -/
def switch (code arity : Nat) (mnemonic : String) (style : CaseStyle) (i : Nat)
    (ps : List (Piece Field)) : Operation :=
  let cases := Field.cases style i
  { code, arity, mnemonic,
    layout := .pieces [cases] (ps ++ [.text "[", .slot .plain cases, .text "]"]) }

/-- Labels, calls, allocation and messages. -/
def control : List Operation :=
  [ { code := 1, arity := 1, mnemonic := "label", layout := .label },
    row 2 3 "func_info" (commas [atom 0, atom 1, number 2]),
    final 3 0 "int_code_end",
    row 4 2 "call" (commas [number 0, label 1]),
    row 5 3 "call_last" (commas [number 0, label 1, number 2]),
    row 6 2 "call_only" (commas [number 0, label 1]),
    row 7 2 "call_ext" (commas [number 0, imported 1]),
    row 8 3 "call_ext_last" (commas [hexNumber 0, imported 1, hexNumber 2]),
    row 9 2 "bif0" (commas [exported 0, value 1]),
    row 10 4 "bif1" (commas [label 0, number 1, value 2, value 3]),
    row 11 5 "bif2" (commas [label 0, number 1, value 2, value 3, value 4]),
    row 12 2 "allocate" (commas [number 0, number 1]),
    row 13 3 "allocate_heap" (commas [payload 0, value 1, payload 2]),
    row 14 2 "allocate_zero" (commas [number 0, number 1]),
    row 15 3 "allocate_heap_zero" (commas [number 0, number 1, number 2]),
    row 16 2 "test_heap" (commas [count 0, count 1]),
    plainRow 17 1 "init",
    row 18 1 "deallocate" (commas [number 0]),
    final 19 0 "return",
    plainRow 20 0 "send",
    plainRow 21 0 "remove_message",
    plainRow 22 0 "timeout",
    { code := 23, arity := 2, mnemonic := "loop_rec",
      layout := .pieces [.operand 1] (commas [label 0, count 1]) },
    plainRow 24 1 "loop_rec_end",
    plainRow 25 1 "wait",
    plainRow 26 2 "wait_timeout" ]

/-- Arithmetic of old releases, and tests that may branch. -/
def tests : List Operation :=
  [ plainRow 27 4 "-m_plus",
    plainRow 28 4 "-m_minus",
    plainRow 29 4 "-m_times",
    plainRow 30 4 "-m_div",
    plainRow 31 4 "-int_div",
    plainRow 32 4 "-int_rem",
    plainRow 33 4 "-int_band",
    plainRow 34 4 "-int_bor",
    plainRow 35 4 "-int_bxor",
    row 36 4 "-int_bsl" (commas [number 0, value 1, value 2, index 3]),
    plainRow 37 4 "-int_bsr",
    plainRow 38 3 "-int_bnot",
    test 39 3 "is_lt" (commas [label 0, value 1, value 2]),
    test 40 3 "is_ge" (commas [label 0, value 1, value 2]),
    test 41 3 "is_eq" (commas [label 0, value 1, value 2]),
    test 42 3 "is_ne" (commas [label 0, value 1, value 2]),
    test 43 3 "is_eq_exact" (commas [label 0, value 1, value 2]),
    test 44 3 "is_ne_exact" (commas [label 0, value 1, value 2]),
    test 45 2 "is_integer" (commas [label 0, operand 1]),
    test 46 2 "is_float" (commas [label 0, operand 1]),
    test 47 2 "is_number" (commas [label 0, operand 1]),
    test 48 2 "is_atom" (commas [label 0, operand 1]),
    test 49 2 "is_pid" (commas [label 0, operand 1]),
    test 50 2 "is_reference" (commas [label 0, operand 1]),
    test 51 2 "is_port" (commas [label 0, operand 1]),
    test 52 2 "is_nil" (commas [labelOf (.reference 0), count 1]),
    test 53 2 "is_binary" (commas [label 0, operand 1]),
    test 54 2 "-is_constant" (commas [label 0, operand 1]),
    test 55 2 "is_list" (commas [label 0, operand 1]),
    test 56 2 "is_nonempty_list" (commas [label 0, operand 1]),
    test 57 2 "is_tuple" (commas [label 0, operand 1]),
    test 58 3 "test_arity" (commas [label 0, operand 1, number 2]) ]

/-- Switches, jumps, moves and the building of terms. -/
def terms : List Operation :=
  [ { switch 59 3 "select_val" .valueToLabel 2 (commas [value 0, label 1] ++ say ", ") with
      jumps := [2] },
    switch 60 3 "select_tuple_arity" .indexToLabel 2 (value 0 ++ say " " ++ label 1 ++ say " "),
    { row 61 1 "jump" (commas [label 0]) with jumps := [0] },
    row 62 2 "catch" (operand 0 ++ say " " ++ label 1),
    plainRow 63 1 "catch_end",
    row 64 2 "move" (commas [value 0, value 1]),
    plainRow 65 3 "get_list",
    row 66 3 "get_tuple_element" (commas [operand 0, number 1, operand 2]),
    row 67 3 "set_tuple_element" (commas [value 0, value 1, index 2]),
    plainRow 68 3 "-put_string",
    row 69 3 "put_list" (commas [value 0, value 1, value 2]),
    row 70 2 "put_tuple" (commas [number 0, operand 1]),
    row 71 1 "put" (commas [value 0]),
    final 72 1 "badmatch",
    final 73 0 "if_end",
    final 74 1 "case_end",
    row 75 1 "call_fun" (commas [index 0]),
    plainRow 76 3 "-make_fun",
    test 77 2 "is_function" (commas [label 0, value 1]),
    row 78 2 "call_ext_only" (commas [number 0, imported 1]) ]

/-- Binaries, floating point numbers and exceptions. -/
def binaries : List Operation :=
  [ plainRow 79 2 "-bs_start_match",
    plainRow 80 5 "-bs_get_integer",
    plainRow 81 5 "-bs_get_float",
    plainRow 82 5 "-bs_get_binary",
    plainRow 83 4 "-bs_skip_bits",
    plainRow 84 2 "-bs_test_tail",
    plainRow 85 1 "-bs_save",
    plainRow 86 1 "-bs_restore",
    plainRow 87 2 "-bs_init",
    plainRow 88 2 "-bs_final",
    plainRow 89 5 "bs_put_integer",
    plainRow 90 5 "bs_put_binary",
    plainRow 91 5 "bs_put_float",
    row 92 2 "bs_put_string" (commas [value 0, value 1]),
    plainRow 93 1 "-bs_need_buf",
    plainRow 94 0 "fclearerror",
    plainRow 95 1 "fcheckerror",
    plainRow 96 2 "fmove",
    plainRow 97 2 "fconv",
    plainRow 98 4 "fadd",
    plainRow 99 4 "fsub",
    plainRow 100 4 "fmul",
    plainRow 101 4 "fdiv",
    plainRow 102 3 "fnegate",
    plainRow 103 1 "make_fun2",
    row 104 2 "try" (commas [value 0, label 1]),
    plainRow 105 1 "try_end",
    plainRow 106 1 "try_case",
    plainRow 107 1 "try_case_end",
    plainRow 108 2 "raise",
    plainRow 109 6 "bs_init2",
    plainRow 110 3 "-bs_bits_to_bytes" ]

/-- Matching of binaries and text, and functions guarded by the collector. -/
def matching : List Operation :=
  [ plainRow 111 5 "bs_add",
    plainRow 112 1 "apply",
    plainRow 113 2 "apply_last",
    plainTest 114 2 "is_boolean",
    plainRow 115 3 "is_function2",
    plainRow 116 5 "-bs_start_match2",
    plainRow 117 7 "bs_get_integer2",
    plainRow 118 7 "bs_get_float2",
    plainRow 119 7 "bs_get_binary2",
    plainRow 120 5 "bs_skip_bits2",
    plainRow 121 3 "bs_test_tail2",
    plainRow 122 2 "-bs_save2",
    plainRow 123 2 "-bs_restore2",
    row 124 5 "gc_bif1" (commas [label 0, index 1, index 2, value 3, value 4]),
    row 125 6 "gc_bif2" (commas [label 0, number 1, imported 2, value 3, value 4, value 5]),
    plainRow 126 2 "-bs_final2",
    plainRow 127 2 "-bs_bits_to_bytes2",
    plainRow 128 2 "-put_literal",
    plainTest 129 2 "is_bitstr",
    plainRow 130 1 "-bs_context_to_binary",
    plainRow 131 3 "bs_test_unit",
    row 132 4 "bs_match_string" (commas [label 0, value 1, value 2, value 3]),
    plainRow 133 0 "bs_init_writable",
    plainRow 134 8 "bs_append",
    plainRow 135 6 "bs_private_append",
    row 136 2 "trim" (commas [number 0, number 1]),
    plainRow 137 6 "bs_init_bits",
    plainRow 138 5 "bs_get_utf8",
    plainRow 139 4 "bs_skip_utf8",
    plainRow 140 5 "bs_get_utf16",
    plainRow 141 4 "bs_skip_utf16",
    plainRow 142 5 "bs_get_utf32",
    plainRow 143 4 "bs_skip_utf32",
    plainRow 144 3 "bs_utf8_size",
    plainRow 145 3 "bs_put_utf8",
    plainRow 146 3 "bs_utf16_size",
    plainRow 147 3 "bs_put_utf16",
    plainRow 148 3 "bs_put_utf32",
    plainRow 149 0 "on_load",
    plainRow 150 1 "recv_mark",
    plainRow 151 1 "recv_set",
    plainRow 152 7 "gc_bif3" ]

/-- Source lines, maps, records and later additions. -/
def recent : List Operation :=
  [ { code := 153, arity := 1, mnemonic := "line", layout := .line },
    plainRow 154 5 "put_map_assoc",
    plainRow 155 5 "put_map_exact",
    test 156 2 "is_map" (commas [label 0, value 1]),
    plainRow 157 3 "has_map_fields",
    plainRow 158 3 "get_map_elements",
    test 159 4 "is_tagged_tuple" (commas [label 0, value 1, index 2, value 3]),
    plainRow 160 0 "build_stacktrace",
    plainRow 161 0 "raw_raise",
    plainRow 162 2 "get_hd",
    plainRow 163 2 "get_tl",
    row 164 2 "put_tuple2" (commas [value 0, value 1]),
    row 165 3 "bs_get_tail" (commas [value 0, value 1, index 2]),
    row 166 4 "bs_start_match3" (commas [value 0, value 1, value 2, value 3]),
    row 167 3 "bs_get_position" (commas [value 0, value 1, index 2]),
    plainRow 168 2 "bs_set_position",
    plainRow 169 2 "swap",
    row 170 4 "bs_start_match4" (commas [value 0, index 0, index 2, value 3]),
    row 171 3 "make_fun3" (commas [index 0, value 1, value 2]),
    row 172 1 "init_yregs" (commas [value 0]),
    plainRow 173 2 "recv_marker_bind",
    plainRow 174 1 "recv_marker_clear",
    plainRow 175 1 "recv_marker_reserve",
    plainRow 176 1 "recv_marker_user",
    row 177 6 "bs_create_bin"
      (commas [value 0, value 1, index 2, index 3, value 4] ++ say ". " ++ value 5),
    row 178 3 "call_fun2" (commas [value 0, index 1, value 2]),
    plainRow 179 0 "nif_start",
    plainRow 180 1 "badrecord",
    switch 181 5 "update_record" .indexToValue 4
      (commas [value 0, index 1, value 2, value 3] ++ say ", "),
    plainRow 182 3 "bs_match",
    plainRow 183 2 "executable_line",
    plainRow 184 4 "debug_line" ]

/-- All operations, in the order of their opcodes. -/
def table : List Operation :=
  control ++ tests ++ terms ++ binaries ++ matching ++ recent

/-- The operation of an opcode. -/
def find? : Nat → Option Operation
  | 0 => none
  | code + 1 => table[code]?

/-- The names of kinds that do not follow from the names of their operations. -/
def specialNames : List (Nat × String) :=
  [(14, "BeamIntAllocateZero"), (36, "BeamInstBsl"), (37, "BeamInstBsr"), (38, "BeamInstBnot"),
    (56, "BeamInstIsNonEmptyList"), (72, "BeamInstBadMatch"), (94, "BeamInstFClearError"),
    (95, "BeamInstFCheckError"), (96, "BeamInstFMove"), (97, "BeamInstFConv"), (98, "BeamInstFAdd"),
    (99, "BeamInstFSub"), (100, "BeamInstFMul"), (101, "BeamInstFDiv"), (102, "BeamInstFNegate"),
    (124, "BeamInstGCBif1"), (125, "BeamInstGCBif2"), (129, "BeamInstIsBitStr"), (172, "BeamInstInitYRegs"),
    (176, "BeamInstRecvMarkerUse"), (180, "BeamInstBadRecord")]

/-- The characters of a name without underscores and hyphens, with a capital where a word starts. -/
def capitalised : Bool → List Char → List Char
  | _, [] => []
  | start, c :: cs =>
    if c = '_' ∨ c = '-' then capitalised true cs
    else (if start then c.toUpper else c) :: capitalised false cs

/-- The name of the kind of an operation: most follow from the name of the operation. -/
def kindName (op : Operation) : String :=
  (specialNames.lookup op.code).getD ("BeamInst" ++ String.ofList (capitalised true op.mnemonic.toList))

end Operation

end BeamDisasm
