import BeamDisasm.Proofs.Layouts
import BeamDisasm.Proofs.ShownNames

/-!
# One instruction, one line

An instruction without notes is written on one line, unless a name in it breaks the line. What else a file can put into
the line, such as strings, binaries and the names of source files, is escaped, and what the operations put into it is
fixed.

`Instruction.names` lists the names that the text of an instruction shows, and the main statement is that the text is on
one line exactly if all of them are. A module with an atom that holds a line feed shows that this can fail.
-/
namespace BeamDisasm

open Reader (Yields yields_lift yields_pure)
open Text (OneLine BreaksWith breaksWith_nil)

/-! ## Cases of a switch -/

namespace Member

/-- A term that can be read, or a pair. -/
def Decoded : Member → Prop
  | .term t => t.Decoded
  | .pair _ _ => True

/-- The names that the value of a member shows. -/
def names (m : Module) : Member → List Bytes
  | .term t => m.valueNames t
  | .pair _ _ => []

theorem breaksWith_value {m : Module} (hm : m.Parsed) {x : Member} (hx : x.Decoded) {v : Option String}
    (h : x.value m = .ok v) : BreaksWith (Module.orNone v) (x.names m) := by
  cases x with
  | term t => exact Module.breaksWith_value hm hx v h
  | pair key value =>
      obtain rfl := Except.ok.inj h
      exact breaksWith_nil (by decide)

theorem decoded_of_ofTerm {t : Term} (ht : t.Decoded) {ms : List Member} (h : ofTerm t = .ok ms) :
    ∀ x ∈ ms, x.Decoded := by
  intro x hx
  cases ht with
  | list hitems =>
      obtain rfl := Except.ok.inj h
      obtain ⟨t, ht, rfl⟩ := List.mem_map.mp hx
      exact hitems t ht
  | alloc hkeys hvalues =>
      obtain rfl := Except.ok.inj h
      obtain ⟨p, -, rfl⟩ := List.mem_map.mp hx
      trivial
  | _ => cases h

theorem mem_of_mem_twoByTwo {ms : List Member} {c : Member × Member} (h : c ∈ twoByTwo ms) : c.1 ∈ ms ∧ c.2 ∈ ms := by
  fun_induction twoByTwo ms with
  | case1 k v ms ih =>
      rcases List.mem_cons.mp h with rfl | h
      · simp
      · simp [ih h]
  | case2 => simp at h

end Member

theorem Index.oneLine_decimal {i : Index} {s : String} (h : i.decimal = .ok s) : OneLine s := by
  cases i with
  | number n => exact Text.oneLine_decimal h
  | _ => cases h

namespace CaseStyle

/-- The names that a case shows. -/
def names (m : Module) : CaseStyle → Member × Member → List Bytes
  | .valueToLabel, c => c.1.names m
  | .indexToLabel, _ => []
  | .indexToValue, c => c.2.names m

theorem breaksWith_text {m : Module} (hm : m.Parsed) {style : CaseStyle} {c : Member × Member} (hkey : c.1.Decoded)
    (htarget : c.2.Decoded) {s : String} (h : style.text m c = .ok s) : BreaksWith s (style.names m c) := by
  obtain ⟨k, v⟩ := c
  cases style with
  | valueToLabel =>
      obtain ⟨key, hk, h⟩ := exists_of_bind h
      obtain ⟨target, -, h⟩ := exists_of_bind h
      obtain ⟨d, hd, h⟩ := exists_of_bind h
      obtain rfl := Except.ok.inj h
      exact ((Member.breaksWith_value hm hkey hk).before (by decide)).before (Index.oneLine_decimal hd)
  | indexToLabel =>
      obtain ⟨key, -, h⟩ := exists_of_bind h
      obtain ⟨target, -, h⟩ := exists_of_bind h
      obtain ⟨k, hk, h⟩ := exists_of_bind h
      obtain ⟨d, hd, h⟩ := exists_of_bind h
      obtain rfl := Except.ok.inj h
      have harrow : OneLine " => label" := by decide
      exact breaksWith_nil (by simp [Index.oneLine_decimal hk, Index.oneLine_decimal hd, harrow])
  | indexToValue =>
      obtain ⟨key, -, h⟩ := exists_of_bind h
      obtain ⟨content, hcontent, h⟩ := exists_of_bind h
      obtain ⟨k, hk, h⟩ := exists_of_bind h
      obtain rfl := Except.ok.inj h
      have hfront : OneLine (k ++ " => ") := Text.oneLine_append.mpr ⟨Index.oneLine_decimal hk, by decide⟩
      exact (Member.breaksWith_value hm htarget hcontent).behind hfront

end CaseStyle

/-! ## Fields -/

/-- However a slot writes the argument, the text breaks exactly with the names. -/
def Argument.Shows (a : Argument) (names : List Bytes) : Prop :=
  ∀ style s, a.format style = .ok s → BreaksWith s names

namespace Argument

theorem shows_index {i : Index} (h : ∀ s, i.plain = .ok s → OneLine s) : Shows (.index i) [] := by
  intro style s hs
  cases style with
  | plain => exact breaksWith_nil (h s hs)
  | decimal =>
      obtain ⟨n, -, hs⟩ := exists_of_bind hs
      exact breaksWith_nil (Text.oneLine_decimal hs)
  | hexUpper =>
      obtain ⟨n, -, rfl⟩ := exists_of_map hs
      exact breaksWith_nil (Text.oneLine_hexUpper n)

theorem shows_number (n : Int) : Shows (.index (.number n)) [] :=
  shows_index fun _ => Text.oneLine_decimal

theorem shows_term {t : Term} (h : t.Decoded) : Shows (.term t) [] := by
  intro style s hs
  cases style with
  | plain => exact breaksWith_nil (h.oneLine_text s hs)
  | _ => cases hs

theorem shows_text {text : String} {names : List Bytes} (h : BreaksWith text names) : Shows (.text text) names := by
  intro style s hs
  cases style with
  | plain => exact Except.ok.inj hs ▸ h
  | _ => cases hs

theorem shows_nothing {names : List Bytes} (h : BreaksWith "None" names) : Shows .nothing names := by
  intro style s hs
  cases style with
  | plain => exact Except.ok.inj hs ▸ h
  | _ => cases hs

theorem shows_argumentOf {v : Option String} {names : List Bytes} (h : BreaksWith (Module.orNone v) names) :
    Shows (Instruction.argumentOf v) names := by
  cases v with
  | some text => exact shows_text h
  | none => exact shows_nothing h

theorem shows_numberArgument (v : Option Int) : Shows (Instruction.numberArgument v) [] := by
  cases v with
  | some n => exact shows_number n
  | none => exact shows_nothing (breaksWith_nil (by decide))

end Argument

namespace Instruction

variable {inst : Instruction} {m : Module} {s : String}

/-- The instruction has an operation of the table, and operands that can be read. -/
structure Decoded (inst : Instruction) : Prop where
  mem_table : inst.operation ∈ Operation.table
  operands : ∀ t ∈ inst.operands, t.Decoded

theorem mem_table_of_operationOf {code : UInt8} {op : Operation} (h : operationOf code = .ok op) :
    op ∈ Operation.table := by
  unfold operationOf at h
  split at h
  · next found hfound =>
    obtain rfl := Except.ok.inj h
    cases hcode : code.toNat with
    | zero => simp [hcode, Operation.find?] at hfound
    | succ n =>
        rw [hcode] at hfound
        exact List.mem_of_getElem? hfound
  · cases h

theorem decoded_of_read {b rest : Bytes} (h : read b = .ok inst rest) : inst.Decoded := by
  have hterm : Yields Term.read Term.Decoded := fun s t rest h => Term.decoded_of_read h
  have hread : Yields read Decoded := by
    refine .of_last fun code => (yields_lift fun op hop => mem_table_of_operationOf hop).bind fun op hop => ?_
    exact (hterm.times op.arity).bind fun operands hoperands => yields_pure ⟨hop, hoperands⟩
  exact hread b inst rest h

theorem Decoded.operand (h : inst.Decoded) {i : Nat} {t : Term} (ht : inst.operand i = .ok t) : t.Decoded := by
  unfold Instruction.operand at ht
  split at ht
  · next u hu => exact Except.ok.inj ht ▸ h.operands u (List.mem_of_getElem? hu)
  · cases ht

theorem Decoded.oneLine_indexOf (h : inst.Decoded) {i : Nat} {j : Index} (hj : inst.indexOf i = .ok j) :
    ∀ s, j.plain = .ok s → OneLine s := by
  obtain ⟨t, ht, hj⟩ := exists_of_bind hj
  exact (h.operand ht).oneLine_index hj

/-- The names that a field shows. -/
def fieldNames (inst : Instruction) (m : Module) : Field → List Bytes
  | .index _ | .operand _ | .payload _ | .reference _ => []
  | .value i => (inst.operand i).toOption.toList.flatMap m.valueNames
  | .count i => (inst.operand i).toOption.toList.flatMap fun t =>
      if t.literalIndex?.isSome then [] else m.valueNames t
  | .atom i => (inst.indexOf i).toOption.toList.flatMap m.atomBytes
  | .imported i => (inst.indexOf i).toOption.toList.flatMap m.importNames
  | .exported i => (inst.indexOf i).toOption.toList.flatMap m.exportNames
  | .cases style i => (inst.cases i).toOption.toList.flatMap fun cs => cs.flatMap (style.names m)

/-- The names that a piece of a layout shows. -/
def pieceNames (inst : Instruction) (m : Module) : Piece Field → List Bytes
  | .text _ => []
  | .slot _ f => inst.fieldNames m f

/-- The names that the text of an instruction shows. -/
def names (inst : Instruction) (m : Module) : List Bytes :=
  match inst.operation.layout with
  | .operands => inst.operands.flatMap m.valueNames
  | .pieces _ ps => ps.flatMap (inst.pieceNames m)
  | .label | .line => []

theorem Decoded.cases (h : inst.Decoded) {i : Nat} {cs : List (Member × Member)} (hcs : inst.cases i = .ok cs) :
    ∀ c ∈ cs, c.1.Decoded ∧ c.2.Decoded := by
  obtain ⟨t, ht, hcs⟩ := exists_of_bind hcs
  obtain ⟨ms, hms, hcs⟩ := exists_of_bind hcs
  obtain rfl := Except.ok.inj hcs
  intro c hc
  have hdecoded := Member.decoded_of_ofTerm (h.operand ht) hms
  have hmem := Member.mem_of_mem_twoByTwo hc
  exact ⟨hdecoded _ hmem.1, hdecoded _ hmem.2⟩

/-- A field shows its names and no other part of the file that is not escaped. -/
theorem Decoded.shows_field (h : inst.Decoded) (hm : m.Parsed) {f : Field} {a : Argument}
    (ha : inst.field m f = .ok a) : a.Shows (inst.fieldNames m f) := by
  cases f with
  | index i =>
      obtain ⟨j, hj, ha⟩ := exists_of_bind ha
      exact Except.ok.inj ha ▸ Argument.shows_index (h.oneLine_indexOf hj)
  | operand i =>
      obtain ⟨t, ht, ha⟩ := exists_of_bind ha
      exact Except.ok.inj ha ▸ Argument.shows_term (h.operand ht)
  | payload i =>
      obtain ⟨t, ht, ha⟩ := exists_of_bind ha
      exact Except.ok.inj ha ▸ Argument.shows_numberArgument _
  | reference i =>
      obtain ⟨t, ht, ha⟩ := exists_of_bind ha
      split at ha
      · exact Except.ok.inj ha ▸ Argument.shows_number _
      · obtain ⟨j, hj, ha⟩ := exists_of_bind ha
        exact Except.ok.inj ha ▸ Argument.shows_index ((h.operand ht).oneLine_index hj)
  | value i =>
      obtain ⟨t, ht, ha⟩ := exists_of_bind ha
      obtain ⟨v, hv, ha⟩ := exists_of_bind ha
      simp only [fieldNames, ht, Except.toOption, Option.toList_some, List.flatMap_singleton]
      exact Except.ok.inj ha ▸ Argument.shows_argumentOf (Module.breaksWith_value hm (h.operand ht) v hv)
  | count i =>
      obtain ⟨t, ht, ha⟩ := exists_of_bind ha
      simp only [fieldNames, ht, Except.toOption, Option.toList_some, List.flatMap_singleton]
      cases hliteral : t.literalIndex? with
      | some n =>
          simp only [hliteral] at ha
          exact Except.ok.inj ha ▸ Argument.shows_number n
      | none =>
          simp only [hliteral] at ha
          obtain ⟨v, hv, ha⟩ := exists_of_bind ha
          exact Except.ok.inj ha ▸ Argument.shows_argumentOf (Module.breaksWith_value hm (h.operand ht) v hv)
  | atom i =>
      obtain ⟨j, hj, ha⟩ := exists_of_bind ha
      obtain ⟨v, hv, ha⟩ := exists_of_bind ha
      simp only [fieldNames, hj, Except.toOption, Option.toList_some, List.flatMap_singleton]
      exact Except.ok.inj ha ▸ Argument.shows_argumentOf (Module.breaksWith_atomName hv)
  | imported i =>
      obtain ⟨j, hj, ha⟩ := exists_of_bind ha
      obtain ⟨v, hv, ha⟩ := exists_of_bind ha
      simp only [fieldNames, hj, Except.toOption, Option.toList_some, List.flatMap_singleton]
      exact Except.ok.inj ha ▸ Argument.shows_text (Module.breaksWith_importText hv)
  | exported i =>
      obtain ⟨j, hj, ha⟩ := exists_of_bind ha
      obtain ⟨v, hv, ha⟩ := exists_of_bind ha
      simp only [fieldNames, hj, Except.toOption, Option.toList_some, List.flatMap_singleton]
      exact Except.ok.inj ha ▸ Argument.shows_text (Module.breaksWith_exportText hv)
  | cases style i =>
      obtain ⟨cs, hcs, ha⟩ := exists_of_bind ha
      obtain ⟨parts, hparts, ha⟩ := exists_of_bind ha
      simp only [fieldNames, hcs, Except.toOption, Option.toList_some, List.flatMap_singleton]
      rw [List.flatMap_def]
      have hdecoded := h.cases hcs
      have hall := (List.forall₂_and_left (p := (· ∈ cs)) cs parts).mpr ⟨fun c hc => hc, forall₂_of_mapM hparts⟩
      have hnames : List.Forall₂ BreaksWith parts (cs.map (style.names m)) := by
        rw [List.forall₂_map_right_iff]
        exact hall.flip.imp fun part c hc =>
          CaseStyle.breaksWith_text hm (hdecoded c hc.1).1 (hdecoded c hc.1).2 hc.2
      exact Except.ok.inj ha ▸ Argument.shows_text (BreaksWith.intercalate (by decide) hnames)

/-! ## Lines -/

/-- The fixed texts of a layout. -/
def fixedTexts : Layout → List String
  | .pieces _ ps => ps.flatMap fun
      | .text s => [s]
      | .slot _ _ => []
  | _ => []

/-- What operations put into a line by themselves is on the line. -/
theorem oneLine_of_mem_table : ∀ op ∈ Operation.table,
    Bytes.OneLine op.mnemonic.toByteArray.data.toList ∧ ∀ s ∈ fixedTexts op.layout, OneLine s := by
  decide +kernel

theorem oneLine_head {mnemonic : String} (h : OneLine mnemonic) : OneLine (head [] mnemonic) :=
  Text.oneLine_append.mpr ⟨by decide, Text.oneLine_padRight h 20⟩

/-- Pieces one after the other show the names of their fields. -/
theorem breaksWith_of_writes {ps : List (Piece Field)} {worth : Field → Except Fault Argument}
    (htexts : ∀ t, .text t ∈ ps → OneLine t) (hworth : ∀ f a, worth f = .ok a → a.Shows (inst.fieldNames m f))
    (h : Layout.Writes worth ps s) : BreaksWith s (ps.flatMap (inst.pieceNames m)) := by
  induction h with
  | nil => exact breaksWith_nil (by decide)
  | text t _ ih =>
      have hrest := ih fun u hu => htexts u (List.mem_cons_of_mem _ hu)
      exact hrest.behind (htexts t (by simp))
  | slot ha ht _ ih =>
      have hrest := ih fun u hu => htexts u (List.mem_cons_of_mem _ hu)
      exact (hworth _ _ ha _ _ ht).append hrest

/-- A place in the source is on one line, whatever the name of the file. -/
theorem oneLine_placeText (hm : m.Parsed) {i : Index} {place : Option (Option Scalar × Int)}
    (h : m.lineOf i = .ok place) (hs : placeText place = .ok s) : OneLine s := by
  have hfixed : OneLine "\t; line " ∧ OneLine "\t; file " ∧ OneLine " line " := by decide
  cases hlines : m.lines with
  | none =>
      rw [Module.lineOf, hlines] at h
      obtain rfl := Except.ok.inj h
      exact Except.ok.inj hs ▸ by decide
  | some table =>
      rw [Module.lineOf, hlines] at h
      obtain ⟨⟨file, line⟩, hget, h⟩ := exists_of_bind h
      obtain rfl := Except.ok.inj h
      obtain ⟨refs, files, hsound⟩ := hm.lines hlines
      cases file with
      | none =>
          obtain ⟨d, hd, hs⟩ := exists_of_bind hs
          exact Except.ok.inj hs ▸ Text.oneLine_append.mpr ⟨hfixed.1, Text.oneLine_decimal hd⟩
      | some name =>
          obtain ⟨b, rfl⟩ := hsound.raw_of_get hget
          obtain ⟨name, hname, hs⟩ := exists_of_bind hs
          obtain ⟨d, hd, hs⟩ := exists_of_bind hs
          obtain rfl := Except.ok.inj hname
          exact Except.ok.inj hs ▸ (by simp [hfixed, Text.oneLine_decimal hd])

/-- The text of an instruction without notes breaks the line exactly with the names that it shows. -/
theorem Decoded.breaksWith_text (h : inst.Decoded) (hm : m.Parsed) (hs : inst.text m [] = .ok s) :
    BreaksWith s (inst.names m) := by
  obtain ⟨hmnemonic, hfixed⟩ := oneLine_of_mem_table inst.operation h.mem_table
  have hhead := oneLine_head (Text.oneLine_of_toByteArray hmnemonic)
  rw [text] at hs
  rw [names]
  cases hlayout : inst.operation.layout with
  | operands =>
      simp only [hlayout] at hs ⊢
      obtain ⟨vs, hvs, hs⟩ := exists_of_bind hs
      have hnames := Module.breaksWith_values (fun t ht => Module.breaksWith_value hm (h.operands t ht)) hvs
      exact Except.ok.inj hs ▸ (BreaksWith.intercalate (by decide) hnames).behind hhead
  | pieces first ps =>
      simp only [hlayout] at hs hfixed ⊢
      obtain ⟨-, r, hr, rfl⟩ := laidOut_eq_ok_iff.mp hs
      have htexts : ∀ t, .text t ∈ ps → OneLine t := fun t ht => hfixed t (List.mem_flatMap.mpr ⟨_, ht, by simp⟩)
      exact (breaksWith_of_writes htexts (fun f a ha => h.shows_field hm ha) hr).behind hhead
  | label =>
      simp only [hlayout] at hs ⊢
      obtain ⟨i, -, hs⟩ := exists_of_bind hs
      obtain ⟨n, -, hs⟩ := exists_of_bind hs
      obtain ⟨d, hd, hs⟩ := exists_of_bind hs
      have hlabel : OneLine "label" ∧ OneLine ":" := by decide
      exact Except.ok.inj hs ▸ breaksWith_nil (by simp [hlabel, Text.oneLine_decimal hd])
  | line =>
      simp only [hlayout] at hs ⊢
      obtain ⟨i, -, hs⟩ := exists_of_bind hs
      obtain ⟨place, hplace, hs⟩ := exists_of_bind hs
      exact breaksWith_nil (oneLine_placeText hm hplace hs)

/-- An instruction without notes is written on one line exactly if every name that its text shows is. So strings,
binaries and the names of source files cannot break a line, and names can. -/
theorem text_oneLine_iff {stop : Option Fault} {file after b rest : Bytes} (hm : Module.read stop file = .ok m after)
    (hread : read b = .ok inst rest) (htext : inst.text m [] = .ok s) :
    OneLine s ↔ ∀ name ∈ inst.names m, name.OneLine :=
  (decoded_of_read hread).breaksWith_text (Module.parsed_of_read hm) htext

/-- A module with a tuple of a string and a binary that hold line breaks, and of an atom. -/
def breaksInLiteral : Bytes :=
  Module.encodeFile [(Bytes.ofAscii "LitT",
    [0, 0, 0, 0, 0, 0, 0, 1, 0, 0, 0, 20, 131, 104, 3, 107, 0, 3, 97, 10, 98] ++
      [109, 0, 0, 0, 2, 13, 10, 119, 2, 111, 107])]

theorem text_oneLine_iff_tuple :
    ∃ m inst, Module.read none breaksInLiteral = .ok m [] ∧ read [0x40, 0x47, 0x00, 0x03] = .ok inst [] ∧
      inst.names m = [Bytes.ofAscii "ok"] ∧
      inst.text m [] = .ok "\tmove                `(\"a\\nb\", b'\\r\\n', ok)`, X0" ∧
      OneLine "\tmove                `(\"a\\nb\", b'\\r\\n', ok)`, X0" := by
  obtain ⟨m, inst, hm, hread, hnames, htext⟩ : ∃ m inst, Module.read none breaksInLiteral = .ok m [] ∧
      read [0x40, 0x47, 0x00, 0x03] = .ok inst [] ∧ inst.names m = [Bytes.ofAscii "ok"] ∧
      inst.text m [] = .ok "\tmove                `(\"a\\nb\", b'\\r\\n', ok)`, X0" :=
    ⟨_, _, rfl, rfl, rfl, rfl⟩
  refine ⟨m, inst, hm, hread, hnames, htext, (text_oneLine_iff hm hread htext).mpr ?_⟩
  rw [hnames]
  decide

/-- A module with an atom that holds a line feed. -/
def breakInAtom : Bytes :=
  Module.encodeFile [(Bytes.ofAscii "AtU8", [0, 0, 0, 1, 3, 97, 10, 98])]

/-- The name of an atom is written as it is, so it starts a line of its own. -/
theorem text_on_two_lines :
    ∃ m inst, Module.read none breakInAtom = .ok m [] ∧ read [0x40, 0x12, 0x03] = .ok inst [] ∧
      inst.text m [] = .ok "\tmove                'a\nb', X0" ∧ ¬ OneLine "\tmove                'a\nb', X0" :=
  ⟨_, _, rfl, rfl, rfl, by decide⟩

end Instruction

end BeamDisasm
