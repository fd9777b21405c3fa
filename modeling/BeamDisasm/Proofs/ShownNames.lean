import BeamDisasm.Proofs.Contents
import BeamDisasm.Proofs.LineBreaks
import Mathlib.Data.List.Forall2

/-!
# The names that texts show

Names are written as they are decoded: those of atoms, of imported and exported functions, and of atoms and functions
in literals. All else that a file can hold is escaped, so a text breaks the line exactly if one of its names does.

Each kind of value has here the list of the names that its text shows, and one lemma that the text breaks with them.
-/
namespace BeamDisasm

open Text (OneLine BreaksWith breaksWith_nil)

/-! ## Terms -/

theorem Scalar.Decoded.isData {v : Scalar} (h : v.Decoded) : v.IsData := by
  cases h <;> trivial

theorem Scalar.IsData.oneLine_plain {v : Scalar} {s : String} (h : v.IsData) (hs : v.plain = .ok s) : OneLine s := by
  cases v with
  | number n => exact Text.oneLine_decimal hs
  | raw b => exact Except.ok.inj hs ▸ Text.oneLine_quoted b
  | _ => cases h

theorem Index.plain_ofScalar (v : Scalar) : (Index.ofScalar v).plain = v.plain := by
  cases v <;> rfl

theorem Scalar.oneLine_decimal {v : Scalar} {s : String} (h : v.decimal = .ok s) : OneLine s := by
  obtain ⟨n, rfl, -⟩ := Scalar.decimal_ok_iff.mp ⟨s, h⟩
  exact Text.oneLine_decimal h

namespace Term

variable {t : Term} {items : List Term} {pairs : List (Term × Term)} {s : String}

/-- A name with its argument is on one line with the argument. -/
theorem oneLine_applied {name argument : String} (hname : OneLine name) (h : OneLine argument) :
    OneLine (applied name argument) := by
  have hbrackets : OneLine "(" ∧ OneLine ")" := by decide
  simp [applied, hname, h, hbrackets]

theorem Decoded.oneLine_index {i : Index} (h : t.Decoded) (hi : t.index = .ok i) :
    ∀ s, i.plain = .ok s → OneLine s := by
  intro s hs
  cases h with
  | literal n | label n | fpreg n =>
      obtain rfl := Except.ok.inj hi
      exact Text.oneLine_decimal hs
  | atom n =>
      obtain rfl := Except.ok.inj hi
      split_ifs at hs
      · exact Except.ok.inj hs ▸ show OneLine nilText by decide
      · exact Text.oneLine_decimal hs
  | xreg hv | yreg hv =>
      obtain rfl := Except.ok.inj hi
      rw [Index.plain_ofScalar] at hs
      exact hv.isData.oneLine_plain hs
  | _ => simp [index] at hi

/-- The form inside a pair is the text, but for typed registers. -/
theorem Decoded.inner_eq (h : t.Decoded) :
    t.inner = if t.isTyped then .ok "<beam.types.BeamTypedReg object>" else t.text := by
  cases h <;> simp [inner, text, isTyped]

theorem Decoded.oneLine_inner (h : t.Decoded) (htext : ∀ s, t.text = .ok s → OneLine s) (hs : t.inner = .ok s) :
    OneLine s := by
  rw [h.inner_eq] at hs
  split_ifs at hs
  · exact Except.ok.inj hs ▸ by decide
  · exact htext s hs

theorem oneLine_pairTexts {ss : List String} (hkeys : ∀ p ∈ pairs, ∀ s, p.1.inner = .ok s → OneLine s)
    (hvalues : ∀ p ∈ pairs, ∀ s, p.2.inner = .ok s → OneLine s) (h : pairTexts pairs = .ok ss) :
    ∀ s ∈ ss, OneLine s := by
  induction pairs generalizing ss with
  | nil =>
      rw [pairTexts] at h
      obtain rfl := Except.ok.inj h
      simp
  | cons p ps ih =>
      rw [pairTexts] at h
      obtain ⟨a, ha, h⟩ := exists_of_bind h
      obtain ⟨b, hb, h⟩ := exists_of_bind h
      obtain ⟨rest, hrest, h⟩ := exists_of_bind h
      obtain rfl := Except.ok.inj h
      have hkey := hkeys p (by simp) a ha
      have hvalue := hvalues p (by simp) b hb
      have hmarks : OneLine "(" ∧ OneLine ", " ∧ OneLine ")" := by decide
      refine List.forall_mem_cons.mpr ⟨by simp [hkey, hvalue, hmarks], ?_⟩
      exact ih (fun q hq => hkeys q (by simp [hq])) (fun q hq => hvalues q (by simp [hq])) hrest

/-- No term that can be read breaks a line by its own text. -/
theorem Decoded.oneLine_text (h : t.Decoded) : ∀ s, t.text = .ok s → OneLine s := by
  induction h with
  | integer n | literal n | label n =>
      intro s hs
      rw [text] at hs
      obtain ⟨d, hd, hs⟩ := exists_of_bind hs
      exact Except.ok.inj hs ▸ oneLine_applied (by decide) (Text.oneLine_decimal hd)
  | atom n =>
      intro s hs
      rw [text] at hs
      split_ifs at hs
      · exact Except.ok.inj hs ▸ by decide
      · obtain ⟨d, hd, hs⟩ := exists_of_bind hs
        exact Except.ok.inj hs ▸ oneLine_applied (by decide) (Text.oneLine_decimal hd)
  | char hv =>
      intro s hs
      rw [text] at hs
      obtain ⟨d, hd, hs⟩ := exists_of_bind hs
      exact Except.ok.inj hs ▸ oneLine_applied (by decide) (hv.isData.oneLine_plain hd)
  | xreg _ | yreg _ | fpreg _ =>
      intro s hs
      rw [text] at hs
      obtain ⟨d, hd, hs⟩ := exists_of_bind hs
      exact Except.ok.inj hs ▸ Text.oneLine_append.mpr ⟨by decide, Scalar.oneLine_decimal hd⟩
  | list _ ih =>
      intro s hs
      rw [text] at hs
      obtain ⟨ss, hss, hs⟩ := exists_of_bind hs
      refine Except.ok.inj hs ▸ oneLine_applied (by decide) ((Text.oneLine_intercalate (by decide)).mpr ?_)
      intro line hline
      obtain ⟨t, ht, htext⟩ := exists_left_of_forall₂ (forall₂_of_mapM (texts_eq_mapM _ ▸ hss)) hline
      exact ih t ht line htext
  | alloc hkeys hvalues ihkeys ihvalues =>
      intro s hs
      rw [text] at hs
      obtain ⟨ss, hss, hs⟩ := exists_of_bind hs
      refine Except.ok.inj hs ▸ oneLine_applied (by decide) ((Text.oneLine_intercalate (by decide)).mpr ?_)
      exact oneLine_pairTexts (fun p hp s => (hkeys p hp).oneLine_inner (ihkeys p hp))
        (fun p hp s => (hvalues p hp).oneLine_inner (ihvalues p hp)) hss
  | typed _ ht ihr _ =>
      intro s hs
      rw [text] at hs
      obtain ⟨i, hi, hs⟩ := exists_of_bind hs
      obtain ⟨r, hr, hs⟩ := exists_of_bind hs
      obtain ⟨d, hd, hs⟩ := exists_of_bind hs
      obtain rfl := Except.ok.inj hs
      have hmarks : OneLine "<" ∧ OneLine ">" := by decide
      simp [ihr r hr, ht.oneLine_index hi d hd, hmarks]

end Term

/-! ## Literals -/

namespace ExtTerm

variable {t : ExtTerm} {ms : List ExtTerm} {es : List (ExtTerm × ExtTerm)} {s : String}

/-- The bytes of a name. -/
def nameBytes : Scalar → List Bytes
  | .raw b => [b]
  | _ => []

mutual

/-- The names that the text of a term shows. -/
def names : ExtTerm → List Bytes
  | .atom _ b => [b]
  | .remoteFun m f _ => nameBytes m ++ nameBytes f
  | .smallTuple ms | .largeTuple ms | .list ms => namesAll ms
  | .map es => namesEntries es
  | _ => []

/-- The names in several terms. -/
def namesAll : List ExtTerm → List Bytes
  | [] => []
  | t :: ts => names t ++ namesAll ts

/-- The names in keys and values. -/
def namesEntries : List (ExtTerm × ExtTerm) → List Bytes
  | [] => []
  | (k, v) :: es => names k ++ names v ++ namesEntries es

end

theorem breaksWith_namePart {v : Scalar} (h : namePart v = .ok s) : BreaksWith s (nameBytes v) := by
  cases v with
  | raw b => exact Text.breaksWith_utf8 h
  | _ => cases h

theorem breaksWith_remoteFun {m f a : Scalar} (ha : a.IsData) (h : remoteFunText m f a = .ok s) :
    BreaksWith s (nameBytes m ++ nameBytes f) := by
  obtain ⟨ms, hms, h⟩ := exists_of_bind h
  obtain ⟨fs, hfs, h⟩ := exists_of_bind h
  obtain ⟨as, has, h⟩ := exists_of_bind h
  obtain rfl := Except.ok.inj h
  have hfront := ((breaksWith_namePart hms).behind (by decide : OneLine "fun ")).before (by decide : OneLine ":")
  exact ((hfront.append (breaksWith_namePart hfs)).before (by decide)).before (ha.oneLine_plain has)

theorem namesAll_eq : namesAll ms = (ms.map names).flatten := by
  induction ms with
  | nil => rfl
  | cons t ts ih => rw [namesAll, ih, List.map_cons, List.flatten_cons]

theorem namesEntries_eq : namesEntries es = (es.map fun e => names e.1 ++ names e.2).flatten := by
  induction es with
  | nil => rfl
  | cons e es ih => rw [namesEntries, ih, List.map_cons, List.flatten_cons]

/-- Members one by one, each with its names. -/
theorem breaksWith_texts {ss : List String} (h : ∀ t ∈ ms, ∀ s, t.text = .ok s → BreaksWith s t.names)
    (hss : texts ms = .ok ss) : List.Forall₂ BreaksWith ss (ms.map names) := by
  induction ms generalizing ss with
  | nil =>
      rw [texts] at hss
      obtain rfl := Except.ok.inj hss
      exact .nil
  | cons t ts ih =>
      rw [texts] at hss
      obtain ⟨s, hs, hss⟩ := exists_of_bind hss
      obtain ⟨rest, hrest, hss⟩ := exists_of_bind hss
      obtain rfl := Except.ok.inj hss
      exact .cons (h t (by simp) s hs) (ih (fun u hu => h u (by simp [hu])) hrest)

/-- Entries one by one, each with the names of its key and its value. -/
theorem breaksWith_entryTexts {ss : List String} (hkeys : ∀ e ∈ es, ∀ s, e.1.text = .ok s → BreaksWith s e.1.names)
    (hvalues : ∀ e ∈ es, ∀ s, e.2.text = .ok s → BreaksWith s e.2.names) (hss : entryTexts es = .ok ss) :
    List.Forall₂ BreaksWith ss (es.map fun e => names e.1 ++ names e.2) := by
  induction es generalizing ss with
  | nil =>
      rw [entryTexts] at hss
      obtain rfl := Except.ok.inj hss
      exact .nil
  | cons e es ih =>
      rw [entryTexts] at hss
      obtain ⟨k, hk, hss⟩ := exists_of_bind hss
      obtain ⟨v, hv, hss⟩ := exists_of_bind hss
      obtain ⟨rest, hrest, hss⟩ := exists_of_bind hss
      obtain rfl := Except.ok.inj hss
      have hkey := (hkeys e (by simp) k hk).before (by decide : OneLine " => ")
      exact .cons (hkey.append (hvalues e (by simp) v hv))
        (ih (fun d hd => hkeys d (by simp [hd])) (fun d hd => hvalues d (by simp [hd])) hrest)

/-- The text of a literal breaks a line exactly if one of its names does. -/
theorem Decoded.breaksWith_text (h : t.Decoded) : ∀ s, t.text = .ok s → BreaksWith s t.names := by
  induction h with
  | cacheRef n | nil =>
      intro s hs
      rw [text] at hs
      exact Except.ok.inj hs ▸ breaksWith_nil (by decide)
  | smallInteger n | integer n =>
      intro s hs
      rw [text] at hs
      exact Except.ok.inj hs ▸ breaksWith_nil (Text.oneLine_append.mpr ⟨by decide, Text.oneLine_hex n⟩)
  | float b | binary b =>
      intro s hs
      rw [text] at hs
      exact Except.ok.inj hs ▸ breaksWith_nil (Text.oneLine_quoted b)
  | newFloat b =>
      intro s hs
      rw [text] at hs
      exact Except.ok.inj hs ▸ breaksWith_nil (Term.oneLine_applied (by decide) (Text.oneLine_quoted b))
  | string b =>
      intro s hs
      rw [text] at hs
      exact Except.ok.inj hs ▸ breaksWith_nil (Text.oneLine_stringText b)
  | smallBig sign b =>
      intro s hs
      rw [text] at hs
      obtain ⟨d, hd, hs⟩ := exists_of_bind hs
      exact Except.ok.inj hs ▸ breaksWith_nil (Term.oneLine_applied (by decide) (Text.oneLine_decimal hd))
  | remoteFun hm hf ha =>
      intro s hs
      rw [text] at hs
      rw [names]
      exact breaksWith_remoteFun ha hs
  | atom form b =>
      intro s hs
      rw [text] at hs
      exact Text.breaksWith_utf8 hs
  | smallTuple _ ih | largeTuple _ ih | list _ ih =>
      intro s hs
      rw [text] at hs
      obtain ⟨ss, hss, hs⟩ := exists_of_bind hs
      obtain rfl := Except.ok.inj hs
      rw [names, namesAll_eq]
      exact ((BreaksWith.intercalate (by decide) (breaksWith_texts ih hss)).behind (by decide)).before (by decide)
  | map _ _ ihkeys ihvalues =>
      intro s hs
      rw [text] at hs
      obtain ⟨ss, hss, hs⟩ := exists_of_bind hs
      obtain rfl := Except.ok.inj hs
      rw [names, namesEntries_eq]
      have hentries := breaksWith_entryTexts ihkeys ihvalues hss
      exact ((BreaksWith.intercalate (by decide) hentries).behind (by decide)).before (by decide)

end ExtTerm

/-! ## Values in a module -/

namespace Module

variable {m : Module} {t : Term} {items : List Term} {s : String}

/-- The bytes of the name at an index of the atom table, if it has one. -/
def atomBytes (m : Module) (i : Index) : List Bytes :=
  match i, m.atoms with
  | .nil, _ | _, none => []
  | i, some table => (table.get i).toOption.toList

/-- The names that the text of an imported function shows. -/
def importNames (m : Module) (i : Index) : List Bytes :=
  match m.imports with
  | none => []
  | some es => (entryAt es i).toOption.toList.flatMap fun e =>
      m.atomBytes (.number e.module) ++ m.atomBytes (.number e.function)

/-- The names that the text of an exported function shows. -/
def exportNames (m : Module) (i : Index) : List Bytes :=
  match m.exports with
  | none => []
  | some es => (entryAt es i).toOption.toList.flatMap fun e => m.atomBytes (.number e.name)

/-- The names in the literal at an index, if there is one. -/
def literalNames (m : Module) (i : Int) : List Bytes :=
  match m.literal i with
  | .ok (some l) => l.names
  | _ => []

mutual

/-- The names that the value of a term shows. -/
def valueNames (m : Module) : Term → List Bytes
  | .atom i => m.atomBytes (if i = 0 then .nil else .number i)
  | .literal i => m.literalNames i
  | .list items => valuesNames m items
  | _ => []

/-- The names that the values of several terms show. -/
def valuesNames (m : Module) : List Term → List Bytes
  | [] => []
  | t :: ts => valueNames m t ++ valuesNames m ts

end

theorem valuesNames_eq : m.valuesNames items = (items.map m.valueNames).flatten := by
  induction items with
  | nil => rfl
  | cons t ts ih => rw [valuesNames, ih, List.map_cons, List.flatten_cons]

theorem breaksWith_atomName {i : Index} {name : Option String} (h : m.atomName i = .ok name) :
    BreaksWith (orNone name) (m.atomBytes i) := by
  cases hatoms : m.atoms with
  | none =>
      have hnone : OneLine (orNone name) ∧ m.atomBytes i = [] := by
        cases i <;> simp only [atomName, hatoms] at h <;> obtain rfl := Except.ok.inj h <;>
          exact ⟨by decide, by simp [atomBytes, hatoms]⟩
      exact hnone.2 ▸ breaksWith_nil hnone.1
  | some table =>
      by_cases hnil : i = .nil
      · subst hnil
        obtain rfl := Except.ok.inj h
        exact breaksWith_nil (by decide)
      · have hname : (do return some (← Text.utf8 (← table.get i))) = Except.ok name := by
          cases i <;> simp_all [atomName]
        have hbytes : m.atomBytes i = (table.get i).toOption.toList := by
          cases i <;> simp_all [atomBytes]
        obtain ⟨b, hb, hname⟩ := exists_of_bind hname
        obtain ⟨text, htext, hname⟩ := exists_of_bind hname
        obtain rfl := Except.ok.inj hname
        rw [hbytes, hb]
        exact Text.breaksWith_utf8 htext

theorem Parsed.decoded_of_literal (hm : m.Parsed) {i : Int} {l : ExtTerm} (h : m.literal i = .ok (some l)) :
    l.Decoded := by
  cases htable : m.literals with
  | none => simp [literal, htable] at h
  | some table =>
      simp only [literal, htable, LiteralTable.get, literalAt] at h
      split_ifs at h
      · obtain ⟨a, ha, hl⟩ := exists_of_map h
        obtain rfl := Option.some.inj hl
        exact hm.literals htable a (mem_of_signedGet ha)
      · simp at h

theorem breaksWith_literalText (hm : m.Parsed) {i : Int} (h : m.literalText i = .ok s) :
    BreaksWith s (m.literalNames i) := by
  obtain ⟨found, hfound, h⟩ := exists_of_bind h
  rw [literalNames, hfound]
  cases found with
  | none =>
      exact breaksWith_nil (Text.oneLine_decimal h)
  | some l =>
      obtain ⟨text, htext, h⟩ := exists_of_bind h
      obtain rfl := Except.ok.inj h
      exact (((hm.decoded_of_literal hfound).breaksWith_text text htext).behind (by decide)).before (by decide)

theorem eq_map_some_of_mapM {vs : List (Option String)} {ss : List String} (h : vs.mapM id = some ss) :
    vs = ss.map some := by
  induction vs generalizing ss with
  | nil => simp_all
  | cons v vs ih =>
      simp only [List.mapM_cons, id_eq, Option.bind_eq_bind, Option.bind_eq_some_iff] at h
      obtain ⟨s, rfl, rest, hrest, h⟩ := h
      obtain rfl := Option.some.inj h
      rw [ih hrest, List.map_cons]

/-- Texts between brackets are all there. -/
theorem exists_of_bracketed {vs : List (Option String)} (h : bracketed vs = .ok s) :
    ∃ ss, vs = ss.map some ∧ s = "[" ++ ", ".intercalate ss ++ "]" := by
  unfold bracketed at h
  split at h
  · next ss hss => exact ⟨ss, eq_map_some_of_mapM hss, (Except.ok.inj h).symm⟩
  · cases h

theorem breaksWith_values {vs : List (Option String)}
    (h : ∀ t ∈ items, ∀ v, m.value t = .ok v → BreaksWith (orNone v) (m.valueNames t)) (hvs : m.values items = .ok vs) :
    List.Forall₂ BreaksWith (vs.map orNone) (items.map m.valueNames) := by
  rw [values_eq_mapM] at hvs
  have hall := (List.forall₂_and_left (p := (· ∈ items)) items vs).mpr ⟨fun t ht => ht, forall₂_of_mapM hvs⟩
  rw [List.forall₂_map_left_iff, List.forall₂_map_right_iff]
  exact hall.flip.imp fun v t ht => h t ht.1 v ht.2

/-- What a term is worth breaks a line exactly if one of the names in it does. -/
theorem breaksWith_value (hm : m.Parsed) (h : t.Decoded) :
    ∀ v, m.value t = .ok v → BreaksWith (orNone v) (m.valueNames t) := by
  induction h with
  | integer n =>
      intro v hv
      rw [value] at hv
      exact Except.ok.inj hv ▸ breaksWith_nil (Text.oneLine_append.mpr ⟨by decide, Text.oneLine_hex _⟩)
  | label n =>
      intro v hv
      rw [value] at hv
      obtain ⟨d, hd, hv⟩ := exists_of_bind hv
      exact Except.ok.inj hv ▸ breaksWith_nil (Text.oneLine_append.mpr ⟨by decide, Text.oneLine_decimal hd⟩)
  | literal n =>
      intro v hv
      rw [value] at hv
      obtain ⟨text, htext, hv⟩ := exists_of_bind hv
      exact Except.ok.inj hv ▸ breaksWith_literalText hm htext
  | atom n =>
      intro v hv
      rw [value] at hv
      obtain ⟨text, htext, hv⟩ := exists_of_bind hv
      obtain ⟨name, hname, htext⟩ := exists_of_bind htext
      obtain rfl := Except.ok.inj htext
      exact Except.ok.inj hv ▸ ((breaksWith_atomName hname).behind (by decide)).before (by decide)
  | xreg _ | yreg _ =>
      intro v hv
      rw [value] at hv
      obtain ⟨d, hd, hv⟩ := exists_of_bind hv
      exact Except.ok.inj hv ▸ breaksWith_nil (Text.oneLine_append.mpr ⟨by decide, Scalar.oneLine_decimal hd⟩)
  | char _ | fpreg _ | alloc _ _ =>
      intro v hv
      rw [value] at hv
      · exact Except.ok.inj hv ▸ breaksWith_nil (by decide)
      all_goals simp
  | typed hr ht _ _ =>
      intro v hv
      rw [value] at hv
      obtain ⟨text, htext, hv⟩ := exists_of_bind hv
      exact Except.ok.inj hv ▸ breaksWith_nil ((Term.Decoded.typed hr ht).oneLine_text text htext)
  | list _ ih =>
      intro v hv
      rw [value] at hv
      obtain ⟨vs, hvs, hv⟩ := exists_of_bind hv
      obtain ⟨line, hline, hv⟩ := exists_of_bind hv
      obtain ⟨ss, rfl, rfl⟩ := exists_of_bracketed hline
      have hparts := breaksWith_values ih hvs
      have hsame : (ss.map some).map orNone = ss := by simp [orNone, Function.comp_def]
      rw [hsame] at hparts
      rw [valueNames, valuesNames_eq]
      exact Except.ok.inj hv ▸ ((BreaksWith.intercalate (by decide) hparts).behind (by decide)).before (by decide)

theorem breaksWith_importText {i : Index} (h : m.importText i = .ok s) :
    BreaksWith s (m.importNames i) := by
  unfold Module.importText at h
  unfold Module.importNames
  cases hes : m.imports with
  | none => simp [hes] at h
  | some es =>
      simp only [hes] at h
      obtain ⟨e, he, h⟩ := exists_of_bind h
      obtain ⟨module, hmodule, h⟩ := exists_of_bind h
      obtain ⟨function, hfunction, h⟩ := exists_of_bind h
      obtain ⟨arity, harity, h⟩ := exists_of_bind h
      obtain rfl := Except.ok.inj h
      have hfront := ((Module.breaksWith_atomName hmodule).behind (by decide : OneLine "<")).before
        (by decide : OneLine ":")
      have hnames := hfront.append (Module.breaksWith_atomName hfunction)
      simp only [he, Except.toOption, Option.toList_some, List.flatMap_singleton]
      exact ((hnames.before (by decide)).before (Text.oneLine_decimal harity)).before (by decide)

theorem breaksWith_exportText {i : Index} (h : m.exportText i = .ok s) :
    BreaksWith s (m.exportNames i) := by
  unfold Module.exportText at h
  unfold Module.exportNames
  cases hes : m.exports with
  | none => simp [hes] at h
  | some es =>
      simp only [hes] at h
      obtain ⟨e, he, h⟩ := exists_of_bind h
      obtain ⟨function, hfunction, h⟩ := exists_of_bind h
      obtain ⟨arity, harity, h⟩ := exists_of_bind h
      obtain rfl := Except.ok.inj h
      have hname := (Module.breaksWith_atomName hfunction).behind (by decide : OneLine "<:")
      simp only [he, Except.toOption, Option.toList_some, List.flatMap_singleton]
      exact ((hname.before (by decide)).before (Text.oneLine_decimal harity)).before (by decide)

end Module

end BeamDisasm
