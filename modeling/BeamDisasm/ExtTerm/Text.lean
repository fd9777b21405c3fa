import BeamDisasm.ExtTerm.Basic
import BeamDisasm.Term.Text
import BeamDisasm.Text.Utf8

/-!
# External terms as text

A term has a text, which stands for it inside other terms and in listings, and a longer form that names its
kind.
-/
namespace BeamDisasm.ExtTerm

/-- The name of the kind of a term. -/
def kindName : ExtTerm → String
  | .bare _ => "BeamValueExt"
  | .cacheRef _ => "BeamAtomCacheRef"
  | .smallInteger _ => "BeamSmallIntegerExt"
  | .integer _ => "BeamIntegerExt"
  | .float _ => "BeamFloatExt"
  | .newFloat _ => "BeamNewFloatExt"
  | .smallTuple _ => "BeamSmallTupleExt"
  | .largeTuple _ => "BeamLargeTupleExt"
  | .map _ => "BeamMapExt"
  | .list _ => "BeamListExt"
  | .nil => "BeamNilExt"
  | .string _ => "BeamStringExt"
  | .binary _ => "BeamBinaryExt"
  | .smallBig _ _ => "BeamSmallBigExt"
  | .largeBig _ _ => "BeamLargeBigExt"
  | .remoteFun _ _ _ => "BeamExportExt"
  | .atom .utf8 _ => "BeamAtomUtf8Ext"
  | .atom .smallUtf8 _ => "BeamSmallAtomUtf8Ext"
  | .atom .latin _ => "BeamAtomExt"
  | .atom .smallLatin _ => "BeamSmallAtomExt"
  | .misfit kind _ => kindName kind
  | .loose _ => ""

/-- A text on one line: line feeds and carriage returns are escaped. -/
def oneLine (cs : List Char) : List Char :=
  cs.flatMap fun c =>
    if c = '\n' then ['\\', 'n'] else if c = '\r' then ['\\', 'r'] else [c]

/-- The characters of a string between quotation marks. -/
def stringText (chars : Bytes) : String :=
  String.ofList ('"' :: (oneLine (Text.latin1 chars) ++ ['"']))

/-- A name of a remote function, which has to be bytes. -/
def namePart : Scalar → Except Fault String
  | .raw b => Text.utf8 b
  | _ => .error .noSuchPart

/-- The text of a remote function. -/
def remoteFunText (m f a : Scalar) : Except Fault String := do
  let ms ← namePart m
  let fs ← namePart f
  return "fun " ++ ms ++ ":" ++ fs ++ "/" ++ (← a.plain)

/-- The text of a number that has to be one, in hexadecimal digits. -/
def hexText : Scalar → Except Fault String
  | .number n => .ok ("0x" ++ Text.hex n)
  | _ => .error .unusableKind

/-- The text of a misfit of a kind. What needs bytes finds no text in another value, and what needs members or
digits cannot use it. -/
def misfitText (kind : ExtTerm) (v : Scalar) : Except Fault String :=
  match kind with
  | .cacheRef _ => .ok "BeamAtomCacheRef()"
  | .smallInteger _ | .integer _ => hexText v
  | .float _ | .binary _ => v.plain
  | .string _ | .atom _ _ => .error .noSuchPart
  | .smallBig _ _ | .largeBig _ _ => do
    let digits ← misfitDigits v
    return Term.applied kind.kindName (← digits.plain)
  | .smallTuple _ | .largeTuple _ => .error .unusableKind
  | _ => do return Term.applied kind.kindName (← v.plain)

mutual

/-- The text of a term. -/
def text : ExtTerm → Except Fault String
  | .bare v => do return Term.applied "BeamValueExt" (← v.plain)
  | .cacheRef _ => .ok "BeamAtomCacheRef()"
  | .smallInteger n => .ok ("0x" ++ Text.hex n)
  | .integer n => .ok ("0x" ++ Text.hex n)
  | .float b => .ok (Text.quoted b)
  | .newFloat b => .ok (Term.applied "BeamNewFloatExt" (Text.quoted b))
  | .smallTuple ms => do return "(" ++ ", ".intercalate (← texts ms) ++ ")"
  | .largeTuple ms => do return "(" ++ ", ".intercalate (← texts ms) ++ ")"
  | .map es => do return "\x7b" ++ ", ".intercalate (← entryTexts es) ++ "\x7d"
  | .list ms => do return "[" ++ ", ".intercalate (← texts ms) ++ "]"
  | .nil => .ok "NIL"
  | .string b => .ok (stringText b)
  | .binary b => .ok (Text.quoted b)
  | .smallBig s b => do return Term.applied "BeamSmallBigExt" (← Text.decimal (bigValue s b))
  | .largeBig s b => do return Term.applied "BeamLargeBigExt" (← Text.decimal (bigValue s b))
  | .remoteFun m f a => remoteFunText m f a
  | .atom _ b => Text.utf8 b
  | .misfit kind v => misfitText kind v
  | .loose v => v.plain

/-- The texts of the members of a tuple or a list. -/
def texts : List ExtTerm → Except Fault (List String)
  | [] => .ok []
  | t :: ts => do
    let s ← text t
    let ss ← texts ts
    return s :: ss

/-- The texts of the entries of a map. -/
def entryTexts : List (ExtTerm × ExtTerm) → Except Fault (List String)
  | [] => .ok []
  | (k, v) :: es => do
    let a ← text k
    let b ← text v
    let ss ← entryTexts es
    return (a ++ " => " ++ b) :: ss

end

/-- The form of a term that names its kind. Tuples, maps and functions have no other form than their text, and lists
show nothing but their kind. -/
def shown : ExtTerm → Except Fault String
  | .cacheRef n => do return Term.applied "BeamAtomCacheRef" (← Text.decimal n)
  | .smallInteger n => do return Term.applied "BeamSmallIntegerExt" (← Text.decimal n)
  | .integer n => do return Term.applied "BeamIntegerExt" (← Text.decimal n)
  | .float b => .ok (Term.applied "BeamFloatExt" (Text.quoted b))
  | .atom form b => .ok (Term.applied (kindName (.atom form b)) (Text.quoted b))
  | .misfit (.binary _) v => v.plain
  | .misfit (.string _) v => misfitText (.string []) v
  | .misfit (.smallBig s b) v => misfitText (.smallBig s b) v
  | .misfit (.largeBig s b) v => misfitText (.largeBig s b) v
  | .misfit (.smallTuple ms) v => misfitText (.smallTuple ms) v
  | .misfit (.largeTuple ms) v => misfitText (.largeTuple ms) v
  | .misfit kind v => do return Term.applied (kindName kind) (← v.plain)
  | .list _ => .ok "<beam.ext.BeamListExt object>"
  | .nil => .ok "<beam.ext.BeamNilExt object>"
  | t => t.text

end BeamDisasm.ExtTerm
