/-!
# Paths

Paths are texts with slashes between their components.
-/
namespace BeamDisasm.Path

/-- The last component of a path: what stands behind the last slash. -/
def baseChars (p : List Char) : List Char :=
  (p.reverse.takeWhile (· ≠ '/')).reverse

/-- A path up to its last slash, without slashes at the end unless there is nothing else. -/
def directoryChars (p : List Char) : List Char :=
  let head := (p.reverse.dropWhile (· ≠ '/')).reverse
  if head.all (· == '/') then head else (head.reverse.dropWhile (· == '/')).reverse

/-- A path below a directory. A path that starts with a slash stands for itself. -/
def joinChars (dir p : List Char) : List Char :=
  if p.head? = some '/' then p
  else if dir = [] ∨ dir.getLast? = some '/' then dir ++ p
  else dir ++ '/' :: p

/-- The last component of a path. -/
def base (p : String) : String := String.ofList (baseChars p.toList)

/-- The directory of a path. -/
def directory (p : String) : String := String.ofList (directoryChars p.toList)

/-- A path below a directory. -/
def join (dir p : String) : String := String.ofList (joinChars dir.toList p.toList)

/-- Cuts a text at its slashes. -/
def cutChars : List Char → List (List Char)
  | [] => [[]]
  | c :: cs =>
    match cutChars cs with
    | [] => [[c]]
    | part :: parts => if c = '/' then [] :: part :: parts else (c :: part) :: parts

/-- The components of a path. -/
def components (p : String) : List String :=
  (cutChars p.toList).map String.ofList

/-- The text ends with an ending that is given in small letters, in letters of either case. -/
def hasEnding (ending p : String) : Bool :=
  ending.toList.reverse.isPrefixOf (p.toList.map Char.toLower).reverse

end BeamDisasm.Path
