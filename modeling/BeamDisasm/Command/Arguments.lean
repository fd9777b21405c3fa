/-!
# The command line

Options have a short name of one letter and a long name, which may be cut short where it stays clear. The value of
an option is the next word, or stands in the same word: behind the letter, or behind an equals sign. Whether a word
is an option is decided for all words before any of them is acted on.
-/
namespace BeamDisasm

/-- What a command is asked to do. -/
structure Options where
  outputDir : String := "beamcode"
  searchDir : Option String := none
  file : Option String := none
  deriving Repr, DecidableEq

/-- What a command line asks for. -/
inductive Request where
  | options (o : Options)
  | help
  | invalid
  deriving Repr, DecidableEq

namespace Arguments

/-- The options there are. -/
inductive Flag where
  | help
  | outputDir
  | searchDir
  | file
  deriving Repr, DecidableEq

/-- The short names. -/
def shortNames : List (Char × Flag) :=
  [('h', .help), ('o', .outputDir), ('s', .searchDir), ('f', .file)]

/-- The long names. -/
def longNames : List (List Char × Flag) :=
  [("help".toList, .help), ("output-dir".toList, .outputDir), ("search".toList, .searchDir),
    ("file".toList, .file)]

/-- What a word of the command line is. -/
inductive Word where
  /-- A value. -/
  | plain (s : String)
  /-- An option by its short name, with the value in the word. -/
  | short (flag : Flag) (value : Option (List Char))
  /-- A request for help by its short name, with the letters behind it. -/
  | help (letters : List Char)
  /-- An option by its long name, with the value in the word. -/
  | long (flag : Flag) (value : Option (List Char))
  /-- A word that nothing can be made of. -/
  | leftover
  deriving Repr

/-- Cuts a text at its first equals sign. -/
def cutAtEquals (cs : List Char) : List Char × Option (List Char) :=
  match cs.dropWhile (· ≠ '=') with
  | [] => (cs, none)
  | _ :: rest => (cs.takeWhile (· ≠ '='), some rest)

/-- The zeros of the scripts that write numbers in base ten; the other nine digits stand right behind each. -/
def zeros : List Nat :=
  [0x30, 0x660, 0x6F0, 0x7C0, 0x966, 0x9E6, 0xA66, 0xAE6, 0xB66, 0xBE6, 0xC66, 0xCE6, 0xD66, 0xDE6, 0xE50, 0xED0,
    0xF20, 0x1040, 0x1090, 0x17E0, 0x1810, 0x1946, 0x19D0, 0x1A80, 0x1A90, 0x1B50, 0x1BB0, 0x1C40, 0x1C50, 0xA620,
    0xA8D0, 0xA900, 0xA9D0, 0xA9F0, 0xAA50, 0xABF0, 0xFF10, 0x104A0, 0x10D30, 0x11066, 0x110F0, 0x11136, 0x111D0,
    0x112F0, 0x11450, 0x114D0, 0x11650, 0x116C0, 0x11730, 0x118E0, 0x11950, 0x11C50, 0x11D50, 0x11DA0, 0x16A60,
    0x16AC0, 0x16B50, 0x1D7CE, 0x1D7D8, 0x1D7E2, 0x1D7EC, 0x1D7F6, 0x1E140, 0x1E2F0, 0x1E950, 0x1FBF0]

/-- A digit of some script. -/
def isDigit (c : Char) : Bool := zeros.any fun start => start ≤ c.toNat && c.toNat < start + 10

/-- A text without the line break at its end. -/
def withoutBreak : List Char → List Char
  | [] => []
  | ['\n'] => []
  | c :: cs => c :: withoutBreak cs

/-- A number below zero, without its sign: digits, or digits behind a point that others may stand before. -/
def isMagnitude (cs : List Char) : Bool :=
  match cs.dropWhile isDigit with
  | [] => !cs.isEmpty
  | '.' :: rest => !rest.isEmpty && rest.all isDigit
  | _ => false

/-- A word that starts with a dash and names no option: a number and a text with blanks are values. -/
def otherWord (cs : List Char) : Word :=
  if isMagnitude (withoutBreak (cs.drop 1)) ∨ cs.contains ' ' then .plain (String.ofList cs) else .leftover

/-- The options with a long name that starts with the given text. -/
def abbreviated (name : List Char) : List Flag :=
  (longNames.filter fun n => name.isPrefixOf n.1).map Prod.snd

/-- A word that starts with two dashes; none if its name is not clear. -/
def longWord (cs : List Char) : Option Word :=
  let (name, value) := cutAtEquals (cs.drop 2)
  match longNames.lookup name with
  | some flag => some (.long flag value)
  | none => match abbreviated name with
    | [] => some (otherWord cs)
    | [flag] => some (.long flag value)
    | _ => none

/-- A word that starts with one dash. An equals sign behind the letter does not belong to the value. -/
def shortWord (cs : List Char) : Word :=
  match cs with
  | _ :: c :: rest => match shortNames.lookup c with
    | some .help => .help rest
    | some flag => .short flag (match rest with
      | [] => none
      | '=' :: value => some value
      | value => some value)
    | none => otherWord cs
  | _ => .plain (String.ofList cs)

/-- What a word is; none if its name is not clear. -/
def classify (s : String) : Option Word :=
  match s.toList with
  | '-' :: '-' :: rest => longWord ('-' :: '-' :: rest)
  | '-' :: rest => some (shortWord ('-' :: rest))
  | _ => some (.plain s)

/-- What the words are. Behind a word of two dashes alone all words are values. -/
def classifyAll : List String → Option (List Word)
  | [] => some []
  | s :: ss =>
    if s = "--" then some (.leftover :: ss.map .plain)
    else do
      let w ← classify s
      let ws ← classifyAll ss
      return w :: ws

/-- The options with the value of one of them set. -/
def set (o : Options) (flag : Flag) (value : String) : Options :=
  match flag with
  | .help => o
  | .outputDir => { o with outputDir := value }
  | .searchDir => { o with searchDir := some value }
  | .file => { o with file := some value }

/-- Letters behind the one that asks for help are options too. They are in order unless one of them lacks its value or
a request for help is given one; an unknown letter does no harm. The argument `follows` says that the next word is a
value. -/
def isClear (follows : Bool) : List Char → Bool
  | [] => true
  | c :: cs =>
    if c = '=' ∨ c = '-' then false
    else match shortNames.lookup c with
      | none => true
      | some .help => isClear follows cs
      | some _ => !cs.isEmpty || follows

/-- The next word is a value. -/
def valueFollows : List Word → Bool
  | .plain _ :: _ => true
  | _ => false

/-- Acts on words in order. Words that are left over spoil the command line unless help is asked for. -/
def act (o : Options) (clean : Bool) : List Word → Request
  | [] => if clean then .options o else .invalid
  | .plain _ :: ws => act o false ws
  | .leftover :: ws => act o false ws
  | .long .help none :: _ => .help
  | .long .help (some _) :: _ => .invalid
  | .help letters :: ws => if isClear (valueFollows ws) letters then .help else .invalid
  | .long flag (some value) :: ws => act (set o flag (String.ofList value)) clean ws
  | .short flag (some value) :: ws => act (set o flag (String.ofList value)) clean ws
  | .long flag none :: .plain value :: ws => act (set o flag value) clean ws
  | .short flag none :: .plain value :: ws => act (set o flag value) clean ws
  | .long _ none :: _ => .invalid
  | .short _ none :: _ => .invalid

/-- What a command line asks for. -/
def parse (words : List String) : Request :=
  match classifyAll words with
  | none => .invalid
  | some ws => act {} true ws

end Arguments

end BeamDisasm
