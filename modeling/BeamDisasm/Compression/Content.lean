import BeamDisasm.Bytes

/-!
# Content

Content is handed out from the front. What comes before a damaged place can be read in part, and reading on past it
fails. How large the part is follows from the buffers between the content and its reader, and no format tells it.
-/
namespace BeamDisasm.Compression

/-- The bytes that can be read, and the fault that stops the reading behind them if they are not all there is. -/
structure Content where
  bytes : Bytes
  stop : Option Fault := none
  deriving Repr, DecidableEq

/-- How many bytes are handed out before a damage shows, of all the bytes in front of it. -/
abbrev Handout := Nat → Nat

/-- The content up to the place where its damage shows. -/
def Content.handedOut (c : Content) (h : Handout) : Content :=
  { c with bytes := c.bytes.take (h c.bytes.length) }

/-- All bytes of content that is whole. -/
def Content.whole (c : Content) : Except Fault Bytes :=
  match c.stop with
  | none => .ok c.bytes
  | some e => .error e

end BeamDisasm.Compression
