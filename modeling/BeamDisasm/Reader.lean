import BeamDisasm.Bytes

/-!
# Readers

A reader takes a value from the front of a byte string. Whether it succeeds or not it hands back the bytes
that it left, so that the place where reading stopped is known in both cases.
-/
namespace BeamDisasm

/-- What a reader gives: a value or a fault, and the bytes left. -/
inductive Outcome (α : Type) where
  | ok (value : α) (rest : Bytes)
  | fail (fault : Fault) (rest : Bytes)

/-- A way to read a value from the front of a byte string. -/
def Reader (α : Type) : Type := Bytes → Outcome α

namespace Reader

variable {α β : Type}

/-- Reads nothing and gives `a`. -/
protected def pure (a : α) : Reader α := fun s => .ok a s

/-- Reads with `r`, then with the reader that `f` makes of the value. -/
protected def bind (r : Reader α) (f : α → Reader β) : Reader β := fun s =>
  match r s with
  | .ok a t => f a t
  | .fail e t => .fail e t

instance : Monad Reader where
  pure := Reader.pure
  bind := Reader.bind

@[simp] theorem pure_apply (a : α) (s : Bytes) : (pure a : Reader α) s = .ok a s := rfl

theorem bind_apply (r : Reader α) (f : α → Reader β) (s : Bytes) :
    (r >>= f) s = match r s with
      | .ok a t => f a t
      | .fail e t => .fail e t := rfl

/-- Reads nothing and fails. -/
def fail (e : Fault) : Reader α := fun s => .fail e s

/-- A result that needs no bytes. -/
def lift (x : Except Fault α) : Reader α := fun s =>
  match x with
  | .ok a => .ok a s
  | .error e => .fail e s

/-- The next byte, or the fault `e` at the end of the data. -/
def byte (e : Fault) : Reader UInt8 := fun s =>
  match s with
  | [] => .fail e []
  | b :: t => .ok b t

/-- The next `n` bytes, or all that are left. -/
def upTo (n : Nat) : Reader Bytes := fun s => .ok (s.take n) (s.drop n)

/-- The next `n` bytes. When there are fewer, they are consumed and the field is short. -/
def exactly (n : Nat) : Reader Bytes := fun s =>
  if n ≤ s.length then .ok (s.take n) (s.drop n) else .fail .shortField []

/-- The next `n` bytes as a number. -/
def number (n : Nat) : Reader Nat := do
  let b ← exactly n
  return b.toNat

/-- `n` values, one after the other. -/
def times : Nat → Reader α → Reader (List α)
  | 0, _ => pure []
  | n + 1, r => do
    let a ← r
    let as ← times n r
    return a :: as

/-- Reads values until no byte is left, at most `fuel` of them: the values, the fault that stopped the
reading if there was one, and the bytes left. -/
def drain (r : Reader α) : Nat → Bytes → List α × Option Fault × Bytes
  | 0, s => ([], none, s)
  | _ + 1, [] => ([], none, [])
  | fuel + 1, b :: s =>
    match r (b :: s) with
    | .ok a t =>
      let (as, e, u) := drain r fuel t
      (a :: as, e, u)
    | .fail e t => ([], some e, t)

/-- Reads values until no byte is left. A reader that consumes at least one byte each time needs no more
turns than there are bytes. -/
def untilEnd (r : Reader α) : Reader (List α) := fun s =>
  match drain r s.length s with
  | (as, none, t) => .ok as t
  | (_, some e, t) => .fail e t

/-- The value that a reader gives for a whole byte string, whatever it leaves. -/
def run (r : Reader α) (s : Bytes) : Except Fault α :=
  match r s with
  | .ok a _ => .ok a
  | .fail e _ => .error e

end Reader

end BeamDisasm
