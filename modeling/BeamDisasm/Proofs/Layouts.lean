import BeamDisasm.Instruction.Text
import BeamDisasm.Proofs.Steps

/-!
# What a layout writes

The fields of a layout are looked up from left to right, and only then the slots are filled. A text comes out exactly if
every field is worth something and every slot can write it. `Layout.Writes` says so piece by piece, without the list of
filled pieces in between.
-/
namespace BeamDisasm

/-- The position of the operand that a field holds. -/
def Field.position : Field → Nat
  | .index i | .value i | .operand i | .atom i | .imported i | .exported i | .payload i | .count i | .reference i => i
  | .cases _ i => i

namespace Layout

/-- The pieces are written as a text, where fields have their worth. -/
inductive Writes (worth : Field → Except Fault Argument) : List (Piece Field) → String → Prop where
  | nil : Writes worth [] ""
  | text {ps : List (Piece Field)} {r : String} (t : String) (h : Writes worth ps r) :
      Writes worth (.text t :: ps) (t ++ r)
  | slot {ps : List (Piece Field)} {r t : String} {style : Style} {f : Field} {a : Argument} (ha : worth f = .ok a)
      (ht : a.format style = .ok t) (h : Writes worth ps r) : Writes worth (.slot style f :: ps) (t ++ r)

variable {worth : Field → Except Fault Argument} {ps : List (Piece Field)} {s : String}

theorem writes_of_render {filled : List (Piece Argument)} (hfilled : Instruction.pieces worth ps = .ok filled)
    (hs : render filled = .ok s) : Writes worth ps s := by
  induction ps generalizing filled s with
  | nil =>
      obtain rfl := Except.ok.inj hfilled
      exact Except.ok.inj hs ▸ .nil
  | cons p ps ih =>
      cases p with
      | text t =>
          obtain ⟨rest, hrest, hfilled⟩ := exists_of_bind hfilled
          obtain rfl := Except.ok.inj hfilled
          obtain ⟨r, hr, hs⟩ := exists_of_bind hs
          exact Except.ok.inj hs ▸ .text t (ih hrest hr)
      | slot style f =>
          obtain ⟨a, ha, hfilled⟩ := exists_of_bind hfilled
          obtain ⟨rest, hrest, hfilled⟩ := exists_of_bind hfilled
          obtain rfl := Except.ok.inj hfilled
          obtain ⟨t, ht, hs⟩ := exists_of_bind hs
          obtain ⟨r, hr, hs⟩ := exists_of_bind hs
          exact Except.ok.inj hs ▸ .slot ha ht (ih hrest hr)

theorem Writes.exists_render (h : Writes worth ps s) :
    ∃ filled, Instruction.pieces worth ps = .ok filled ∧ render filled = .ok s := by
  induction h with
  | nil => exact ⟨[], rfl, rfl⟩
  | text t _ ih =>
      obtain ⟨filled, hfilled, hs⟩ := ih
      refine ⟨.text t :: filled, ?_, ?_⟩
      · simp [Instruction.pieces, hfilled, bind, Except.bind, pure, Except.pure]
      · simp [render, hs, bind, Except.bind, pure, Except.pure]
  | @slot ps r t style f a ha ht _ ih =>
      obtain ⟨filled, hfilled, hs⟩ := ih
      refine ⟨.slot style a :: filled, ?_, ?_⟩
      · simp [Instruction.pieces, ha, hfilled, bind, Except.bind, pure, Except.pure]
      · simp [render, ht, hs, bind, Except.bind, pure, Except.pure]

/-- Pieces are written exactly if each of their slots can be. -/
theorem exists_writes_iff : (∃ s, Writes worth ps s) ↔
    ∀ style f, .slot style f ∈ ps → ∃ a t, worth f = .ok a ∧ a.format style = .ok t := by
  constructor
  · rintro ⟨s, hs⟩
    induction hs with
    | nil => simp
    | text t _ ih => simpa using ih
    | @slot ps r t style f a ha ht _ ih =>
        intro style' f' hf
        rcases List.mem_cons.mp hf with heq | hf
        · cases heq
          exact ⟨a, t, ha, ht⟩
        · exact ih style' f' hf
  · intro h
    induction ps with
    | nil => exact ⟨"", .nil⟩
    | cons p ps ih =>
        obtain ⟨r, hr⟩ := ih fun style f hf => h style f (List.mem_cons_of_mem p hf)
        cases p with
        | text t => exact ⟨t ++ r, .text t hr⟩
        | slot style f =>
            obtain ⟨a, t, ha, ht⟩ := h style f (by simp)
            exact ⟨t ++ r, .slot ha ht hr⟩

end Layout

/-- An instruction is laid out exactly if the fields that are looked at first are worth something and the pieces are
written. -/
theorem Instruction.laidOut_eq_ok_iff {inst : Instruction} {worth : Field → Except Fault Argument}
    {notes : List String} {first : List Field} {ps : List (Piece Field)} {s : String} :
    inst.laidOut worth notes first ps = .ok s ↔
      (∀ f ∈ first, ∃ a, worth f = .ok a) ∧
      ∃ r, Layout.Writes worth ps r ∧ s = head notes inst.operation.mnemonic ++ r := by
  constructor
  · intro h
    obtain ⟨looked, hlooked, h⟩ := exists_of_bind h
    obtain ⟨filled, hfilled, h⟩ := exists_of_bind h
    obtain ⟨r, hr, h⟩ := exists_of_bind h
    exact ⟨exists_mapM_ok_iff.mp ⟨looked, hlooked⟩, r, Layout.writes_of_render hfilled hr, (Except.ok.inj h).symm⟩
  · intro h
    obtain ⟨hfirst, r, hr, rfl⟩ := h
    obtain ⟨looked, hlooked⟩ := exists_mapM_ok_iff.mpr hfirst
    obtain ⟨filled, hfilled, hrender⟩ := hr.exists_render
    simp [laidOut, hlooked, hfilled, hrender, bind, Except.bind, pure, Except.pure]

end BeamDisasm
