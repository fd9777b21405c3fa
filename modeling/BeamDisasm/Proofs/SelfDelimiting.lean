import BeamDisasm.Proofs.TermBounds

/-!
# Readings that end by themselves

At the end of the data a reader may be given fewer bytes than it asked for, and nothing tells it so. But then no byte
is left. A reading that leaves a byte was given all that it asked for, at every level of what it read; so the bytes that
it took fix its value, whatever follows them.
-/
namespace BeamDisasm

namespace Reader

variable {α β : Type} {r : Reader α} {f : α → Reader β}

/-- Where a reading leaves a byte, the bytes that it took are read to the same value in front of any others. -/
def SelfDelimiting (r : Reader α) : Prop :=
  ∀ s a t, r s = .ok a t → t ≠ [] → ∃ used, s = used ++ t ∧ Reads r used a

/-- A reading that stops before the end of the data stops there too when the data go on in another way. -/
theorem SelfDelimiting.take_append (h : SelfDelimiting r) {s : Bytes} {k : Nat} {a : α} (hk : k < s.length)
    (hr : r s = .ok a (s.drop k)) (t : Bytes) : r (s.take k ++ t) = .ok a t := by
  have hleft : s.drop k ≠ [] := by
    rw [ne_eq, List.drop_eq_nil_iff]
    omega
  obtain ⟨used, hs, hused⟩ := h s a _ hr hleft
  have htake : s.take k = used := List.append_cancel_right ((List.take_append_drop k s).trans hs)
  rw [htake]
  exact hused t

theorem selfDelimiting_pure (a : α) : SelfDelimiting (pure a) := by
  intro s b t h _
  simp only [pure_apply, Outcome.ok.injEq] at h
  obtain ⟨rfl, rfl⟩ := h
  exact ⟨[], rfl, reads_pure a⟩

theorem selfDelimiting_fail (e : Fault) : SelfDelimiting (fail e : Reader α) := by
  intro s a t h
  simp [fail] at h

theorem selfDelimiting_lift (x : Except Fault α) : SelfDelimiting (lift x) := by
  cases x with
  | ok a => exact selfDelimiting_pure a
  | error e => exact selfDelimiting_fail e

theorem selfDelimiting_byte (e : Fault) : SelfDelimiting (byte e) := by
  intro s b t h _
  cases s with
  | nil => simp [byte] at h
  | cons d s =>
      simp only [byte, Outcome.ok.injEq] at h
      obtain ⟨rfl, rfl⟩ := h
      exact ⟨[d], rfl, reads_byte e d⟩

/-- Fewer bytes than asked for are given at the end of the data only. -/
theorem selfDelimiting_upTo (n : Nat) : SelfDelimiting (upTo n) := by
  intro s b t h ht
  simp only [upTo, Outcome.ok.injEq] at h
  obtain ⟨rfl, rfl⟩ := h
  have hlength : (s.take n).length = n := by
    rw [ne_eq, List.drop_eq_nil_iff] at ht
    rw [List.length_take]
    omega
  exact ⟨s.take n, (List.take_append_drop n s).symm, reads_upTo hlength⟩

/-- What the second reader leaves the first one has left too. -/
theorem SelfDelimiting.bind (hr : SelfDelimiting r) (hf : ∀ a, SelfDelimiting (f a)) : SelfDelimiting (r >>= f) := by
  intro s b t h ht
  obtain ⟨a, u, hra, hfa⟩ := exists_of_bind_eq_ok h
  obtain ⟨more, rfl, hmore⟩ := hf a u b t hfa ht
  obtain ⟨used, rfl, hused⟩ := hr s a _ hra (by simp [ht])
  exact ⟨used ++ more, (List.append_assoc _ _ _).symm, hused.bind hmore⟩

theorem SelfDelimiting.times (hr : SelfDelimiting r) (n : Nat) : SelfDelimiting (times n r) := by
  induction n with
  | zero => exact selfDelimiting_pure []
  | succ n ih => exact hr.bind fun _ => ih.bind fun _ => selfDelimiting_pure _

/-- A reader that is run with fuel for its bytes. With fuel for the data as they are and as they might go on, both are
read by one reader. -/
theorem selfDelimiting_of_fuel {F : Nat → Reader α} (hF : ∀ n, SelfDelimiting (F n))
    (hr : ∀ n s, s.length ≤ n → r s = F n s) : SelfDelimiting r := by
  intro s a t h ht
  obtain ⟨used, rfl, -⟩ := hF s.length s a t (hr _ s (Nat.le_refl _) ▸ h) ht
  refine ⟨used, rfl, fun more => ?_⟩
  have hfuel : (used ++ t).length ≤ (used ++ t).length + more.length := Nat.le_add_right _ _
  have hmore : (used ++ more).length ≤ (used ++ t).length + more.length := by
    simp only [List.length_append]
    omega
  obtain ⟨used', hused', hreads⟩ := hF _ _ a t (hr _ _ hfuel ▸ h) ht
  obtain rfl : used = used' := List.append_cancel_right hused'
  rw [hr _ _ hmore]
  exact hreads more

end Reader

open Reader

/-! ## Compact terms -/

namespace Term

section Inner

variable {inner : Reader Term}

theorem selfDelimiting_payload (n : Int) : SelfDelimiting (payload n) := by
  unfold payload
  split
  · exact selfDelimiting_fail _
  · exact (selfDelimiting_upTo _).bind fun _ => selfDelimiting_pure _

theorem selfDelimiting_basicValue (h : SelfDelimiting inner) (b : UInt8) : SelfDelimiting (basicValue inner b) := by
  unfold basicValue
  split_ifs
  · exact selfDelimiting_pure _
  · exact (selfDelimiting_byte _).bind fun _ => selfDelimiting_pure _
  · exact h.bind fun _ => (selfDelimiting_lift _).bind fun _ => (selfDelimiting_lift _).bind
      fun _ => selfDelimiting_payload _
  · exact selfDelimiting_payload _

theorem selfDelimiting_plainLiteral (h : SelfDelimiting inner) : SelfDelimiting (plainLiteral inner) := by
  refine h.bind fun t => ?_
  split
  · exact selfDelimiting_pure _
  · exact selfDelimiting_fail _

theorem selfDelimiting_counted {α : Type} {item : Reader α} (h : SelfDelimiting inner) (hitem : SelfDelimiting item) :
    SelfDelimiting (counted inner item) :=
  h.bind fun _ => (selfDelimiting_lift _).bind fun _ => (selfDelimiting_lift _).bind fun _ => hitem.times _

theorem selfDelimiting_pair (h : SelfDelimiting inner) : SelfDelimiting (pair inner) :=
  h.bind fun _ => h.bind fun _ => selfDelimiting_pure _

theorem selfDelimiting_extended (h : SelfDelimiting inner) (tag : UInt8) : SelfDelimiting (extended inner tag) := by
  unfold extended
  split_ifs
  · exact h.bind fun _ => h.bind fun _ => selfDelimiting_pure _
  · exact selfDelimiting_plainLiteral h
  · exact (selfDelimiting_counted h h).bind fun _ => selfDelimiting_pure _
  · exact (selfDelimiting_counted h (selfDelimiting_pair h)).bind fun _ => selfDelimiting_pure _
  · refine (selfDelimiting_plainLiteral h).bind fun t => ?_
    split
    · exact selfDelimiting_pure _
    · exact selfDelimiting_fail _
  · exact selfDelimiting_fail _

theorem selfDelimiting_step (h : SelfDelimiting inner) : SelfDelimiting (step inner) := by
  refine (selfDelimiting_byte _).bind fun b => ?_
  split
  · exact selfDelimiting_extended h b
  · exact (selfDelimiting_basicValue h b).bind fun _ => selfDelimiting_lift _

end Inner

theorem selfDelimiting_readFuel (n : Nat) : SelfDelimiting (readFuel n) := by
  induction n with
  | zero => exact selfDelimiting_fail _
  | succ n ih => exact selfDelimiting_step ih

theorem selfDelimiting_read : SelfDelimiting read :=
  selfDelimiting_of_fuel selfDelimiting_readFuel fun n s hs => agreeBelow_read n s (Nat.lt_succ_of_le hs)

end Term

/-! ## Instructions -/

namespace Instruction

theorem selfDelimiting_read : SelfDelimiting read :=
  (selfDelimiting_byte _).bind fun _ => (selfDelimiting_lift _).bind fun operation =>
    (Term.selfDelimiting_read.times operation.arity).bind fun _ => selfDelimiting_pure _

/-- A term or an instruction that was read without the last byte of the data is read from the bytes in front of the
place where the reading stopped, and reading stops there again, whatever follows. -/
theorem reading_self_delimiting :
    (∀ (s : Bytes) (k : Nat) (term : Term), k < s.length → Term.read s = .ok term (s.drop k) →
      ∀ t, Term.read (s.take k ++ t) = .ok term t) ∧
    ∀ (s : Bytes) (k : Nat) (inst : Instruction), k < s.length → read s = .ok inst (s.drop k) →
      ∀ t, read (s.take k ++ t) = .ok inst t :=
  ⟨fun _ _ _ hk h => Term.selfDelimiting_read.take_append hk h, fun _ _ _ hk h => selfDelimiting_read.take_append hk h⟩

/-- A typed register: a list that counts its items by an X register, with a number in more bytes than it needs and one
whose length is a term itself. -/
def oddlyWritten : Bytes :=
  [0x57, 0x17, 0x23, 0x08, 0x05, 0xF8, 0x00, 0, 0, 0, 0, 0, 0, 0, 0, 7, 0x10]

/-- What `oddlyWritten` is read to. -/
def plainlyWritten : Term :=
  .typed (.list [.literal 5, .literal 7]) (.literal 1)

/-- The term alone, and a move of it to the X register 3. -/
theorem reading_self_delimiting_oddlyWritten :
    (Term.read (oddlyWritten ++ [0xFF]) = .ok plainlyWritten [0xFF] ∧
      ∀ t, Term.read (oddlyWritten ++ t) = .ok plainlyWritten t) ∧
    ∃ inst, inst.operands = [plainlyWritten, .xreg (.number 3)] ∧
      read (64 :: oddlyWritten ++ [0x33, 0xFF]) = .ok inst [0xFF] ∧
      ∀ t, read (64 :: oddlyWritten ++ [0x33] ++ t) = .ok inst t := by
  have hterm : Term.read (oddlyWritten ++ [0xFF]) = .ok plainlyWritten [0xFF] := rfl
  obtain ⟨inst, hinst, hoperands⟩ : ∃ inst, read (64 :: oddlyWritten ++ [0x33, 0xFF]) = .ok inst [0xFF] ∧
      inst.operands = [plainlyWritten, .xreg (.number 3)] := ⟨_, rfl, rfl⟩
  exact ⟨⟨hterm, reading_self_delimiting.1 _ 17 _ (by decide) hterm⟩, inst, hoperands, hinst,
    reading_self_delimiting.2 _ 19 _ (by decide) hinst⟩

end Instruction

end BeamDisasm
