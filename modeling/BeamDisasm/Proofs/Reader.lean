import BeamDisasm.Proofs.Bytes
import BeamDisasm.Reader
import Mathlib.Data.List.Forall2

/-!
# What readers read

A reader reads `a` from the bytes `b` when it takes exactly `b` from the front of any data that start with `b`. The
bytes behind are arbitrary, so that readings compose: what one reader leaves is what the next one starts with.
-/
namespace BeamDisasm.Reader

variable {α β : Type}

/-- The reader takes `a` from the bytes `b`, and leaves what follows them. -/
def Reads (r : Reader α) (b : Bytes) (a : α) : Prop :=
  ∀ rest, r (b ++ rest) = .ok a rest

theorem reads_pure (a : α) : Reads (pure a) [] a := fun _ => rfl

theorem reads_lift (a : α) : Reads (lift (.ok a)) [] a := fun _ => rfl

theorem reads_byte (e : Fault) (b : UInt8) : Reads (byte e) [b] b := fun _ => rfl

/-- What follows a reading goes on with its value and with the bytes behind. -/
theorem Reads.bind_append {r : Reader α} {b : Bytes} {a : α} (h : Reads r b a) (f : α → Reader β)
    (s : Bytes) : (r >>= f) (b ++ s) = f a s := by
  rw [bind_apply, h s]

theorem Reads.bind {r : Reader α} {f : α → Reader β} {b c : Bytes} {a : α} {d : β}
    (hr : Reads r b a) (hf : Reads (f a) c d) : Reads (r >>= f) (b ++ c) d := by
  intro rest
  rw [List.append_assoc, hr.bind_append]
  exact hf rest

/-- A second reader that takes no bytes. -/
theorem Reads.bind_nil {r : Reader α} {f : α → Reader β} {b : Bytes} {a : α} {d : β}
    (hr : Reads r b a) (hf : Reads (f a) [] d) : Reads (r >>= f) b d := by
  have h := hr.bind hf
  rwa [List.append_nil] at h

/-- A value that is only wrapped needs no more bytes. -/
theorem Reads.map {r : Reader α} {b : Bytes} {a : α} (hr : Reads r b a) (g : α → β) :
    Reads (do let x ← r; return g x) b (g a) :=
  hr.bind_nil (reads_pure (g a))

theorem reads_upTo {n : Nat} {b : Bytes} (h : b.length = n) : Reads (upTo n) b b := by
  intro rest
  subst h
  simp [upTo]

theorem reads_exactly {n : Nat} {b : Bytes} (h : b.length = n) : Reads (exactly n) b b := by
  intro rest
  subst h
  simp [exactly]

/-- A number that fits its field is read back from it. -/
theorem reads_number {width n : Nat} (h : n < 256 ^ width) :
    Reads (number width) (Bytes.ofNat width n) n := by
  have hb := (reads_exactly (Bytes.length_ofNat width n)).map Bytes.toNat
  rwa [Bytes.toNat_ofNat h] at hb

/-- As many values as there are pieces, each read from its piece. -/
theorem Reads.times {r : Reader α} {bs : List Bytes} {as : List α}
    (h : List.Forall₂ (Reads r) bs as) : Reads (times bs.length r) bs.flatten as := by
  induction h with
  | nil => exact reads_pure []
  | cons hb _ ih => exact hb.bind (ih.map _)

/-! ## What a value was read from -/

theorem exists_of_bind_eq_ok {r : Reader α} {f : α → Reader β} {s t : Bytes} {b : β} (h : (r >>= f) s = .ok b t) :
    ∃ a u, r s = .ok a u ∧ f a u = .ok b t := by
  rw [bind_apply] at h
  cases hr : r s with
  | fail e u => simp [hr] at h
  | ok a u =>
      rw [hr] at h
      exact ⟨a, u, rfl, h⟩

/-- Two readings succeed one after the other if the second one does with what the first one gives and leaves. -/
theorem bind_eq_ok_iff {r : Reader α} {f : α → Reader β} {s t : Bytes} {b : β} :
    (r >>= f) s = .ok b t ↔ ∃ a u, r s = .ok a u ∧ f a u = .ok b t := by
  refine ⟨exists_of_bind_eq_ok, ?_⟩
  rintro ⟨a, u, hr, hf⟩
  rw [bind_apply, hr]
  exact hf

theorem exactly_eq_ok {n : Nat} {s b t : Bytes} (h : exactly n s = .ok b t) :
    n ≤ s.length ∧ b = s.take n ∧ t = s.drop n := by
  unfold exactly at h
  split at h
  · next hn =>
    simp only [Outcome.ok.injEq] at h
    exact ⟨hn, h.1.symm, h.2.symm⟩
  · simp at h

theorem number_eq_ok {n k : Nat} {s t : Bytes} (h : number n s = .ok k t) :
    k = Bytes.toNat (s.take n) ∧ t = s.drop n := by
  obtain ⟨b, u, hb, hk⟩ := exists_of_bind_eq_ok h
  obtain ⟨-, rfl, rfl⟩ := exactly_eq_ok hb
  simp only [pure_apply, Outcome.ok.injEq] at hk
  exact ⟨hk.1.symm, hk.2.symm⟩

theorem exists_of_run_eq_ok {r : Reader α} {s : Bytes} {a : α} (h : r.run s = .ok a) :
    ∃ t, r s = .ok a t := by
  unfold run at h
  cases hr : r s with
  | fail e t => simp [hr] at h
  | ok b t =>
      simp only [hr, Except.ok.injEq] at h
      exact ⟨t, by rw [h]⟩

theorem run_eq_ok_iff {r : Reader α} {s : Bytes} {a : α} : r.run s = .ok a ↔ ∃ t, r s = .ok a t := by
  refine ⟨exists_of_run_eq_ok, ?_⟩
  rintro ⟨t, h⟩
  rw [run, h]

/-! ## Data that go on -/

/-- What the reader has read it also reads when the data go on, and leaves what is new. -/
def Settled (r : Reader α) : Prop :=
  ∀ s a t, r s = .ok a t → ∀ more, r (s ++ more) = .ok a (t ++ more)

theorem settled_pure (a : α) : Settled (pure a) := by
  intro s b t h more
  simp only [pure_apply, Outcome.ok.injEq] at h ⊢
  simp [h]

theorem settled_fail (e : Fault) : Settled (fail e : Reader α) := by
  intro s a t h
  simp [fail] at h

theorem settled_lift (x : Except Fault α) : Settled (lift x) := by
  cases x with
  | ok a => exact settled_pure a
  | error e => exact settled_fail e

theorem Settled.bind {r : Reader α} {f : α → Reader β} (hr : Settled r) (hf : ∀ a, Settled (f a)) :
    Settled (r >>= f) := by
  intro s b t h more
  obtain ⟨a, u, hra, hfa⟩ := exists_of_bind_eq_ok h
  rw [bind_apply, hr s a u hra more]
  exact hf a u b t hfa more

theorem settled_exactly (n : Nat) : Settled (exactly n) := by
  intro s b t h more
  obtain ⟨hn, rfl, rfl⟩ := exactly_eq_ok h
  rw [exactly, if_pos (by simp; omega), List.take_append_of_le_length hn, List.drop_append_of_le_length hn]

theorem settled_number (n : Nat) : Settled (number n) :=
  (settled_exactly n).bind fun _ => settled_pure _

theorem Settled.times {r : Reader α} (hr : Settled r) (n : Nat) : Settled (times n r) := by
  induction n with
  | zero => exact settled_pure []
  | succ n ih => exact hr.bind fun _ => ih.bind fun _ => settled_pure _

/-- The value that is read from the front of some data is the value of the whole. -/
theorem Settled.run_append {r : Reader α} (hr : Settled r) {s : Bytes} {a : α} (h : r.run s = .ok a)
    (more : Bytes) : r.run (s ++ more) = .ok a := by
  obtain ⟨t, ht⟩ := exists_of_run_eq_ok h
  rw [run, hr s a t ht more]

/-! ## Data up to their end -/

/-- Pieces are read one by one until no byte is left, if none of them is empty. -/
theorem drain_flatten {r : Reader α} {bs : List Bytes} {as : List α} (h : List.Forall₂ (Reads r) bs as)
    (hne : ∀ b ∈ bs, b ≠ []) {fuel : Nat} (hfuel : bs.flatten.length ≤ fuel) :
    drain r fuel bs.flatten = (as, none, []) := by
  induction h generalizing fuel with
  | nil => cases fuel <;> rfl
  | @cons b a bs as hb _ ih =>
      obtain ⟨d, ds, rfl⟩ := List.exists_cons_of_ne_nil (hne b (by simp))
      obtain ⟨fuel, rfl⟩ : ∃ k, fuel = k + 1 := ⟨fuel - 1, by simp at hfuel; omega⟩
      have hread : r (d :: (ds ++ bs.flatten)) = .ok a bs.flatten := hb bs.flatten
      have hrest : drain r fuel bs.flatten = (as, none, []) :=
        ih (fun c hc => hne c (by simp [hc])) (by simp at hfuel ⊢; omega)
      simp [drain, hread, hrest]

theorem untilEnd_flatten {r : Reader α} {bs : List Bytes} {as : List α}
    (h : List.Forall₂ (Reads r) bs as) (hne : ∀ b ∈ bs, b ≠ []) :
    untilEnd r bs.flatten = .ok as [] := by
  rw [untilEnd, drain_flatten h hne (Nat.le_refl _)]

end BeamDisasm.Reader
