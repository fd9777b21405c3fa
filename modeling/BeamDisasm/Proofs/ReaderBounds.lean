import BeamDisasm.Proofs.Reader
import Mathlib.Algebra.GroupWithZero.Nat
import Mathlib.Logic.Function.Iterate

/-!
# What readings cost and where they end

Counts and lengths in the data say how much is to follow, and nothing makes them say the truth. What bounds a reader
is the data themselves. A reader pays for its value when the value costs no more than the bytes that were taken for
it, and this is inherited by everything that is put together from such readers.

A recursion that takes a byte before each further call is as deep as there are bytes at most. This is said without
any limit on the depth: whatever is put in the place of the deeper calls, the answer is the same, so these calls are
never made.
-/
namespace BeamDisasm

section Recursion

variable {σ τ : Type} {step : (σ → τ) → σ → τ} {bound : σ → Nat} {f : σ → τ}

/-- The recursion that makes its calls by `step` ends with the answers of `f`, at most `bound x` calls below `x`: of
what stands in the place of deeper calls nothing is ever asked. -/
def EndsWithin (step : (σ → τ) → σ → τ) (bound : σ → Nat) (f : σ → τ) : Prop :=
  ∀ (other : σ → τ) (n : Nat) (x : σ), bound x < n → (step^[n] other) x = f x

/-- Two functions that are the same where the bound is less than `n`. -/
def AgreeBelow (bound : σ → Nat) (n : Nat) (f g : σ → τ) : Prop :=
  ∀ x, bound x < n → f x = g x

theorem agreeBelow_refl (bound : σ → Nat) (n : Nat) (f : σ → τ) : AgreeBelow bound n f f :=
  fun _ _ => rfl

/-- It is enough that a step is right one call further than the calls that it makes. -/
theorem endsWithin_of_step
    (h : ∀ n g, AgreeBelow bound n g f → AgreeBelow bound (n + 1) (step g) f) : EndsWithin step bound f := by
  intro other n
  induction n with
  | zero =>
      intro x hx
      exact absurd hx (Nat.not_lt_zero _)
  | succ n ih =>
      rw [Function.iterate_succ_apply']
      exact h n _ ih

section Fuel

variable {F : Nat → σ → τ} (hsucc : ∀ n, F (n + 1) = step (F n))
  (hzero : ∀ g x, bound x = 0 → step g x = F 0 x)
  (hstep : ∀ n k g, AgreeBelow bound n g (F k) → AgreeBelow bound (n + 1) (step g) (step (F k)))

include hsucc hzero hstep

/-- Fuel beyond the bound changes nothing. -/
theorem agreeBelow_fuel {n k : Nat} (h : n ≤ k) : AgreeBelow bound (n + 1) (F n) (F k) := by
  induction n generalizing k with
  | zero =>
      intro x hx
      cases k with
      | zero => rfl
      | succ k => rw [hsucc, hzero (F k) x (by omega)]
  | succ n ih =>
      obtain ⟨k, rfl⟩ : ∃ j, k = j + 1 := ⟨k - 1, by omega⟩
      rw [hsucc n, hsucc k]
      exact hstep (n + 1) k (F n) (ih (by omega))

/-- As much fuel as the bound is enough. -/
theorem agreeBelow_of_fuel (n : Nat) : AgreeBelow bound (n + 1) (fun x => F (bound x) x) (F n) :=
  fun x hx => agreeBelow_fuel hsucc hzero hstep (Nat.le_of_lt_succ hx) x (Nat.lt_succ_self _)

/-- A recursion that is run with as much fuel as its bound is the recursion without fuel. -/
theorem endsWithin_of_fuel : EndsWithin step bound fun x => F (bound x) x := by
  refine endsWithin_of_step fun n g hg => ?_
  have hfuel := agreeBelow_of_fuel hsucc hzero hstep
  have hgn : AgreeBelow bound n g (F n) := fun x hx => (hg x hx).trans (hfuel n x (by omega))
  intro x hx
  calc step g x = step (F n) x := hstep n n g hgn x hx
    _ = F (n + 1) x := by rw [hsucc]
    _ = F (bound x) x := (hfuel (n + 1) x (by omega)).symm

end Fuel

end Recursion

namespace Reader

variable {α β : Type}

/-! ## What a value costs -/

/-- The reader takes its bytes from the front, and no fewer than its value costs. -/
def Pays (r : Reader α) (cost : α → Nat) : Prop :=
  ∀ s a t, r s = .ok a t → ∃ used, s = used ++ t ∧ cost a ≤ used.length

section Pays

variable {r : Reader α} {f : α → Reader β} {c d : α → Nat} {e : β → Nat}

theorem Pays.mono (h : Pays r c) (hd : ∀ a, d a ≤ c a) : Pays r d := by
  intro s a t hr
  obtain ⟨used, hs, hc⟩ := h s a t hr
  exact ⟨used, hs, (hd a).trans hc⟩

/-- The bytes left and the cost of the value are together no more than there were. -/
theorem Pays.cost_add_length_le (h : Pays r c) {s t : Bytes} {a : α} (hr : r s = .ok a t) :
    c a + t.length ≤ s.length := by
  obtain ⟨used, rfl, hc⟩ := h s a t hr
  rw [List.length_append]
  omega

theorem Pays.cost_le (h : Pays r c) {s t : Bytes} {a : α} (hr : r s = .ok a t) : c a ≤ s.length :=
  (Nat.le_add_right _ _).trans (h.cost_add_length_le hr)

theorem pays_pure {a : α} (h : c a = 0) : Pays (pure a) c := by
  intro s b t hr
  simp only [pure_apply, Outcome.ok.injEq] at hr
  obtain ⟨rfl, rfl⟩ := hr
  exact ⟨[], rfl, h.le⟩

theorem pays_fail (fault : Fault) : Pays (fail fault) c := by
  intro s a t hr
  simp [fail] at hr

theorem pays_lift {x : Except Fault α} (h : ∀ a, x = .ok a → c a = 0) : Pays (lift x) c := by
  cases x with
  | ok a => exact pays_pure (h a rfl)
  | error fault => exact pays_fail fault

theorem pays_lift_nothing (x : Except Fault α) : Pays (lift x) fun _ => 0 :=
  pays_lift fun _ _ => rfl

theorem pays_byte (fault : Fault) : Pays (byte fault) fun _ => 1 := by
  intro s b t hr
  cases s with
  | nil => simp [byte] at hr
  | cons d s =>
      simp only [byte, Outcome.ok.injEq] at hr
      exact ⟨[d], by simp [hr.2], Nat.le_refl _⟩

theorem pays_upTo (n : Nat) : Pays (upTo n) List.length := by
  intro s b t hr
  simp only [upTo, Outcome.ok.injEq] at hr
  obtain ⟨rfl, rfl⟩ := hr
  exact ⟨s.take n, (List.take_append_drop n s).symm, Nat.le_refl _⟩

theorem pays_exactly (n : Nat) : Pays (exactly n) fun _ => n := by
  intro s b t hr
  obtain ⟨hn, rfl, rfl⟩ := exactly_eq_ok hr
  exact ⟨s.take n, (List.take_append_drop n s).symm, by simp [hn]⟩

/-- What the first reader has been paid the second one need not be paid again. -/
theorem Pays.bind (hr : Pays r c) (hf : ∀ a, Pays (f a) fun b => e b - c a) : Pays (r >>= f) e := by
  intro s b t h
  obtain ⟨a, u, hra, hfa⟩ := exists_of_bind_eq_ok h
  obtain ⟨used, rfl, hc⟩ := hr s a u hra
  obtain ⟨more, rfl, he⟩ := hf a u b t hfa
  refine ⟨used ++ more, (List.append_assoc _ _ _).symm, ?_⟩
  have hsum : e b ≤ c a + more.length := Nat.sub_le_iff_le_add'.1 he
  rw [List.length_append]
  omega

/-- Bytes that are taken for nothing do no harm. -/
theorem Pays.bind_free (hr : Pays r c) (hf : ∀ a, Pays (f a) e) : Pays (r >>= f) e :=
  hr.bind fun a => (hf a).mono fun _ => Nat.sub_le _ _

/-- A value that is only wrapped costs no more than before. -/
theorem Pays.map {g : α → β} (hr : Pays r c) (hg : ∀ a, e (g a) ≤ c a) : Pays (do let a ← r; return g a) e :=
  hr.bind fun a => pays_pure (Nat.sub_eq_zero_of_le (hg a))

theorem pays_number (n : Nat) : Pays (number n) fun _ => n :=
  (pays_exactly n).map fun _ => Nat.le_refl n

/-- Values one after the other are paid one by one. -/
theorem Pays.times (hr : Pays r c) (n : Nat) : Pays (times n r) fun as => (as.map c).sum := by
  induction n with
  | zero => exact pays_pure rfl
  | succ n ih =>
      refine hr.bind fun a => (ih.map fun as => ?_)
      simp

/-- A count is paid by the values that it counts. -/
theorem Pays.times_count (hr : Pays r fun _ => 1) (n : Nat) : Pays (Reader.times n r) fun _ => n := by
  induction n with
  | zero => exact (hr.times 0).mono fun _ => Nat.zero_le _
  | succ n ih => exact hr.bind fun _ => ih.map fun _ => Nat.le_refl n

/-- A value is read from one byte at least, and from no fewer bytes than it has nodes. -/
def NeverAmplifies (r : Reader α) (nodes : α → Nat) : Prop :=
  ∀ s a t, r s = .ok a t → ∃ used, s = used ++ t ∧ 0 < used.length ∧ nodes a ≤ used.length

theorem Pays.neverAmplifies (h : Pays r c) (hpos : ∀ a, 0 < c a) (hd : ∀ a, d a ≤ c a) : NeverAmplifies r d := by
  intro s a t hr
  obtain ⟨used, hs, hc⟩ := h s a t hr
  exact ⟨used, hs, (hpos a).trans_le hc, (hd a).trans hc⟩

end Pays

/-! ## Where readings end -/

section Agree

variable {n : Nat} {r r' : Reader α} {f f' : α → Reader β} {c : α → Nat}

/-- Behind a reader that takes as many bytes at least, it is enough to agree on so many bytes fewer. -/
theorem agreeBelow_bind_add (k : Nat) (hr : AgreeBelow List.length (n + k) r r') (hpays : Pays r' c)
    (hcost : ∀ a, k ≤ c a) (hf : ∀ a, AgreeBelow List.length n (f a) (f' a)) :
    AgreeBelow List.length (n + k) (r >>= f) (r' >>= f') := by
  intro s hs
  rw [bind_apply, bind_apply, hr s hs]
  cases hread : r' s with
  | fail e t => rfl
  | ok a t =>
      have ht := hpays.cost_add_length_le hread
      have ha := hcost a
      exact hf a t (by omega)

theorem agreeBelow_bind (hr : AgreeBelow List.length n r r') (hpays : Pays r' c)
    (hf : ∀ a, AgreeBelow List.length n (f a) (f' a)) : AgreeBelow List.length n (r >>= f) (r' >>= f') :=
  agreeBelow_bind_add 0 hr hpays (fun _ => Nat.zero_le _) hf

theorem agreeBelow_bind_succ (hpays : Pays r c) (hpos : ∀ a, 0 < c a)
    (hf : ∀ a, AgreeBelow List.length n (f a) (f' a)) : AgreeBelow List.length (n + 1) (r >>= f) (r >>= f') :=
  agreeBelow_bind_add 1 (agreeBelow_refl _ _ _) hpays hpos hf

theorem agreeBelow_times (hr : AgreeBelow List.length n r r') (hpays : Pays r' c) (k : Nat) :
    AgreeBelow List.length n (times k r) (times k r') := by
  induction k with
  | zero => exact agreeBelow_refl _ _ _
  | succ k ih =>
      exact agreeBelow_bind hr hpays fun _ => agreeBelow_bind ih (hpays.times k) fun _ => agreeBelow_refl _ _ _

/-- Behind a count that is the same for both, the items and what follows them have to agree. -/
theorem agreeBelow_numbered (width : Nat) {g g' : List α → Reader β} (hr : AgreeBelow List.length n r r')
    (hpays : Pays r' c) (hg : ∀ as, AgreeBelow List.length n (g as) (g' as)) :
    AgreeBelow List.length n (number width >>= fun k => times k r >>= g)
      (number width >>= fun k => times k r' >>= g') :=
  agreeBelow_bind (agreeBelow_refl _ _ _) (pays_number width) fun k =>
    agreeBelow_bind (agreeBelow_times hr hpays k) (hpays.times k) hg

end Agree

/-! ## Loops -/

/-- The rounds that are left of a loop from the state `x` on. -/
def resume {σ : Type} (next : σ × Bytes → Outcome α) (x : σ) : Reader α := fun s => next (x, s)

theorem agreeBelow_resume {σ : Type} {n : Nat} {next next' : σ × Bytes → Outcome α}
    (h : AgreeBelow (fun x => x.2.length) n next next') (x : σ) :
    AgreeBelow List.length n (resume next x) (resume next' x) :=
  fun s hs => h (x, s) hs

/-- One round of a counted loop, where `next` makes the rounds that are left. -/
def round (item : Reader α) (next : Nat × Bytes → Outcome (List α)) : Nat × Bytes → Outcome (List α)
  | (0, s) => .ok [] s
  | (n + 1, s) => (do
      let a ← item
      let as ← resume next n
      return a :: as : Reader (List α)) s

/-- However many values are announced, a counted loop ends after no more rounds than there are bytes and one. -/
def EndsCounted (item : Reader α) : Prop :=
  EndsWithin (round item) (fun x => x.2.length) fun x => times x.1 item x.2

theorem Pays.endsCounted {item : Reader α} {c : α → Nat} (h : Pays item c) (hpos : ∀ a, 0 < c a) :
    EndsCounted item := by
  refine endsWithin_of_step fun n next hnext => ?_
  rintro ⟨count, s⟩ hs
  cases count with
  | zero => rfl
  | succ count =>
      exact agreeBelow_bind_succ h hpos (fun a => agreeBelow_bind (agreeBelow_resume hnext count) (h.times count)
        fun as => agreeBelow_refl _ _ _) s hs

/-- One round of a loop that goes on while there are bytes, where `next` makes the rounds that are left. -/
def roundToEnd (item : Reader α) (next : Bytes → List α × Option Fault × Bytes) :
    Bytes → List α × Option Fault × Bytes
  | [] => ([], none, [])
  | b :: s => match item (b :: s) with
    | .ok a t => (a :: (next t).1, (next t).2)
    | .fail e t => ([], some e, t)

theorem Pays.endsWithin_drain {item : Reader α} {c : α → Nat} (h : Pays item c) (hpos : ∀ a, 0 < c a) :
    EndsWithin (roundToEnd item) List.length fun s => drain item s.length s := by
  refine endsWithin_of_fuel (fun n => ?_) (fun next s hs => ?_) fun n k next hnext => ?_
  · funext s
    cases s with
    | nil => rfl
    | cons b s =>
        cases hread : item (b :: s) with
        | ok a t => simp only [drain, roundToEnd, hread]
        | fail e t => simp only [drain, roundToEnd, hread]
  · obtain rfl : s = [] := List.length_eq_zero_iff.1 hs
    rfl
  · intro s hs
    cases s with
    | nil => rfl
    | cons b s =>
        simp only [roundToEnd]
        cases hread : item (b :: s) with
        | fail e t => rfl
        | ok a t =>
            have ht := h.cost_add_length_le hread
            have ha := hpos a
            simp only [hnext t (by omega)]

end Reader

end BeamDisasm
