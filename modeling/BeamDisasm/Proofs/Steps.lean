import BeamDisasm.Fault
import Mathlib.Data.List.Forall2
import Mathlib.Data.List.Induction

/-!
# Steps that can fail

Steps run one after the other, and the first that fails ends the run. What is known of a run that succeeds therefore
comes from its steps, which have all succeeded.
-/
namespace BeamDisasm

variable {α β : Type} {step : α → Except Fault β} {xs : List α} {ys : List β}

/-- Two steps succeed one after the other. -/
theorem exists_of_bind {x : Except Fault α} {y : β} (h : x >>= step = .ok y) : ∃ a, x = .ok a ∧ step a = .ok y := by
  cases x with
  | error e => cases h
  | ok a => exact ⟨a, rfl, h⟩

theorem exists_of_map {f : α → β} {x : Except Fault α} {y : β} (h : x.map f = .ok y) : ∃ a, x = .ok a ∧ f a = y := by
  cases x with
  | error e => cases h
  | ok a => exact ⟨a, rfl, Except.ok.inj h⟩

/-- Two steps succeed one after the other if the second one does with what the first one gives. -/
theorem exists_bind_ok_iff {x : Except Fault α} : (∃ y, x >>= step = .ok y) ↔ ∃ a, x = .ok a ∧ ∃ y, step a = .ok y := by
  constructor
  · rintro ⟨y, hy⟩
    obtain ⟨a, ha, hstep⟩ := exists_of_bind hy
    exact ⟨a, ha, y, hstep⟩
  · rintro ⟨a, rfl, y, hy⟩
    exact ⟨y, hy⟩

/-- Wrapping a result makes no difference to success. -/
theorem exists_wrap_ok_iff {x : Except Fault α} {f : α → β} :
    (∃ y, (do return f (← x)) = (.ok y : Except Fault β)) ↔ ∃ a, x = .ok a := by
  rw [exists_bind_ok_iff]
  simp [pure, Except.pure]

/-- Steps for all members of a list succeed together if each one does. -/
theorem exists_mapM_ok_iff : (∃ ys, xs.mapM step = .ok ys) ↔ ∀ x ∈ xs, ∃ y, step x = .ok y := by
  induction xs with
  | nil => simp [pure, Except.pure]
  | cons x xs ih =>
      rw [List.mapM_cons, exists_bind_ok_iff, List.forall_mem_cons, ← ih]
      simp only [exists_wrap_ok_iff, exists_and_right]

/-- Steps that all succeed give one result each, in order. -/
theorem forall₂_of_mapM (h : xs.mapM step = .ok ys) : List.Forall₂ (fun x y => step x = .ok y) xs ys := by
  induction xs generalizing ys with
  | nil =>
      have hnil : [] = ys := by simpa [pure, Except.pure] using h
      exact hnil ▸ .nil
  | cons x xs ih =>
      rw [List.mapM_cons] at h
      obtain ⟨y, hx, h⟩ := exists_of_bind h
      obtain ⟨zs, hxs, h⟩ := exists_of_bind h
      exact Except.ok.inj h ▸ .cons hx (ih hxs)

theorem mapM_eq_ok_iff : xs.mapM step = .ok ys ↔ List.Forall₂ (fun x y => step x = .ok y) xs ys := by
  constructor
  · exact forall₂_of_mapM
  · intro h
    induction h with
    | nil => rfl
    | cons hx _ ih =>
        rw [List.mapM_cons, hx, ih]
        rfl

/-- Steps that do not all succeed stop at one that fails, behind steps that succeed. -/
theorem exists_of_mapM_error {e : Fault} (h : xs.mapM step = .error e) :
    ∃ before x after, xs = before ++ x :: after ∧ (∀ w ∈ before, ∃ y, step w = .ok y) ∧ step x = .error e := by
  induction xs with
  | nil => cases h
  | cons x xs ih =>
      rw [List.mapM_cons] at h
      cases hx : step x with
      | error e' =>
          rw [hx] at h
          cases h
          exact ⟨[], x, xs, rfl, by simp, hx⟩
      | ok y =>
          rw [hx] at h
          cases hxs : xs.mapM step with
          | ok ys =>
              rw [hxs] at h
              cases h
          | error e' =>
              rw [hxs] at h
              cases h
              obtain ⟨before, w, after, hsplit, hbefore, hw⟩ := ih hxs
              exact ⟨x :: before, w, after, by simp [hsplit], by simpa [hx] using hbefore, hw⟩

theorem exists_left_of_forall₂ {R : α → β → Prop} (h : List.Forall₂ R xs ys) {y : β} (hy : y ∈ ys) :
    ∃ x ∈ xs, R x y := by
  induction h with
  | nil => simp at hy
  | @cons x z xs zs hxz _ ih =>
      rcases List.mem_cons.mp hy with rfl | hy
      · exact ⟨x, by simp, hxz⟩
      · obtain ⟨w, hw, hwy⟩ := ih hy
        exact ⟨w, by simp [hw], hwy⟩

theorem exists_right_of_forall₂ {R : α → β → Prop} (h : List.Forall₂ R xs ys) {x : α} (hx : x ∈ xs) :
    ∃ y ∈ ys, R x y :=
  exists_left_of_forall₂ h.flip hx

/-- Lists that belong together split together. -/
theorem exists_split_of_forall₂ {R : α → β → Prop} {pre post : List β} {y : β}
    (h : List.Forall₂ R xs (pre ++ y :: post)) :
    ∃ pre' x post', xs = pre' ++ x :: post' ∧ List.Forall₂ R pre' pre ∧ R x y ∧ List.Forall₂ R post' post := by
  induction pre generalizing xs with
  | nil =>
      cases h with
      | cons hx hpost => exact ⟨[], _, _, rfl, .nil, hx, hpost⟩
  | cons z pre ih =>
      cases h with
      | cons hz h =>
          obtain ⟨pre', x, post', rfl, hpre, hx, hpost⟩ := ih h
          exact ⟨_ :: pre', x, post', rfl, .cons hz hpre, hx, hpost⟩

theorem exists_forall₂_iff {R : α → β → Prop} : (∃ ys, List.Forall₂ R xs ys) ↔ ∀ x ∈ xs, ∃ y, R x y := by
  induction xs with
  | nil => simp
  | cons x xs ih =>
      rw [List.forall_mem_cons, ← ih]
      constructor
      · rintro ⟨_, h⟩
        cases h with
        | cons hy hys => exact ⟨⟨_, hy⟩, _, hys⟩
      · rintro ⟨⟨y, hy⟩, ys, hys⟩
        exact ⟨y :: ys, .cons hy hys⟩

/-- Every result comes from a step. -/
theorem exists_of_mapM (h : xs.mapM step = .ok ys) {y : β} (hy : y ∈ ys) : ∃ x ∈ xs, step x = .ok y :=
  exists_left_of_forall₂ (forall₂_of_mapM h) hy

/-- What every step that succeeds keeps is kept by steps one after the other. -/
theorem foldlM_induction {σ α : Type} {step : σ → α → Except Fault σ} {P : σ → Prop}
    (hstep : ∀ s a s', step s a = .ok s' → P s → P s') {as : List α} {s s' : σ}
    (h : as.foldlM step s = .ok s') (hs : P s) : P s' := by
  induction as generalizing s with
  | nil =>
      have heq : s = s' := by simpa [pure, Except.pure] using h
      rwa [← heq]
  | cons a as ih =>
      rw [List.foldlM_cons] at h
      obtain ⟨t, hnext, h⟩ := exists_of_bind h
      exact ih h (hstep s a t hnext hs)

/-- What every step that succeeds adds up is added up by steps one after the other. -/
theorem foldlM_along {σ α : Type} {step : σ → α → Except Fault σ} {P : List α → σ → Prop} {as : List α}
    (hstep : ∀ before, ∀ a ∈ as, ∀ s s', step s a = .ok s' → P before s → P (before ++ [a]) s') {s s' : σ}
    (h : as.foldlM step s = .ok s') (hs : P [] s) : P as s' := by
  induction as using List.reverseRecOn generalizing s' with
  | nil =>
      have heq : s = s' := by simpa [pure, Except.pure] using h
      exact heq ▸ hs
  | append_singleton as a ih =>
      rw [List.foldlM_append] at h
      obtain ⟨t, ht, h⟩ := exists_of_bind h
      rw [List.foldlM_cons] at h
      obtain ⟨u, hu, h⟩ := exists_of_bind h
      have heq : u = s' := by simpa [pure, Except.pure] using h
      have hPt := ih (fun before b hb => hstep before b (by simp [hb])) ht
      exact heq ▸ hstep as a (by simp) t u hu hPt

/-- Steps that can always be taken are taken one after the other, and what they reach one by one is reached. -/
theorem foldlM_reaches {σ α : Type} {step : σ → α → Except Fault σ} {P : List α → σ → Prop} {as : List α}
    (hstep : ∀ before, ∀ a ∈ as, ∀ s, P before s → ∃ s', step s a = .ok s' ∧ P (before ++ [a]) s') {s : σ}
    (hs : P [] s) : ∃ s', as.foldlM step s = .ok s' ∧ P as s' := by
  induction as using List.reverseRecOn with
  | nil => exact ⟨s, rfl, hs⟩
  | append_singleton as a ih =>
      obtain ⟨t, ht, hPt⟩ := ih fun before b hb => hstep before b (by simp [hb])
      obtain ⟨s', hs', hPs'⟩ := hstep as a (by simp) t hPt
      refine ⟨s', ?_, hPs'⟩
      rw [List.foldlM_append, ht]
      change ([a].foldlM step t : Except Fault σ) = _
      rw [List.foldlM_cons, hs']
      rfl

end BeamDisasm
