import BeamDisasm.Proofs.Attribution

/-!
# Marks for callers

Among the marks of a module those for callers come from its remote calls alone. A call leaves one where the last module
that offers the function is at hand, and the mark names the first such function there.
-/
namespace BeamDisasm.Analysis

/-! ## Marks one after the other -/

namespace Marks

/-- A listing that comes to its end has the marks of both parts. -/
theorem andThen_of_no_fault {x y : Marks} (h : (x.andThen y).fault = Option.none) :
    x.fault = Option.none ∧ y.fault = Option.none ∧ (x.andThen y).marks = x.marks ++ y.marks := by
  unfold andThen at h ⊢
  cases hx : x.fault with
  | some e => simp [hx] at h
  | none =>
      simp only [hx] at h
      exact ⟨rfl, h, rfl⟩

theorem all_of_no_fault {α : Type} {f : α → Marks} {xs : List α} (h : (all f xs).fault = Option.none) :
    (all f xs).marks = xs.flatMap fun x => (f x).marks := by
  induction xs with
  | nil => rfl
  | cons x xs ih =>
      rw [all] at h ⊢
      obtain ⟨-, hxs, hmarks⟩ := andThen_of_no_fault h
      rw [hmarks, ih hxs, List.flatMap_cons]

/-- What no part has is not listed at all, even if the listing stops. -/
theorem mem_all {α : Type} {f : α → Marks} {xs : List α} {mark : Mark} (h : mark ∈ (all f xs).marks) :
    ∃ x ∈ xs, mark ∈ (f x).marks := by
  induction xs with
  | nil => simp [all, none] at h
  | cons x xs ih =>
      rw [all, andThen] at h
      split at h
      · exact ⟨x, by simp, h⟩
      · rcases List.mem_append.mp h with h | h
        · exact ⟨x, by simp, h⟩
        · obtain ⟨y, hy, hmark⟩ := ih h
          exact ⟨y, by simp [hy], hmark⟩

theorem mem_ofExcept {r : Except Fault (List Mark)} {mark : Mark} (h : mark ∈ (ofExcept r).marks) :
    ∃ ms, r = .ok ms ∧ mark ∈ ms := by
  cases r with
  | error e => simp [ofExcept] at h
  | ok ms => exact ⟨ms, rfl, h⟩

end Marks

variable {c : Context} {current : Option Function} {p : Placed} {n : Nat} {l : Index} {s : String}

/-! ## Marks for other things -/

theorem caller_not_mem_localCallMarks {ms : List Mark} (h : localCallMarks c p = .ok ms) :
    Mark.caller n l s ∉ ms := by
  obtain ⟨i, -, h⟩ := exists_of_bind h
  split at h
  · simp [← Except.ok.inj h]
  · obtain ⟨t, -, h⟩ := exists_of_bind h
    simp [← Except.ok.inj h]

theorem caller_not_mem_caseMarks {byArity : Bool} {source : Index} {part : Member × Member} {ms : List Mark}
    (h : caseMarks c byArity source part = .ok ms) : Mark.caller n l s ∉ ms := by
  obtain ⟨i, -, h⟩ := exists_of_bind h
  obtain ⟨b, -, h⟩ := exists_of_bind h
  split at h <;> simp [← Except.ok.inj h]

theorem caller_not_mem_switchMarks (byArity : Bool) (source : Index) :
    Mark.caller n l s ∉ (switchMarks c byArity source p).marks := by
  unfold switchMarks
  split
  · simp
  · intro h
    obtain ⟨part, -, hpart⟩ := Marks.mem_all h
    obtain ⟨ms, hms, hmark⟩ := Marks.mem_ofExcept hpart
    exact caller_not_mem_caseMarks hms hmark

theorem caller_not_mem_headerMarks {label : Index} {f : Function} {ms : List Mark}
    (h : headerMarks c label f = .ok ms) : Mark.caller n l s ∉ ms := by
  obtain ⟨t, -, h⟩ := exists_of_bind h
  simp [← Except.ok.inj h]

/-! ## Marks for callers -/

/-- Among the instructions only remote calls leave marks for callers. -/
theorem caller_mem_instMarks (source : Index) :
    Mark.caller n l s ∈ (instMarks c current source p).marks ↔
      p.inst.isRemoteCall = true ∧ Mark.caller n l s ∈ remoteCallMarks c current p := by
  unfold instMarks
  split
  · next hlocal =>
    have hremote : p.inst.isRemoteCall = false := by
      simp only [Instruction.isLocalCall, Bool.or_eq_true, beq_iff_eq] at hlocal
      simp only [Instruction.isRemoteCall, Bool.or_eq_false_iff, beq_eq_false_iff_ne]
      omega
    constructor
    · intro h
      obtain ⟨ms, hms, hmark⟩ := Marks.mem_ofExcept h
      exact absurd hmark (caller_not_mem_localCallMarks hms)
    · simp [hremote]
  · split
    · next hremote => simp [hremote]
    · next hremote =>
      split
      · simp [hremote, caller_not_mem_switchMarks]
      · split
        · simp [hremote, caller_not_mem_switchMarks]
        · simp [hremote, Marks.none]

/-- The callers that blocks mark are those of their remote calls, each with the function that the call belongs to. -/
theorem caller_mem_blockMarks {bs : List Block} (h : (blockMarks c current bs).fault = none) :
    Mark.caller n l s ∈ (blockMarks c current bs).marks ↔
      ∃ ob ∈ attributed c.entries current bs, ∃ p ∈ ob.2.insts, p.inst.isRemoteCall = true ∧
        Mark.caller n l s ∈ remoteCallMarks c ob.1 p := by
  induction bs generalizing current with
  | nil => simp [blockMarks, Marks.none, attributed]
  | cons b bs ih =>
      rw [blockMarks] at h ⊢
      obtain ⟨hhead, hrest, hmarks⟩ := Marks.andThen_of_no_fault h
      obtain ⟨-, hinsts, hmarks'⟩ := Marks.andThen_of_no_fault hhead
      rw [hmarks, hmarks', List.mem_append, List.mem_append, Marks.all_of_no_fault hinsts, List.mem_flatMap,
        ih hrest, attributed]
      simp only [caller_mem_instMarks, List.mem_cons, exists_eq_or_imp]
      refine or_congr_left (or_iff_right ?_)
      split
      · intro hmark
        obtain ⟨ms, hms, hmark⟩ := Marks.mem_ofExcept hmark
        exact caller_not_mem_headerMarks hms hmark
      · simp [Marks.none]

/-- What a call needs to leave a mark, and what the mark says. -/
theorem caller_mem_remoteCallMarks :
    Mark.caller n l s ∈ remoteCallMarks c current p ↔
      ∃ i reference f o, p.inst.indexOf 1 = .ok i ∧ c.own.module.importText i = .ok reference ∧
        findLast? c.table reference = some n ∧ current = some f ∧ c.others[n]? = some o ∧
        f.signature c.own.module = .ok s ∧ o.entryOfSignature reference = .ok (some l) := by
  unfold remoteCallMarks
  constructor
  · intro h
    split at h
    · next ms hms =>
      obtain ⟨i, hindex, hms⟩ := exists_of_bind hms
      obtain ⟨reference, himport, hms⟩ := exists_of_bind hms
      split at hms
      · simp [← Except.ok.inj hms] at h
      · next k hlast =>
        split at hms
        · next f o hother _ _ =>
          obtain ⟨t, hsignature, hms⟩ := exists_of_bind hms
          obtain ⟨entry, hentry, hms⟩ := exists_of_bind hms
          split at hms
          · rw [← Except.ok.inj hms, List.mem_singleton, Mark.caller.injEq] at h
            obtain ⟨rfl, rfl, rfl⟩ := h
            exact ⟨i, reference, f, o, hindex, himport, hlast, rfl, hother, hsignature, hentry⟩
          · simp [← Except.ok.inj hms] at h
        · simp [← Except.ok.inj hms] at h
    · simp at h
  · rintro ⟨i, reference, f, o, hindex, himport, hlast, rfl, hother, hsignature, hentry⟩
    simp [remoteCallMark, hindex, himport, hlast, hother, hsignature, hentry, bind, Except.bind, pure, Except.pure]

end BeamDisasm.Analysis
