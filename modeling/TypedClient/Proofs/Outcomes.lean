import Mathlib.Tactic.Basic

/-!
# Outcomes of steps that may fail

A run that succeeds has succeeded at every step, and a run that fails has failed at
one of them with that failure. This is said here for two steps in a row, with and
without a state, for a step whose result is mapped, and for one step at each entry of a
list.
-/

namespace TypedClient

variable {ε α β : Type}

/-- What a step that succeeds hands on. -/
theorem ok_of_bind_eq_ok {x : Except ε α} {f : α → Except ε β} {b : β} (h : x >>= f = .ok b) :
    ∃ a, x = .ok a ∧ f a = .ok b := by
  cases x with
  | error e => cases h
  | ok a => exact ⟨a, rfl, h⟩

/-- Of two steps in a row, the one that fails. -/
theorem error_of_bind_eq_error {x : Except ε α} {f : α → Except ε β} {e : ε}
    (h : x >>= f = .error e) : x = .error e ∨ ∃ a, x = .ok a ∧ f a = .error e := by
  cases x with
  | error e' => exact Or.inl (congrArg Except.error (Except.error.inj h))
  | ok a => exact Or.inr ⟨a, rfl, h⟩

/-- What is mapped when mapping succeeds. -/
theorem ok_of_map_eq_ok {x : Except ε α} {f : α → β} {b : β} (h : x.map f = .ok b) :
    ∃ a, x = .ok a ∧ f a = b := by
  cases x with
  | error e => cases h
  | ok a => exact ⟨a, rfl, Except.ok.inj h⟩

/-- What succeeds still when its failures are put in other words. -/
theorem ok_of_mapError_eq_ok {δ : Type} {x : Except ε α} {f : ε → δ} {a : α}
    (h : x.mapError f = .ok a) : x = .ok a := by
  cases x with
  | error e => cases h
  | ok a' => exact congrArg Except.ok (Except.ok.inj h)

/-- What succeeds with a result. -/
theorem eq_ok_of_toOption {x : Except ε α} {a : α} (h : x.toOption = some a) : x = .ok a := by
  cases x with
  | error e => cases h
  | ok a' => exact congrArg Except.ok (Option.some.inj h)

/-- What a step that succeeds hands on where steps have a state: its result, and the state
that it leaves. -/
theorem ok_of_run_bind_eq_ok {σ : Type} {step : ExceptT ε (StateM σ) α}
    {next : α → ExceptT ε (StateM σ) β} {s s' : σ} {b : β}
    (h : (step >>= next).run.run s = (.ok b, s')) :
    ∃ a middle, step.run.run s = (.ok a, middle) ∧ (next a).run.run middle = (.ok b, s') := by
  rw [ExceptT.run_bind, StateT.run_bind] at h
  match hstep : step.run.run s with
  | (.ok a, middle) =>
    rw [hstep] at h
    exact ⟨a, middle, rfl, h⟩
  | (.error e, middle) =>
    rw [hstep] at h
    cases h

/-- Steps that agree at every entry of a list agree for the list. -/
theorem mapM_congr {f g : α → Except ε β} {l : List α} (h : ∀ a ∈ l, f a = g a) :
    l.mapM f = l.mapM g := by
  induction l with
  | nil => rfl
  | cons first rest ih =>
    rw [List.mapM_cons, List.mapM_cons, h first List.mem_cons_self,
      ih fun a ha => h a (List.mem_cons_of_mem _ ha)]

/-- When a step succeeds for a list, it succeeds for every entry. -/
theorem ok_of_mapM_eq_ok {f : α → Except ε β} {l : List α} {out : List β}
    (h : l.mapM f = .ok out) {a : α} (ha : a ∈ l) : ∃ b, f a = .ok b := by
  induction l generalizing out with
  | nil => cases ha
  | cons first rest ih =>
    rw [List.mapM_cons] at h
    obtain ⟨b, hb, h⟩ := ok_of_bind_eq_ok h
    obtain ⟨bs, hbs, -⟩ := ok_of_bind_eq_ok h
    rcases List.mem_cons.1 ha with rfl | ha
    · exact ⟨b, hb⟩
    · exact ih hbs ha

/-- When a step fails for a list, it fails for one of the entries. -/
theorem exists_error_of_mapM_eq_error {f : α → Except ε β} {l : List α} {e : ε}
    (h : l.mapM f = .error e) : ∃ a ∈ l, f a = .error e := by
  induction l with
  | nil => cases h
  | cons first rest ih =>
    rw [List.mapM_cons] at h
    rcases error_of_bind_eq_error h with hfirst | ⟨b, -, h⟩
    · exact ⟨first, List.mem_cons_self, hfirst⟩
    · rcases error_of_bind_eq_error h with hrest | ⟨bs, -, h⟩
      · obtain ⟨a, ha, herror⟩ := ih hrest
        exact ⟨a, List.mem_cons_of_mem _ ha, herror⟩
      · cases h

end TypedClient
