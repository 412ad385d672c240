import Mathlib.Data.List.Basic

/-!
# Computations that may fail

A computation in `Except` that comes back has come through each of its parts;
what holds of a loop's index and state is carried from one turn to the next.  `Meets P`
says that a computation comes back with a result that meets `P`, and is what has to hold
before it for that.
-/

namespace Unixlite.Verified.Partial

variable {ε : Type*}

variable {α β : Type} {e : ε} {c : Prop}

theorem ok_bind (x : α) (f : α → Except ε β) : ((.ok x : Except ε α) >>= f) = f x := rfl

theorem bind_ok {x : Except ε α} {f : α → Except ε β} {r : β}
    (h : (x >>= f) = .ok r) : ∃ a, x = .ok a ∧ f a = .ok r := by
  cases x with
  | error e => cases h
  | ok a => exact ⟨a, rfl, h⟩

theorem bind_error {x : Except ε α} {f : α → Except ε β} :
    (x >>= f) = .error e ↔ x = .error e ∨ ∃ a, x = .ok a ∧ f a = .error e := by
  cases x with
  | error e' =>
      constructor
      · intro h
        cases h
        exact .inl rfl
      · rintro (h | ⟨a, ha, -⟩)
        · cases h
          rfl
        · cases ha
  | ok a =>
      constructor
      · intro h
        exact .inr ⟨a, rfl, h⟩
      · rintro (h | ⟨b, hb, h⟩)
        · cases h
        · cases hb
          exact h

/-- A computation behind a check has passed it. -/
theorem ite_error_eq_ok {α : Type*} [Decidable c] {x : Except ε α} {r : α} :
    (if c then .error e else x) = .ok r ↔ ¬ c ∧ x = .ok r := by
  by_cases hc : c
  · rw [if_pos hc]
    exact iff_of_false (fun h => by cases h) fun h => h.1 hc
  · rw [if_neg hc]
    exact (and_iff_right hc).symm

theorem ite_error_bind [Decidable c] (x : Except ε α) (f : α → Except ε β) :
    ((if c then .error e else x : Except ε α) >>= f) = if c then .error e else x >>= f := by
  by_cases hc : c
  · rw [if_pos hc, if_pos hc]
    rfl
  · rw [if_neg hc, if_neg hc]

theorem ite_error_returns {α : Type*} [Decidable c] {x : Except ε α} :
    (∃ r, (if c then .error e else x) = .ok r) ↔ ¬ c ∧ ∃ r, x = .ok r := by
  constructor
  · rintro ⟨r, hr⟩
    obtain ⟨hc, hx⟩ := ite_error_eq_ok.mp hr
    exact ⟨hc, r, hx⟩
  · rintro ⟨hc, r, hx⟩
    exact ⟨r, ite_error_eq_ok.mpr ⟨hc, hx⟩⟩

theorem map_ok {α β : Type*} {f : α → β} {r : Except ε α} {y : β} (h : r.map f = .ok y) :
    ∃ x, r = .ok x ∧ f x = y := by
  cases r with
  | error e => cases h
  | ok x =>
      cases h
      exact ⟨x, rfl, rfl⟩

/-- A loop over an index: what holds of the index and the state is carried from
one turn to the next. -/
theorem foldlM_range {σ : Type} {f : σ → Nat → Except ε σ} {P : Nat → σ → Prop} {n : Nat}
    {s t : σ} (hstep : ∀ i s t, i < n → P i s → f s i = .ok t → P (i + 1) t) (hs : P 0 s)
    (hfold : (List.range n).foldlM f s = .ok t) : P n t := by
  induction n generalizing t with
  | zero => cases hfold; exact hs
  | succ n ih =>
      rw [List.range_succ, List.foldlM_append] at hfold
      obtain ⟨u, hu, hlast⟩ := bind_ok hfold
      have hP := ih (fun i s t hi => hstep i s t (by omega)) hu
      refine hstep n u t (by omega) hP ?_
      simpa using hlast

/-- A loop whose every turn returns. -/
theorem foldlM_range_ok {σ : Type} {f : σ → Nat → Except ε σ} {P : Nat → σ → Prop} {n : Nat}
    {s : σ} (hstep : ∀ i s, i < n → P i s → ∃ t, f s i = .ok t ∧ P (i + 1) t) (hs : P 0 s) :
    ∃ t, (List.range n).foldlM f s = .ok t ∧ P n t := by
  induction n with
  | zero => exact ⟨s, rfl, hs⟩
  | succ n ih =>
      obtain ⟨u, hu, hP⟩ := ih fun i s hi => hstep i s (by omega)
      obtain ⟨t, ht, hPt⟩ := hstep n u (by omega) hP
      refine ⟨t, ?_, hPt⟩
      rw [List.range_succ, List.foldlM_append, hu]
      change [n].foldlM f u = .ok t
      simp [ht]

/-! ## What has to hold before a computation -/

/-- The computation returns, and its result meets `P`. -/
def Meets {α : Type*} (P : α → Prop) (x : Except ε α) : Prop := ∃ a, x = .ok a ∧ P a

/-- The computation returns. -/
abbrev Returns {α : Type*} (x : Except ε α) : Prop := Meets (fun _ => True) x

section

variable {α β : Type} {P : β → Prop} {Q : α → Prop}

@[simp] theorem meets_ok {a : α} : Meets Q (.ok a : Except ε α) ↔ Q a := by
  constructor
  · rintro ⟨b, hb, hQ⟩
    cases hb
    exact hQ
  · exact fun hQ => ⟨a, rfl, hQ⟩

@[simp] theorem meets_error {e : ε} : Meets Q (.error e : Except ε α) ↔ False := by
  refine iff_of_false ?_ not_false
  rintro ⟨a, ha, -⟩
  cases ha

variable {x : Except ε α}

/-- The first part has to leave what the second one needs. -/
theorem meets_bind {f : α → Except ε β} : Meets P (x >>= f) ↔ Meets (fun a => Meets P (f a)) x := by
  cases x with
  | error e => exact meets_error.trans meets_error.symm
  | ok a => exact (meets_ok (Q := fun a => Meets P (f a))).symm

theorem meets_congr {R : α → Prop} (h : ∀ a, x = .ok a → (Q a ↔ R a)) : Meets Q x ↔ Meets R x := by
  constructor
  · rintro ⟨a, ha, hQ⟩
    exact ⟨a, ha, (h a ha).mp hQ⟩
  · rintro ⟨a, ha, hR⟩
    exact ⟨a, ha, (h a ha).mpr hR⟩

/-- What the result does not decide. -/
theorem meets_const {p : Prop} : Meets (fun _ => p) x ↔ Returns x ∧ p := by
  constructor
  · rintro ⟨a, ha, hp⟩
    exact ⟨⟨a, ha, trivial⟩, hp⟩
  · rintro ⟨⟨a, ha, -⟩, hp⟩
    exact ⟨a, ha, hp⟩

end

end Unixlite.Verified.Partial
