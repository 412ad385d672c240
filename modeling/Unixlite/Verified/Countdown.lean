import Mathlib.Algebra.BigOperators.Group.List.Basic
import Mathlib.Algebra.GroupWithZero.Nat
import Unixlite.Verified.Run

/-!
# Events that are awaited

Runs of a labelled step function in which some labels take time (`tick`) and
some steps are the awaited event (`fires`).  A `Countdown` says that the event
is due in a fixed amount of time, whatever else happens: every other step takes
its time off what is left.  From that, `Countdown.timely_iff` says when the
event happens once, and when.
-/

namespace Unixlite.Verified.Run

variable {σ α : Type*} (step : σ → α → Option σ) (tick : α → Nat)
variable (fires : σ → α → Prop) [∀ s a, Decidable (fires s a)]

/-- The time a list of labels takes. -/
def ticks (as : List α) : Nat := (as.map tick).sum

/-- How often the event happens in a run. -/
def fired : σ → List α → Nat
  | _, [] => 0
  | s, a :: as => (if fires s a then 1 else 0) + (step s a).elim 0 fun t => fired t as

/-- In the run the event happens once, no sooner than `lo` and no later than
`hi`. -/
structure Timely (lo hi : Nat) (s : σ) (as : List α) : Prop where
  atMostOnce : fired step fires s as ≤ 1
  inTime : ∀ pre a post u, as = pre ++ a :: post → exec step s pre = some u → fires u a →
    lo ≤ ticks tick pre ∧ ticks tick pre ≤ hi
  happens : hi < ticks tick as → fired step fires s as = 1

/-- `due s n`: the event is `n` ticks away.  `off s`: it is not awaited.  Both
are kept by the labels that are `ok`. -/
structure Countdown (ok : α → Prop) (due : σ → Nat → Prop) (off : σ → Prop) : Prop where
  wait : ∀ {s t a n}, due s n → ok a → step s a = some t → ¬ fires s a →
    ∃ m, due t m ∧ m + tick a = n
  fire : ∀ {s t a n}, due s n → step s a = some t → fires s a → n = 0 ∧ tick a = 0 ∧ off t
  stay : ∀ {s t a}, off s → ok a → step s a = some t → ¬ fires s a ∧ off t
  enabled : ∀ {s a}, fires s a → ∃ t, step s a = some t

variable {step tick fires}

@[simp] theorem ticks_nil : ticks tick [] = 0 := rfl

@[simp] theorem ticks_cons (a : α) (as : List α) :
    ticks tick (a :: as) = tick a + ticks tick as := by
  simp [ticks]

@[simp] theorem ticks_append (as bs : List α) :
    ticks tick (as ++ bs) = ticks tick as + ticks tick bs := by
  simp [ticks]

/-- An event that happens in a run has a place in it. -/
theorem exists_of_fired {s : σ} {as : List α} (h : fired step fires s as ≠ 0) :
    ∃ pre a post u, as = pre ++ a :: post ∧ exec step s pre = some u ∧ fires u a := by
  induction as generalizing s with
  | nil => simp [fired] at h
  | cons a as ih =>
      by_cases ha : fires s a
      · exact ⟨[], a, as, s, rfl, rfl, ha⟩
      · cases ht : step s a with
        | none => simp [fired, ha, ht] at h
        | some t =>
            have hrest : fired step fires t as ≠ 0 := by simpa [fired, ha, ht] using h
            obtain ⟨pre, b, post, u, rfl, hexec, hb⟩ := ih hrest
            exact ⟨a :: pre, b, post, u, rfl, by simp [ht, hexec], hb⟩

namespace Countdown

variable {ok : α → Prop} {due : σ → Nat → Prop} {off : σ → Prop}
variable (c : Countdown step tick fires ok due off)
include c

/-- An event that is not awaited does not happen. -/
theorem fired_off {s u : σ} {as : List α} (hoff : off s) (hok : ∀ a ∈ as, ok a)
    (hexec : exec step s as = some u) : fired step fires s as = 0 ∧ off u := by
  induction as generalizing s with
  | nil => cases hexec; exact ⟨rfl, hoff⟩
  | cons a as ih =>
      obtain ⟨t, ht, hexec⟩ := Option.bind_eq_some_iff.mp hexec
      obtain ⟨hno, hofft⟩ := c.stay hoff (hok a (by simp)) ht
      obtain ⟨hzero, hoffu⟩ := ih hofft (fun b hb => hok b (by simp [hb])) hexec
      exact ⟨by simp [fired, hno, ht, hzero], hoffu⟩

/-- A run either still waits, and its time is off what is left, or the event
has happened once, at its time. -/
theorem split {s u : σ} {as : List α} {n : Nat} (hdue : due s n) (hok : ∀ a ∈ as, ok a)
    (hexec : exec step s as = some u) :
    (fired step fires s as = 0 ∧ ∃ m, due u m ∧ m + ticks tick as = n) ∨
      (fired step fires s as = 1 ∧ off u) := by
  induction as generalizing s n with
  | nil => cases hexec; exact .inl ⟨rfl, n, hdue, by simp⟩
  | cons a as ih =>
      obtain ⟨t, ht, hexec⟩ := Option.bind_eq_some_iff.mp hexec
      have hok' : ∀ b ∈ as, ok b := fun b hb => hok b (by simp [hb])
      by_cases ha : fires s a
      · obtain ⟨-, -, hoff⟩ := c.fire hdue ht ha
        obtain ⟨hzero, hoffu⟩ := c.fired_off hoff hok' hexec
        exact .inr ⟨by simp [fired, ha, ht, hzero], hoffu⟩
      · obtain ⟨m, hduet, hm⟩ := c.wait hdue (hok a (by simp)) ht ha
        have hcons : fired step fires s (a :: as) = fired step fires t as := by
          simp [fired, ha, ht]
        rw [hcons]
        rcases ih hduet hok' hexec with ⟨hzero, k, hk, hkm⟩ | hdone
        · refine .inl ⟨hzero, k, hk, ?_⟩
          rw [ticks_cons]
          omega
        · exact .inr hdone

/-- The event happens at its time. -/
theorem ticks_of_fires {s u : σ} {a : α} {pre : List α} {n : Nat} (hdue : due s n)
    (hok : ∀ b ∈ pre, ok b) (ha : ok a) (hexec : exec step s pre = some u)
    (hfires : fires u a) : ticks tick pre = n := by
  obtain ⟨t, ht⟩ := c.enabled hfires
  rcases c.split hdue hok hexec with ⟨-, m, hm, hsum⟩ | ⟨-, hoff⟩
  · have := (c.fire hm ht hfires).1
    omega
  · exact absurd hfires (c.stay hoff ha ht).1

/-- **Countdown.**  When time can pass without bound, the runs are all timely
if and only if the event is due between the two bounds. -/
theorem timely_iff {s : σ} {n lo hi : Nat} (hdue : due s n)
    (hlong : ∀ k, ∃ as u, (∀ a ∈ as, ok a) ∧ exec step s as = some u ∧ k < ticks tick as) :
    (∀ as u, (∀ a ∈ as, ok a) → exec step s as = some u →
      Timely step tick fires lo hi s as) ↔ lo ≤ n ∧ n ≤ hi := by
  constructor
  · intro h
    obtain ⟨as, u, hok, hexec, hk⟩ := hlong (max n hi)
    have htimely := h as u hok hexec
    have hone := htimely.happens (by omega)
    have hfired : fired step fires s as ≠ 0 := by simp [hone]
    obtain ⟨pre, a, post, v, rfl, hpre, ha⟩ := exists_of_fired hfired
    have hn : ticks tick pre = n :=
      c.ticks_of_fires hdue (fun b hb => hok b (by simp [hb])) (hok a (by simp)) hpre ha
    exact hn ▸ htimely.inTime pre a post v rfl hpre ha
  · rintro hbounds as u hok hexec
    refine ⟨?_, ?_, ?_⟩
    · rcases c.split hdue hok hexec with ⟨h, -⟩ | ⟨h, -⟩ <;> omega
    · rintro pre a post v rfl hpre ha
      rw [c.ticks_of_fires hdue (fun b hb => hok b (by simp [hb])) (hok a (by simp)) hpre ha]
      exact hbounds
    · intro hlate
      rcases c.split hdue hok hexec with ⟨-, m, -, hm⟩ | ⟨h, -⟩
      · omega
      · exact h

end Countdown

end Unixlite.Verified.Run
