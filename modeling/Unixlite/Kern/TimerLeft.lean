import Unixlite.Kern.TimerRun

/-!
# What `lefttick` counts

`timersoftisr` takes `NTICK` off the `lefttick` of a timer on `above` each time that the
wheel comes round, and never touches that of a timer on `below`.  `Left` says what
`lefttick` is after any number of turns.
-/

namespace Unixlite.Timer

open Unixlite.Verified.Run Wheel List

/-- How often a timer is aged before it leaves `above`. -/
def rounds (period : Nat) : Nat :=
  if period < NTICK then 0 else max 1 ((period - 1) / NTICK)

/-- The times that a timer started in slot `c` has been aged after `n` turns. -/
def aged (period c n : Nat) : Nat := min ((c + n) / NTICK) (rounds period)

theorem aged_le (period c n : Nat) : NTICK * aged period c n ≤ period := by
  unfold aged rounds NTICK
  split <;> omega

/-- A timer that has been aged as often as it is has nothing left only if its period is
one round. -/
theorem aged_last {period c n : Nat} (hlast : rounds period ≤ (c + n) / NTICK)
    (hperiod : 1 ≤ period) : NTICK * aged period c n = period ↔ period = NTICK := by
  rw [aged, Nat.min_eq_right hlast]
  unfold rounds NTICK
  split <;> omega

/-- Aging keeps a timer on `above` when a whole round and more is left. -/
theorem stays_iff {period j : Nat} (h : j < rounds period) :
    (NTICK : Int) < period - (NTICK * j : Nat) - NTICK ↔ j + 1 < rounds period := by
  unfold rounds at h ⊢
  by_cases hlt : period < NTICK
  · rw [if_pos hlt] at h
    omega
  · rw [if_neg hlt] at h ⊢
    unfold NTICK at h hlt ⊢
    omega

/-- **`lefttick`** of timer `t`, which was started with that period in slot `c`, after
`n` turns of the wheel. -/
structure Left (t period c n : Nat) (w : Wheel) : Prop where
  cur : w.cur = (c + n) % NTICK
  lefttick : w.lefttick t = period - (NTICK * aged period c n : Nat)
  above : t ∈ w.queue .above ↔ (c + n) / NTICK < rounds period

section Step

variable {w v : Wheel} {t period c n : Nat}

theorem Left.of_same (h : Left t period c n w) (hcur : v.cur = w.cur)
    (hlefttick : v.lefttick t = w.lefttick t)
    (hqueue : t ∈ v.queue .above ↔ t ∈ w.queue .above) : Left t period c n v :=
  ⟨hcur.trans h.cur, hlefttick.trans h.lefttick, hqueue.trans h.above⟩

theorem Same.left (hs : Same t w v) (h : Left t period c n w) : Left t period c n v :=
  h.of_same hs.cur hs.lefttick (hs.queue .above)

theorem left_start (h : WF w) (ht : w.active t = false)
    (hstart : w.startPeriod t period = some v) : Left t period w.cur 0 v := by
  obtain ⟨hwf, hcur, -, hleft, hq⟩ := startPeriod_inactive h ht hstart
  have hlt : w.cur / NTICK = 0 := Nat.div_eq_of_lt h.cur
  refine ⟨?_, ?_, ?_⟩
  · rw [hcur, Nat.add_zero, Nat.mod_eq_of_lt h.cur]
  · rw [hleft, aged, Nat.add_zero, hlt, Nat.zero_min, Nat.mul_zero, Int.natCast_zero, Int.sub_zero]
  · rw [Nat.add_zero, hlt]
    constructor
    · intro habove
      have hge : ¬ (period : Int) < NTICK := by
        intro hless
        rw [if_pos hless] at hq
        cases hwf.disjoint hq habove
      unfold rounds
      rw [if_neg (by omega)]
      omega
    · intro hrounds
      have hge : ¬ (period : Int) < NTICK := by
        intro hless
        rw [rounds, if_pos (by omega)] at hrounds
        omega
      rwa [if_neg hge] at hq

/-! ### Aging -/

theorem ageOne_lefttick (w : Wheel) (t : Nat) : (w.ageOne t).lefttick t = w.lefttick t - NTICK := by
  unfold Wheel.ageOne
  dsimp only
  split
  · simp
  · simp [Wheel.insert, Wheel.enqtail, Wheel.unlink]

theorem foldl_ageOne_lefttick {ts : List Nat} (hnodup : ts.Nodup) (ht : t ∈ ts) (w : Wheel) :
    (ts.foldl ageOne w).lefttick t = w.lefttick t - NTICK := by
  have hothers : ∀ (us : List Nat) (v : Wheel), t ∉ us →
      (us.foldl ageOne v).lefttick t = v.lefttick t := by
    intro us
    induction us with
    | nil => exact fun _ _ => rfl
    | cons u us ih =>
        intro v hu
        obtain ⟨hne, hnot⟩ := not_or.mp (fun h => hu (mem_cons.mpr h))
        rw [foldl_cons, ih _ hnot, (same_ageOne (Ne.symm hne) v).lefttick]
  induction ts generalizing w with
  | nil => cases ht
  | cons u ts ih =>
      obtain ⟨hu, hts⟩ := nodup_cons.mp hnodup
      rw [foldl_cons]
      rcases mem_cons.mp ht with rfl | hmem
      · rw [hothers ts _ hu, ageOne_lefttick]
      · have hne : u ≠ t := by
          rintro rfl
          exact hu hmem
        rw [ih hts hmem, (same_ageOne hne w).lefttick]

/-- The end of a call of `timersoftisr`. -/
theorem Left.turn (hwf : WF w) (h : Left t period c n w) : Left t period c (n + 1) w.turn := by
  have hcur := h.cur
  have hlefttick := h.lefttick
  rw [turn_eq]
  have hturned : (turned w).cur = (c + (n + 1)) % NTICK := by
    simp only [turned, hcur, NTICK]
    omega
  split
  · next hnowrap =>
    have hround : (c + (n + 1)) / NTICK = (c + n) / NTICK := by
      rw [hturned] at hnowrap
      simp only [NTICK] at hnowrap ⊢
      omega
    refine ⟨hturned, ?_, ?_⟩
    · rw [aged, hround]
      exact hlefttick
    · rw [hround]
      exact h.above
  · next hwrap =>
    have hround : (c + (n + 1)) / NTICK = (c + n) / NTICK + 1 := by
      rw [hturned] at hwrap
      simp only [NTICK] at hwrap ⊢
      omega
    obtain ⟨hwf', hall⟩ := foldl_ageOne hwf.turned (hwf.turned.nodup _) fun _ hu => hu
    by_cases habove : t ∈ w.queue .above
    · have haged := (hall t).2 habove
      have hlt := h.above.mp habove
      have hleft := foldl_ageOne_lefttick (hwf.turned.nodup .above) habove (turned w)
      have hold : w.lefttick t = period - (NTICK * ((c + n) / NTICK) : Nat) := by
        rw [hlefttick, aged, Nat.min_eq_left (Nat.le_of_lt hlt)]
      refine ⟨haged.cur.trans hturned, ?_, ?_⟩
      · rw [hleft, aged, hround, Nat.min_eq_left hlt]
        show w.lefttick t - NTICK = _
        rw [hold]
        simp only [NTICK]
        omega
      · rw [hround, ← stays_iff hlt, ← hold]
        constructor
        · intro hmem
          by_contra hnot
          cases hwf'.disjoint hmem (haged.falls hnot)
        · exact fun hlt' => (haged.stays hlt').1
    · have hsame := (hall t).1 habove
      have hge : rounds period ≤ (c + n) / NTICK :=
        Nat.le_of_not_lt fun hlt => habove (h.above.mpr hlt)
      refine ⟨hsame.cur.trans hturned, ?_, ?_⟩
      · rw [hsame.lefttick, aged, hround, Nat.min_eq_right (by omega)]
        show w.lefttick t = _
        rw [hlefttick, aged, Nat.min_eq_right (by omega)]
      · rw [hround, hsame.queue .above]
        exact iff_of_false habove (by omega)

end Step

/-- A call of `timersoftisr` that ends turns the wheel. -/
def turns : Event → Nat
  | .turn => 1
  | _ => 0

/-- **What `lefttick` is after one event.** -/
theorem left_step {w v : Wheel} {t period c n : Nat} {e : Event} (hwf : WF w)
    (h : Left t period c n w) (hspares : Spares t e) (hstep : step w e = some v) :
    Left t period c (n + turns e) v := by
  cases step_cases hstep with
  | start hstart => exact (same_startPeriod hspares hstart).left h
  | stop => exact (same_stop hspares w).left h
  | enter | ret => exact h.of_same rfl rfl Iff.rfl
  | @fire u us _ hqueue =>
      refine h.of_same rfl rfl ?_
      show t ∈ (w.unlink u).queue .above ↔ _
      rw [mem_unlink hwf]
      refine and_iff_right_of_imp ?_
      rintro habove rfl
      cases hwf.disjoint habove (show t ∈ w.queue (.below w.cur) by simp [hqueue])
  | turn => exact h.turn hwf

end Unixlite.Timer
