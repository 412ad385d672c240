import Mathlib.Data.BitVec

/-!
# Bitmaps

A word with one bit for each of its places: one bit is set or cleared, and the
highest or the lowest one set is found.
-/

namespace Unixlite.Verified.Bitmap

open BitVec

variable {w : Nat}

/-- `1 << i`. -/
def bit (w i : Nat) : BitVec w := 1#w <<< i

/-- The highest bit below `n` that is set. -/
def top (mask : BitVec w) : Nat → Option Nat
  | 0 => none
  | n + 1 => if mask.getLsbD n then some n else top mask n

/-- The highest bit that is set. -/
def bsr (mask : BitVec w) : Option Nat := top mask w

/-- The lowest bit that is set. -/
def bsf (mask : BitVec w) : Option Nat := (List.range w).find? fun i => mask.getLsbD i

theorem getLsbD_bit {i j : Nat} (hj : j < w) : (bit w i).getLsbD j = decide (j = i) := by
  rw [bit, getLsbD_shiftLeft, getLsbD_one]
  by_cases hji : j = i
  · subst hji
    simp [hj, Nat.pos_of_ne_zero (Nat.ne_zero_of_lt hj)]
  · by_cases hlt : j < i
    · simp [hlt, hji]
    · simp [hji, show j - i ≠ 0 by omega]

theorem getLsbD_set (mask : BitVec w) {i j : Nat} (hj : j < w) :
    (mask ||| bit w i).getLsbD j = (mask.getLsbD j || decide (j = i)) := by
  rw [getLsbD_or, getLsbD_bit hj]

theorem getLsbD_clear (mask : BitVec w) {i j : Nat} (hj : j < w) :
    (mask &&& ~~~bit w i).getLsbD j = (mask.getLsbD j && decide (j ≠ i)) := by
  rw [getLsbD_and, getLsbD_not, getLsbD_bit hj]
  simp [hj]

theorem top_spec (mask : BitVec w) {n i : Nat} (hi : i < n) (hbit : mask.getLsbD i = true) :
    ∃ j, top mask n = some j ∧ i ≤ j ∧ j < n ∧ mask.getLsbD j = true ∧
      ∀ k, j < k → k < n → mask.getLsbD k = false := by
  induction n with
  | zero => exact absurd hi (Nat.not_lt_zero i)
  | succ n ih =>
      cases hn : mask.getLsbD n with
      | true =>
          exact ⟨n, by rw [top, hn, if_pos rfl], Nat.le_of_lt_succ hi, Nat.lt_succ_self n, hn,
            fun k hk hlt => absurd hlt (by omega)⟩
      | false =>
          have hne : i ≠ n := by
            rintro rfl
            rw [hbit] at hn
            cases hn
          obtain ⟨j, htop, hle, hlt, hj, hhigh⟩ := ih (by omega)
          refine ⟨j, by rw [top, hn, if_neg Bool.false_ne_true, htop], hle, by omega, hj, ?_⟩
          intro k hk hlt'
          by_cases hkn : k = n
          · rw [hkn, hn]
          · exact hhigh k hk (by omega)

/-- With a bit set there is a highest one. -/
theorem bsr_spec (mask : BitVec w) {i : Nat} (hi : i < w) (hbit : mask.getLsbD i = true) :
    ∃ j, bsr mask = some j ∧ i ≤ j ∧ j < w ∧ mask.getLsbD j = true ∧
      ∀ k, j < k → k < w → mask.getLsbD k = false :=
  top_spec mask hi hbit

theorem bsf_eq_some {mask : BitVec w} {i : Nat} :
    bsf mask = some i ↔
      i < w ∧ mask.getLsbD i = true ∧ ∀ k < i, mask.getLsbD k = false := by
  rw [bsf, List.find?_range_eq_some]
  simp only [List.mem_range, Bool.not_eq_eq_eq_not, Bool.not_true]
  constructor
  · rintro ⟨hbit, hi, hlow⟩
    exact ⟨hi, hbit, hlow⟩
  · rintro ⟨hi, hbit, hlow⟩
    exact ⟨hbit, hi, hlow⟩

theorem bsf_eq_none {mask : BitVec w} : bsf mask = none ↔ mask = 0 := by
  rw [bsf, List.find?_eq_none]
  simp only [List.mem_range, Bool.not_eq_true]
  constructor
  · intro h
    refine eq_of_getLsbD_eq fun i hi => ?_
    rw [h i hi]
    simp
  · rintro rfl i hi
    simp

end Unixlite.Verified.Bitmap
