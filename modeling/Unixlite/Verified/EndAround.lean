import Mathlib.Data.Nat.ModEq

/-!
# Sums with end-around carry

A sum of digits in base `B` is folded by adding its carries to its low digit, twice.  What
comes out has the remainder of the sum modulo `B - 1`, and is 0 for the sum 0 alone.  So a sum
that is completed by the complement of its fold always folds to `B - 1`.
-/

namespace Unixlite.Verified.EndAround

variable {B s : Nat}

/-- The carries go to the low digit, and once more. -/
def fold (B s : Nat) : Nat :=
  let t := s / B + s % B
  (t + t / B) % B

theorem fold_lt (hB : 0 < B) : fold B s < B := Nat.mod_lt _ hB

/-- A carry is worth as much as a low digit. -/
theorem div_add_mod_modEq (s : Nat) : s / (B + 1) + s % (B + 1) ≡ s [MOD B] := by
  have hsplit : s = (s / (B + 1) + s % (B + 1)) + B * (s / (B + 1)) := by
    have hdiv := Nat.div_add_mod s (B + 1)
    rw [Nat.add_mul, Nat.one_mul] at hdiv
    omega
  calc s / (B + 1) + s % (B + 1)
      ≡ (s / (B + 1) + s % (B + 1)) + B * (s / (B + 1)) [MOD B] :=
        (Nat.modEq_iff_dvd' (Nat.le_add_right _ _)).mpr (by simp)
    _ = s := hsplit.symm

/-- The first fold leaves at most one carry, and none beside the largest digit. -/
theorem first_lt (hs : s < B * B) : s / B + s % B < 2 * B - 1 := by
  have hB : 0 < B := Nat.pos_of_mul_pos_left (Nat.zero_lt_of_lt hs)
  have hdiv : s / B < B := Nat.div_lt_of_lt_mul hs
  have hmod : s % B < B := Nat.mod_lt s hB
  omega

/-- What the second fold does to what the first one left. -/
theorem fold_eq (hs : s < B * B) : fold B s =
    if s / B + s % B < B then s / B + s % B else s / B + s % B + 1 - B := by
  have hlt := first_lt hs
  unfold fold
  dsimp only
  generalize s / B + s % B = t at hlt ⊢
  split
  · next ht => rw [Nat.div_eq_of_lt ht, Nat.add_zero, Nat.mod_eq_of_lt ht]
  · next ht =>
    have hone : t / B = 1 := Nat.div_eq_of_lt_le (by omega) (by omega)
    rw [hone, Nat.mod_eq_sub_mod (by omega), Nat.mod_eq_of_lt (by omega)]

theorem fold_modEq (hs : s < (B + 1) * (B + 1)) : fold (B + 1) s ≡ s [MOD B] := by
  rw [fold_eq hs]
  split
  · exact div_add_mod_modEq s
  · next ht =>
    have hback : s / (B + 1) + s % (B + 1) + 1 - (B + 1) + B = s / (B + 1) + s % (B + 1) := by
      omega
    calc s / (B + 1) + s % (B + 1) + 1 - (B + 1)
        ≡ s / (B + 1) + s % (B + 1) + 1 - (B + 1) + B [MOD B] :=
          (Nat.modEq_iff_dvd' (Nat.le_add_right _ _)).mpr (by simp)
      _ = s / (B + 1) + s % (B + 1) := hback
      _ ≡ s [MOD B] := div_add_mod_modEq s

theorem fold_eq_zero (hs : s < B * B) : fold B s = 0 ↔ s = 0 := by
  constructor
  · intro h
    rw [fold_eq hs] at h
    have hdiv := Nat.div_add_mod s B
    split at h
    · obtain ⟨hq, hr⟩ := Nat.add_eq_zero_iff.mp h
      rw [hq, hr, Nat.mul_zero] at hdiv
      exact hdiv.symm
    · omega
  · rintro rfl
    simp [fold]

/-- **What passes the check**: the multiples of `B`, but for 0. -/
theorem fold_eq_top (hB : 0 < B) (hs : s < (B + 1) * (B + 1)) :
    fold (B + 1) s = B ↔ s ≡ 0 [MOD B] ∧ s ≠ 0 := by
  have hmod : fold (B + 1) s ≡ s [MOD B] := fold_modEq hs
  have hzero : fold (B + 1) s = 0 ↔ s = 0 := fold_eq_zero hs
  constructor
  · intro h
    refine ⟨?_, fun hs0 => hB.ne' ?_⟩
    · calc s ≡ fold (B + 1) s [MOD B] := hmod.symm
        _ = B := h
        _ ≡ 0 [MOD B] := Nat.modEq_zero_iff_dvd.mpr (dvd_refl B)
    · rw [← h, hzero.mpr hs0]
  · rintro ⟨hs0, hne⟩
    have hle : fold (B + 1) s < B + 1 := fold_lt (Nat.succ_pos B)
    obtain ⟨k, hk⟩ := Nat.modEq_zero_iff_dvd.mp (hmod.trans hs0)
    rcases Nat.lt_trichotomy k 1 with hk0 | rfl | hk2
    · rw [Nat.lt_one_iff.mp hk0, Nat.mul_zero] at hk
      exact absurd (hzero.mp hk) hne
    · rw [hk, Nat.mul_one]
    · have hle2 : B * 2 ≤ B * k := Nat.mul_le_mul_left B hk2
      omega

/-- **The complement completes the sum**: what is checked against `B - 1` passes. -/
theorem fold_complement (hB : 0 < B) (hs : s + B < (B + 1) * (B + 1)) :
    fold (B + 1) (s + (B - fold (B + 1) s)) = B := by
  have hlt : fold (B + 1) s < B + 1 := fold_lt (Nat.succ_pos B)
  have hs' : s < (B + 1) * (B + 1) := by omega
  refine (fold_eq_top hB (by omega)).mpr ⟨?_, fun hzero => ?_⟩
  · calc s + (B - fold (B + 1) s)
        ≡ fold (B + 1) s + (B - fold (B + 1) s) [MOD B] := (fold_modEq hs').symm.add_right _
      _ = B := by omega
      _ ≡ 0 [MOD B] := Nat.modEq_zero_iff_dvd.mpr (dvd_refl B)
  · have hszero : s = 0 := by omega
    have hfold : fold (B + 1) s = 0 := (fold_eq_zero hs').mpr hszero
    omega

end Unixlite.Verified.EndAround
