import Mathlib.Data.BitVec
import Mathlib.Tactic.Ring

/-!
# Serial numbers

Numbers of `w` bits that stand for positions in an unbounded sequence.  Two of
them are compared through the sign of their difference, which is right as long
as the positions are less than half the number space apart.
-/

namespace Unixlite.Verified.Serial

open BitVec (sub_self toNat_neg toNat_ofNat toNat_zero)

variable {w : Nat}

/-- `a` comes before `b`: the difference `a - b` is negative as a signed word. -/
def lt (a b : BitVec w) : Bool := (a - b).slt 0

/-- `a` comes after `b`: the difference is positive as a signed word. -/
def gt (a b : BitVec w) : Bool := (0 : BitVec w).slt (a - b)

/-- The number of position `n`, counted from `x`. -/
def num (x : BitVec w) (n : Nat) : BitVec w := x + BitVec.ofNat w n

@[simp] theorem num_zero (x : BitVec w) : num x 0 = x := by
  simp [num]

theorem num_add (x : BitVec w) (m n : Nat) : num (num x m) n = num x (m + n) := by
  simp [num, BitVec.ofNat_add, BitVec.add_assoc]

/-- Going back from position `m` to `n` subtracts `m - n`. -/
theorem num_sub_num (x : BitVec w) {m n : Nat} (h : n ≤ m) :
    num x m - num x n = BitVec.ofNat w (m - n) := by
  obtain ⟨d, rfl⟩ := Nat.exists_eq_add_of_le h
  rw [← num_add, Nat.add_sub_cancel_left]
  generalize num x n = y
  simp [num, BitVec.add_comm y]

/-- Positions less than the whole space apart have different numbers. -/
theorem num_inj {x : BitVec w} {m n : Nat} (hmn : m < n + 2 ^ w) (hnm : n < m + 2 ^ w) :
    num x m = num x n ↔ m = n := by
  constructor
  · intro h
    rcases Nat.le_total n m with hle | hle
    · have hsub := num_sub_num x hle
      rw [h, sub_self] at hsub
      have hmod := congrArg BitVec.toNat hsub
      rw [toNat_zero, toNat_ofNat, Nat.mod_eq_of_lt (by omega)] at hmod
      omega
    · have hsub := num_sub_num x hle
      rw [h, sub_self] at hsub
      have hmod := congrArg BitVec.toNat hsub
      rw [toNat_zero, toNat_ofNat, Nat.mod_eq_of_lt (by omega)] at hmod
      omega
  · rintro rfl
    rfl

/-- The comparison agrees with the order of the positions if these are at most
half the space apart. -/
theorem lt_num (x : BitVec w) {m n : Nat} (hmn : m < n + 2 ^ (w - 1))
    (hnm : n ≤ m + 2 ^ (w - 1)) (hw : 0 < w) :
    lt (num x m) (num x n) = decide (m < n) := by
  have hpow : 2 ^ w = 2 * 2 ^ (w - 1) := by
    obtain ⟨k, rfl⟩ := Nat.exists_eq_succ_of_ne_zero (Nat.pos_iff_ne_zero.mp hw)
    simp [Nat.pow_succ, Nat.mul_comm]
  rw [lt, BitVec.ofNat_eq_ofNat, BitVec.slt_zero_eq_msb, BitVec.msb_eq_decide]
  rcases Nat.lt_or_ge m n with hlt | hge
  · have hneg : num x m - num x n = -BitVec.ofNat w (n - m) := by
      rw [← num_sub_num x hlt.le]
      simp
    have hval : (num x m - num x n).toNat = 2 ^ w - (n - m) := by
      rw [hneg, toNat_neg, toNat_ofNat, Nat.mod_eq_of_lt (a := n - m) (by omega)]
      exact Nat.mod_eq_of_lt (by omega)
    simp only [hlt, decide_true, decide_eq_true_eq]
    omega
  · have hval : (num x m - num x n).toNat = m - n := by
      rw [num_sub_num x hge, toNat_ofNat]
      exact Nat.mod_eq_of_lt (by omega)
    have hnlt : ¬ m < n := by omega
    simp only [hnlt, decide_false, decide_eq_false_iff_not]
    omega

/-- A number is not after one that lies at most half the space ahead of it. -/
theorem gt_add_eq_false (x : BitVec w) {n : Nat} (hn : n ≤ 2 ^ (w - 1)) (hw : 0 < w) :
    gt x (num x n) = false := by
  have hpow : 2 ^ w = 2 * 2 ^ (w - 1) := by
    obtain ⟨k, rfl⟩ := Nat.exists_eq_succ_of_ne_zero (Nat.pos_iff_ne_zero.mp hw)
    simp [Nat.pow_succ, Nat.mul_comm]
  have hneg : x - num x n = -BitVec.ofNat w n := by
    have hsub := num_sub_num x (Nat.zero_le n)
    rw [num_zero, Nat.sub_zero] at hsub
    rw [← hsub]
    simp
  rw [gt, hneg, BitVec.slt_eq_decide, decide_eq_false_iff_not, not_lt]
  rcases Nat.eq_zero_or_pos n with rfl | hpos
  · simp
  · have hval : (-BitVec.ofNat w n).toNat = 2 ^ w - n := by
      rw [toNat_neg, toNat_ofNat, Nat.mod_eq_of_lt (a := n) (by omega)]
      exact Nat.mod_eq_of_lt (by omega)
    have hle := BitVec.toInt_neg_iff.mpr (show 2 ^ w ≤ 2 * (-BitVec.ofNat w n).toNat by omega)
    simp
    omega

/-- The other comparison, for positions less than half the space apart. -/
theorem gt_num (x : BitVec w) {m n : Nat} (hmn : m < n + 2 ^ (w - 1))
    (hnm : n ≤ m + 2 ^ (w - 1)) (hw : 0 < w) :
    gt (num x m) (num x n) = decide (n < m) := by
  have hpow : 2 ^ w = 2 * 2 ^ (w - 1) := by
    obtain ⟨k, rfl⟩ := Nat.exists_eq_succ_of_ne_zero (Nat.pos_iff_ne_zero.mp hw)
    simp [Nat.pow_succ, Nat.mul_comm]
  rcases Nat.lt_or_ge n m with hlt | hge
  · have hval : (num x m - num x n).toNat = m - n := by
      rw [num_sub_num x hlt.le, toNat_ofNat]
      exact Nat.mod_eq_of_lt (by omega)
    have hint : (num x m - num x n).toInt = ((m - n : Nat) : Int) := by
      rw [BitVec.toInt_eq_toNat_of_lt (by omega), hval]
    have hzero : (0 : BitVec w).toInt = 0 := BitVec.toInt_zero
    rw [gt, BitVec.slt_eq_decide, hint, hzero]
    simp only [hlt, decide_true, decide_eq_true_eq]
    omega
  · have hnum : num x n = num (num x m) (n - m) := by rw [num_add, Nat.add_sub_cancel' hge]
    rw [hnum, gt_add_eq_false _ (by omega) hw, decide_eq_false (by omega)]

/-- How far a number is ahead of another one. -/
theorem num_sub_toNat (x y : BitVec w) : num x (y - x).toNat = y := by
  rw [num, BitVec.ofNat_toNat, BitVec.setWidth_eq, BitVec.add_comm, BitVec.sub_add_cancel]

end Unixlite.Verified.Serial
