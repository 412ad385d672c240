import Mathlib.Logic.Function.Basic
import Mathlib.Data.Int.Basic

/-!
# Cells that are written in a window

A memory of cells, and the loops that fill and copy parts of it.  Every write names the window
`[lo, hi)` it is meant for, and the memory remembers whether one has missed its window.  The
two copying loops go upwards and downwards: one of them suits every overlap.
-/

namespace Unixlite.Verified

structure Cells (α : Type*) where
  cell : Int → α
  stray : Bool

namespace Cells

variable {α : Type*}

def put (lo hi p : Int) (v : α) (m : Cells α) : Cells α where
  cell := Function.update m.cell p v
  stray := m.stray || !decide (lo ≤ p ∧ p < hi)

/-- Fill `n` cells from `p` on. -/
def fill (lo hi : Int) (v : α) : (n : Nat) → (p : Int) → Cells α → Cells α
  | 0, _, m => m
  | n + 1, p, m => fill lo hi v n (p + 1) (m.put lo hi p v)

/-- Copy `n` cells from `src` on, the first one first. -/
def forth (lo hi : Int) : (n : Nat) → (src dst : Int) → Cells α → Cells α
  | 0, _, _, m => m
  | n + 1, src, dst, m => forth lo hi n (src + 1) (dst + 1) (m.put lo hi dst (m.cell src))

/-- Copy the `n` cells before `src`, the last one first. -/
def back (lo hi : Int) : (n : Nat) → (src dst : Int) → Cells α → Cells α
  | 0, _, _, m => m
  | n + 1, src, dst, m =>
      back lo hi n (src - 1) (dst - 1) (m.put lo hi (dst - 1) (m.cell (src - 1)))

variable {lo hi p src dst : Int} {v : α} {n : Nat} {m : Cells α}

theorem cell_put (q : Int) : (m.put lo hi p v).cell q = if q = p then v else m.cell q :=
  Function.update_apply ..

theorem stray_put : (m.put lo hi p v).stray = false ↔ m.stray = false ∧ lo ≤ p ∧ p < hi := by
  simp only [put, Bool.or_eq_false_iff, Bool.not_eq_false', decide_eq_true_eq]

/-! ## What the loops leave -/

theorem cell_fill (q : Int) :
    (m.fill lo hi v n p).cell q = if p ≤ q ∧ q < p + n then v else m.cell q := by
  induction n generalizing p m with
  | zero => rw [fill, if_neg (by omega)]
  | succ n ih =>
      rw [fill, ih, cell_put]
      by_cases hq : q = p
      · rw [if_neg (by omega), if_pos hq, if_pos (by omega)]
      · rw [if_neg hq]
        by_cases hrest : p + 1 ≤ q ∧ q < p + 1 + n
        · rw [if_pos hrest, if_pos (by omega)]
        · rw [if_neg hrest, if_neg (by omega)]

/-- Upwards is right when the cells move down. -/
theorem cell_forth (h : dst ≤ src) (q : Int) :
    (m.forth lo hi n src dst).cell q =
      if dst ≤ q ∧ q < dst + n then m.cell (src + (q - dst)) else m.cell q := by
  induction n generalizing src dst m with
  | zero => rw [forth, if_neg (by omega)]
  | succ n ih =>
      rw [forth, ih (by omega), cell_put, cell_put]
      by_cases hq : q = dst
      · rw [if_neg (by omega), if_pos hq, if_pos (by omega), hq]
        congr 1
        omega
      · by_cases hrest : dst + 1 ≤ q ∧ q < dst + 1 + n
        · -- the cell that was written is behind all that are read from now on
          rw [if_pos hrest, if_neg (by omega), if_pos (by omega)]
          congr 1
          omega
        · rw [if_neg hrest, if_neg hq, if_neg (by omega)]

/-- Downwards is right when the cells move up. -/
theorem cell_back (h : src ≤ dst) (q : Int) :
    (m.back lo hi n src dst).cell q =
      if dst - n ≤ q ∧ q < dst then m.cell (src + (q - dst)) else m.cell q := by
  induction n generalizing src dst m with
  | zero => rw [back, if_neg (by omega)]
  | succ n ih =>
      rw [back, ih (by omega), cell_put, cell_put]
      by_cases hq : q = dst - 1
      · rw [if_neg (by omega), if_pos hq, if_pos (by omega), hq]
        congr 1
        omega
      · by_cases hrest : dst - 1 - n ≤ q ∧ q < dst - 1
        · rw [if_pos hrest, if_neg (by omega), if_pos (by omega)]
          congr 1
          omega
        · rw [if_neg hrest, if_neg hq, if_neg (by omega)]

/-! ## Where the loops write -/

theorem stray_fill :
    (m.fill lo hi v n p).stray = false ↔
      m.stray = false ∧ (n = 0 ∨ lo ≤ p ∧ p + n ≤ hi) := by
  induction n generalizing p m with
  | zero => rw [fill, and_iff_left (.inl rfl)]
  | succ n ih =>
      rw [fill, ih, stray_put, and_assoc]
      refine and_congr_right fun _ => ?_
      omega

theorem stray_forth :
    (m.forth lo hi n src dst).stray = false ↔
      m.stray = false ∧ (n = 0 ∨ lo ≤ dst ∧ dst + n ≤ hi) := by
  induction n generalizing src dst m with
  | zero => rw [forth, and_iff_left (.inl rfl)]
  | succ n ih =>
      rw [forth, ih, stray_put, and_assoc]
      refine and_congr_right fun _ => ?_
      omega

theorem stray_back :
    (m.back lo hi n src dst).stray = false ↔
      m.stray = false ∧ (n = 0 ∨ lo ≤ dst - n ∧ dst ≤ hi) := by
  induction n generalizing src dst m with
  | zero => rw [back, and_iff_left (.inl rfl)]
  | succ n ih =>
      rw [back, ih, stray_put, and_assoc]
      refine and_congr_right fun _ => ?_
      omega

end Cells

end Unixlite.Verified
