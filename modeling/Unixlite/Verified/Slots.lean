import Mathlib.Data.List.Range
import Mathlib.Data.List.Nodup
import Mathlib.Data.List.Perm.Subperm

/-!
# Slots

An area cut into `n` slots of `size` from `base` on: where the slots lie, and
that two of them have nothing in common.
-/

namespace Unixlite.Verified.Slots

open List

variable {base size n p q : Nat}

/-- The addresses of the slots. -/
def slots (base size n : Nat) : List Nat := (List.range n).map fun i => base + i * size

/-- The slots at `p` and at `q` do not overlap. -/
def Apart (size p q : Nat) : Prop := p + size ≤ q ∨ q + size ≤ p

theorem mem_slots : p ∈ slots base size n ↔ ∃ i < n, p = base + i * size := by
  simp only [slots, mem_map, mem_range]
  constructor
  · rintro ⟨i, hi, rfl⟩
    exact ⟨i, hi, rfl⟩
  · rintro ⟨i, hi, rfl⟩
    exact ⟨i, hi, rfl⟩

@[simp] theorem slots_length : (slots base size n).length = n := by
  simp [slots]

@[simp] theorem slots_zero : slots base size 0 = [] := rfl

theorem slots_succ : slots base size (n + 1) = slots base size n ++ [base + n * size] := by
  simp [slots, range_succ]

theorem slots_nodup (hsize : 0 < size) : (slots base size n).Nodup := by
  refine List.Nodup.map ?_ nodup_range
  intro i j hij
  exact Nat.eq_of_mul_eq_mul_right hsize (Nat.add_left_cancel hij)

/-- A slot lies in the area. -/
theorem slots_inside (h : p ∈ slots base size n) : base ≤ p ∧ p + size ≤ base + n * size := by
  obtain ⟨i, hi, rfl⟩ := mem_slots.mp h
  have hle : (i + 1) * size ≤ n * size := Nat.mul_le_mul_right size hi
  rw [Nat.succ_mul] at hle
  omega

/-- Two slots are one or do not overlap. -/
theorem slots_apart (hp : p ∈ slots base size n) (hq : q ∈ slots base size n) (hne : p ≠ q) :
    Apart size p q := by
  obtain ⟨i, -, rfl⟩ := mem_slots.mp hp
  obtain ⟨j, -, rfl⟩ := mem_slots.mp hq
  rcases Nat.lt_trichotomy i j with hlt | rfl | hlt
  · have hle : (i + 1) * size ≤ j * size := Nat.mul_le_mul_right size hlt
    rw [Nat.succ_mul] at hle
    exact .inl (by omega)
  · exact absurd rfl hne
  · have hle : (j + 1) * size ≤ i * size := Nat.mul_le_mul_right size hlt
    rw [Nat.succ_mul] at hle
    exact .inr (by omega)

/-- Distinct slots are at most as many as there are. -/
theorem length_le_of_slots {l : List Nat} (hl : l.Nodup) (hsub : ∀ p ∈ l, p ∈ slots base size n) :
    l.length ≤ n := by
  calc
    l.length ≤ (slots base size n).length := (subperm_of_subset hl hsub).length_le
    _ = n := slots_length

end Unixlite.Verified.Slots
