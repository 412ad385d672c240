import Mathlib.Data.List.GetD
import Mathlib.Data.Int.ModEq

/-!
# Windows of a ring

The `len` cells of a ring of `size` cells from a given one on, as a list: how
windows join, and what is left of them when other cells are written.
-/

namespace Unixlite.Verified.Ring

open List

variable {α : Type*}

/-- The cells from `start` on, wrapping at `size`. -/
def window (room : Nat → α) (size start len : Nat) : List α :=
  (List.range len).map fun i => room ((start + i) % size)

/-- A run of cells that does not wrap. -/
def chunk (room : Nat → α) (start len : Nat) : List α :=
  (List.range len).map fun i => room (start + i)

/-- `xs` is written from cell `start` on. -/
def write (room : Nat → α) (start : Nat) (xs : List α) : Nat → α := fun j =>
  if start ≤ j then xs.getD (j - start) (room j) else room j

variable {room : Nat → α} {size : Nat}

@[simp] theorem window_length (start len : Nat) : (window room size start len).length = len := by
  simp [window]

@[simp] theorem chunk_length (start len : Nat) : (chunk room start len).length = len := by
  simp [chunk]

/-- A window is a window followed by one. -/
theorem window_add (start m n : Nat) :
    window room size start (m + n) =
      window room size start m ++ window room size (start + m) n := by
  simp only [window, range_add, map_append, map_map]
  congr 1
  refine map_congr_left fun i _ => ?_
  simp only [Function.comp]
  rw [Nat.add_assoc]

theorem window_mod (start len : Nat) :
    window room size (start % size) len = window room size start len := by
  refine map_congr_left fun i _ => ?_
  rw [Nat.mod_add_mod]

variable {len start : Nat} {xs : List α}

/-- A window that does not wrap. -/
theorem window_eq_chunk (h : start + len ≤ size) :
    window room size start len = chunk room start len := by
  refine map_congr_left fun i hi => ?_
  have := mem_range.mp hi
  rw [Nat.mod_eq_of_lt (by omega)]

/-- What has been written is there. -/
theorem chunk_write (start : Nat) (xs : List α) :
    chunk (write room start xs) start xs.length = xs := by
  refine ext_getElem (by simp) fun i h₁ h₂ => ?_
  simp [chunk, write, h₂]

theorem write_outside {j : Nat} (h : j < start ∨ start + xs.length ≤ j) :
    write room start xs j = room j := by
  unfold write
  split
  · rw [getD_eq_default]
    omega
  · rfl

/-- The cells of a window are not those of the window after it. -/
theorem window_disjoint {n i d : Nat} (hfit : len + n ≤ size) (hi : i < len)
    (hd : d < n) : (start + i) % size ≠ (start + len) % size + d := by
  intro heq
  have hmod : start + i ≡ start + (len + d) [MOD size] := by
    unfold Nat.ModEq
    rw [heq, ← Nat.add_assoc]
    conv_rhs => rw [← Nat.mod_add_mod]
    rw [← heq, Nat.mod_mod]
  have hcancel : i ≡ len + d [MOD size] := Nat.ModEq.add_left_cancel' start hmod
  have := Nat.ModEq.eq_of_lt_of_lt hcancel (by omega) (by omega)
  omega

/-- A window is not changed by a write to the cells after it. -/
theorem window_write (hfit : len + xs.length ≤ size) :
    window (write room ((start + len) % size) xs) size start len =
      window room size start len := by
  refine map_congr_left fun i hi => write_outside ?_
  have hi := mem_range.mp hi
  by_contra hinside
  have hne : (start + i) % size ≠
      (start + len) % size + ((start + i) % size - (start + len) % size) :=
    window_disjoint hfit hi (by omega)
  omega

/-- A window grows by what is written after it. -/
theorem window_append_write (hfit : len + xs.length ≤ size)
    (hwrap : (start + len) % size + xs.length ≤ size) :
    window (write room ((start + len) % size) xs) size start (len + xs.length) =
      window room size start len ++ xs := by
  rw [window_add, window_write hfit]
  congr 1
  rw [← window_mod, window_eq_chunk hwrap, chunk_write]

/-- A window from which the first cells are taken. -/
theorem window_sub {n : Nat} (hn : n ≤ len) :
    window room size start len =
      window room size start n ++ window room size (start + n) (len - n) := by
  rw [← window_add]
  congr 1
  omega

end Unixlite.Verified.Ring
