import Mathlib.Logic.Function.Basic
import Unixlite.Verified.Partial

/-!
# Arrays in memory

Memory from which arrays are taken and to which they are given back.  An access faults when
the array has been given back or the index is not one of its; giving back faults when that
has been done before.  So a computation without a fault gives every array back once at most,
and has given it back when there is no cell left.
-/

namespace Unixlite.Verified

open Partial
open Function (update update_of_ne update_self)

/-- An array. -/
structure Cell (α : Type) where
  size : Nat
  elem : Nat → α

/-- Memory; the arrays from `fresh` on are still to be handed out. -/
structure Heap (α : Type) where
  fresh : Nat
  cell : Nat → Option (Cell α)
  unused : ∀ p, fresh ≤ p → cell p = none

namespace Heap

inductive Fault where
  /-- The array has been given back. -/
  | freed
  | outside
deriving DecidableEq

variable {α : Type} {h h' : Heap α} {p q i : Nat} {x : α}

/-- A new array, all of whose elements are `x`. -/
def alloc (h : Heap α) (n : Nat) (x : α) : Heap α where
  fresh := h.fresh + 1
  cell := update h.cell h.fresh (some ⟨n, fun _ => x⟩)
  unused p hp := by
    rw [update_of_ne (by omega)]
    exact h.unused p (by omega)

def load (h : Heap α) (p i : Nat) : Except Fault α :=
  match h.cell p with
  | none => .error .freed
  | some c => if i < c.size then .ok (c.elem i) else .error .outside

def store (h : Heap α) (p i : Nat) (x : α) : Except Fault (Heap α) :=
  match hc : h.cell p with
  | none => .error .freed
  | some c =>
      if i < c.size then
        .ok
          { fresh := h.fresh
            cell := update h.cell p (some ⟨c.size, update c.elem i x⟩)
            unused := fun q hq => by
              rw [update_of_ne]
              · exact h.unused q hq
              · rintro rfl
                rw [h.unused q hq] at hc
                cases hc }
      else .error .outside

def free (h : Heap α) (p : Nat) : Except Fault (Heap α) :=
  match h.cell p with
  | none => .error .freed
  | some _ =>
      .ok
        { fresh := h.fresh
          cell := update h.cell p none
          unused := fun q hq => by
            by_cases hqp : q = p
            · rw [hqp, update_self]
            · rw [update_of_ne hqp]
              exact h.unused q hq }

/-- The size of an array, if it is there. -/
def size (h : Heap α) (p : Nat) : Option Nat := (h.cell p).map Cell.size

/-! ## What an access does -/

theorem fresh_alloc (h : Heap α) (n : Nat) (x : α) : (h.alloc n x).fresh = h.fresh + 1 := rfl

theorem cell_alloc (h : Heap α) (n : Nat) (x : α) :
    (h.alloc n x).cell = update h.cell h.fresh (some ⟨n, fun _ => x⟩) := rfl

theorem load_eq {c : Cell α} (hc : h.cell p = some c) (hi : i < c.size) :
    h.load p i = .ok (c.elem i) := by
  unfold load
  rw [hc]
  exact if_pos hi

/-- Only what is inside an array can be read. -/
theorem load_inside (hload : h.load p i = .ok x) : ∃ n, h.size p = some n ∧ i < n := by
  unfold load at hload
  cases hc : h.cell p with
  | none =>
      rw [hc] at hload
      cases hload
  | some c =>
      rw [hc] at hload
      dsimp only at hload
      split_ifs at hload with hi
      exact ⟨c.size, by rw [size, hc, Option.map_some], hi⟩

theorem store_ok {c : Cell α} (hc : h.cell p = some c) (hi : i < c.size) (x : α) :
    ∃ h', h.store p i x = .ok h' ∧ h'.fresh = h.fresh ∧
      h'.cell = update h.cell p (some ⟨c.size, update c.elem i x⟩) := by
  unfold store
  split
  · next hnone =>
    rw [hc] at hnone
    cases hnone
  · next c' hc' =>
    rw [hc] at hc'
    cases hc'
    rw [if_pos hi]
    exact ⟨_, rfl, rfl, rfl⟩

theorem store_cell (hstore : h.store p i x = .ok h') :
    ∃ c, h.cell p = some c ∧
      h'.cell = update h.cell p (some ⟨c.size, update c.elem i x⟩) := by
  unfold store at hstore
  split at hstore
  · cases hstore
  · next c hc =>
    split_ifs at hstore
    cases hstore
    exact ⟨c, hc, rfl⟩

theorem free_ok {c : Cell α} (hc : h.cell p = some c) :
    ∃ h', h.free p = .ok h' ∧ h'.fresh = h.fresh ∧ h'.cell = update h.cell p none := by
  unfold free
  split
  · next hnone =>
    rw [hc] at hnone
    cases hnone
  · exact ⟨_, rfl, rfl, rfl⟩

theorem free_cell (hfree : h.free p = .ok h') :
    (∃ c, h.cell p = some c) ∧ h'.cell = update h.cell p none := by
  unfold free at hfree
  split at hfree
  · cases hfree
  · next c hc =>
    cases hfree
    exact ⟨⟨c, hc⟩, rfl⟩

/-! ## Sizes -/

/-- A write leaves the sizes as they are. -/
theorem size_store (hstore : h.store p i x = .ok h') (q : Nat) : h'.size q = h.size q := by
  obtain ⟨c, hc, hcell⟩ := store_cell hstore
  unfold size
  rw [hcell]
  by_cases hqp : q = p
  · rw [hqp, update_self, hc]
    rfl
  · rw [update_of_ne hqp]

/-- An array that has been given back does not come back. -/
theorem size_free_none (hq : h.size q = none) (hfree : h.free p = .ok h') : h'.size q = none := by
  rw [size, (free_cell hfree).2]
  by_cases hqp : q = p
  · rw [hqp, update_self, Option.map_none]
  · rw [update_of_ne hqp]
    exact hq

theorem size_free_self (hfree : h.free p = .ok h') : h'.size p = none := by
  rw [size, (free_cell hfree).2, update_self, Option.map_none]

/-- It cannot be given back again. -/
theorem free_freed (hp : h.size p = none) : h.free p ≠ .ok h' := by
  intro hfree
  obtain ⟨⟨c, hc⟩, -⟩ := free_cell hfree
  rw [size, hc] at hp
  cases hp

end Heap

end Unixlite.Verified
