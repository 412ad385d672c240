import Mathlib.Data.Finset.Card
import Mathlib.Data.Finset.Prod
import Mathlib.Logic.Function.Basic

/-!
# Counting references

The places of a table that hold a given object, counted over the finite set of
places in use: what one changed place, one new place or a place left out does
to the count.
-/

namespace Unixlite.Verified.Refcount

open Finset

variable {ι β : Type*} [DecidableEq ι] [DecidableEq β]

/-- The number of places in `A` that hold `o`. -/
def refs (A : Finset ι) (f : ι → Option β) (o : β) : Nat := (A.filter fun x => f x = some o).card

variable {A B : Finset ι} {f g : ι → Option β} {o : β}

omit [DecidableEq ι] in
theorem refs_congr (h : ∀ x ∈ A, f x = g x) : refs A f o = refs A g o := by
  unfold refs
  congr 1
  exact filter_congr fun x hx => by rw [h x hx]

omit [DecidableEq ι] in
theorem refs_pos : 0 < refs A f o ↔ ∃ x ∈ A, f x = some o := by
  simp [refs, card_pos, filter_nonempty_iff]

omit [DecidableEq ι] in
theorem refs_eq_zero : refs A f o = 0 ↔ ∀ x ∈ A, f x ≠ some o := by
  simp [refs, filter_eq_empty_iff]

omit [DecidableEq ι] in
/-- An object with one reference is in one place. -/
theorem eq_of_refs_le_one {x y : ι} (h : refs A f o ≤ 1) (hx : x ∈ A) (hy : y ∈ A)
    (hfx : f x = some o) (hfy : f y = some o) : x = y := by
  apply card_le_one.mp h
  · exact mem_filter.mpr ⟨hx, hfx⟩
  · exact mem_filter.mpr ⟨hy, hfy⟩

/-- One more place. -/
theorem refs_insert {x : ι} (hx : x ∉ A) :
    refs (insert x A) f o = refs A f o + if f x = some o then 1 else 0 := by
  unfold refs
  rw [filter_insert]
  split
  · exact card_insert_of_notMem fun h => hx (mem_of_mem_filter x h)
  · rfl

/-- Places that hold nothing do not count. -/
theorem refs_mono (hsub : A ⊆ B) (hnone : ∀ x ∈ B, x ∉ A → f x = none) :
    refs B f o = refs A f o := by
  unfold refs
  congr 1
  ext x
  simp only [mem_filter]
  constructor
  · rintro ⟨hB, hx⟩
    by_cases hA : x ∈ A
    · exact ⟨hA, hx⟩
    · rw [hnone x hB hA] at hx
      cases hx
  · rintro ⟨hA, hx⟩
    exact ⟨hsub hA, hx⟩

/-- One changed place: what it held counts one less, what it holds one more. -/
theorem refs_update {x : ι} (hx : x ∈ A) (v : Option β) :
    refs A (Function.update f x v) o + (if f x = some o then 1 else 0) =
      refs A f o + if v = some o then 1 else 0 := by
  have hA : insert x (A.erase x) = A := insert_erase hx
  have hsame : refs (A.erase x) (Function.update f x v) o = refs (A.erase x) f o :=
    refs_congr fun y hy => Function.update_of_ne (ne_of_mem_erase hy) v f
  have hnew := refs_insert (f := Function.update f x v) (o := o) (notMem_erase x A)
  have hold := refs_insert (f := f) (o := o) (notMem_erase x A)
  rw [hA, hsame, Function.update_self] at hnew
  rw [hA] at hold
  omega

/-- A place that held nothing takes `v`. -/
theorem refs_update_none {x : ι} (hx : x ∈ A) (hf : f x = none) (v : β) :
    refs A (Function.update f x (some v)) o = refs A f o + if v = o then 1 else 0 := by
  have h := refs_update (o := o) (f := f) hx (some v)
  simpa [hf] using h

/-- A place that held `v` is cleared. -/
theorem refs_update_clear {x : ι} (hx : x ∈ A) {v : β} (hf : f x = some v) :
    refs A (Function.update f x none) o + (if v = o then 1 else 0) = refs A f o := by
  have h := refs_update (o := o) (f := f) hx none
  simpa [hf] using h

end Unixlite.Verified.Refcount
