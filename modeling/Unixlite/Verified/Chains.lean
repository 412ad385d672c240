import Mathlib.Data.List.Nodup
import Mathlib.Logic.Function.Basic

/-!
# Hash chains

A table of chains, one for each hash value, that finds the members of a set by their keys.
`key` is partial: what has no key is not in the table.
-/

namespace Unixlite.Verified.Chains

open List

variable {α κ ι : Type*} [DecidableEq α] [DecidableEq ι]

/-- Put `x` at the end of the chain `b`. -/
def enqtail (chain : ι → List α) (b : ι) (x : α) : ι → List α :=
  fun c => if c = b then chain c ++ [x] else chain c

/-- Take `x` from the chain it is in. -/
def unlink (chain : ι → List α) (x : α) : ι → List α := fun b => (chain b).erase x

/-- Every member is on the chain of its key, once, and on no other. -/
structure Chained (hash : κ → ι) (key : α → Option κ) (chain : ι → List α) : Prop where
  mem : ∀ x b, x ∈ chain b ↔ ∃ k, key x = some k ∧ hash k = b
  nodup : ∀ b, (chain b).Nodup

variable {hash : κ → ι} {key : α → Option κ} {chain : ι → List α} {x : α} {k : κ}

omit [DecidableEq α] [DecidableEq ι] in
theorem chained_empty : Chained hash (fun _ => none) (fun _ => ([] : List α)) where
  mem := by
    intro x b
    constructor
    · intro hx
      cases hx
    · rintro ⟨k, hk, -⟩
      cases hk
  nodup := fun _ => nodup_nil

omit [DecidableEq α] [DecidableEq ι] in
theorem Chained.not_mem (h : Chained hash key chain) (hx : key x = none) (b : ι) : x ∉ chain b := by
  rw [h.mem]
  rintro ⟨k, hk, -⟩
  rw [hx] at hk
  cases hk

/-- A new member. -/
theorem Chained.enqtail (h : Chained hash key chain) (hx : key x = none) :
    Chained hash (Function.update key x (some k)) (enqtail chain (hash k) x) where
  mem := by
    intro y b
    unfold Chains.enqtail
    by_cases hy : y = x
    · rw [hy, Function.update_self]
      split
      · next hb => simp [hb]
      · next hb =>
        refine iff_of_false (h.not_mem hx b) ?_
        rintro ⟨k', hk', hb'⟩
        cases hk'
        exact hb hb'.symm
    · rw [Function.update_of_ne hy, ← h.mem]
      split
      · simp [hy]
      · rfl
  nodup := by
    intro b
    unfold Chains.enqtail
    split
    · refine nodup_append.mpr ⟨h.nodup b, nodup_singleton x, fun y hy z hz => ?_⟩
      rw [mem_singleton.mp hz]
      rintro rfl
      exact h.not_mem hx b hy
    · exact h.nodup b

omit [DecidableEq ι] in
/-- A member that is removed. -/
theorem Chained.unlink (h : Chained hash key chain) (x : α) :
    Chained hash (Function.update key x none) (unlink chain x) where
  mem := by
    intro y b
    unfold Chains.unlink
    rw [(h.nodup b).mem_erase_iff]
    by_cases hy : y = x
    · simp [hy]
    · rw [Function.update_of_ne hy, ← h.mem]
      simp [hy]
  nodup := fun b => (h.nodup b).erase x

/-- A member whose key changes. -/
theorem Chained.rekey (h : Chained hash key chain) (x : α) (k : κ) :
    Chained hash (Function.update key x (some k))
      (Chains.enqtail (Chains.unlink chain x) (hash k) x) := by
  have hnew := (h.unlink x).enqtail (k := k) (Function.update_self ..)
  rwa [Function.update_idem] at hnew

omit [DecidableEq α] [DecidableEq ι] in
/-- What a search on the chain of `k` for members with that key finds. -/
theorem Chained.any_iff (h : Chained hash key chain) {p : α → Bool}
    (hp : ∀ x, p x = true → key x = some k) :
    (chain (hash k)).any p = true ↔ ∃ x, p x = true := by
  rw [any_eq_true]
  constructor
  · rintro ⟨x, -, hx⟩
    exact ⟨x, hx⟩
  · rintro ⟨x, hx⟩
    exact ⟨x, (h.mem x _).mpr ⟨k, hp x hx, rfl⟩, hx⟩

end Unixlite.Verified.Chains
