import Mathlib.Data.List.GetD

/-!
# Writing a run of values

An array with an end, into which a run of values is written at a place.  What is in front of the
end and outside of the run stays, and the end moves behind the run.  Two runs, one right behind
the other, are one.
-/

namespace Unixlite.Verified

open List

variable {β : Type*}

/-- `get'` is `get` with `bs` written at `pos`; the ends are `size` and `size'`. -/
structure Spliced (d : β) (get get' : Nat → β) (size pos : Nat) (bs : List β) (size' : Nat) :
    Prop where
  run : ∀ i < bs.length, get' (pos + i) = bs.getD i d
  fin : size' = if 0 < bs.length then max size (pos + bs.length) else size
  other : ∀ q < size, ¬(pos ≤ q ∧ q < pos + bs.length) → get' q = get q

namespace Spliced

variable {d : β} {get get₁ get₂ : Nat → β} {size size₁ size₂ pos : Nat} {bs cs : List β}

theorem nil : Spliced d get get size pos [] size :=
  ⟨fun _ hi => absurd hi (Nat.not_lt_zero _), rfl, fun _ _ _ => rfl⟩

theorem le_size (h : Spliced d get get₁ size pos bs size₁) :
    size ≤ size₁ ∧ ∀ i < bs.length, pos + i < size₁ := by
  have hsize := h.fin
  split at hsize
  · exact ⟨by omega, fun i hi => by omega⟩
  · exact ⟨Nat.le_of_eq hsize.symm, fun i hi => by omega⟩

/-- One run behind the other. -/
theorem append {n : Nat} (h : Spliced d get get₁ size pos bs size₁) (hn : bs.length = n)
    (h' : Spliced d get₁ get₂ size₁ (pos + n) cs size₂) :
    Spliced d get get₂ size pos (bs ++ cs) size₂ := by
  subst hn
  obtain ⟨hle, hin⟩ := h.le_size
  refine ⟨fun i hi => ?_, ?_, fun q hq hout => ?_⟩
  · rw [length_append] at hi
    by_cases hfirst : i < bs.length
    · rw [getD_append _ _ _ _ hfirst, ← h.run i hfirst]
      exact h'.other _ (hin i hfirst) (by omega)
    · have hplace : pos + i = pos + bs.length + (i - bs.length) := by omega
      rw [getD_append_right _ _ _ _ (Nat.le_of_not_lt hfirst), hplace]
      exact h'.run _ (by omega)
  · have hsize := h.fin
    have hsize' := h'.fin
    rw [length_append]
    split at hsize <;> split at hsize' <;> split <;> omega
  · rw [length_append] at hout
    rw [h'.other q (Nat.lt_of_lt_of_le hq hle) (by omega)]
    exact h.other q hq (by omega)

end Spliced

end Unixlite.Verified
