import Mathlib.Data.List.Count
import Mathlib.Logic.Function.Basic

/-!
# Reference counts and what has been taken

A program takes references and gives them back, in any order.  `Taken c c' l` says that the
counts have become `c'` because the references of `l` are out.
-/

namespace Unixlite.Verified.Counter

open List

variable {α : Type*} [DecidableEq α]

def hold (c : α → Nat) (a : α) : α → Nat := Function.update c a (c a + 1)

def lose (c : α → Nat) (a : α) : α → Nat := Function.update c a (c a - 1)

/-- The references of `l` have been taken, and no other. -/
def Taken (c c' : α → Nat) (l : List α) : Prop := ∀ a, c' a = c a + l.count a

variable {c c' : α → Nat} {l l' : List α} {a b : α}

theorem hold_apply : hold c a b = c b + if b = a then 1 else 0 := by
  unfold hold
  by_cases hb : b = a
  · rw [hb, Function.update_self, if_pos rfl]
  · rw [Function.update_of_ne hb, if_neg hb, Nat.add_zero]

theorem lose_apply : lose c a b = c b - if b = a then 1 else 0 := by
  unfold lose
  by_cases hb : b = a
  · rw [hb, Function.update_self, if_pos rfl]
  · rw [Function.update_of_ne hb, if_neg hb, Nat.sub_zero]

theorem lose_hold (c : α → Nat) (a : α) : lose (hold c a) a = c := by
  funext b
  rw [lose_apply, hold_apply, Nat.add_sub_cancel]

theorem Taken.refl (c : α → Nat) : Taken c c [] := fun _ => rfl

theorem Taken.of_perm (h : Taken c c' l) (hperm : l.Perm l') : Taken c c' l' := by
  intro b
  rw [h b, hperm.count_eq]

/-- All has been given back. -/
theorem Taken.eq (h : Taken c c' []) : c' = c := funext h

/-- Something is still out. -/
theorem Taken.ne (h : Taken c c' l) (ha : a ∈ l) : c' a ≠ c a := by
  have hpos := count_pos_iff.mpr ha
  rw [h a]
  omega

/-- The count of one more, and of one less. -/
theorem Taken.add (h : Taken c c' l) {c'' : α → Nat}
    (hc : ∀ b, c'' b = c' b + if b = a then 1 else 0) : Taken c c'' (a :: l) := by
  intro b
  rw [hc, h b, count_cons]
  by_cases hb : b = a
  · rw [hb, if_pos rfl, if_pos (beq_self_eq_true a)]
    omega
  · rw [if_neg hb, if_neg (by simpa using Ne.symm hb)]
    omega

theorem Taken.sub (h : Taken c c' l) (ha : a ∈ l) {c'' : α → Nat}
    (hc : ∀ b, c'' b = c' b - if b = a then 1 else 0) : Taken c c'' (l.erase a) := by
  intro b
  rw [hc, h b, count_erase]
  by_cases hb : b = a
  · have hpos := count_pos_iff.mpr ha
    rw [hb, if_pos rfl, if_pos (beq_self_eq_true a)]
    omega
  · rw [if_neg hb, if_neg (by simpa using Ne.symm hb)]
    rfl

theorem Taken.hold (h : Taken c c' l) (a : α) : Taken c (hold c' a) (a :: l) :=
  h.add fun _ => hold_apply

theorem Taken.lose (h : Taken c c' l) (ha : a ∈ l) : Taken c (lose c' a) (l.erase a) :=
  h.sub ha fun _ => lose_apply

/-- What has been taken last is given back. -/
theorem Taken.lose_head (h : Taken c c' (a :: l)) : Taken c (Counter.lose c' a) l := by
  have hlose := h.lose mem_cons_self
  rwa [erase_cons_head] at hlose

end Unixlite.Verified.Counter
