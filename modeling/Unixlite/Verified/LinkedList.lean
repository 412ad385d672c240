import Mathlib.Data.List.Nodup

/-!
# Linked lists in a memory

A memory gives each cell the next one.  `Linked next head l` says that the cells
from `head` on are those of `l`, in this order, and that the last one ends the
list.  A head has at most one such list, and no cell comes in it twice.
-/

namespace Unixlite.Verified.LinkedList

open List

variable {α : Type*} {next next' : α → Option α} {head : Option α} {a : α} {l l' : List α}

/-- The cells from `head` on are those of `l`. -/
def Linked (next : α → Option α) : Option α → List α → Prop
  | none, [] => True
  | some a, b :: l => a = b ∧ Linked next (next a) l
  | _, _ => False

/-- Follow the links from `head`, at most `fuel` of them. -/
def follow (next : α → Option α) : Nat → Option α → Option (List α)
  | _, none => some []
  | 0, some _ => none
  | fuel + 1, some a => (follow next fuel (next a)).map fun l => a :: l

theorem linked_nil : Linked next head [] ↔ head = none := by
  cases head with
  | none => exact iff_of_true trivial rfl
  | some a => exact iff_of_false id (Option.some_ne_none a)

theorem linked_cons : Linked next head (a :: l) ↔ head = some a ∧ Linked next (next a) l := by
  cases head with
  | none => exact iff_of_false id fun h => Option.some_ne_none a h.1.symm
  | some b =>
      constructor
      · intro ⟨hb, hl⟩
        subst hb
        exact ⟨rfl, hl⟩
      · intro ⟨hb, hl⟩
        cases hb
        exact ⟨rfl, hl⟩

/-- Links of other cells do not matter. -/
theorem Linked.congr (h : Linked next head l) (hsame : ∀ a ∈ l, next' a = next a) :
    Linked next' head l := by
  induction l generalizing head with
  | nil => exact linked_nil.mpr (linked_nil.mp h)
  | cons a l ih =>
      obtain ⟨hhead, hl⟩ := linked_cons.mp h
      apply linked_cons.mpr
      rw [hsame a mem_cons_self]
      exact ⟨hhead, ih hl fun b hb => hsame b (mem_cons_of_mem a hb)⟩

theorem Linked.unique (h : Linked next head l) (h' : Linked next head l') : l = l' := by
  induction l generalizing head l' with
  | nil =>
      rw [linked_nil.mp h] at h'
      cases l' with
      | nil => rfl
      | cons b l' => exact h'.elim
  | cons a l ih =>
      obtain ⟨hhead, hl⟩ := linked_cons.mp h
      cases l' with
      | nil =>
          rw [hhead] at h'
          exact h'.elim
      | cons b l' =>
          obtain ⟨hhead', hl'⟩ := linked_cons.mp h'
          rw [hhead] at hhead'
          cases hhead'
          rw [ih hl hl']

/-- From each cell of a list the rest of it is linked. -/
theorem Linked.suffix (h : Linked next head (l ++ a :: l')) : Linked next (some a) (a :: l') := by
  induction l generalizing head with
  | nil =>
      obtain ⟨-, hl⟩ := linked_cons.mp h
      exact linked_cons.mpr ⟨rfl, hl⟩
  | cons b l ih => exact ih (linked_cons.mp h).2

/-- A list that ends has no cycle. -/
theorem Linked.nodup (h : Linked next head l) : l.Nodup := by
  induction l generalizing head with
  | nil => exact nodup_nil
  | cons a l ih =>
      obtain ⟨-, hl⟩ := linked_cons.mp h
      apply nodup_cons.mpr
      refine ⟨fun hmem => ?_, ih hl⟩
      -- the list from the second `a` on would be the whole one
      obtain ⟨front, rest, hsplit⟩ := append_of_mem hmem
      rw [hsplit] at hl
      have hwhole : Linked next (some a) (a :: (front ++ a :: rest)) :=
        linked_cons.mpr ⟨rfl, hl⟩
      have hlen := congrArg List.length (hwhole.unique hl.suffix)
      simp only [length_cons, length_append] at hlen
      omega

theorem Linked.follow_eq {fuel : Nat} (h : Linked next head l) (hfuel : l.length ≤ fuel) :
    follow next fuel head = some l := by
  induction l generalizing head fuel with
  | nil =>
      rw [linked_nil.mp h]
      cases fuel with
      | zero => rfl
      | succ fuel => rfl
  | cons a l ih =>
      obtain ⟨hhead, hl⟩ := linked_cons.mp h
      rw [hhead]
      cases fuel with
      | zero => exact absurd hfuel (Nat.not_succ_le_zero _)
      | succ fuel =>
          rw [follow, ih hl (Nat.le_of_succ_le_succ hfuel)]
          rfl

section Push

variable [DecidableEq α]

/-- A new first cell. -/
theorem Linked.push (h : Linked next head l) (ha : a ∉ l) :
    Linked (fun b => if b = a then head else next b) (some a) (a :: l) := by
  apply linked_cons.mpr
  refine ⟨rfl, ?_⟩
  rw [if_pos rfl]
  apply h.congr
  intro b hb
  have hne : b ≠ a := by
    intro hba
    exact ha (hba ▸ hb)
  rw [if_neg hne]

end Push

end Unixlite.Verified.LinkedList
