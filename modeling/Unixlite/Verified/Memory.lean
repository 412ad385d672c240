import Unixlite.Verified.Layout

/-!
# Strings in memory

Memory with numbers as addresses, in which lists of bytes stand one behind the other.  What is
written elsewhere leaves them as they are; a string is found again by its terminator.
-/

namespace Unixlite.Verified.Memory

open Layout List

abbrev Bytes := Nat → BitVec 8

/-- These bytes stand from `a` on. -/
def Holds (mem : Bytes) (a : Nat) (bs : List (BitVec 8)) : Prop :=
  ∀ k (hk : k < bs.length), mem (a + k) = bs[k]

def put (mem : Bytes) (a : Nat) (bs : List (BitVec 8)) : Bytes := fun x =>
  if a ≤ x then bs[x - a]?.getD (mem x) else mem x

/-- The word of four bytes. -/
def Word (mem : Bytes) (a v : Nat) : Prop := Holds mem a (bytes 4 v)

/-- `strlen`, of a string of less than `n` bytes. -/
def strlen : Nat → Bytes → Nat → Option Nat
  | 0, _, _ => none
  | n + 1, mem, a => if mem a = 0 then some 0 else (strlen n mem (a + 1)).map (· + 1)

variable {mem mem' : Bytes} {a b n : Nat} {bs cs : List (BitVec 8)}

theorem put_frame {x : Nat} (hx : x < a ∨ a + bs.length ≤ x) : put mem a bs x = mem x := by
  unfold put
  split
  · rw [List.getElem?_eq_none (by omega)]
    rfl
  · rfl

theorem holds_put (mem : Bytes) (a : Nat) (bs : List (BitVec 8)) : Holds (put mem a bs) a bs := by
  intro k hk
  unfold put
  rw [if_pos (Nat.le_add_right a k), Nat.add_sub_cancel_left, List.getElem?_eq_getElem hk]
  rfl

theorem Holds.congr (h : Holds mem a bs) (hmem : ∀ x, a ≤ x → x < a + bs.length → mem' x = mem x) :
    Holds mem' a bs := by
  intro k hk
  rw [hmem (a + k) (Nat.le_add_right a k) (Nat.add_lt_add_left hk a)]
  exact h k hk

/-- What is written elsewhere leaves the bytes as they are. -/
theorem Holds.put (h : Holds mem a bs) (hapart : a + bs.length ≤ b ∨ b + cs.length ≤ a) :
    Holds (put mem b cs) a bs :=
  h.congr fun x hlow hhigh => put_frame (by omega)

theorem holds_append : Holds mem a (bs ++ cs) ↔ Holds mem a bs ∧ Holds mem (a + bs.length) cs := by
  constructor
  · intro h
    refine ⟨fun k hk => ?_, fun k hk => ?_⟩
    · rw [h k (by rw [length_append]; omega), getElem_append_left hk]
    · rw [Nat.add_assoc, h (bs.length + k) (by rw [length_append]; omega),
        getElem_append_right (Nat.le_add_right _ _)]
      congr 1
      exact Nat.add_sub_cancel_left _ _
  · rintro ⟨hbs, hcs⟩ k hk
    rw [length_append] at hk
    by_cases hlt : k < bs.length
    · rw [getElem_append_left hlt]
      exact hbs k hlt
    · have hsplit : a + k = a + bs.length + (k - bs.length) := by omega
      rw [getElem_append_right (Nat.le_of_not_lt hlt), hsplit]
      exact hcs (k - bs.length) (by omega)

/-- A string ends at its terminator. -/
theorem strlen_of_holds (h : Holds mem a (bs ++ [0])) (hnul : 0 ∉ bs) (hn : bs.length < n) :
    strlen n mem a = some bs.length := by
  induction bs generalizing a n with
  | nil =>
      obtain ⟨n, rfl⟩ := Nat.exists_eq_succ_of_ne_zero (Nat.ne_of_gt hn)
      have hzero : mem a = 0 := h 0 (by decide)
      rw [strlen, if_pos hzero]
      rfl
  | cons c bs ih =>
      obtain ⟨n, rfl⟩ := Nat.exists_eq_succ_of_ne_zero (Nat.ne_of_gt (Nat.zero_lt_of_lt hn))
      obtain ⟨hc, hrest⟩ := holds_append.mp (show Holds mem a ([c] ++ (bs ++ [0])) from h)
      have hrest : Holds mem (a + 1) (bs ++ [0]) := hrest
      have hne : mem a ≠ 0 := by
        rw [show mem a = c from hc 0 Nat.one_pos]
        exact fun hzero => hnul (hzero ▸ mem_cons_self)
      rw [strlen, if_neg hne,
        ih hrest (fun hmem => hnul (mem_cons_of_mem _ hmem)) (Nat.lt_of_succ_lt_succ hn)]
      rfl

theorem Word.put {v : Nat} (h : Word mem a v) (hapart : a + 4 ≤ b ∨ b + cs.length ≤ a) :
    Word (Memory.put mem b cs) a v :=
  Holds.put h (by rwa [length_bytes])

theorem word_put (mem : Bytes) (a v : Nat) : Word (put mem a (bytes 4 v)) a v := holds_put _ _ _

end Unixlite.Verified.Memory
