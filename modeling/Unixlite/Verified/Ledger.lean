import Mathlib.Data.List.Count
import Mathlib.Data.List.Nodup

/-!
# Ledgers of issued items

Items are issued once each, held in places, and given back.  `Settled` says that every
issued item is held in one place or has been given back once.  `Balanced` says it of the
lists as a whole, so that nothing else is held either: every item that moves keeps it, and
an item that is issued and put nowhere ends it for good.

A `Book` has its items numbered.  `Puts` says what a part of a program does to it, and the
parts compose.
-/

namespace Unixlite.Verified.Ledger

open List

variable {ι : Type*}

/-- Every issued item is in one place, or has been given back once, and not both. -/
def Settled [DecidableEq ι] (issued held freed : List ι) : Prop :=
  ∀ x ∈ issued, held.count x + freed.count x = 1

instance [DecidableEq ι] (issued held freed : List ι) : Decidable (Settled issued held freed) :=
  inferInstanceAs (Decidable (∀ x ∈ _, _))

/-- What is held and what has been given back is what was issued. -/
structure Balanced (issued held freed : List ι) : Prop where
  nodup : issued.Nodup
  perm : (held ++ freed).Perm issued

variable {issued held held' freed : List ι} {x : ι}

theorem Balanced.nil : Balanced ([] : List ι) [] [] := ⟨nodup_nil, List.Perm.refl []⟩

theorem Balanced.settled [DecidableEq ι] (h : Balanced issued held freed) :
    Settled issued held freed := by
  intro x hx
  rw [← count_append, h.perm.count_eq]
  exact count_eq_one_of_mem h.nodup hx

/-- The order of the places does not matter. -/
theorem Balanced.of_perm (h : Balanced issued held freed) (hperm : held'.Perm held) :
    Balanced issued held' freed :=
  ⟨h.nodup, (hperm.append_right freed).trans h.perm⟩

theorem Balanced.nodup_issue (h : Balanced issued held freed) (hx : x ∉ issued) :
    (issued ++ [x]).Nodup := by
  rw [nodup_append]
  refine ⟨h.nodup, nodup_singleton x, fun a ha b hb => ?_⟩
  rintro rfl
  exact hx (mem_singleton.mp hb ▸ ha)

/-- A new item is put into a place. -/
theorem Balanced.hold (h : Balanced issued held freed) (hx : x ∉ issued) :
    Balanced (issued ++ [x]) (held ++ [x]) freed := by
  refine ⟨h.nodup_issue hx, ?_⟩
  have hswap : (held ++ [x] ++ freed).Perm (held ++ freed ++ [x]) := by
    rw [append_assoc, append_assoc]
    exact perm_append_comm.append_left held
  exact hswap.trans (h.perm.append_right [x])

/-- A new item is given back at once. -/
theorem Balanced.discard (h : Balanced issued held freed) (hx : x ∉ issued) :
    Balanced (issued ++ [x]) held (freed ++ [x]) := by
  refine ⟨h.nodup_issue hx, ?_⟩
  rw [← append_assoc]
  exact h.perm.append_right [x]

/-- Items that are held are given back. -/
theorem Balanced.release (h : Balanced issued held freed) {out : List ι}
    (hperm : held.Perm (held' ++ out)) : Balanced issued held' (freed ++ out) := by
  refine ⟨h.nodup, ?_⟩
  have hmove : (held' ++ (freed ++ out)).Perm (held ++ freed) := by
    refine List.Perm.trans ?_ (hperm.symm.append_right freed)
    rw [append_assoc]
    exact perm_append_comm.append_left held'
  exact hmove.trans h.perm

/-- A new item that is put nowhere is missing. -/
theorem Balanced.not_settled [DecidableEq ι] (h : Balanced issued held freed) (hx : x ∉ issued) :
    ¬ Settled (issued ++ [x]) held freed := by
  intro hs
  have hcount : (held ++ freed).count x = 0 := by
    rw [h.perm.count_eq]
    exact count_eq_zero.mpr hx
  have hone := hs x (mem_append_right issued (mem_singleton.mpr rfl))
  rw [← count_append, hcount] at hone
  cases hone

/-! ## Numbered items -/

/-- Items are numbered as they are issued.  `places` has an item once for each place it is in
and once for each time it has been given back. -/
structure Book where
  issued : Nat
  places : List Nat

/-- Every issued item has one place, and no other item has any. -/
def Exact (b : Book) : Prop := ∀ x, b.places.count x = if x < b.issued then 1 else 0

/-- The items of `l` get a place, once for each time they are in `l`, and so does every item
that is issued on the way.  Apart from that items only move. -/
structure Puts (b b' : Book) (l : List Nat) : Prop where
  issued : b.issued ≤ b'.issued
  count : ∀ x, b'.places.count x = b.places.count x + l.count x +
    if b.issued ≤ x ∧ x < b'.issued then 1 else 0

variable {b b' b'' : Book} {l m : List Nat} {i : Nat}

theorem Puts.trans (h : Puts b b' l) (h' : Puts b' b'' m) : Puts b b'' (l ++ m) := by
  refine ⟨Nat.le_trans h.issued h'.issued, fun x => ?_⟩
  have hle := h.issued
  have hle' := h'.issued
  rw [h'.count, h.count, count_append]
  split_ifs <;> omega

/-- Nothing is issued, and the places are those there were and those of `l`. -/
theorem Puts.of_perm (hissued : b'.issued = b.issued) (h : b'.places.Perm (b.places ++ l)) :
    Puts b b' l := by
  refine ⟨Nat.le_of_eq hissued.symm, fun x => ?_⟩
  rw [h.count_eq, count_append, if_neg (by omega)]
  rfl

theorem Puts.refl (b : Book) : Puts b b [] := .of_perm rfl (by simp)

/-- An item is issued, and then it is put into a place. -/
theorem Puts.of_next (h : Puts ⟨b.issued + 1, b.places⟩ b' [b.issued]) : Puts b b' [] := by
  have hle := h.issued
  dsimp only at hle
  refine ⟨by omega, fun x => ?_⟩
  have hcount := h.count x
  dsimp only at hcount
  rw [hcount, count_nil]
  by_cases hx : x = b.issued
  · rw [hx, count_singleton_self, if_neg (by omega), if_pos (by omega)]
  · have hzero : [b.issued].count x = 0 := count_eq_zero.mpr (by simpa using hx)
    split_ifs <;> omega

/-- A new item is issued and put into a place. -/
theorem Puts.issue (hissued : b'.issued = b.issued + 1)
    (h : b'.places.Perm (b.places ++ [b.issued])) : Puts b b' [] :=
  .of_next (.of_perm (b := ⟨b.issued + 1, b.places⟩) hissued h)

/-- With `l` in place all issued items have one. -/
theorem Exact.of_puts (h : Exact b) (hput : Puts b b' []) : Exact b' := by
  intro x
  have hle := hput.issued
  rw [hput.count, h x, count_nil]
  split_ifs <;> omega

section

variable {taken : Book} (h : Exact b) (htaken : Puts taken b [i])
  (hissued : b.issued = taken.issued)

include h htaken hissued

/-- An item that has been taken out of its place was issued. -/
theorem Exact.lt_of_taken : i < taken.issued ∧ taken.places.count i = 0 := by
  have hcount := htaken.count i
  have hone := h i
  rw [hcount, count_singleton_self, if_neg (by omega), hissued] at hone
  by_cases hi : i < taken.issued
  · rw [if_pos hi] at hone
    exact ⟨hi, by omega⟩
  · rw [if_neg hi] at hone
    omega

/-- It is put into one place again. -/
theorem Exact.put_back (hput : Puts taken b' [i]) : Exact b' := by
  intro x
  have hold := htaken.count x
  have hone := h x
  have hle := hput.issued
  rw [if_neg (by omega)] at hold
  rw [hput.count]
  split_ifs at hone ⊢ <;> omega

/-- It is put nowhere, or more than once. -/
theorem Exact.not_put_back (hput : Puts taken b' l) (hl : l.count i ≠ 1) :
    b'.places.count i ≠ 1 ∧ i < b'.issued := by
  obtain ⟨hlt, hzero⟩ := h.lt_of_taken htaken hissued
  rw [hput.count, hzero, if_neg (by omega)]
  exact ⟨by omega, Nat.lt_of_lt_of_le hlt hput.issued⟩

end

end Unixlite.Verified.Ledger
