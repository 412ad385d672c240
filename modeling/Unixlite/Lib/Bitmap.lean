import Mathlib.Algebra.BigOperators.Group.Finset.Piecewise
import Unixlite.Verified.Bitmap

/-!
# Bitmaps in memory

Port of `lib/bitmap.h`, and of the table in `lib/bitmap.cc`.  The memory of a bitmap is a
sequence of longs.  `nbit0`, the number of clear bits, is kept by `set` and `clr`, and with it
`ff0` finds a clear bit exactly when there is one.
-/

namespace Unixlite.Lib

open Unixlite.Verified.Bitmap Finset

/-- The longs of a bitmap. -/
abbrev Longs := Nat → BitVec 32

/-! ## Bits -/

def tstbit (l : Longs) (i : Nat) : Bool := (l (i / 32)).getLsbD (i % 32)

def setbit (l : Longs) (i : Nat) : Longs :=
  Function.update l (i / 32) (l (i / 32) ||| bit 32 (i % 32))

def clrbit (l : Longs) (i : Nat) : Longs :=
  Function.update l (i / 32) (l (i / 32) &&& ~~~bit 32 (i % 32))

/-- A turn of the loop of `ffbit0`. -/
def ffbit0Long (l : Longs) (j : Nat) : Option Nat :=
  if l j = -1 then none else (bsf (~~~l j)).map fun idx => j * 32 + idx

def ffbit0 (l : Longs) (nbit : Nat) : Option Nat :=
  (List.range (nbit / 32)).findSome? fun j => ffbit0Long l j

def bit0perchar : List Nat := [4, 3, 3, 2, 3, 2, 2, 1, 3, 2, 2, 1, 2, 1, 1, 0]

/-- The `c`-th `char`. -/
def char (l : Longs) (c : Nat) : BitVec 8 := (l (c / 4)).extractLsb' (8 * (c % 4)) 8

def countbit0 (l : Longs) (nbit : Nat) : Nat :=
  ((List.range (nbit / 8)).map fun c =>
    bit0perchar.getD (char l c &&& 0xf).toNat 0 +
      bit0perchar.getD ((char l c >>> 4) &&& 0xf).toNat 0).sum

/-- The clear bits. -/
def zeros (l : Longs) (nbit : Nat) : Finset Nat :=
  (Finset.range nbit).filter fun i => tstbit l i = false

variable {l : Longs} {i j nbit : Nat}

theorem mem_zeros : i ∈ zeros l nbit ↔ i < nbit ∧ tstbit l i = false := by
  rw [zeros, mem_filter, mem_range]

theorem tstbit_setbit (l : Longs) (i j : Nat) :
    tstbit (setbit l i) j = (tstbit l j || decide (j = i)) := by
  unfold tstbit setbit
  by_cases hlong : j / 32 = i / 32
  · rw [hlong, Function.update_self, getLsbD_set _ (Nat.mod_lt j (by decide))]
    congr 1
    rw [decide_eq_decide]
    omega
  · rw [Function.update_of_ne hlong, decide_eq_false (by rintro rfl; exact hlong rfl),
      Bool.or_false]

theorem tstbit_clrbit (l : Longs) (i j : Nat) :
    tstbit (clrbit l i) j = (tstbit l j && decide (j ≠ i)) := by
  unfold tstbit clrbit
  by_cases hlong : j / 32 = i / 32
  · rw [hlong, Function.update_self, getLsbD_clear _ (Nat.mod_lt j (by decide))]
    congr 1
    rw [decide_eq_decide]
    omega
  · rw [Function.update_of_ne hlong, decide_eq_true (by rintro rfl; exact hlong rfl),
      Bool.and_true]

theorem tstbit_long (l : Longs) {idx : Nat} (hidx : idx < 32) :
    tstbit l (j * 32 + idx) = (l j).getLsbD idx := by
  rw [tstbit, show (j * 32 + idx) / 32 = j by omega, show (j * 32 + idx) % 32 = idx by omega]

/-- A long with a clear bit has a first one. -/
theorem ffbit0Long_eq_some (h : ffbit0Long l j = some i) :
    j * 32 ≤ i ∧ i < j * 32 + 32 ∧ tstbit l i = false ∧
      ∀ k, j * 32 ≤ k → k < i → tstbit l k = true := by
  unfold ffbit0Long at h
  split_ifs at h
  obtain ⟨idx, hbsf, rfl⟩ := Option.map_eq_some_iff.mp h
  obtain ⟨hidx, hbit, hlow⟩ := bsf_eq_some.mp hbsf
  rw [BitVec.getLsbD_not, decide_eq_true hidx, Bool.true_and, Bool.not_eq_true'] at hbit
  refine ⟨by omega, by omega, (tstbit_long l hidx).trans hbit, fun k hle hlt => ?_⟩
  have hk := hlow (k - j * 32) (by omega)
  rw [BitVec.getLsbD_not, decide_eq_true (by omega), Bool.true_and, Bool.not_eq_false'] at hk
  rw [← hk, ← tstbit_long l (by omega : k - j * 32 < 32)]
  congr 1
  omega

theorem ffbit0Long_eq_none {k : Nat} (h : ffbit0Long l j = none)
    (hle : j * 32 ≤ k) (hlt : k < j * 32 + 32) : tstbit l k = true := by
  have hones : l j = -1 := by
    by_contra hne
    rw [ffbit0Long, if_neg hne, Option.map_eq_none_iff, bsf_eq_none] at h
    exact hne (by rw [← BitVec.not_not (b := l j), h]; rfl)
  obtain ⟨idx, rfl⟩ : ∃ idx, k = j * 32 + idx := ⟨k - j * 32, by omega⟩
  rw [tstbit_long l (by omega), hones, show (-1 : BitVec 32) = BitVec.allOnes 32 from rfl,
    BitVec.getLsbD_allOnes]
  exact decide_eq_true (by omega)

/-- The loop comes to the first clear bit, if there is one in the longs it sees. -/
theorem findSome_ffbit0Long (l : Longs) (n : Nat) :
    match (List.range n).findSome? fun j => ffbit0Long l j with
    | some i => i < n * 32 ∧ tstbit l i = false ∧ ∀ k < i, tstbit l k = true
    | none => ∀ k < n * 32, tstbit l k = true := by
  induction n with
  | zero => exact fun k hk => by omega
  | succ n ih =>
      rw [List.range_succ, List.findSome?_append]
      cases hbefore : (List.range n).findSome? fun j => ffbit0Long l j with
      | some i =>
          rw [hbefore] at ih
          exact ⟨by omega, ih.2⟩
      | none =>
          rw [hbefore] at ih
          rw [Option.none_or, List.findSome?_singleton]
          cases hlast : ffbit0Long l n with
          | some i =>
              obtain ⟨-, hlt, hbit, hlow⟩ := ffbit0Long_eq_some hlast
              refine ⟨by omega, hbit, fun k hk => ?_⟩
              by_cases hlong : k < n * 32
              · exact ih k hlong
              · exact hlow k (by omega) hk
          | none =>
              intro k hk
              by_cases hlong : k < n * 32
              · exact ih k hlong
              · exact ffbit0Long_eq_none hlast (by omega) (by omega)

/-- The first clear bit. -/
theorem ffbit0_eq_some (h : ffbit0 l nbit = some i) :
    i < nbit / 32 * 32 ∧ tstbit l i = false ∧ ∀ k < i, tstbit l k = true := by
  have hloop := findSome_ffbit0Long l (nbit / 32)
  rw [show (List.range (nbit / 32)).findSome? (fun j => ffbit0Long l j) = some i from h] at hloop
  exact hloop

theorem ffbit0_eq_none (h : ffbit0 l nbit = none) : ∀ k < nbit / 32 * 32, tstbit l k = true := by
  have hloop := findSome_ffbit0Long l (nbit / 32)
  rw [show (List.range (nbit / 32)).findSome? (fun j => ffbit0Long l j) = none from h] at hloop
  exact hloop

theorem bit0perchar_eq (b : BitVec 8) :
    bit0perchar.getD (b &&& 0xf).toNat 0 + bit0perchar.getD ((b >>> 4) &&& 0xf).toNat 0 =
      ((Finset.range 8).filter fun i => b.getLsbD i = false).card := by
  revert b
  decide +kernel

theorem tstbit_char (l : Longs) {c idx : Nat} (hidx : idx < 8) :
    tstbit l (c * 8 + idx) = (char l c).getLsbD idx := by
  rw [char, BitVec.getLsbD_extractLsb', decide_eq_true hidx, Bool.true_and, tstbit,
    show (c * 8 + idx) / 32 = c / 4 by omega,
    show (c * 8 + idx) % 32 = 8 * (c % 4) + idx by omega]

/-- The clear bits of one more `char`. -/
theorem zeros_char (l : Longs) (c : Nat) :
    (zeros l (c * 8 + 8)).card = (zeros l (c * 8)).card +
      ((Finset.range 8).filter fun i => (char l c).getLsbD i = false).card := by
  unfold zeros
  rw [card_filter, sum_range_add, ← card_filter, card_filter _ (Finset.range 8)]
  congr 1
  refine sum_congr rfl fun idx hidx => ?_
  rw [tstbit_char l (mem_range.mp hidx)]

/-- The table has the number of clear bits. -/
theorem countbit0_eq (l : Longs) (hnbit : nbit % 32 = 0) :
    countbit0 l nbit = (zeros l nbit).card := by
  obtain ⟨n, rfl⟩ : ∃ n, nbit = n * 8 := ⟨nbit / 8, by omega⟩
  rw [countbit0, Nat.mul_div_cancel n (by decide)]
  clear hnbit
  induction n with
  | zero => rfl
  | succ n ih =>
      rw [List.range_succ, List.map_append, List.sum_append, ih, Nat.succ_mul, zeros_char,
        ← bit0perchar_eq]
      simp

/-! ## `bitmap_t` -/

/-- `bitmap_t` of `nbit` bits, a multiple of 32, with the number of the clear ones. -/
structure Bitmapt (nbit : Nat) where
  bits : Longs
  nbit0 : Nat
  nbit0_eq : nbit0 = (zeros bits nbit).card

namespace Bitmapt

variable {nbit : Nat}

/-- The constructor. -/
def construct (bits : Longs) (hnbit : nbit % 32 = 0) : Bitmapt nbit :=
  ⟨bits, countbit0 bits nbit, countbit0_eq bits hnbit⟩

def tst (m : Bitmapt nbit) (i : Fin nbit) : Bool := tstbit m.bits i

theorem card_setbit (l : Longs) (i : Fin nbit) : (zeros (setbit l i) nbit).card =
    if tstbit l i then (zeros l nbit).card else (zeros l nbit).card - 1 := by
  have herase : zeros (setbit l i) nbit = (zeros l nbit).erase i := by
    ext k
    rw [mem_erase, mem_zeros, mem_zeros, tstbit_setbit, Bool.or_eq_false_iff,
      decide_eq_false_iff_not]
    exact ⟨fun h => ⟨h.2.2, h.1, h.2.1⟩, fun h => ⟨h.2.1, h.2.2, h.1⟩⟩
  rw [herase]
  split_ifs with hbit
  · rw [erase_eq_of_notMem]
    rw [mem_zeros, hbit]
    exact fun h => absurd h.2 (by decide)
  · exact card_erase_of_mem (mem_zeros.mpr ⟨i.isLt, by simpa using hbit⟩)

theorem card_clrbit (l : Longs) (i : Fin nbit) : (zeros (clrbit l i) nbit).card =
    if tstbit l i then (zeros l nbit).card + 1 else (zeros l nbit).card := by
  have hinsert : zeros (clrbit l i) nbit = insert (i : Nat) (zeros l nbit) := by
    ext k
    rw [mem_insert, mem_zeros, mem_zeros, tstbit_clrbit, Bool.and_eq_false_iff,
      decide_eq_false_iff_not, not_not]
    constructor
    · rintro ⟨hk, hbit | rfl⟩
      · exact .inr ⟨hk, hbit⟩
      · exact .inl rfl
    · rintro (rfl | ⟨hk, hbit⟩)
      · exact ⟨i.isLt, .inr rfl⟩
      · exact ⟨hk, .inl hbit⟩
  rw [hinsert]
  split_ifs with hbit
  · refine card_insert_of_notMem fun h => ?_
    rw [mem_zeros, hbit] at h
    exact absurd h.2 (by decide)
  · rw [insert_eq_of_mem (mem_zeros.mpr ⟨i.isLt, by simpa using hbit⟩)]

def set (m : Bitmapt nbit) (i : Fin nbit) : Bitmapt nbit where
  bits := setbit m.bits i
  nbit0 := if m.tst i then m.nbit0 else m.nbit0 - 1
  nbit0_eq := by
    rw [card_setbit, ← m.nbit0_eq]
    rfl

def clr (m : Bitmapt nbit) (i : Fin nbit) : Bitmapt nbit where
  bits := clrbit m.bits i
  nbit0 := if m.tst i then m.nbit0 + 1 else m.nbit0
  nbit0_eq := by
    rw [card_clrbit, ← m.nbit0_eq]
    rfl

/-- `ff0`; a bit that is found is one of the bitmap. -/
def ff0 (m : Bitmapt nbit) : Option (Fin nbit) :=
  if m.nbit0 = 0 then none
  else
    match ffbit0 m.bits nbit with
    | none => none
    | some i => if h : i < nbit then some ⟨i, h⟩ else none

@[simp] theorem tst_set (m : Bitmapt nbit) (i k : Fin nbit) :
    (m.set i).tst k = (m.tst k || decide (k = i)) := by
  rw [tst, set, tstbit_setbit]
  simp only [Fin.ext_iff]
  rfl

@[simp] theorem tst_clr (m : Bitmapt nbit) (i k : Fin nbit) :
    (m.clr i).tst k = (m.tst k && decide (k ≠ i)) := by
  rw [tst, clr, tstbit_clrbit]
  simp only [ne_eq, Fin.ext_iff]
  rfl

theorem ff0_eq_some {m : Bitmapt nbit} {i : Fin nbit} (h : m.ff0 = some i) :
    m.tst i = false ∧ ∀ k < i, m.tst k = true := by
  unfold ff0 at h
  split_ifs at h
  cases hff : ffbit0 m.bits nbit with
  | none =>
      rw [hff] at h
      cases h
  | some j =>
      obtain ⟨hlt, hbit, hlow⟩ := ffbit0_eq_some hff
      rw [hff] at h
      dsimp only at h
      rw [dif_pos (by omega)] at h
      cases h
      exact ⟨hbit, fun k hk => hlow k hk⟩

/-- The count finds out that there is none. -/
theorem ff0_eq_none {m : Bitmapt nbit} (hnbit : nbit % 32 = 0) (h : m.ff0 = none)
    (k : Fin nbit) : m.tst k = true := by
  by_contra hbit
  have hmem : (k : Nat) ∈ zeros m.bits nbit := mem_zeros.mpr ⟨k.isLt, (Bool.not_eq_true _).mp hbit⟩
  have hcount : m.nbit0 ≠ 0 := by
    rw [m.nbit0_eq]
    exact card_ne_zero_of_mem hmem
  unfold ff0 at h
  rw [if_neg hcount] at h
  cases hff : ffbit0 m.bits nbit with
  | none =>
      exact hbit (ffbit0_eq_none hff k (by omega))
  | some j =>
      rw [hff] at h
      dsimp only at h
      rw [dif_pos (by have := (ffbit0_eq_some hff).1; omega)] at h
      cases h

end Bitmapt

end Unixlite.Lib
