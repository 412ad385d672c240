import Unixlite.Lib.Bitmap

/-!
# The edits of a bitmap

The rest of `lib/bitmap.h`: `chg` takes a bit to its other value, and `ff1` finds a set one.
The set bits are the clear ones of the complement, so that what is known of `ff0` holds of
`ff1` as well.

Whatever the edits, the count is that of the clear bits, and a search comes to the lowest bit
(`edits_right`).
-/

namespace Unixlite.Lib

open Unixlite.Verified.Bitmap Finset

def chgbit (l : Longs) (i : Nat) : Longs :=
  Function.update l (i / 32) (l (i / 32) ^^^ bit 32 (i % 32))

/-- A turn of the loop of `ffbit1`. -/
def ffbit1Long (l : Longs) (j : Nat) : Option Nat :=
  if l j = 0 then none else (bsf (l j)).map fun idx => j * 32 + idx

def ffbit1 (l : Longs) (nbit : Nat) : Option Nat :=
  (List.range (nbit / 32)).findSome? fun j => ffbit1Long l j

/-- The complement. -/
def flipped (l : Longs) : Longs := fun j => ~~~l j

variable {nbit : Nat}

theorem tstbit_flipped (l : Longs) (i : Nat) : tstbit (flipped l) i = !tstbit l i := by
  unfold tstbit flipped
  rw [BitVec.getLsbD_not, decide_eq_true (Nat.mod_lt i (by decide)), Bool.true_and]

theorem ffbit1_eq (l : Longs) (nbit : Nat) : ffbit1 l nbit = ffbit0 (flipped l) nbit := by
  have hlong : ∀ j, ffbit1Long l j = ffbit0Long (flipped l) j := by
    intro j
    have hones : ~~~l j = -1 ↔ l j = 0 :=
      ⟨fun h => by rw [← BitVec.not_not (b := l j), h]; rfl, fun h => by rw [h]; rfl⟩
    unfold ffbit1Long ffbit0Long flipped
    rw [BitVec.not_not]
    exact if_congr hones.symm rfl rfl
  unfold ffbit1 ffbit0
  rw [funext hlong]

/-- A bit is changed by the one of `setbit` and `clrbit` that changes it. -/
theorem chgbit_eq (l : Longs) (i : Nat) :
    chgbit l i = if tstbit l i then clrbit l i else setbit l i := by
  have hlong : l (i / 32) ^^^ bit 32 (i % 32) = if tstbit l i then
      l (i / 32) &&& ~~~bit 32 (i % 32) else l (i / 32) ||| bit 32 (i % 32) := by
    refine BitVec.eq_of_getLsbD_eq fun k hk => ?_
    rw [BitVec.getLsbD_xor, getLsbD_bit hk]
    by_cases hbit : tstbit l i = true
    · rw [if_pos hbit, getLsbD_clear _ hk]
      by_cases hki : k = i % 32
      · rw [hki, show (l (i / 32)).getLsbD (i % 32) = true from hbit]
        simp
      · simp [hki]
    · rw [if_neg hbit, getLsbD_set _ hk]
      by_cases hki : k = i % 32
      · rw [hki, show (l (i / 32)).getLsbD (i % 32) = false from Bool.eq_false_of_not_eq_true hbit]
        simp
      · simp [hki]
  unfold chgbit
  rw [hlong]
  split_ifs
  · rfl
  · rfl

theorem tstbit_chgbit (l : Longs) (i k : Nat) :
    tstbit (chgbit l i) k = if k = i then !tstbit l k else tstbit l k := by
  rw [chgbit_eq]
  by_cases hbit : tstbit l i = true
  · rw [if_pos hbit, tstbit_clrbit]
    by_cases hki : k = i
    · rw [hki, hbit]
      simp
    · simp [hki]
  · rw [if_neg hbit, tstbit_setbit]
    by_cases hki : k = i
    · rw [hki, Bool.eq_false_of_not_eq_true hbit]
      simp
    · simp [hki]

namespace Bitmapt

def chg (m : Bitmapt nbit) (i : Fin nbit) : Bitmapt nbit where
  bits := chgbit m.bits i
  nbit0 := if m.tst i then m.nbit0 + 1 else m.nbit0 - 1
  nbit0_eq := by
    rw [chgbit_eq, m.nbit0_eq, tst]
    split_ifs with hbit
    · rw [card_clrbit, if_pos hbit]
    · rw [card_setbit, if_neg hbit]

def count0 (m : Bitmapt nbit) : Nat := m.nbit0

/-- `ff1`; a bit that is found is one of the bitmap. -/
def ff1 (m : Bitmapt nbit) : Option (Fin nbit) :=
  if m.nbit0 = nbit then none
  else (ffbit1 m.bits nbit).bind fun i => if h : i < nbit then some ⟨i, h⟩ else none

theorem nbit0_le (m : Bitmapt nbit) : m.nbit0 ≤ nbit := by
  have hsub := card_le_card
    (filter_subset (fun i => tstbit m.bits i = false) (Finset.range nbit))
  rw [card_range] at hsub
  exact Nat.le_trans (Nat.le_of_eq m.nbit0_eq) hsub

theorem card_flipped (m : Bitmapt nbit) : nbit - m.nbit0 = (zeros (flipped m.bits) nbit).card := by
  have hsplit := card_filter_add_card_filter_not (s := Finset.range nbit)
    fun i => tstbit m.bits i = false
  have hset : zeros (flipped m.bits) nbit =
      (Finset.range nbit).filter fun i => ¬tstbit m.bits i = false := by
    ext i
    rw [mem_zeros, tstbit_flipped, mem_filter, mem_range]
    simp
  rw [card_range, ← zeros, ← m.nbit0_eq] at hsplit
  rw [hset]
  omega

/-- The complement of a bitmap. -/
def flip (m : Bitmapt nbit) : Bitmapt nbit where
  bits := flipped m.bits
  nbit0 := nbit - m.nbit0
  nbit0_eq := m.card_flipped

theorem ff1_eq (m : Bitmapt nbit) : m.ff1 = m.flip.ff0 := by
  have hle := m.nbit0_le
  have hbits : m.flip.bits = flipped m.bits := rfl
  have hfull : m.flip.nbit0 = 0 ↔ m.nbit0 = nbit := by
    rw [show m.flip.nbit0 = nbit - m.nbit0 from rfl]
    omega
  unfold ff1 ff0
  rw [ffbit1_eq, hbits]
  refine if_congr hfull.symm rfl ?_
  cases ffbit0 (flipped m.bits) nbit with
  | none => rfl
  | some i => rfl

/-! ## Searches -/

/-- The lowest bit of the value `b` is found, and none if and only if there is none. -/
structure Lowest (m : Bitmapt nbit) (b : Bool) (r : Option (Fin nbit)) : Prop where
  found : ∀ i, r = some i ↔ m.tst i = b ∧ ∀ k < i, m.tst k ≠ b
  missing : r = none ↔ ∀ k, m.tst k ≠ b

theorem lowest_ff0 (m : Bitmapt nbit) (hnbit : nbit % 32 = 0) : m.Lowest false m.ff0 := by
  cases hff : m.ff0 with
  | none =>
      have hset := ff0_eq_none hnbit hff
      refine ⟨fun i => iff_of_false (by simp) fun h => ?_, iff_of_true rfl fun k => ?_⟩
      · rw [hset i] at h
        cases h.1
      · rw [hset k]
        decide
  | some j =>
      obtain ⟨hj, hlow⟩ := ff0_eq_some hff
      refine ⟨fun i => ⟨fun h => ?_, fun h => ?_⟩, iff_of_false (by simp) fun h => h j hj⟩
      · cases h
        exact ⟨hj, fun k hk => by rw [hlow k hk]; decide⟩
      · rcases lt_trichotomy i j with hlt | heq | hgt
        · rw [hlow i hlt] at h
          cases h.1
        · rw [heq]
        · exact absurd hj (h.2 j hgt)

theorem lowest_ff1 (m : Bitmapt nbit) (hnbit : nbit % 32 = 0) : m.Lowest true m.ff1 := by
  have hflip : ∀ k, m.flip.tst k = false ↔ m.tst k = true := by
    intro k
    rw [tst, flip, tstbit_flipped, Bool.not_eq_false']
    rfl
  have h := m.flip.lowest_ff0 hnbit
  rw [ff1_eq]
  refine ⟨fun i => (h.found i).trans (and_congr (hflip i) ?_), h.missing.trans ?_⟩
  · exact forall₂_congr fun k _ => not_congr (hflip k)
  · exact forall_congr' fun k => not_congr (hflip k)

/-! ## Edits -/

inductive Edit (nbit : Nat) where
  | set (i : Fin nbit)
  | clr (i : Fin nbit)
  | chg (i : Fin nbit)

/-- The bit that the edit names. -/
def Edit.place : Edit nbit → Fin nbit
  | .set i | .clr i | .chg i => i

/-- What becomes of a bit that the edit names. -/
def Edit.value (b : Bool) : Edit nbit → Bool
  | .set _ => true
  | .clr _ => false
  | .chg _ => !b

def edit (m : Bitmapt nbit) : Edit nbit → Bitmapt nbit
  | .set i => m.set i
  | .clr i => m.clr i
  | .chg i => m.chg i

/-- An edit changes the bit that it names. -/
theorem tstbit_edit (m : Bitmapt nbit) (e : Edit nbit) (k : Nat) : tstbit (m.edit e).bits k =
    if k = e.place then e.value (tstbit m.bits k) else tstbit m.bits k := by
  cases e with
  | set i =>
      refine (tstbit_setbit m.bits i k).trans ?_
      by_cases hk : k = i
      · simp [Edit.place, Edit.value, hk]
      · simp [Edit.place, hk]
  | clr i =>
      refine (tstbit_clrbit m.bits i k).trans ?_
      by_cases hk : k = i
      · simp [Edit.place, Edit.value, hk]
      · simp [Edit.place, hk]
  | chg i => exact tstbit_chgbit m.bits i k

/-- **Whatever the edits, every bit is what the edits that name it make of it**, the count is
that of the clear bits, and each search comes to the lowest bit or finds that there is none. -/
theorem edits_right (l : Longs) (hnbit : nbit % 32 = 0) (es : List (Edit nbit)) :
    let m := es.foldl edit (construct l hnbit)
    (∀ k, tstbit m.bits k =
      es.foldl (fun b e => if k = e.place then e.value b else b) (tstbit l k)) ∧
    m.count0 = ((Finset.range nbit).filter fun k => tstbit m.bits k = false).card ∧
    m.Lowest false m.ff0 ∧ m.Lowest true m.ff1 := by
  have hrun : ∀ (es : List (Edit nbit)) (m : Bitmapt nbit) (k : Nat),
      tstbit (es.foldl edit m).bits k =
        es.foldl (fun b e => if k = e.place then e.value b else b) (tstbit m.bits k) := by
    intro es
    induction es with
    | nil => exact fun m k => rfl
    | cons e es ih =>
        intro m k
        rw [List.foldl_cons, List.foldl_cons, ih, tstbit_edit]
  intro m
  exact ⟨hrun es (construct l hnbit), m.nbit0_eq, m.lowest_ff0 hnbit, m.lowest_ff1 hnbit⟩

/-- Two edits of a bitmap of 64 bits. -/
theorem edits_right_two : 64 % 32 = 0 ∧
    let m : Bitmapt 64 := [.set 3, .chg 40].foldl edit (construct (fun _ => 0) rfl)
    m.count0 = ((Finset.range 64).filter fun k => tstbit m.bits k = false).card ∧
      m.Lowest false m.ff0 ∧ m.Lowest true m.ff1 :=
  ⟨rfl, (edits_right (fun _ => 0) rfl [.set 3, .chg 40]).2⟩

end Bitmapt

end Unixlite.Lib
