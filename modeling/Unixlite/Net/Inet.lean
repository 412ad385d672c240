import Unixlite.Verified.EndAround
import Unixlite.Net.Pkt

/-!
# Byte order and the Internet checksum

Port of `net/inet/inet.cc` and of the byte order macros in `net/inet/inet.h`, on a
little-endian machine.  Memory is a list of bytes.
-/

namespace Unixlite.Net

open Unixlite.Verified List Option
open BitVec (toNat_add toNat_append toNat_inj toNat_setWidth toNat_ushiftRight)

/-! ## Byte order -/

/-- `ntohs`; `htons` is the same function. -/
def ntohs (x : BitVec 16) : BitVec 16 := x <<< 8 ||| x >>> 8

def htons (x : BitVec 16) : BitVec 16 := ntohs x

theorem ntohs_htons (x : BitVec 16) : ntohs (htons x) = x := by
  unfold htons ntohs
  grind

/-- The `u16_t` at an address. -/
def word (lo hi : Byte) : BitVec 16 := hi ++ lo

theorem word_toNat (lo hi : Byte) : (word lo hi).toNat = lo.toNat + 256 * hi.toNat := by
  unfold word
  rw [toNat_append, ← Nat.shiftLeft_add_eq_or_of_lt lo.isLt, Nat.shiftLeft_eq]
  omega

/-- How a `u16_t` and a `u32_t` lie in memory. -/
def le16 (x : BitVec 16) : List Byte := [x.setWidth 8, (x >>> 8).setWidth 8]

def le32 (x : BitVec 32) : List Byte :=
  [x.setWidth 8, (x >>> 8).setWidth 8, (x >>> 16).setWidth 8, (x >>> 24).setWidth 8]

def u16At (v : List Byte) (o : Nat) : Option (BitVec 16) :=
  v[o]?.bind fun lo => v[o + 1]?.map fun hi => word lo hi

def u32At (v : List Byte) (o : Nat) : Option (BitVec 32) :=
  (u16At v o).bind fun lo => (u16At v (o + 2)).map fun hi => hi ++ lo

variable {v : List Byte} {o : Nat}

theorem u16At_length {x : BitVec 16} (h : u16At v o = some x) : o + 2 ≤ v.length := by
  obtain ⟨lo, -, hmap⟩ := bind_eq_some_iff.mp h
  obtain ⟨hi, hhi, -⟩ := map_eq_some_iff.mp hmap
  exact (List.getElem?_eq_some_iff.mp hhi).1

/-- The two bytes of a word in their place. -/
theorem u16At_split {x : BitVec 16} (h : u16At v o = some x) :
    ∃ lo hi, word lo hi = x ∧ v = v.take o ++ lo :: hi :: v.drop (o + 2) := by
  obtain ⟨lo, hlo, hmap⟩ := bind_eq_some_iff.mp h
  obtain ⟨hi, hhi, hword⟩ := map_eq_some_iff.mp hmap
  obtain ⟨hlt, rfl⟩ := List.getElem?_eq_some_iff.mp hlo
  obtain ⟨hlt', rfl⟩ := List.getElem?_eq_some_iff.mp hhi
  refine ⟨v[o], v[o + 1], hword, ?_⟩
  rw [← drop_eq_getElem_cons hlt', ← drop_eq_getElem_cons hlt, take_append_drop]

theorem exists_u16At (h : o + 2 ≤ v.length) : ∃ x, u16At v o = some x := by
  unfold u16At
  rw [List.getElem?_eq_getElem (by omega), List.getElem?_eq_getElem (by omega)]
  exact ⟨_, rfl⟩

theorem u16At_append (v w : List Byte) (o : Nat) : u16At (v ++ w) (v.length + o) = u16At w o := by
  unfold u16At
  rw [List.getElem?_append_right (by omega), Nat.add_sub_cancel_left, Nat.add_assoc,
    List.getElem?_append_right (by omega), Nat.add_sub_cancel_left]

/-- `n` bytes from `o` on. -/
def bytesAt (v : List Byte) (o n : Nat) : Option (List Byte) :=
  if o + n ≤ v.length then some ((v.drop o).take n) else none

/-- Store a `u16_t`. -/
def setU16 (v : List Byte) (o : Nat) (x : BitVec 16) : List Byte :=
  v.take o ++ le16 x ++ v.drop (o + 2)

theorem word_le16 (x : BitVec 16) : word (x.setWidth 8) ((x >>> 8).setWidth 8) = x := by
  rw [← toNat_inj, word_toNat, toNat_setWidth, toNat_setWidth,
    toNat_ushiftRight, Nat.shiftRight_eq_div_pow]
  omega

theorem word_le32 (x : BitVec 32) :
    (word ((x >>> 16).setWidth 8) ((x >>> 24).setWidth 8) ++
      word (x.setWidth 8) ((x >>> 8).setWidth 8) : BitVec 32) = x := by
  rw [← toNat_inj, toNat_append, ← Nat.shiftLeft_add_eq_or_of_lt (BitVec.isLt _),
    Nat.shiftLeft_eq, word_toNat, word_toNat]
  simp only [toNat_setWidth, toNat_ushiftRight, Nat.shiftRight_eq_div_pow]
  omega

/-! ## The checksum -/

def sumup (v : List Byte) : BitVec 32 := go 0 v
where
  go (sum : BitVec 32) : List Byte → BitVec 32
    | [] => sum
    | [b] => sum + b.setWidth 32
    | lo :: hi :: v => go (sum + (word lo hi).setWidth 32) v

def convert (sum : BitVec 32) : BitVec 16 :=
  let sum := (sum >>> 16) + (sum &&& 0xffff#32)
  let sum := sum + (sum >>> 16)
  ~~~ (sum &&& 0xffff#32).setWidth 16

def ipchksum (v : List Byte) : BitVec 16 := convert (sumup v)

/-- The sum over the pseudo header. -/
def pseudo (saddr daddr : BitVec 32) (proto : Byte) (datalen : BitVec 16) : BitVec 32 :=
  (saddr &&& 0xffff#32) + (saddr >>> 16) + (daddr &&& 0xffff#32) + (daddr >>> 16) +
    (htons datalen).setWidth 32 + (htons (proto.setWidth 16)).setWidth 32

/-- `ipchksumpseudo`; `data` is the memory from that pointer on. -/
def ipchksumpseudo (saddr daddr : BitVec 32) (proto : Byte) (datalen : BitVec 16)
    (data : List Byte) : BitVec 16 :=
  convert (pseudo saddr daddr proto datalen + sumup (data.take datalen.toNat))

/-! ## What the sums are as numbers -/

/-- The sum of the words of `v` without carries lost. -/
def total : List Byte → Nat
  | [] => 0
  | [b] => b.toNat
  | lo :: hi :: v => (word lo hi).toNat + total v

theorem total_append {w : List Byte} (h : Even v.length) : total (v ++ w) = total v + total w := by
  induction v using total.induct with
  | case1 => rw [nil_append, total, Nat.zero_add]
  | case2 b => exact absurd h (Nat.not_even_iff.mpr rfl)
  | case3 lo hi v ih =>
      have hv : Even v.length := by
        rw [length_cons, length_cons] at h
        obtain ⟨k, hk⟩ := h
        exact ⟨k - 1, by omega⟩
      rw [cons_append, cons_append, total, total, ih hv, Nat.add_assoc]

/-- A checksum is stored where there was none. -/
theorem total_setU16 (heven : Even o) (h : u16At v o = some 0)
    (x : BitVec 16) : total (setU16 v o x) = total v + x.toNat := by
  obtain ⟨lo, hi, hword, hsplit⟩ := u16At_split h
  have hroom := u16At_length h
  have hpre : Even (v.take o).length := by
    rw [length_take_of_le (by omega)]
    exact heven
  have hnew : total (setU16 v o x) =
      total (v.take o) + (x.toNat + total (v.drop (o + 2))) := by
    unfold setU16
    rw [append_assoc, total_append hpre]
    show total (v.take o) + (_ + total (v.drop (o + 2))) = _
    rw [word_le16]
  have hold : total v = total (v.take o) + (0 + total (v.drop (o + 2))) := by
    conv_lhs => rw [hsplit, total_append hpre, total, hword]
    rfl
  omega

theorem length_setU16 (h : o + 2 ≤ v.length) (x : BitVec 16) :
    (setU16 v o x).length = v.length := by
  unfold setU16 le16
  rw [length_append, length_append, length_take_of_le (by omega),
    length_drop]
  simp only [length_cons, length_nil]
  omega

theorem total_le (v : List Byte) : 2 * total v ≤ 65535 * (v.length + 1) := by
  induction v using total.induct with
  | case1 => decide
  | case2 b =>
      rw [total, length_singleton]
      omega
  | case3 lo hi v ih =>
      rw [total, length_cons, length_cons]
      omega

theorem sumup_go_toNat (v : List Byte) (sum : BitVec 32) (h : sum.toNat + total v < 2 ^ 32) :
    (sumup.go sum v).toNat = sum.toNat + total v := by
  induction v using total.induct generalizing sum with
  | case1 => rfl
  | case2 b =>
      rw [total] at h ⊢
      rw [sumup.go, toNat_add, BitVec.toNat_setWidth_of_le (by decide),
        Nat.mod_eq_of_lt h]
  | case3 lo hi v ih =>
      rw [total] at h
      have hword : (sum + (word lo hi).setWidth 32).toNat = sum.toNat + (word lo hi).toNat := by
        rw [toNat_add, BitVec.toNat_setWidth_of_le (by decide),
          Nat.mod_eq_of_lt (by omega)]
      rw [sumup.go, ih _ (by omega), hword, total, Nat.add_assoc]

theorem sumup_toNat (h : v.length ≤ 65535) : (sumup v).toNat = total v := by
  have hle := total_le v
  have hzero : (0 : BitVec 32).toNat = 0 := rfl
  have hgo := sumup_go_toNat v 0 (by omega)
  rw [hzero, Nat.zero_add] at hgo
  exact hgo

/-- The two halves of a 32-bit word. -/
theorem low_toNat (x : BitVec 32) : (x &&& 0xffff#32).toNat = x.toNat % 65536 := by
  exact Nat.and_two_pow_sub_one_eq_mod x.toNat 16

theorem high_toNat (x : BitVec 32) : (x >>> 16).toNat = x.toNat / 65536 := by
  rw [toNat_ushiftRight, Nat.shiftRight_eq_div_pow]

/-- `convert` is the complement of the folded sum. -/
theorem convert_toNat (sum : BitVec 32) :
    (convert sum).toNat = 65535 - EndAround.fold 65536 sum.toNat := by
  have hfirst : (sum >>> 16 + (sum &&& 0xffff#32)).toNat =
      sum.toNat / 65536 + sum.toNat % 65536 := by
    rw [toNat_add, high_toNat, low_toNat, Nat.mod_eq_of_lt (by omega)]
  have hsecond : ∀ t : BitVec 32, t.toNat < 2 ^ 17 →
      (t + t >>> 16).toNat = t.toNat + t.toNat / 65536 := by
    intro t ht
    rw [toNat_add, high_toNat, Nat.mod_eq_of_lt (by omega)]
  unfold convert EndAround.fold
  rw [BitVec.toNat_not, toNat_setWidth, low_toNat, hsecond _ (by omega), hfirst, Nat.mod_mod]

theorem convert_eq_zero {sum : BitVec 32} :
    convert sum = 0 ↔ EndAround.fold 65536 sum.toNat = 65535 := by
  have hlt : EndAround.fold 65536 sum.toNat < 65536 := EndAround.fold_lt (by decide)
  rw [← toNat_inj, convert_toNat]
  show 65535 - EndAround.fold 65536 sum.toNat = 0 ↔ _
  omega

/-- **A sum that takes in its own checksum is accepted.** -/
theorem convert_complement (sum : BitVec 32) {sum' : BitVec 32} (hsum : sum.toNat + 65535 < 2 ^ 32)
    (h : sum'.toNat = sum.toNat + (convert sum).toNat) : convert sum' = 0 := by
  rw [convert_eq_zero, h, convert_toNat]
  exact EndAround.fold_complement (by decide) (by omega)

/-- The sum over the pseudo header takes few bits. -/
theorem pseudo_toNat_le (saddr daddr : BitVec 32) (proto : Byte) (datalen : BitVec 16) :
    (pseudo saddr daddr proto datalen).toNat ≤ 6 * 65535 := by
  have hadd : ∀ a b : BitVec 32, (a + b).toNat ≤ a.toNat + b.toNat := by
    intro a b
    exact Nat.mod_le _ _
  have hlow : ∀ x : BitVec 32, (x &&& 0xffff#32).toNat ≤ 65535 := by
    intro x
    exact Nat.and_le_right
  have hhigh : ∀ x : BitVec 32, (x >>> 16).toNat ≤ 65535 := by
    intro x
    rw [toNat_ushiftRight, Nat.shiftRight_eq_div_pow]
    omega
  have hwide : ∀ x : BitVec 16, (x.setWidth 32).toNat ≤ 65535 := by
    intro x
    rw [BitVec.toNat_setWidth_of_le (by decide)]
    omega
  calc _ ≤ 65535 + 65535 + 65535 + 65535 + 65535 + 65535 := by
        refine (hadd _ _).trans (Nat.add_le_add ?_ (hwide _))
        refine (hadd _ _).trans (Nat.add_le_add ?_ (hwide _))
        refine (hadd _ _).trans (Nat.add_le_add ?_ (hhigh _))
        refine (hadd _ _).trans (Nat.add_le_add ?_ (hlow _))
        exact (hadd _ _).trans (Nat.add_le_add (hlow _) (hhigh _))
    _ = 6 * 65535 := rfl

/-- **The checksum over the pseudo header and the data is accepted** once it is in the data. -/
theorem ipchksumpseudo_setU16 {data : List Byte} (hlen : data.length ≤ 65535)
    (heven : Even o) (h : u16At data o = some 0) (saddr daddr : BitVec 32) (proto : Byte) :
    ipchksumpseudo saddr daddr proto (BitVec.ofNat 16 data.length)
      (setU16 data o (ipchksumpseudo saddr daddr proto (BitVec.ofNat 16 data.length) data)) = 0 := by
  have hroom := u16At_length h
  have hofNat : (BitVec.ofNat 16 data.length).toNat = data.length := by
    rw [BitVec.toNat_ofNat, Nat.mod_eq_of_lt (by omega)]
  have hpseudo := pseudo_toNat_le saddr daddr proto (BitVec.ofNat 16 data.length)
  have htotal := total_le data
  -- the sum of the sender, without and with the checksum in place
  have hall : ∀ v : List Byte, v.length = data.length →
      2 * total v ≤ 65535 * (data.length + 3) →
      (pseudo saddr daddr proto (BitVec.ofNat 16 data.length) +
        sumup (v.take (BitVec.ofNat 16 data.length).toNat)).toNat =
          (pseudo saddr daddr proto (BitVec.ofNat 16 data.length)).toNat + total v := by
    intro v hv hle
    rw [hofNat, take_of_length_le (by omega), toNat_add, sumup_toNat (by omega),
      Nat.mod_eq_of_lt (by omega)]
  have hbefore := hall data rfl (by omega)
  have hset := total_setU16 heven h
    (ipchksumpseudo saddr daddr proto (BitVec.ofNat 16 data.length) data)
  refine convert_complement (pseudo saddr daddr proto (BitVec.ofNat 16 data.length) +
    sumup (data.take (BitVec.ofNat 16 data.length).toNat)) (by omega) ?_
  rw [hall _ (length_setU16 hroom _) (by omega), hset, hbefore, Nat.add_assoc]
  rfl

end Unixlite.Net
