import Unixlite.Net.Inet
import Mathlib.Algebra.BigOperators.Group.List.Basic
import Mathlib.Data.BitVec

/-!
# What the Internet checksum detects

A receiver sums up the buffer, with the checksum that the sender has stored in it,
and accepts it when the result of `ipchksum` or `ipchksumpseudo` is 0.  No carry of
the 32-bit sum is lost up to the longest packet, so the buffer is accepted exactly
if its words add up to a multiple of 65535 and are not all 0 (`chksum_eq_zero`).
-/

namespace Unixlite.Net

open Unixlite.Verified List

/-! ## The words that are summed -/

/-- The 16-bit words of a buffer.  An odd byte at the end is a word too. -/
def words : List Byte → List (BitVec 16)
  | [] => []
  | [b] => [b.setWidth 16]
  | lo :: hi :: v => word lo hi :: words v

/-- The words of the pseudo header. -/
def pseudoWords (saddr daddr : BitVec 32) (proto : Byte) (datalen : BitVec 16) :
    List (BitVec 16) :=
  [saddr.setWidth 16, (saddr >>> 16).setWidth 16, daddr.setWidth 16, (daddr >>> 16).setWidth 16,
    htons datalen, htons (proto.setWidth 16)]

/-- What a checksum is taken of: a buffer alone, or with a pseudo header. -/
inductive Cover where
  | plain
  | pseudo (saddr daddr : BitVec 32) (proto : Byte)
  deriving DecidableEq, Repr

/-- The checksum of a whole buffer. -/
def Cover.chksum (v : List Byte) : Cover → BitVec 16
  | .plain => ipchksum v
  | .pseudo saddr daddr proto =>
      ipchksumpseudo saddr daddr proto (BitVec.ofNat 16 v.length) v

/-- All words that are summed. -/
def Cover.summed (v : List Byte) : Cover → List (BitVec 16)
  | .plain => words v
  | .pseudo saddr daddr proto =>
      pseudoWords saddr daddr proto (BitVec.ofNat 16 v.length) ++ words v

/-- The sum of words in 32 bits, and as a number. -/
def sum32 (l : List (BitVec 16)) : BitVec 32 := (l.map fun x => x.setWidth 32).sum

def sumNat (l : List (BitVec 16)) : Nat := (l.map BitVec.toNat).sum

@[simp] theorem sumNat_nil : sumNat [] = 0 := rfl

@[simp] theorem sumNat_cons (x : BitVec 16) (l : List (BitVec 16)) :
    sumNat (x :: l) = x.toNat + sumNat l := by
  simp [sumNat]

@[simp] theorem sumNat_append (l m : List (BitVec 16)) : sumNat (l ++ m) = sumNat l + sumNat m := by
  simp [sumNat]

theorem sumNat_le (l : List (BitVec 16)) : sumNat l ≤ 65535 * l.length := by
  induction l with
  | nil => exact Nat.zero_le _
  | cons x l ih =>
      rw [sumNat_cons, length_cons]
      omega

theorem sumNat_eq_zero {l : List (BitVec 16)} : sumNat l = 0 ↔ ∀ x ∈ l, x = 0 := by
  induction l with
  | nil => simp
  | cons x l ih =>
      rw [sumNat_cons, Nat.add_eq_zero_iff, ih, forall_mem_cons]
      exact and_congr_left fun _ => BitVec.toNat_inj (y := 0)

/-- No carry is lost. -/
theorem sum32_toNat {l : List (BitVec 16)} (h : l.length ≤ 65535) : (sum32 l).toNat = sumNat l := by
  induction l with
  | nil => rfl
  | cons x l ih =>
      have hle := sumNat_le (x :: l)
      rw [length_cons] at h hle
      have hsum : (sum32 (x :: l)).toNat = (x.toNat + sumNat l) % 2 ^ 32 := by
        rw [← ih (by omega)]
        simp [sum32]
      rw [hsum, ← sumNat_cons, Nat.mod_eq_of_lt (by omega)]

theorem sumup_go_words (v : List Byte) (sum : BitVec 32) :
    sumup.go sum v = sum + sum32 (words v) := by
  induction v using words.induct generalizing sum with
  | case1 => simp [sumup.go, words, sum32]
  | case2 b => simp [sumup.go, words, sum32]
  | case3 lo hi v ih => simp [sumup.go, words, sum32, ih, add_assoc]

theorem pseudo_words (saddr daddr : BitVec 32) (proto : Byte) (datalen : BitVec 16) :
    pseudo saddr daddr proto datalen = sum32 (pseudoWords saddr daddr proto datalen) := by
  have hlow : ∀ x : BitVec 32, x &&& 0xffff#32 = (x.setWidth 16).setWidth 32 := by
    intro x
    rw [← BitVec.toNat_inj, low_toNat, BitVec.toNat_setWidth, BitVec.toNat_setWidth]
    omega
  have hhigh : ∀ x : BitVec 32, x >>> 16 = ((x >>> 16).setWidth 16).setWidth 32 := by
    intro x
    bv_omega
  unfold pseudo
  rw [hlow saddr, hhigh saddr, hlow daddr, hhigh daddr]
  simp only [sum32, pseudoWords, map_cons, map_nil, sum_cons, sum_nil,
    add_zero, add_assoc]

theorem length_words (v : List Byte) : (words v).length = (v.length + 1) / 2 := by
  induction v using words.induct with
  | case1 => rfl
  | case2 b => simp [words]
  | case3 lo hi v ih =>
      rw [words, length_cons, ih, length_cons, length_cons]
      omega

/-! ## When a buffer is accepted -/

variable {c : Cover} {v v' : List Byte}

theorem length_summed (h : v.length ≤ 65535) : (c.summed v).length ≤ 65535 := by
  have hwords := length_words v
  cases c with
  | plain =>
      show (words v).length ≤ 65535
      omega
  | pseudo saddr daddr proto =>
      show (pseudoWords saddr daddr proto (BitVec.ofNat 16 v.length) ++ words v).length ≤ 65535
      rw [length_append]
      show 6 + (words v).length ≤ 65535
      omega

theorem chksum_eq (h : v.length ≤ 65535) : c.chksum v = convert (sum32 (c.summed v)) := by
  cases c with
  | plain =>
      show convert (sumup.go 0 v) = convert (sum32 (words v))
      rw [sumup_go_words, zero_add]
  | pseudo saddr daddr proto =>
      have hlen : (BitVec.ofNat 16 v.length).toNat = v.length := by
        rw [BitVec.toNat_ofNat, Nat.mod_eq_of_lt (by omega)]
      show convert (_ + sumup.go 0 (v.take (BitVec.ofNat 16 v.length).toNat)) = convert _
      rw [hlen, take_length, sumup_go_words, zero_add, pseudo_words]
      simp [sum32, Cover.summed]

/-- **A buffer is accepted** if its words add up to a multiple of 65535 and are not all 0. -/
theorem chksum_eq_zero (h : v.length ≤ 65535) :
    c.chksum v = 0 ↔ sumNat (c.summed v) ≡ 0 [MOD 65535] ∧ ∃ x ∈ c.summed v, x ≠ 0 := by
  rw [chksum_eq h, convert_eq_zero,
    EndAround.fold_eq_top (by decide) (sum32 (c.summed v)).isLt, sum32_toNat (length_summed h),
    Ne, sumNat_eq_zero]
  push Not
  rfl

/-! ## A change of one word -/

/-- `v'` has the word `y` where `v` has `x`, and is the same otherwise. -/
structure Replaced (v v' : List Byte) (x y : BitVec 16) : Prop where
  length : v'.length = v.length
  split : ∃ l m, words v = l ++ x :: m ∧ words v' = l ++ y :: m

theorem sumNat_replaced {x y : BitVec 16} (h : Replaced v v' x y) :
    sumNat (c.summed v') + x.toNat = sumNat (c.summed v) + y.toNat := by
  obtain ⟨l, m, hv, hv'⟩ := h.split
  cases c with
  | plain =>
      simp only [Cover.summed, hv, hv', sumNat_append, sumNat_cons]
      omega
  | pseudo saddr daddr proto =>
      simp only [Cover.summed, h.length, hv, hv', sumNat_append, sumNat_cons]
      omega

/-- **Detection.**  What is accepted before and after the change. -/
theorem chksum_replaced {x y : BitVec 16} (h : Replaced v v' x y) (hlen : v.length ≤ 65535)
    (hv : c.chksum v = 0) :
    c.chksum v' = 0 ↔ x.toNat ≡ y.toNat [MOD 65535] ∧ ∃ z ∈ c.summed v', z ≠ 0 := by
  have hsum := sumNat_replaced (c := c) h
  have hzero := ((chksum_eq_zero hlen).mp hv).1
  rw [chksum_eq_zero (h.length ▸ hlen)]
  refine and_congr_left fun _ => ⟨fun hv' => ?_, fun hxy => ?_⟩
  · -- both sums are 0 modulo 65535
    have hadd : x.toNat + sumNat (c.summed v) ≡ y.toNat + sumNat (c.summed v) [MOD 65535] := by
      calc x.toNat + sumNat (c.summed v)
          ≡ x.toNat + sumNat (c.summed v') [MOD 65535] := (hzero.trans hv'.symm).add_left _
        _ = y.toNat + sumNat (c.summed v) := by omega
    exact Nat.ModEq.add_right_cancel' _ hadd
  · have hadd : sumNat (c.summed v') + x.toNat ≡ 0 + x.toNat [MOD 65535] := by
      calc sumNat (c.summed v') + x.toNat
          = sumNat (c.summed v) + y.toNat := hsum
        _ ≡ 0 + y.toNat [MOD 65535] := hzero.add_right _
        _ ≡ 0 + x.toNat [MOD 65535] := hxy.symm.add_left _
    exact Nat.ModEq.add_right_cancel' _ hadd

theorem words_append {v w : List Byte} (h : Even v.length) : words (v ++ w) = words v ++ words w := by
  induction v using words.induct with
  | case1 => rfl
  | case2 b => exact absurd h (Nat.not_even_iff.mpr rfl)
  | case3 lo hi v ih =>
      have hv : Even v.length := by
        rw [length_cons, length_cons] at h
        obtain ⟨k, hk⟩ := h
        exact ⟨k - 1, by omega⟩
      rw [cons_append, cons_append, words, words, ih hv, cons_append]

/-- An aligned word is replaced. -/
theorem replaced_setU16 {o : Nat} {w : BitVec 16} (heven : Even o) (h : u16At v o = some w)
    (w' : BitVec 16) : Replaced v (setU16 v o w') w w' := by
  obtain ⟨lo, hi, rfl, hsplit⟩ := u16At_split h
  have hroom := u16At_length h
  have hpre : Even (v.take o).length := by
    rw [length_take_of_le (by omega)]
    exact heven
  refine ⟨length_setU16 hroom w', words (v.take o), words (v.drop (o + 2)), ?_, ?_⟩
  · conv_lhs => rw [hsplit]
    rw [words_append hpre, words]
  · unfold setU16
    rw [append_assoc, words_append hpre]
    show _ ++ words (_ :: _ :: v.drop (o + 2)) = _
    rw [words, word_le16]

/-- A byte is replaced: the words it stands in differ by less than 65535. -/
theorem replaced_set {j : Nat} (hj : j < v.length) {b : Byte} (hb : b ≠ v[j]) :
    ∃ x y, Replaced v (v.set j b) x y ∧ ¬ x.toNat ≡ y.toNat [MOD 65535] := by
  have hne : b.toNat ≠ v[j].toNat := fun h => hb (BitVec.eq_of_toNat_eq h)
  have hlt' := v[j].isLt
  induction v using words.induct generalizing j with
  | case1 => exact absurd hj (Nat.not_lt_zero j)
  | case2 a =>
      obtain rfl : j = 0 := by simpa using hj
      refine ⟨a.setWidth 16, b.setWidth 16, ⟨rfl, [], [], rfl, rfl⟩, ?_⟩
      simp only [getElem_cons_zero] at hne hlt'
      rw [BitVec.toNat_setWidth_of_le (by decide), BitVec.toNat_setWidth_of_le (by decide),
        Nat.ModEq]
      omega
  | case3 lo hi v ih =>
      match j with
      | 0 =>
          refine ⟨word lo hi, word b hi, ⟨by simp, [], words v, rfl, rfl⟩, ?_⟩
          simp only [getElem_cons_zero] at hne hlt'
          rw [word_toNat, word_toNat, Nat.ModEq]
          omega
      | 1 =>
          refine ⟨word lo hi, word lo b, ⟨by simp, [], words v, rfl, rfl⟩, ?_⟩
          simp only [getElem_cons_succ, getElem_cons_zero] at hne hlt'
          rw [word_toNat, word_toNat, Nat.ModEq]
          omega
      | j + 2 =>
          obtain ⟨x, y, ⟨hlen, l, m, hv, hv'⟩, hxy⟩ :=
            ih (by simpa using hj) (by simpa using hb) (by simpa using hne) (by simpa using hlt')
          refine ⟨x, y, ⟨by simp, word lo hi :: l, m, ?_, ?_⟩, hxy⟩
          · rw [words, hv, cons_append]
          · rw [set_cons_succ, set_cons_succ, words, hv', cons_append]

/-- **What the checksum detects**, with or without a pseudo header: of all changes of
one aligned word, those that are not a multiple of 65535; with them every change of one
byte, a single bit and an odd last byte among them.  The order of the words is not
detected. -/
theorem detects (c : Cover) :
    (∀ v : List Byte, v.length ≤ 65535 → c.chksum v = 0 →
      (∀ o w w', Even o → u16At v o = some w →
        (c.chksum (setU16 v o w') = 0 ↔
          w.toNat ≡ w'.toNat [MOD 65535] ∧ ∃ x ∈ c.summed (setU16 v o w'), x ≠ 0)) ∧
      (∀ j k, (hj : j < v.length) → k < 8 → c.chksum (v.set j (v[j] ^^^ (1 : Byte) <<< k)) ≠ 0) ∧
      ∀ j b, (hj : j < v.length) → b ≠ v[j] → c.chksum (v.set j b) ≠ 0) ∧
    ∀ v v' : List Byte, v.length ≤ 65535 → v'.length = v.length → (words v').Perm (words v) →
      c.chksum v' = c.chksum v := by
  refine ⟨fun v hlen hv => ?_, fun v v' hlen hlen' hperm => ?_⟩
  · have hbyte : ∀ j b, (hj : j < v.length) → b ≠ v[j] → c.chksum (v.set j b) ≠ 0 := by
      intro j b hj hb hzero
      obtain ⟨x, y, hreplaced, hxy⟩ := replaced_set hj hb
      exact hxy ((chksum_replaced hreplaced hlen hv).mp hzero).1
    refine ⟨?_, ?_, hbyte⟩
    · intro o w w' heven hw
      exact chksum_replaced (replaced_setU16 heven hw w') hlen hv
    · intro j k hj hk
      refine hbyte j _ hj fun h => ?_
      have hbit : (v[j] ^^^ (1 : Byte) <<< k).getLsbD k = v[j].getLsbD k :=
        congrArg (·.getLsbD k) h
      simp [hk] at hbit
  · have hsummed : (c.summed v').Perm (c.summed v) := by
      cases c with
      | plain => exact hperm
      | pseudo saddr daddr proto =>
          show (pseudoWords saddr daddr proto (BitVec.ofNat 16 v'.length) ++ words v').Perm _
          rw [hlen']
          exact hperm.append_left _
    rw [chksum_eq hlen, chksum_eq (hlen' ▸ hlen), sum32, sum32,
      (hsummed.map fun x => x.setWidth 32).sum_eq]

/-- A word and its complement, with another first byte. -/
theorem detects_byte : Cover.chksum (List.set [0x12, 0x34, 0xed, 0xcb] 0 0x13) .plain ≠ 0 :=
  ((detects .plain).1 [0x12, 0x34, 0xed, 0xcb] (by decide) (by decide)).2.2 0 0x13
    (by decide) (by decide)

end Unixlite.Net
