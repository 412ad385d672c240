import Unixlite.Verified.Calendar
import Unixlite.Verified.PrefixSums
import Mathlib.Data.BitVec
import Mathlib.Tactic.IntervalCases

/-!
# The time at boot

`kern/time.cc` turns the date of the CMOS clock into the seconds since 1970.  The
tables of days are summed up in place by `add`.  `calcdayofyear` then stores at the
index `i`, which is to say the days before the year 1970 + i, the sum of the lengths
of the years 1971 to 1970 + i, where it should sum those of 1970 to 1969 + i.  The
two differ by the day that a leap year has more than 1970.

A read or a write outside its array is `none`, and so is a failed `assert`.
-/

namespace Unixlite.Kern.Time

open Unixlite.Verified Unixlite.Verified.Calendar List
open BitVec (ofNat_add ofNat_mul toNat_ofNat)

/-- The `int` of the machine. -/
abbrev Int32 := BitVec 32

/-! ## Tables -/

/-- `a[i]` -/
def load (a : List Int32) (i : Int32) : Option Int32 := a[i.toNat]?

/-- `a[i] = x` -/
def store (a : List Int32) (i : Nat) (x : Int32) : Option (List Int32) :=
  if i < a.length then some (a.set i x) else none

def dayofl : List Int32 := [0, 31, 29, 31, 30, 31, 30, 31, 31, 30, 31, 30, 31]

def dayofn : List Int32 := [0, 31, 28, 31, 30, 31, 30, 31, 31, 30, 31, 30, 31]

def LIFE : Nat := 100

/-- The three static tables. -/
structure Tables where
  dayofl : List Int32
  dayofn : List Int32
  dayofyear : List Int32
  deriving DecidableEq, Repr

/-- The tables as they are loaded. -/
def boot : Tables := ⟨dayofl, dayofn, List.replicate (1 + LIFE) 0⟩

def leap (y : Int32) : Bool :=
  (y.toInt.tmod 4 == 0 && y.toInt.tmod 100 != 0) || y.toInt.tmod 400 == 0

/-- `*target += *source` -/
def accumulate (p : List Int32) (target source : Nat) : Option (List Int32) := do
  let t ← p[target]?
  let s ← p[source]?
  store p target (t + s)

/-- The inner loop of `add`: `source` goes up to `target`. -/
def addSources (p : List Int32) (target : Nat) : Option (List Int32) :=
  (List.range target).foldlM (fun p source => accumulate p target source) p

/-- The outer loop of `add`: `target` goes down to the second element. -/
def addTargets : Nat → List Int32 → Option (List Int32)
  | 0, p => some p
  | target + 1, p => (addSources p (target + 1)).bind (addTargets target)

def add (p : List Int32) (n : Nat) : Option (List Int32) := addTargets (n - 1) p

/-- `leap(1970 + i) ? dayofl[12] : dayofn[12]` -/
def lengthAt (s : Tables) (i : Nat) : Option Int32 :=
  if leap (1970 + BitVec.ofNat 32 i) then s.dayofl[12]? else s.dayofn[12]?

/-- The loop of `calcdayofyear` over the indices 1 to `n`. -/
def fill (s : Tables) (n : Nat) : Option (List Int32) :=
  (List.range n).foldlM (fun a k => (lengthAt s (k + 1)).bind (store a (k + 1))) s.dayofyear

def calcdayofyear (s : Tables) : Option Tables := do
  let s := { s with dayofl := ← add s.dayofl 13 }
  guard (s.dayofl[12]? = some 366)
  let s := { s with dayofn := ← add s.dayofn 13 }
  guard (s.dayofn[12]? = some 365)
  let s := { s with dayofyear := ← fill s LIFE }
  return { s with dayofyear := ← add s.dayofyear (LIFE + 1) }

/-! ## The conversion -/

/-- The fields of `tm_t` that are set. -/
structure Tm where
  sec : Int32
  min : Int32
  hour : Int32
  mday : Int32
  mon : Int32
  year : Int32
  deriving DecidableEq, Repr

def dayfrom1970 (s : Tables) (t : Tm) : Option Int32 := do
  let year ← load s.dayofyear (t.year - 1970)
  let mon ← load (if leap t.year then s.dayofl else s.dayofn) (t.mon - 1)
  return year + mon + t.mday - 1

def timefrom1970 (s : Tables) (t : Tm) : Option Int32 := do
  let day ← dayfrom1970 s t
  return day * 24 * 3600 + t.hour * 3600 + t.min * 60 + t.sec

/-- Two decimal digits from the byte that the clock has answered. -/
def readcmos (byte : BitVec 8) : Int32 :=
  let i := byte.setWidth 32
  (i &&& 15) + (i >>> 4) * 10

def between (a b c : Int32) : Bool := a.sle b && b.slt c

/-- `cmos error:incorrect month:%d` and `cmos error:incorrect year:%d` -/
inductive Warning where
  | month (mon : Int32)
  | year (year : Int32)
  deriving DecidableEq, Repr

/-- The time that `inittime` reads from the registers of the clock. -/
def readtime (cmos : Nat → BitVec 8) : Tm × List Warning :=
  let mon := readcmos (cmos 8)
  let year := readcmos (cmos 9)
  let year := year + if (70 : Int32).slt year then 1900 else 2000
  let monok := between 1 mon 13
  let yearok := between 1970 year (1970 + BitVec.ofNat 32 LIFE)
  ({ sec := readcmos (cmos 0), min := readcmos (cmos 2), hour := readcmos (cmos 4)
     mday := readcmos (cmos 7)
     mon := if monok then mon else 1
     year := if yearok then year else 1970 },
    (if monok then [] else [.month mon]) ++ if yearok then [] else [.year year])

/-- The tables, the value of `boottime` and the warnings after `inittime`. -/
def inittime (s : Tables) (cmos : Nat → BitVec 8) : Option (Tables × Int32 × List Warning) := do
  let r := readtime cmos
  let s ← calcdayofyear s
  let boottime ← timefrom1970 s r.1
  return (s, boottime, r.2)

/-! ## `add` -/

variable {k n : Nat} {s : Tables} {l : List Int32}

/-- What the inner loop has done after `k` rounds. -/
theorem addSources_loop (p : List Int32) {target : Nat} (hk : k ≤ target) (h : target < p.length) :
    (List.range k).foldlM (fun p source => accumulate p target source) p =
      some (p.set target (p[target] + (p.take k).sum)) := by
  induction k with
  | zero => simp
  | succ k ih =>
      have hkt : k < p.length := by omega
      rw [range_succ, foldlM_append, ih (by omega)]
      have hne : target ≠ k := by omega
      have htake : (p.take (k + 1)).sum = (p.take k).sum + p[k] := sum_take_succ p k hkt
      simp [accumulate, store, h, hkt, hne, htake, add_assoc]

theorem addSources_eq (p : List Int32) {target : Nat} (h : target < p.length) :
    addSources p target = some (p.set target (p.take (target + 1)).sum) := by
  rw [addSources, addSources_loop p le_rfl h, sum_take_succ p target h, add_comm]

/-- **Loop lemma.**  With `target` and all below it still to do. -/
theorem addTargets_eq (target : Nat) (p : List Int32) (h : target < p.length) :
    addTargets target p =
      some (prefixSums (p.take (target + 1)) ++ p.drop (target + 1)) := by
  induction target generalizing p with
  | zero =>
      obtain ⟨a, p, rfl⟩ := exists_cons_of_length_pos h
      simp [addTargets, prefixSums]
  | succ target ih =>
      have hset : (p.set (target + 1) (p.take (target + 1 + 1)).sum).drop (target + 1) =
          (p.take (target + 1 + 1)).sum :: p.drop (target + 1 + 1) := by
        rw [drop_set, if_neg (lt_irrefl _), Nat.sub_self, drop_eq_getElem_cons h,
          set_cons_zero]
      have htake : p.take (target + 1 + 1) = p.take (target + 1) ++ [p[target + 1]] :=
        take_succ_eq_append_getElem h
      rw [addTargets, addSources_eq p h, Option.bind_some, ih _ (by simp; omega), hset,
        take_set_of_le le_rfl]
      rw [htake, prefixSums_concat, append_assoc, singleton_append]

/-- **`add`** leaves the prefix sums in the first `n` elements. -/
theorem add_eq {p : List Int32} (hpos : 0 < n) (h : n ≤ p.length) :
    add p n = some (prefixSums (p.take n) ++ p.drop n) := by
  obtain ⟨m, rfl⟩ := Nat.exists_eq_succ_of_ne_zero hpos.ne'
  exact addTargets_eq m p h

/-! ## The tables after `calcdayofyear` -/

theorem toInt_ofNat (h : n < 2 ^ 31) : (BitVec.ofNat 32 n).toInt = n := by
  rw [BitVec.toInt_eq_toNat_of_lt (by rw [toNat_ofNat]; omega), toNat_ofNat,
    Nat.mod_eq_of_lt (by omega)]

theorem leap_ofNat {y : Nat} (h : y < 2 ^ 31) : leap (BitVec.ofNat 32 y) = decide (Leap y) := by
  rw [Bool.eq_iff_iff, decide_eq_true_iff]
  simp only [leap, toInt_ofNat h, Leap, Bool.or_eq_true, Bool.and_eq_true, beq_iff_eq, bne_iff_ne,
    Int.tmod_eq_emod_of_nonneg (Int.natCast_nonneg y)]
  omega

/-- The number of days that the loop of `calcdayofyear` stores at the index `k`. -/
def yeardays (k : Nat) : Nat := if k = 0 then 0 else yearLength (1970 + k)

theorem lengthAt_eq (hl : s.dayofl[12]? = some 366) (hn : s.dayofn[12]? = some 365)
    (h : n + 1 ≤ 100) :
    lengthAt s (n + 1) = some (BitVec.ofNat 32 (yeardays (n + 1))) := by
  have hadd : (1970 : Int32) + BitVec.ofNat 32 (n + 1) = BitVec.ofNat 32 (1970 + (n + 1)) :=
    (ofNat_add 1970 (n + 1)).symm
  rw [lengthAt, hadd, leap_ofNat (by omega), yeardays, if_neg (Nat.succ_ne_zero n),
    yearLength_eq, hl, hn]
  simp only [decide_eq_true_iff]
  split <;> rfl

/-- The table of years before it is summed up, as far as it is filled. -/
theorem fill_eq (hl : s.dayofl[12]? = some 366) (hn : s.dayofn[12]? = some 365)
    (hyear : s.dayofyear = List.replicate (1 + LIFE) 0) (h : n ≤ LIFE) :
    ∃ a, fill s n = some a ∧ a.length = 1 + LIFE ∧
      ∀ k ≤ n, a[k]? = some (BitVec.ofNat 32 (yeardays k)) := by
  induction n with
  | zero =>
      refine ⟨s.dayofyear, rfl, by simp [hyear], fun k hk => ?_⟩
      rw [Nat.le_zero.mp hk, hyear]
      rfl
  | succ n ih =>
      obtain ⟨a, hfill, hlength, ha⟩ := ih (by omega)
      have hlt : n + 1 < a.length := by omega
      have hlen := lengthAt_eq hl hn h
      refine ⟨a.set (n + 1) (BitVec.ofNat 32 (yeardays (n + 1))), ?_, by simpa using hlength, ?_⟩
      · unfold fill at hfill ⊢
        rw [range_succ, foldlM_append, hfill]
        simp [hlen, store, hlt]
      · intro k hk
        rcases Nat.lt_or_ge k (n + 1) with hk' | hk'
        · rw [List.getElem?_set_ne (by omega), ha k (by omega)]
        · rw [show k = n + 1 by omega, List.getElem?_set_self hlt]

/-- An array of days, with nothing at the index 0, after `add`. -/
theorem prefixSums_ofNat {f : Nat → Nat} (hzero : f 0 = 0)
    (hlength : l.length = n + 1) (hl : ∀ i ≤ n, l[i]? = some (BitVec.ofNat 32 (f i))) (hk : k ≤ n) :
    (prefixSums l)[k]? = some (BitVec.ofNat 32 (∑ j ∈ Finset.range k, f (j + 1))) := by
  have hmap : l = (List.range (n + 1)).map fun i => BitVec.ofNat 32 (f i) := by
    refine ext_getElem? fun i => ?_
    rcases Nat.lt_or_ge i (n + 1) with hi | hi
    · rw [hl i (by omega)]
      simp [hi]
    · rw [List.getElem?_eq_none (by omega), List.getElem?_eq_none (by simpa using hi)]
  have hsum : ∀ m, ∑ j ∈ Finset.range (m + 1), BitVec.ofNat 32 (f j) =
      BitVec.ofNat 32 (∑ j ∈ Finset.range m, f (j + 1)) := by
    intro m
    induction m with
    | zero => simp [hzero]
    | succ m ih => rw [Finset.sum_range_succ, ih, Finset.sum_range_succ _ m, ofNat_add]
  rw [getElem?_prefixSums (by omega), hmap, sum_take_map_range _ (by omega), hsum]

/-- What `timefrom1970` needs to know of the tables. -/
structure Summed (s : Tables) : Prop where
  month : ∀ y, ∀ m ≤ 12, (if Leap y then s.dayofl else s.dayofn)[m]? =
    some (BitVec.ofNat 32 (∑ j ∈ Finset.range m, monthLength y (j + 1)))
  year : ∀ k ≤ LIFE, s.dayofyear[k]? =
    some (BitVec.ofNat 32 (∑ i ∈ Finset.range k, yearLength (1971 + i)))

/-- The month tables of the source are the months of the calendar. -/
theorem months_eq (y : Nat) : ∀ m ≤ 12, (if Leap y then dayofl else dayofn)[m]? =
    some (BitVec.ofNat 32 (if m = 0 then 0 else monthLength y m)) := by
  intro m hm
  by_cases hleap : Leap y
  · interval_cases m <;> simp [hleap, monthLength, dayofl]
  · interval_cases m <;> simp [hleap, monthLength, dayofn]

theorem add_all (hpos : 0 < n) (h : l.length = n) : add l n = some (prefixSums l) := by
  rw [add_eq hpos h.ge, take_of_length_le h.le, drop_of_length_le h.le,
    append_nil]

theorem calcdayofyear_eq {n a b : List Int32} (hl : add s.dayofl 13 = some l)
    (hl12 : l[12]? = some 366) (hn : add s.dayofn 13 = some n) (hn12 : n[12]? = some 365)
    (hfill : fill ⟨l, n, s.dayofyear⟩ LIFE = some a) (hyear : add a (LIFE + 1) = some b) :
    calcdayofyear s = some ⟨l, n, b⟩ := by
  simp only [calcdayofyear, Option.bind_eq_bind, hl, hn, Option.bind_some, hl12, hn12, guard,
    if_true, Option.pure_def, hfill, hyear]

/-- **The tables after `calcdayofyear`.**  Nothing is read or written outside them. -/
theorem calcdayofyear_boot : ∃ s, calcdayofyear boot = some s ∧ Summed s := by
  have hl : add dayofl 13 = some (prefixSums dayofl) := add_all (by decide) rfl
  have hn : add dayofn 13 = some (prefixSums dayofn) := add_all (by decide) rfl
  have hl12 : (prefixSums dayofl)[12]? = some 366 := by decide
  have hn12 : (prefixSums dayofn)[12]? = some 365 := by decide
  obtain ⟨a, hfill, hlength, ha⟩ := fill_eq
    (s := ⟨prefixSums dayofl, prefixSums dayofn, List.replicate (1 + LIFE) 0⟩)
    hl12 hn12 rfl le_rfl
  refine ⟨⟨prefixSums dayofl, prefixSums dayofn, prefixSums a⟩, ?_, ?_, ?_⟩
  · have hyear : add a (LIFE + 1) = some (prefixSums a) :=
      add_all (Nat.succ_pos _) (by omega)
    exact calcdayofyear_eq hl hl12 hn hn12 hfill hyear
  · intro y m hm
    have := prefixSums_ofNat (f := fun m => if m = 0 then 0 else monthLength y m) rfl
      (l := if Leap y then dayofl else dayofn) (by split <;> rfl) (months_eq y) hm
    simpa only [apply_ite prefixSums, Nat.succ_ne_zero, if_false] using this
  · intro k hk
    have := prefixSums_ofNat rfl (by omega) ha hk
    simpa only [yeardays, Nat.succ_ne_zero, if_false, Nat.add_right_comm 1970 _ 1,
      ← Nat.add_assoc] using this

/-! ## The conversion on dates of the calendar -/

/-- The sum that the table holds for a year, and the sum that it should hold. -/
theorem sum_yearLength (k : Nat) : ∑ i ∈ Finset.range k, yearLength (1971 + i) =
    ∑ i ∈ Finset.range k, yearLength (1970 + i) + if Leap (1970 + k) then 1 else 0 := by
  have hshift : ∑ i ∈ Finset.range k, yearLength (1971 + i) + yearLength 1970 =
      ∑ i ∈ Finset.range k, yearLength (1970 + i) + yearLength (1970 + k) := by
    rw [← Finset.sum_range_succ (fun i => yearLength (1970 + i)), Finset.sum_range_succ']
    simp only [Nat.add_zero, Nat.add_right_comm 1970 _ 1, ← Nat.add_assoc]
  have h1970 : yearLength 1970 = 365 := by decide
  rw [h1970, yearLength_eq (1970 + k)] at hshift
  split at hshift
  · next hleap =>
      rw [if_pos hleap]
      omega
  · next hleap =>
      rw [if_neg hleap]
      omega

/-- The fields of `tm_t` at a moment. -/
def Tm.of (t : Moment) : Tm where
  sec := BitVec.ofNat 32 t.sec
  min := BitVec.ofNat 32 t.min
  hour := BitVec.ofNat 32 t.hour
  mday := BitVec.ofNat 32 t.day
  mon := BitVec.ofNat 32 t.month
  year := BitVec.ofNat 32 t.year

theorem load_sub {a : List Int32} {i : Nat} (h : k ≤ i) (hi : i < 2 ^ 32) :
    load a (BitVec.ofNat 32 i - BitVec.ofNat 32 k) = a[i - k]? := by
  unfold load
  congr 1
  rw [BitVec.toNat_sub, toNat_ofNat, toNat_ofNat]
  omega

theorem ofNat_seconds (year mon day hour min sec : Nat) :
    (BitVec.ofNat 32 year + BitVec.ofNat 32 mon + BitVec.ofNat 32 day) * 24 * 3600 +
      BitVec.ofNat 32 hour * 3600 + BitVec.ofNat 32 min * 60 + BitVec.ofNat 32 sec =
    BitVec.ofNat 32 ((year + mon + day) * 86400 + hour * 3600 + min * 60 + sec) := by
  rw [ofNat_add, ofNat_add, ofNat_add, ofNat_mul, ofNat_mul,
    ofNat_mul, ofNat_add, ofNat_add, mul_assoc _ (24 : Int32)]
  rfl

/-- **What the conversion computes**: the seconds, and those of one more day in a leap
year. -/
theorem timefrom1970_eq (hs : Summed s) (t : Moment) (hlo : 1970 ≤ t.year)
    (hhi : t.year ≤ 1970 + LIFE) :
    timefrom1970 s (Tm.of t) =
      some (BitVec.ofNat 32 (t.seconds 1970 + if Leap t.year then 86400 else 0)) := by
  have hlife : t.year ≤ 1970 + 100 := hhi
  have hyear : load s.dayofyear ((Tm.of t).year - 1970) = some (BitVec.ofNat 32
      (∑ i ∈ Finset.range (t.year - 1970), yearLength (1970 + i) +
        if Leap t.year then 1 else 0)) := by
    have hsum := sum_yearLength (t.year - 1970)
    rw [Nat.add_sub_cancel' hlo] at hsum
    rw [← hsum, ← hs.year _ (by omega)]
    exact load_sub hlo (by omega)
  have hmon : load (if leap (Tm.of t).year then s.dayofl else s.dayofn) ((Tm.of t).mon - 1) =
      some (BitVec.ofNat 32 (∑ m ∈ Finset.range (t.month - 1), monthLength t.year (m + 1))) := by
    have hmonth := t.month_le
    rw [← hs.month t.year _ (by omega), show (Tm.of t).year = BitVec.ofNat 32 t.year from rfl,
      leap_ofNat (by omega)]
    simp only [decide_eq_true_iff]
    exact load_sub t.month_pos (by omega)
  obtain ⟨d, hd⟩ : ∃ d, t.day = d + 1 := ⟨t.day - 1, by have := t.day_pos; omega⟩
  have hday : (Tm.of t).mday = BitVec.ofNat 32 d + 1 := by
    simp only [Tm.of, hd, ofNat_add]
    rfl
  simp only [timefrom1970, dayfrom1970, hyear, hmon, hday, Option.bind_eq_bind, Option.bind_some,
    Option.pure_def, ← add_assoc, add_sub_cancel_right, Option.some.injEq]
  simp only [Tm.of, Moment.seconds, Date.number, hd, Nat.add_sub_cancel, ofNat_seconds]
  refine congrArg (BitVec.ofNat 32) ?_
  split <;> omega

/-! ## What `inittime` lets through -/

theorem between_iff (lo hi : Nat) {x : Int32} (hlo : lo < 2 ^ 31) (hhi : hi < 2 ^ 31) :
    between (BitVec.ofNat 32 lo) x (BitVec.ofNat 32 hi) = true ↔ lo ≤ x.toNat ∧ x.toNat < hi := by
  have hx := BitVec.toInt_eq_toNat_cond x
  simp only [between, BitVec.sle, BitVec.slt, toInt_ofNat hlo, toInt_ofNat hhi, Bool.and_eq_true,
    decide_eq_true_iff]
  split at hx <;> omega

/-- The two tests of `inittime`. -/
structure Tm.Checked (t : Tm) : Prop where
  mon : between 1 t.mon 13 = true
  year : between 1970 t.year (1970 + BitVec.ofNat 32 LIFE) = true

/-- A value that fails its test is replaced by the lower bound. -/
theorem between_ite {lo hi : Int32} (h : between lo lo hi = true) (x : Int32) :
    between lo (if between lo x hi then x else lo) hi = true := by
  split
  · next hx => exact hx
  · exact h

theorem readtime_checked (cmos : Nat → BitVec 8) : (readtime cmos).1.Checked :=
  ⟨between_ite (by decide) _, between_ite (by decide) _⟩

/-- **No index is outside its table**, whatever the day and the time of day. -/
theorem timefrom1970_isSome (hs : Summed s) {t : Tm} (ht : t.Checked) :
    (timefrom1970 s t).isSome := by
  have hmon := (between_iff 1 13 (by decide) (by decide)).mp ht.mon
  have hyear := (between_iff 1970 2070 (by decide) (by decide)).mp ht.year
  have hyearofNat : t.year = BitVec.ofNat 32 t.year.toNat := by simp
  have hmonofNat : t.mon = BitVec.ofNat 32 t.mon.toNat := by simp
  have hload : ∃ y, load s.dayofyear (t.year - 1970) = some y := by
    rw [hyearofNat]
    exact ⟨_, (load_sub hyear.1 (by omega)).trans (hs.year _ (show _ ≤ 100 by omega))⟩
  have hmonth : ∃ m, load (if leap t.year then s.dayofl else s.dayofn) (t.mon - 1) = some m := by
    have hmonths := hs.month t.year.toNat (t.mon.toNat - 1) (by omega)
    rw [hmonofNat, hyearofNat, leap_ofNat (by omega)]
    simp only [decide_eq_true_iff]
    exact ⟨_, (load_sub hmon.1 (by omega)).trans hmonths⟩
  obtain ⟨y, hy⟩ := hload
  obtain ⟨m, hm⟩ := hmonth
  simp only [timefrom1970, dayfrom1970, Option.bind_eq_bind, hy, hm, Option.bind_some,
    Option.pure_def, Option.isSome_some]

/-! ## Which years are converted right -/

/-- All that happens up to the end of 2037 fits the signed `time_t`. -/
theorem seconds_lt {t : Moment} (hlo : 1970 ≤ t.year) (hhi : t.year ≤ 2037) :
    t.seconds 1970 + 86400 < 2 ^ 31 := by
  have hlt := number_lt (d := t.toDate) hlo
  have hle : ∑ i ∈ Finset.range (t.year + 1 - 1970), yearLength (1970 + i) ≤
      ∑ i ∈ Finset.range 68, yearLength (1970 + i) :=
    Finset.sum_le_sum_of_subset (Finset.range_subset_range.mpr (by omega))
  have hall : ∑ i ∈ Finset.range 68, yearLength (1970 + i) = 24837 := by decide +kernel
  have hhour := t.hour_lt
  have hmin := t.min_lt
  have hsec := t.sec_lt
  simp only [Moment.seconds]
  omega

/-- **Calendar conversion.**  `add` is right and the tables are large enough.  The
seconds from the epoch, with the days counted on the calendar, are right in the years
that are not leap years; in the others they are a day ahead. -/
theorem timefrom1970_iff (p : List Int32) (n : Nat) (cmos : Nat → BitVec 8) (tm : Tm)
    (t : Moment) :
    (0 < n → n ≤ p.length → add p n = some (prefixSums (p.take n) ++ p.drop n)) ∧
    (inittime boot cmos).isSome ∧
    ∃ s, calcdayofyear boot = some s ∧ (tm.Checked → (timefrom1970 s tm).isSome) ∧
      (1970 ≤ t.year → t.year ≤ 2037 →
        Date.next^[t.toDate.number 1970] (newYear 1970) = t.toDate ∧
        ((timefrom1970 s (Tm.of t)).map BitVec.toInt = some (t.seconds 1970 : Int) ↔
          ¬ Leap t.year)) := by
  obtain ⟨s, hcalc, hs⟩ := calcdayofyear_boot
  refine ⟨add_eq, ?_, s, hcalc, timefrom1970_isSome hs, ?_⟩
  · obtain ⟨v, hv⟩ := Option.isSome_iff_exists.mp
      (timefrom1970_isSome hs (readtime_checked cmos))
    simp [inittime, hcalc, hv]
  · intro hlo hhi
    refine ⟨iterate_next hlo, ?_⟩
    have hlt := seconds_lt hlo hhi
    rw [timefrom1970_eq hs t hlo (show t.year ≤ 1970 + 100 by omega), Option.map_some,
      Option.some.injEq, toInt_ofNat (by split <;> omega)]
    split
    · next hleap =>
        refine iff_of_false (fun h => ?_) (not_not_intro hleap)
        omega
    · next hleap => exact iff_of_true (by rw [Nat.add_zero]) hleap

/-- New Year 1972, a leap year: 730 days are over and the conversion counts 731. -/
theorem timefrom1970_not : ∃ s, calcdayofyear boot = some s ∧
    timefrom1970 s (Tm.of ⟨newYear 1972, 0, 0, 0, by decide, by decide, by decide⟩) =
      some (BitVec.ofNat 32 (731 * 86400)) ∧
    (⟨newYear 1972, 0, 0, 0, by decide, by decide, by decide⟩ : Moment).seconds 1970 =
      730 * 86400 := by
  obtain ⟨s, hcalc, hs⟩ := calcdayofyear_boot
  refine ⟨s, hcalc, ?_, by decide +kernel⟩
  rw [timefrom1970_eq hs _ (by decide) (by decide)]
  decide +kernel

end Unixlite.Kern.Time
