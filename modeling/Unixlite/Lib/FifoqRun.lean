import Mathlib.Data.Int.Bitwise
import Unixlite.Lib.Fifoq

/-!
# The calls of a character queue

The rest of `lib/fifoq.cc`: one character at either end, looking at what comes first, and
`clear`.  `ungetc`, `unputc` and `peekc` move a pointer back, so that it wraps at the start of
the room.

Whatever is called in whatever order, no assertion fails, and the results are those of a list
(`calls_refine`).
-/

namespace Unixlite.Lib.Fifoq

open Unixlite.Verified
open Ring
open List Option

/-- `offset`, of an `int`. -/
def offsetInt (q : Fifoq) (n : Int) : Nat := (Int.land n q.mask).toNat

/-- `adjustrptr(-nr)`. -/
def backrptr (q : Fifoq) (nr : Nat) : Option Fifoq :=
  if q.check ∧ (-nr : Int) ≤ q.nchar then
    some { q with r := q.offsetInt (q.r - nr), nbyte := q.nbyte + nr }
  else none

/-- `adjustwptr(-nr)`. -/
def backwptr (q : Fifoq) (nr : Nat) : Option Fifoq :=
  if q.check ∧ (-nr : Int) ≤ q.space then
    some { q with w := q.offsetInt (q.w - nr), nbyte := q.nbyte - nr }
  else none

/-- What a call returns, and the bytes that it stores where it has been told. -/
abbrev Ret := Nat × List Byte

/-- `peekc(c)`. -/
def peekc1 (q : Fifoq) : Option (Ret × Fifoq) :=
  if q.empty then some ((0, []), q) else some ((1, [q.room q.r]), q)

/-- `getc(c)`. -/
def getc1 (q : Fifoq) : Option (Ret × Fifoq) :=
  if q.empty then some ((0, []), q)
  else (q.adjustrptr 1).map fun t => ((1, [q.room q.r]), t)

def ungetc (q : Fifoq) (c : Byte) : Option (Ret × Fifoq) :=
  if q.full then some ((0, []), q)
  else (q.backrptr 1).map fun t => ((1, []), { t with room := write t.room t.r [c] })

/-- `putc(c)`. -/
def putc1 (q : Fifoq) (c : Byte) : Option (Ret × Fifoq) :=
  if q.full then some ((0, []), q)
  else ({ q with room := write q.room q.w [c] }.adjustwptr 1).map fun t => ((1, []), t)

def unputc (q : Fifoq) : Option (Ret × Fifoq) :=
  if q.empty then some ((0, []), q)
  else (q.backwptr 1).map fun t => ((1, [t.room t.w]), t)

/-- `peekc(buf, len)`. -/
def peekc (q : Fifoq) (len : Int) : Option (Ret × Fifoq) := do
  let (bytes, q) ← q.getc len
  let q ← q.backrptr bytes.length
  return ((bytes.length, bytes), q)

def ispowerof2 (n : Nat) : Bool := (n - 1) &&& n == 0

def clear (q : Fifoq) : Option (Ret × Fifoq) :=
  if ispowerof2 q.size then some ((0, []), init q.room q.size) else none

/-! ## Calls -/

/-- The functions, those for a buffer under a name of their own. -/
inductive Call where
  | peekc
  | getc
  | ungetc (c : Byte)
  | putc (c : Byte)
  | unputc
  | peekbuf (len : Nat)
  | getbuf (len : Nat)
  | putbuf (buf : List Byte)
  | clear

def call (q : Fifoq) : Call → Option (Ret × Fifoq)
  | .peekc => q.peekc1
  | .getc => q.getc1
  | .ungetc c => q.ungetc c
  | .putc c => q.putc1 c
  | .unputc => q.unputc
  | .peekbuf len => q.peekc len
  | .getbuf len => (q.getc len).map fun x => ((x.1.length, x.1), x.2)
  | .putbuf buf => (q.putc buf).map fun x => ((x.1, []), x.2)
  | .clear => q.clear

/-- The same on a list of at most `size` bytes. -/
def Call.onList (size : Nat) (l : List Byte) : Call → Ret × List Byte
  | .peekc => ((min 1 l.length, l.take 1), l)
  | .getc => ((min 1 l.length, l.take 1), l.drop 1)
  | .ungetc c => if l.length < size then ((1, []), c :: l) else ((0, []), l)
  | .putc c => if l.length < size then ((1, []), l ++ [c]) else ((0, []), l)
  | .unputc => ((min 1 l.length, l.getLast?.toList), l.dropLast)
  | .peekbuf len => ((min len l.length, l.take len), l)
  | .getbuf len => ((min len l.length, l.take len), l.drop len)
  | .putbuf buf => ((min buf.length (size - l.length), []), l ++ buf.take (size - l.length))
  | .clear => ((0, []), [])

/-- Calls one after the other, and what they return. -/
def calls : List Call → Fifoq → Option (List Ret × Fifoq)
  | [], q => some ([], q)
  | c :: cs, q => do
    let (x, q) ← q.call c
    let (xs, q) ← calls cs q
    return (x :: xs, q)

def onLists (size : Nat) : List Call → List Byte → List Ret × List Byte
  | [], l => ([], l)
  | c :: cs, l =>
    let (x, l) := c.onList size l
    let (xs, l) := onLists size cs l
    (x :: xs, l)

/-! ## Pointers that go back -/

/-- The bits of a number below zero. -/
theorem land_negSucc (k m : Nat) : Int.land (Int.negSucc m) (2 ^ k - 1 : Nat) =
    ((2 ^ k - (m % 2 ^ k + 1) : Nat) : Int) := by
  refine congrArg Int.ofNat (Nat.eq_of_testBit_eq fun i => ?_)
  rw [Nat.testBit_ldiff, Nat.testBit_two_pow_sub_one,
    Nat.testBit_two_pow_sub_succ (Nat.mod_lt m (Nat.two_pow_pos k)), Nat.testBit_mod_two_pow]
  by_cases hi : i < k <;> simp [hi]

namespace Ok

variable {q q' : Fifoq} {c : Byte} {nr : Nat}

/-- Going back is going on to the end of the room. -/
theorem offsetInt_eq (h : q.Ok) (a : Nat) (hnr : nr ≤ q.size) :
    q.offsetInt ((a : Int) - nr) = (a + (q.size - nr)) % q.size := by
  obtain ⟨k, hk⟩ := h.ispowerof2
  unfold offsetInt mask
  rw [hk] at hnr ⊢
  rcases Nat.lt_or_ge a nr with hlt | hge
  · have hneg : (a : Int) - nr = Int.negSucc (nr - a - 1) := by omega
    rw [hneg, land_negSucc, Int.toNat_natCast, Nat.mod_eq_of_lt (by omega),
      Nat.mod_eq_of_lt (by omega)]
    omega
  · have hpos : (a : Int) - nr = (a - nr : Nat) := by omega
    rw [hpos, show a + (2 ^ k - nr) = a - nr + 2 ^ k by omega, Nat.add_mod_right]
    exact Nat.and_two_pow_sub_one_eq_mod (a - nr) k

/-- What is read again is what has been read. -/
theorem backrptr (h : q.Ok) (nr : Nat) (hfits : q.nbyte + nr ≤ q.size) :
    ∃ t, q.backrptr nr = some t ∧ t.Ok ∧ t.size = q.size ∧ t.room = q.room ∧ t.w = q.w ∧
      t.r = (q.r + (q.size - nr)) % q.size ∧ t.nbyte = q.nbyte + nr := by
  have hr := h.r_lt
  have hoff := h.offsetInt_eq q.r (show nr ≤ q.size by omega)
  refine ⟨_, if_pos ⟨h.check, by omega⟩, ⟨h.ispowerof2, ?_, hfits, ?_⟩, rfl, rfl, rfl, hoff, rfl⟩
  · rw [hoff]
    exact Nat.mod_lt _ (by omega)
  · rw [hoff, h.w_eq, Nat.mod_add_mod,
      show q.r + (q.size - nr) + (q.nbyte + nr) = q.r + q.nbyte + q.size by omega,
      Nat.add_mod_right]

theorem ungetc (h : q.Ok) (hroom : q.nbyte < q.size) :
    ∃ t, (q.backrptr 1).map (fun t => { t with room := write t.room t.r [c] }) = some t ∧
      t.Ok ∧ t.size = q.size ∧ t.contents = c :: q.contents := by
  obtain ⟨t, ht, hok, hsize, htroom, -, hr, hn⟩ := h.backrptr 1 hroom
  have hlt := hok.r_lt
  have hback : (t.r + 1) % q.size = q.r := by
    rw [hr, Nat.mod_add_mod, show q.r + (q.size - 1) + 1 = q.r + q.size by omega,
      Nat.add_mod_right, Nat.mod_eq_of_lt h.r_lt]
  refine ⟨{ t with room := write t.room t.r [c] }, by rw [ht]; rfl,
    ⟨hok.ispowerof2, hok.r_lt, hok.nbyte_le, hok.w_eq⟩, hsize, ?_⟩
  simp only [contents, hn, htroom, hsize] at hlt ⊢
  rw [Nat.add_comm, window_add, window_eq_chunk hlt]
  change chunk _ t.r [c].length ++ _ = [c] ++ window q.room q.size q.r q.nbyte
  rw [chunk_write, ← hback, window_mod]
  refine congrArg _ (map_congr_left fun i hi => write_outside ?_)
  -- the cells that follow come back to `r` only after all of them
  have hi := mem_range.mp hi
  rw [length_singleton]
  rcases Nat.lt_or_ge (t.r + 1 + i) q.size with hin | hout
  · rw [Nat.mod_eq_of_lt hin]
    omega
  · rw [Nat.mod_eq_sub_mod hout, Nat.mod_eq_of_lt (by omega)]
    omega

theorem unputc (h : q.Ok) (hsome : 0 < q.nbyte) :
    ∃ t, q.backwptr 1 = some t ∧ t.Ok ∧ t.size = q.size ∧
      q.contents = t.contents ++ [t.room t.w] := by
  have hr := h.r_lt
  have hn := h.nbyte_le
  have hoff : q.offsetInt ((q.w : Int) - (1 : Nat)) = (q.r + (q.nbyte - 1)) % q.size := by
    rw [h.offsetInt_eq q.w (show 1 ≤ q.size by omega), h.w_eq, Nat.mod_add_mod,
      show q.r + q.nbyte + (q.size - 1) = q.r + (q.nbyte - 1) + q.size by omega,
      Nat.add_mod_right]
  refine ⟨_, if_pos ⟨h.check, by omega⟩, ⟨h.ispowerof2, hr, Nat.le_trans (Nat.sub_le ..) hn, hoff⟩,
    rfl, ?_⟩
  simp only [contents, hoff]
  exact window_sub (Nat.sub_le q.nbyte 1) |>.trans (by
    rw [show q.nbyte - (q.nbyte - 1) = 1 by omega]
    rfl)

/-- The loop of `getc` moves `r` by what it reads. -/
theorem getcLoop_moves {fuel len : Nat} {bytes : List Byte} (h : q.Ok)
    (hg : getcLoop fuel q len = some (bytes, q')) :
    q'.room = q.room ∧ q'.r = (q.r + bytes.length) % q.size := by
  induction fuel generalizing q len bytes with
  | zero =>
      unfold getcLoop at hg
      split at hg
      · cases hg
        exact ⟨rfl, (Nat.mod_eq_of_lt h.r_lt).symm⟩
      · cases hg
  | succ fuel ih =>
      unfold getcLoop at hg
      split at hg
      · cases hg
        exact ⟨rfl, (Nat.mod_eq_of_lt h.r_lt).symm⟩
      obtain ⟨q₁, hq₁, hg⟩ := bind_eq_some_iff.mp hg
      obtain ⟨⟨rest, q₂⟩, hq₂, hg⟩ := bind_eq_some_iff.mp hg
      cases hg
      have hle : min len q.maxrchunk ≤ q.nbyte := Nat.le_trans (Nat.min_le_right ..)
        (Nat.min_le_left ..)
      obtain ⟨t, ht, hok, hsize, -⟩ := h.adjustrptr hle
      rw [hq₁] at ht
      cases ht
      obtain ⟨hroom, hr⟩ := ih hok hq₂
      unfold Fifoq.adjustrptr at hq₁
      obtain ⟨-, hq₁⟩ := ite_none_right_eq_some.mp hq₁
      cases hq₁
      refine ⟨hroom, ?_⟩
      simp only [hr, h.offset_eq, Nat.mod_add_mod, length_append, chunk_length,
        Nat.add_assoc]

/-- The bytes that have been looked at are in the queue again. -/
theorem peekc (h : q.Ok) (len : Nat) :
    q.peekc len = some ((min len q.nbyte, q.contents.take len), q) := by
  obtain ⟨t, hg, hok, hsize, hcont⟩ := getc_eq h len
  obtain ⟨hroom, hr⟩ := getcLoop_moves h hg
  have hlen : (q.contents.take len).length = min len q.nbyte := by simp
  have hn : t.nbyte = q.nbyte - min len q.nbyte := by
    rw [← contents_length t, hcont, length_drop, contents_length]
    omega
  have hle := h.nbyte_le
  rw [hlen] at hr
  obtain ⟨u, hu, -, husize, huroom, huw, hur, hun⟩ := hok.backrptr (min len q.nbyte) (by omega)
  have hq : u = q := by
    rw [hok.w_eq, hsize, hr, Nat.mod_add_mod, hn, Nat.add_assoc,
      Nat.add_sub_cancel' (Nat.min_le_right ..), ← h.w_eq] at huw
    rw [hsize, hr, Nat.mod_add_mod, Nat.add_assoc, Nat.add_sub_cancel' (by omega),
      Nat.add_mod_right, Nat.mod_eq_of_lt h.r_lt] at hur
    rw [hn, Nat.sub_add_cancel (Nat.min_le_right ..)] at hun
    cases u
    cases q
    simp_all
  unfold Fifoq.peekc
  simp only [hg, bind_eq_bind, bind_some, hlen, hu, hq]
  rfl

/-- No byte, or a first one. -/
theorem bytes (h : q.Ok) : (q.empty = true ∧ q.contents = []) ∨
    q.empty = false ∧ 1 ≤ q.nbyte ∧
      q.contents = q.room q.r :: window q.room q.size (q.r + 1) (q.nbyte - 1) := by
  rcases Nat.eq_zero_or_pos q.nbyte with hzero | hpos
  · exact .inl ⟨empty_iff.mpr (contents_eq_nil.mpr hzero), contents_eq_nil.mpr hzero⟩
  · refine .inr ⟨by simp [empty, nchar]; omega, hpos, (window_sub hpos).trans ?_⟩
    rw [window_eq_chunk h.r_lt]
    rfl

theorem room (h : q.Ok) : (q.full = true ∧ ¬ q.nbyte < q.size) ∨
    q.full = false ∧ q.nbyte < q.size := by
  have hle := h.nbyte_le
  rw [← Bool.not_eq_true, full_iff h]
  omega

end Ok

/-! ## Refinement -/

variable {q : Fifoq}

/-- **One call is the same call on the list of the bytes.** -/
theorem call_refines (h : q.Ok) (c : Call) :
    ∃ t, q.call c = some ((c.onList q.size q.contents).1, t) ∧ t.Ok ∧ t.size = q.size ∧
      t.contents = (c.onList q.size q.contents).2 := by
  cases c with
  | peekc =>
      rcases h.bytes with ⟨hempty, hnil⟩ | ⟨hempty, -, hcons⟩
      · exact ⟨q, by simp [call, peekc1, hempty, Call.onList, hnil], h, rfl, rfl⟩
      · exact ⟨q, by simp [call, peekc1, hempty, Call.onList, hcons], h, rfl, rfl⟩
  | getc =>
      rcases h.bytes with ⟨hempty, hnil⟩ | ⟨hempty, hsome, hcons⟩
      · exact ⟨q, by simp [call, getc1, hempty, Call.onList, hnil], h, rfl, by
          simp [Call.onList, hnil]⟩
      · obtain ⟨t, ht, hok, hsize, hcont⟩ := h.adjustrptr hsome
        exact ⟨t, by simp [call, getc1, hempty, ht, Call.onList, hcons], hok, hsize, by
          simp [Call.onList, hcons, hcont]⟩
  | ungetc c =>
      rcases h.room with ⟨hfull, hle⟩ | ⟨hfull, hlt⟩
      · exact ⟨q, by simp [call, Fifoq.ungetc, hfull, Call.onList, hle], h, rfl, by
          simp [Call.onList, hle]⟩
      · obtain ⟨t, ht, hok, hsize, hcont⟩ := h.ungetc (c := c) hlt
        obtain ⟨u, hu, rfl⟩ := map_eq_some_iff.mp ht
        exact ⟨_, by simp [call, Fifoq.ungetc, hfull, hu, Call.onList, hlt], hok, hsize, by
          simp [Call.onList, hlt, hcont]⟩
  | putc c =>
      rcases h.room with ⟨hfull, hle⟩ | ⟨hfull, hlt⟩
      · exact ⟨q, by simp [call, putc1, hfull, Call.onList, hle], h, rfl, by
          simp [Call.onList, hle]⟩
      · have hw := h.w_lt
        obtain ⟨t, ht, hok, hsize, hcont⟩ :=
          h.adjustwptr (show [c].length ≤ _ by simp; omega) (by simp; omega)
        rw [length_singleton] at ht
        exact ⟨t, by simp [call, putc1, hfull, ht, Call.onList, hlt], hok, hsize, by
          simp [Call.onList, hlt, hcont]⟩
  | unputc =>
      rcases h.bytes with ⟨hempty, hnil⟩ | ⟨hempty, hsome, -⟩
      · exact ⟨q, by simp [call, unputc, hempty, Call.onList, hnil], h, rfl, by
          simp [Call.onList, hnil]⟩
      · obtain ⟨t, ht, hok, hsize, hcont⟩ := h.unputc hsome
        exact ⟨t, by simp [call, unputc, hempty, ht, Call.onList, hcont], hok, hsize, by
          simp [Call.onList, hcont]⟩
  | peekbuf len => exact ⟨q, by simp [call, Call.onList, h.peekc], h, rfl, rfl⟩
  | getbuf len =>
      obtain ⟨t, hg, hok, hsize, hcont⟩ := getc_eq h len
      exact ⟨t, by simp [call, Call.onList, hg], hok, hsize, hcont⟩
  | putbuf buf =>
      obtain ⟨t, hp, hok, hsize, hcont⟩ := putc_eq h buf
      exact ⟨t, by simp [call, Call.onList, hp], hok, hsize, by simpa [Call.onList] using hcont⟩
  | clear =>
      obtain ⟨k, hk⟩ := h.ispowerof2
      refine ⟨init q.room q.size, ?_, .init q.room hk, rfl, rfl⟩
      exact if_pos (by simp [ispowerof2, hk, Nat.and_comm, Nat.and_two_pow_sub_one_eq_mod])

/-- **Whatever is called in whatever order, the queue is a list of at most `size` bytes**, and
no assertion fails. -/
theorem calls_refine (room : Nat → Byte) (k : Nat) (cs : List Call) :
    ∃ t, calls cs (init room (2 ^ k)) = some ((onLists (2 ^ k) cs []).1, t) ∧
      t.contents = (onLists (2 ^ k) cs []).2 ∧ t.contents.length ≤ 2 ^ k := by
  suffices h : ∀ q : Fifoq, q.Ok → ∃ t, calls cs q = some ((onLists q.size cs q.contents).1, t) ∧
      t.Ok ∧ t.size = q.size ∧ t.contents = (onLists q.size cs q.contents).2 by
    obtain ⟨t, ht, hok, hsize, hcont⟩ := h _ (.init room rfl)
    refine ⟨t, ht, hcont, ?_⟩
    rw [contents_length]
    exact Nat.le_trans hok.nbyte_le (Nat.le_of_eq hsize)
  induction cs with
  | nil => exact fun q h => ⟨q, rfl, h, rfl, rfl⟩
  | cons c cs ih =>
      intro q h
      obtain ⟨q₁, hcall, hok₁, hsize₁, hcont₁⟩ := call_refines h c
      obtain ⟨q₂, hcalls, hok₂, hsize₂, hcont₂⟩ := ih q₁ hok₁
      rw [hsize₁, hcont₁] at hcalls hcont₂
      refine ⟨q₂, ?_, hok₂, hsize₂.trans hsize₁, hcont₂⟩
      simp only [calls, hcall, hcalls, Option.bind_eq_bind, Option.bind_some]
      rfl

end Unixlite.Lib.Fifoq
