import Unixlite.Verified.Ring

/-!
# Character queues

Port of the buffer operations of `lib/fifoq.cc` and of what they use of
`lib/fifoq.h`.  The pointers `r` and `w` are offsets into `room`; an assertion
that fails and a copy of a negative length are `none`.

`getc_eq` and `putc_eq` say what the two loops do to the queued bytes.
-/

namespace Unixlite.Lib

open Unixlite.Verified List Option

abbrev Byte := BitVec 8

structure Fifoq where
  room : Nat → Byte
  size : Nat
  r : Nat
  w : Nat
  nbyte : Nat

namespace Fifoq

def init (room : Nat → Byte) (size : Nat) : Fifoq where
  room := room
  size := size
  r := 0
  w := 0
  nbyte := 0

def mask (q : Fifoq) : Nat := q.size - 1

def nchar (q : Fifoq) : Nat := q.nbyte

def space (q : Fifoq) : Nat := q.size - q.nbyte

def empty (q : Fifoq) : Bool := q.nchar == 0

def full (q : Fifoq) : Bool := q.space == 0

/-- The assertions of `check`. -/
def check (q : Fifoq) : Bool :=
  q.r < q.size && q.w < q.size &&
    (if q.r < q.w then q.nbyte + q.r == q.w
     else if q.w < q.r then q.nbyte + q.r == q.size + q.w
     else q.nbyte == 0 || q.nbyte == q.size)

def maxrchunk (q : Fifoq) : Nat := min q.nbyte (q.size - q.r)

def maxwchunk (q : Fifoq) : Nat := min (q.size - q.nbyte) (q.size - q.w)

def offset (q : Fifoq) (n : Nat) : Nat := n &&& q.mask

def adjustrptr (q : Fifoq) (nr : Nat) : Option Fifoq :=
  if q.check ∧ nr ≤ q.nchar then
    some { q with r := q.offset (q.r + nr), nbyte := q.nbyte - nr }
  else none

def adjustwptr (q : Fifoq) (nr : Nat) : Option Fifoq :=
  if q.check ∧ nr ≤ q.space then
    some { q with w := q.offset (q.w + nr), nbyte := q.nbyte + nr }
  else none

/-- The loop of `getc(buf, len)`, for at most `fuel` chunks; also the bytes
that `buf` gets. -/
def getcLoop : Nat → Fifoq → Nat → Option (List Byte × Fifoq)
  | fuel, q, len =>
    if len = 0 ∨ q.nchar = 0 then some ([], q)
    else
      match fuel with
      | 0 => none
      | fuel + 1 => do
        let chunk := min len q.maxrchunk
        let bytes := Ring.chunk q.room q.r chunk
        let q ← q.adjustrptr chunk
        let (readed, q) ← getcLoop fuel q (len - chunk)
        return (bytes ++ readed, q)

/-- `getc(buf, len)`.  Every chunk has a byte, so `len` bounds their number; a
negative length is one chunk, of a length that `memcpy` takes as unsigned. -/
def getc (q : Fifoq) (len : Int) : Option (List Byte × Fifoq) :=
  if len < 0 then (if q.nchar = 0 then some ([], q) else none)
  else getcLoop len.toNat q len.toNat

/-- The loop of `putc(buf, len)`; also the count of bytes taken. -/
def putcLoop : Nat → Fifoq → List Byte → Option (Nat × Fifoq)
  | fuel, q, buf =>
    if buf.length = 0 ∨ q.space = 0 then some (0, q)
    else
      match fuel with
      | 0 => none
      | fuel + 1 => do
        let chunk := min buf.length q.maxwchunk
        let q := { q with room := Ring.write q.room q.w (buf.take chunk) }
        let q ← q.adjustwptr chunk
        let (written, q) ← putcLoop fuel q (buf.drop chunk)
        return (chunk + written, q)

/-- `putc(buf, len)`, of the bytes `buf`. -/
def putc (q : Fifoq) (buf : List Byte) : Option (Nat × Fifoq) :=
  putcLoop buf.length q buf

/-! ## The queued bytes -/

/-- The bytes in the queue, the next to be read first. -/
def contents (q : Fifoq) : List Byte := Ring.window q.room q.size q.r q.nbyte

/-- A queue as `init` and the operations leave it. -/
structure Ok (q : Fifoq) : Prop where
  ispowerof2 : ∃ k, q.size = 2 ^ k
  r_lt : q.r < q.size
  nbyte_le : q.nbyte ≤ q.size
  w_eq : q.w = (q.r + q.nbyte) % q.size

@[simp] theorem contents_length (q : Fifoq) : q.contents.length = q.nbyte := by
  simp [contents]

theorem contents_eq_nil {q : Fifoq} : q.contents = [] ↔ q.nbyte = 0 := by
  rw [← length_eq_zero_iff, contents_length]

theorem empty_iff {q : Fifoq} : q.empty = true ↔ q.contents = [] := by
  simp [empty, nchar, contents_eq_nil]

theorem full_iff {q : Fifoq} (h : q.Ok) : q.full = true ↔ q.nbyte = q.size := by
  have := h.nbyte_le
  simp [full, space]
  omega

namespace Ok

variable {q : Fifoq}

theorem init (room : Nat → Byte) {size k : Nat} (hsize : size = 2 ^ k) :
    (Fifoq.init room size).Ok where
  ispowerof2 := ⟨k, hsize⟩
  r_lt := by
    subst hsize
    exact Nat.two_pow_pos k
  nbyte_le := Nat.zero_le _
  w_eq := by simp [Fifoq.init]

/-- With a size that is a power of two the mask is the remainder. -/
theorem offset_eq (h : q.Ok) (n : Nat) : q.offset n = n % q.size := by
  obtain ⟨k, hk⟩ := h.ispowerof2
  unfold offset mask
  rw [hk, Nat.and_two_pow_sub_one_eq_mod]

theorem w_lt (h : q.Ok) : q.w < q.size := by
  rw [h.w_eq]
  exact Nat.mod_lt _ (Nat.lt_of_le_of_lt (Nat.zero_le _) h.r_lt)

/-- Where the write pointer is: past the bytes, or wrapped. -/
theorem w_cases (h : q.Ok) :
    q.r + q.nbyte < q.size ∧ q.w = q.r + q.nbyte ∨
      q.size ≤ q.r + q.nbyte ∧ q.w + q.size = q.r + q.nbyte := by
  have hr := h.r_lt
  have hn := h.nbyte_le
  by_cases hwrap : q.r + q.nbyte < q.size
  · left
    rw [h.w_eq, Nat.mod_eq_of_lt hwrap]
    exact ⟨hwrap, rfl⟩
  · right
    rw [h.w_eq, Nat.mod_eq_sub_mod (by omega), Nat.mod_eq_of_lt (by omega)]
    omega

/-- What `check` asserts holds. -/
theorem check (h : q.Ok) : q.check = true := by
  have hr := h.r_lt
  have hn := h.nbyte_le
  unfold Fifoq.check
  have hcases := h.w_cases
  split_ifs <;> simp <;> omega

/-- `adjustrptr` drops bytes from the front. -/
theorem adjustrptr (h : q.Ok) {nr : Nat} (hnr : nr ≤ q.nbyte) :
    ∃ q', q.adjustrptr nr = some q' ∧ q'.Ok ∧ q'.size = q.size ∧
      q'.contents = Ring.window q.room q.size (q.r + nr) (q.nbyte - nr) := by
  have hr := h.r_lt
  refine ⟨_, if_pos ⟨h.check, hnr⟩, ⟨h.ispowerof2, ?_, ?_, ?_⟩, rfl, ?_⟩
  · rw [h.offset_eq]
    exact Nat.mod_lt _ (Nat.lt_of_le_of_lt (Nat.zero_le _) hr)
  · exact Nat.le_trans (Nat.sub_le _ _) h.nbyte_le
  · dsimp only
    rw [h.offset_eq, Nat.mod_add_mod, h.w_eq]
    congr 1
    omega
  · simp only [contents, h.offset_eq, Ring.window_mod]

/-- A chunk written at `w` and counted by `adjustwptr` comes last. -/
theorem adjustwptr (h : q.Ok) {bytes : List Byte} (hspace : bytes.length ≤ q.size - q.nbyte)
    (hwrap : bytes.length ≤ q.size - q.w) :
    ∃ q', ({ q with room := Ring.write q.room q.w bytes } : Fifoq).adjustwptr bytes.length =
        some q' ∧ q'.Ok ∧ q'.size = q.size ∧ q'.contents = q.contents ++ bytes := by
  have hw := h.w_lt
  have hn := h.nbyte_le
  refine ⟨_, if_pos ⟨h.check, hspace⟩, ⟨h.ispowerof2, h.r_lt, ?_, ?_⟩, rfl, ?_⟩
  · dsimp only
    omega
  · dsimp only
    refine (h.offset_eq _).trans ?_
    rw [h.w_eq, Nat.mod_add_mod, Nat.add_assoc]
  · simp only [contents]
    rw [h.w_eq] at hwrap hw ⊢
    exact Ring.window_append_write (by omega) (by omega)

end Ok

/-! ## The loops -/

/-- `getc` takes what there is of the first `len` bytes. -/
theorem getcLoop_eq {fuel len : Nat} {q : Fifoq} (h : q.Ok) (hfuel : len ≤ fuel) :
    ∃ q', getcLoop fuel q len = some (q.contents.take len, q') ∧ q'.Ok ∧
      q'.size = q.size ∧ q'.contents = q.contents.drop len := by
  induction fuel generalizing q len with
  | zero =>
      obtain rfl : len = 0 := by omega
      exact ⟨q, by simp [getcLoop], h, rfl, by simp⟩
  | succ fuel ih =>
      unfold getcLoop
      split
      · next hdone =>
        refine ⟨q, ?_, h, rfl, ?_⟩
        · rcases hdone with rfl | hempty
          · simp
          · rw [contents_eq_nil.mpr hempty, take_nil]
        · rcases hdone with rfl | hempty
          · simp
          · rw [contents_eq_nil.mpr hempty, drop_nil]
      next hgo =>
      have hr := h.r_lt
      have hn : q.nchar = q.nbyte := rfl
      -- one chunk: not empty, of bytes there are, up to the end of the room
      generalize hchunk : min len q.maxrchunk = chunk
      have hbound : 0 < chunk ∧ chunk ≤ len ∧ chunk ≤ q.nbyte ∧ q.r + chunk ≤ q.size := by
        simp only [maxrchunk] at hchunk
        omega
      obtain ⟨hpos, hlen, hnbyte, hend⟩ := hbound
      obtain ⟨q₁, hadjust, hok₁, hsize₁, hcont₁⟩ := h.adjustrptr hnbyte
      have hleft : len - chunk ≤ fuel := by omega
      obtain ⟨q₂, hloop, hok₂, hsize₂, hcont₂⟩ := ih hok₁ hleft
      have hsplit : q.contents = Ring.chunk q.room q.r chunk ++ q₁.contents := by
        rw [hcont₁, ← Ring.window_eq_chunk hend]
        exact Ring.window_sub hnbyte
      have hlength : (Ring.chunk q.room q.r chunk).length ≤ len := by simpa using hlen
      refine ⟨q₂, ?_, hok₂, hsize₂.trans hsize₁, ?_⟩
      · simp only [hadjust, hloop, bind_eq_bind, bind_some, Option.pure_def]
        rw [hsplit, take_append, take_of_length_le hlength, Ring.chunk_length]
      · rw [hcont₂, hsplit, drop_append, drop_of_length_le hlength,
          nil_append, Ring.chunk_length]

theorem getc_eq {q : Fifoq} (h : q.Ok) (len : Nat) :
    ∃ q', q.getc len = some (q.contents.take len, q') ∧ q'.Ok ∧ q'.size = q.size ∧
      q'.contents = q.contents.drop len := by
  exact getcLoop_eq h (Nat.le_refl _)

/-- `putc` takes what there is room for. -/
theorem putcLoop_eq {fuel : Nat} {buf : List Byte} {q : Fifoq} (h : q.Ok)
    (hfuel : buf.length ≤ fuel) :
    ∃ q', putcLoop fuel q buf = some (min buf.length (q.size - q.nbyte), q') ∧ q'.Ok ∧
      q'.size = q.size ∧ q'.contents = q.contents ++ buf.take (q.size - q.nbyte) := by
  induction fuel generalizing q buf with
  | zero =>
      obtain rfl : buf = [] := length_eq_zero_iff.mp (by omega)
      exact ⟨q, by simp [putcLoop], h, rfl, by simp⟩
  | succ fuel ih =>
      unfold putcLoop
      split
      · next hdone =>
        refine ⟨q, ?_, h, rfl, ?_⟩
        · rcases hdone with hbuf | hfull
          · simp [hbuf]
          · rw [show q.size - q.nbyte = 0 from hfull, Nat.min_zero]
        · rcases hdone with hbuf | hfull
          · simp [length_eq_zero_iff.mp hbuf]
          · simp [show q.size - q.nbyte = 0 from hfull]
      next hgo =>
      have hw := h.w_lt
      have hspace : q.space = q.size - q.nbyte := rfl
      generalize hchunk : min buf.length q.maxwchunk = chunk
      have hbound : 0 < chunk ∧ chunk ≤ buf.length ∧ chunk ≤ q.size - q.nbyte ∧
          chunk ≤ q.size - q.w := by
        simp only [maxwchunk] at hchunk
        omega
      obtain ⟨hpos, hlen, hroom, hend⟩ := hbound
      have htake : (buf.take chunk).length = chunk := by simp [hlen]
      obtain ⟨q₁, hadjust, hok₁, hsize₁, hcont₁⟩ :=
        h.adjustwptr (htake.trans_le hroom) (htake.trans_le hend)
      rw [htake] at hadjust
      have hleft : (buf.drop chunk).length ≤ fuel := by
        rw [length_drop]
        omega
      obtain ⟨q₂, hloop, hok₂, hsize₂, hcont₂⟩ := ih hok₁ hleft
      have hnbyte : q₁.nbyte = q.nbyte + chunk := by
        rw [← contents_length, hcont₁, length_append, contents_length, htake]
      refine ⟨q₂, ?_, hok₂, hsize₂.trans hsize₁, ?_⟩
      · simp only [hadjust, hloop, bind_eq_bind, bind_some, Option.pure_def,
          some.injEq, Prod.mk.injEq, and_true, length_drop, hsize₁, hnbyte]
        omega
      · rw [hcont₂, hcont₁, append_assoc, hsize₁, hnbyte]
        rw [show q.size - q.nbyte = chunk + (q.size - (q.nbyte + chunk)) by omega,
          take_add]

theorem putc_eq {q : Fifoq} (h : q.Ok) (buf : List Byte) :
    ∃ q', q.putc buf = some (min buf.length (q.size - q.nbyte), q') ∧ q'.Ok ∧
      q'.size = q.size ∧ q'.contents = q.contents ++ buf.take (q.size - q.nbyte) :=
  putcLoop_eq h (Nat.le_refl _)

end Fifoq

end Unixlite.Lib
