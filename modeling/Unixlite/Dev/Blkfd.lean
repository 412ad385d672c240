import Unixlite.Lib.Errno
import Mathlib.Data.BitVec

/-!
# Descriptors of block devices

Port of `dev/blk/fd.cc`, and of `inode_t::read`, `inode_t::write` and `reada2` of `fs/reg.cc`
for the inode of a block device, for which `readmap` and `writemap` leave a block number as it
is.  What is in the bytes is left out: a call comes to its error and a list of what it touches.

`read` and `write` take the greater of the count and what is left of the device, not the
lesser, and go to the device that the inode is on.  When this does no harm is
`blkfd_bounds_iff`.
-/

namespace Unixlite.Blkfd

open List BitVec

/-- What a call does outside of its descriptor. -/
inductive Touch where
  /-- A block is looked up, read or read ahead. -/
  | block (dev bno : Nat)
  /-- Bytes of the caller are copied, from or to this address on. -/
  | copy (buf chars : Nat)
deriving DecidableEq

/-- `blkfd_t`, with what `inode_t` has. -/
structure Fd where
  /-- `inode->dev`. -/
  dev : Nat
  /-- `inode->size`. -/
  size : BitVec 32
  rdev : Nat
  blkdevsize : BitVec 32
  curpos : BitVec 32

/-- A pointer, or an `off_t`. -/
def wrap (n : Nat) : Nat := n % 2 ^ 32

/-- An `int`. -/
def int (n : Nat) : Int := (BitVec.ofNat 32 n).toInt

/-- The bytes that are copied. -/
def copied : List Touch → Nat
  | [] => 0
  | .block _ _ :: t => copied t
  | .copy _ chars :: t => chars + copied t

def MINIXBSIZE : Nat := 1024
def READASIZE : Nat := 4

/-! ## Inodes -/

section

-- the blocks that `readb` fails for
variable (bad : Nat → Nat → Bool)

/-- `reada2(logic, READASIZE)`. -/
def reada (dev logic : Nat) : List Touch :=
  (List.range READASIZE).map fun i => .block dev (logic + i)

/-- The loop of `inode_t::read`, for `n` bytes at most. -/
def readloop (dev obuf ebuf : Nat) : Nat → Nat → Nat → Int × List Touch
  | 0, _, buf => (int (buf - obuf), [])
  | n + 1, pos, buf =>
      if ¬ buf < ebuf then (int (buf - obuf), [])
      else
        let logic := pos / MINIXBSIZE
        let off := pos % MINIXBSIZE
        let ahead := if logic % READASIZE = 0 then reada dev logic else []
        let chars := min (MINIXBSIZE - off) (ebuf - buf)
        if bad dev logic then ( EIO, ahead ++ [.block dev logic])
        else
          let (e, t) := readloop dev obuf ebuf n (wrap (pos + chars)) (buf + chars)
          (e, ahead ++ .block dev logic :: .copy buf chars :: t)

/-- `inode_t::read`. -/
def iread (f : Fd) (pos buf len : Nat) : Int × List Touch :=
  if f.size.toNat ≤ pos then (0, [])
  else
    let ebuf := wrap (buf + min (f.size.toNat - pos) len)
    readloop bad f.dev buf ebuf (ebuf - buf) pos buf

/-- The loop of `inode_t::write`, for `n` bytes at most, with the size. -/
def writeloop (dev obuf ebuf : Nat) : Nat → Nat → Nat → Nat → Int × Nat × List Touch
  | 0, _, buf, size => (int (buf - obuf), size, [])
  | n + 1, pos, buf, size =>
      if ¬ buf < ebuf then (int (buf - obuf), size, [])
      else
        let logic := pos / MINIXBSIZE
        let off := pos % MINIXBSIZE
        let chars := min (MINIXBSIZE - off) (ebuf - buf)
        let getb := chars = MINIXBSIZE ∨ (off = 0 ∧ size ≤ wrap (pos + chars))
        if ¬ getb ∧ bad dev logic then ( EIO, size, [.block dev logic])
        else
          let pos := wrap (pos + chars)
          let (e, size, t) :=
            writeloop dev obuf ebuf n pos (buf + chars) (if size < pos then pos else size)
          (e, size, .block dev logic :: .copy buf chars :: t)

/-- `inode_t::write`. -/
def iwrite (f : Fd) (pos buf len : Nat) : Int × Nat × List Touch :=
  let ebuf := wrap (buf + len)
  writeloop bad f.dev buf ebuf (ebuf - buf) pos buf f.size.toNat

/-! ## Descriptors -/

namespace Fd

/-- `max(count, blkdevsize - curpos)`, of which the second is unsigned. -/
def clamp (f : Fd) (count : Nat) : Nat := max count (f.blkdevsize - f.curpos).toNat

/-- `curpos += e`, of an error above 0. -/
def advance (f : Fd) (e : Int) : Fd :=
  if 0 < e then { f with curpos := f.curpos + BitVec.ofInt 32 e } else f

/-- `blkfd_t::read`. -/
def read (f : Fd) (buf count : Nat) : Int × Fd × List Touch :=
  let (e, t) := iread bad f f.curpos.toNat buf (f.clamp count)
  (e, f.advance e, t)

/-- `blkfd_t::write`. -/
def write (f : Fd) (buf count : Nat) : Int × Fd × List Touch :=
  let (e, size, t) := iwrite bad f f.curpos.toNat buf (f.clamp count)
  (e, { f with size := BitVec.ofNat 32 size }.advance e, t)

end Fd

end

/-- `blkfd_t::lseek`; an `off_t` is never less than 0. -/
def Fd.lseek (f : Fd) (off : BitVec 32) (whence : Int) : Int × Fd :=
  if whence = 0 then (off.toInt, { f with curpos := off })
  else if whence = 1 then ((f.curpos + off).toInt, { f with curpos := f.curpos + off })
  else if whence = 2 then ((f.blkdevsize + off).toInt, { f with curpos := f.blkdevsize + off })
  else (EINVAL, f)

/-! ## What is asked for -/

namespace Fd

/-- What there is to transfer. -/
def want (f : Fd) (count : Nat) : Nat := min count (f.blkdevsize.toNat - f.curpos.toNat)

/-- A call transfers what there is to transfer, touches no byte of the caller behind the
count and no block that is not one of the device, and advances the position. -/
structure Bounded (f : Fd) (buf count : Nat) (r : Int × Fd × List Touch) : Prop where
  ret : r.1 = f.want count
  copied : copied r.2.2 = f.want count
  curpos : r.2.1.curpos = f.curpos + BitVec.ofInt 32 r.1
  inbuf : ∀ a chars, .copy a chars ∈ r.2.2 → buf ≤ a ∧ a + chars ≤ buf + count
  indev : ∀ dev bno, .block dev bno ∈ r.2.2 →
    dev = f.rdev ∧ bno * MINIXBSIZE < f.blkdevsize.toNat

/-- Some of the `n` bytes from `pos` on are in the block. -/
def Covers (pos n bno : Nat) : Prop :=
  0 < n ∧ pos < (bno + 1) * MINIXBSIZE ∧ bno * MINIXBSIZE < pos + n

/-- What is left of the inode is what there is to transfer, or the count is what is left of
the device and the inode has as much; or nothing is to be transferred, and the end of the
bytes is not behind their start. -/
def ReadFits (f : Fd) (buf count : Nat) : Prop :=
  f.size.toNat - f.curpos.toNat = f.want count ∨
  (f.curpos.toNat + count = f.blkdevsize.toNat ∧ count ≤ f.size.toNat - f.curpos.toNat) ∨
  (f.want count = 0 ∧ 2 ^ 32 ≤ buf + min (f.size.toNat - f.curpos.toNat) (f.clamp count))

/-- The blocks can be read, they are on the device, and so are those that are read ahead. -/
def ReadsDev (bad : Nat → Nat → Bool) (f : Fd) (count : Nat) : Prop :=
  ∀ bno, Covers f.curpos.toNat (f.want count) bno → bad f.dev bno = false ∧ f.dev = f.rdev ∧
    (bno % READASIZE = 0 → (bno + 3) * MINIXBSIZE < f.blkdevsize.toNat)

/-- The count is what is left of the device; or nothing is to be transferred, and the end of
the bytes is not behind their start. -/
def WriteFits (f : Fd) (buf count : Nat) : Prop :=
  f.curpos.toNat + count = f.blkdevsize.toNat ∨
  (f.want count = 0 ∧ 2 ^ 32 ≤ buf + f.clamp count)

/-- A part of the block stays as it is: one before the `n` bytes from `pos` on, or one behind
them that the inode has. -/
def Part (pos n size bno : Nat) : Prop :=
  bno * MINIXBSIZE < pos ∨ (pos + n < (bno + 1) * MINIXBSIZE ∧ pos + n < size)

/-- The blocks are on the device, and those of which a part stays can be read. -/
def WritesDev (bad : Nat → Nat → Bool) (f : Fd) (count : Nat) : Prop :=
  ∀ bno, Covers f.curpos.toNat (f.want count) bno → f.dev = f.rdev ∧
    (Part f.curpos.toNat (f.want count) f.size.toNat bno → bad f.dev bno = false)

end Fd

/-! ## Chunks -/

variable {bad : Nat → Nat → Bool} {dev obuf buf pos r n bno size : Nat}

theorem int_eq (h : n < 2 ^ 32) : int n = if n < 2 ^ 31 then (n : Int) else (n : Int) - 2 ^ 32 := by
  have hn : (BitVec.ofNat 32 n).toNat = n := by
    rw [toNat_ofNat]
    omega
  rw [int, toInt_eq_toNat_cond, hn]
  split_ifs
  · rfl
  · omega
  · omega
  · rfl

/-- The first chunk ends with its block, or with the bytes. -/
def chunk (pos r : Nat) : Nat := min (MINIXBSIZE - pos % MINIXBSIZE) r

theorem chunk_le (pos r : Nat) : chunk pos r ≤ r := Nat.min_le_right _ _

theorem chunk_pos (pos : Nat) (hr : 0 < r) : 0 < chunk pos r := by
  unfold chunk MINIXBSIZE
  omega

theorem not_covers_zero (pos bno : Nat) : ¬ Fd.Covers pos 0 bno := fun h => absurd h.1 (by decide)

/-- The blocks of the bytes: that of the first chunk, and those of the others. -/
theorem covers_iff (hr : 0 < r) : Fd.Covers pos r bno ↔
    bno = pos / MINIXBSIZE ∨ Fd.Covers (pos + chunk pos r) (r - chunk pos r) bno := by
  unfold Fd.Covers chunk MINIXBSIZE
  omega

theorem mem_reada {logic d b : Nat} :
    .block d b ∈ reada dev logic ↔ d = dev ∧ logic ≤ b ∧ b ≤ logic + 3 := by
  simp only [reada, READASIZE, mem_map, mem_range, Touch.block.injEq]
  constructor
  · rintro ⟨i, hi, rfl, rfl⟩
    omega
  · rintro ⟨rfl, hlow, hhigh⟩
    exact ⟨b - logic, by omega, rfl, by omega⟩

theorem copy_not_mem_reada {logic a chars : Nat} : .copy a chars ∉ reada dev logic := by
  simp [reada]

theorem copied_append (t u : List Touch) : copied (t ++ u) = copied t + copied u := by
  induction t with
  | nil => exact (Nat.zero_add _).symm
  | cons x t ih =>
      cases x with
      | block d b => exact ih
      | copy a chars =>
          show chars + copied (t ++ u) = chars + copied t + copied u
          rw [ih, Nat.add_assoc]

/-! ## Reading an inode -/

theorem readloop_succ (hr : 0 < r) : readloop bad dev obuf (buf + r) (n + 1) pos buf =
    let logic := pos / MINIXBSIZE
    let ahead := if logic % READASIZE = 0 then reada dev logic else []
    if bad dev logic then ( EIO, ahead ++ [.block dev logic])
    else
      let (e, t) := readloop bad dev obuf (buf + chunk pos r + (r - chunk pos r)) n
        (wrap (pos + chunk pos r)) (buf + chunk pos r)
      (e, ahead ++ .block dev logic :: .copy buf (chunk pos r) :: t) := by
  have hend : buf + chunk pos r + (r - chunk pos r) = buf + r := by
    have hle := chunk_le pos r
    omega
  have hmin : min (MINIXBSIZE - pos % MINIXBSIZE) (buf + r - buf) = chunk pos r := by
    rw [Nat.add_sub_cancel_left, chunk]
  rw [readloop, if_neg (by omega), hend]
  simp only [hmin]

theorem readloop_done (n : Nat) : readloop bad dev obuf buf n pos buf = (int (buf - obuf), []) := by
  cases n with
  | zero => rfl
  | succ n => rw [readloop, if_pos (Nat.lt_irrefl buf)]

/-- The loop comes to an error, or to all of the bytes. -/
theorem readloop_ret (hr : r ≤ n) :
    (readloop bad dev obuf (buf + r) n pos buf).1 = EIO ∨
      (readloop bad dev obuf (buf + r) n pos buf).1 = int (buf + r - obuf) := by
  induction n generalizing pos buf r with
  | zero =>
      obtain rfl : r = 0 := by omega
      exact .inr rfl
  | succ n ih =>
      rcases Nat.eq_zero_or_pos r with rfl | hpos
      · rw [Nat.add_zero, readloop_done]
        exact .inr rfl
      rw [readloop_succ hpos]
      by_cases hbad : bad dev (pos / MINIXBSIZE) = true
      · rw [if_pos hbad]
        exact .inl rfl
      · have hle := chunk_le pos r
        have hchunk := chunk_pos pos hpos
        have hend : buf + r - obuf = buf + chunk pos r + (r - chunk pos r) - obuf := by omega
        rw [if_neg hbad, hend]
        exact ih (by omega)

theorem readloop_bad (hr : r ≤ n) (hwrap : pos + r < 2 ^ 32) (hbno : Fd.Covers pos r bno)
    (hbad : bad dev bno = true) : (readloop bad dev obuf (buf + r) n pos buf).1 = EIO := by
  induction n generalizing pos buf r with
  | zero =>
      obtain rfl : r = 0 := by omega
      exact absurd hbno (not_covers_zero pos bno)
  | succ n ih =>
      have hpos := hbno.1
      rw [readloop_succ hpos]
      by_cases hfirst : bad dev (pos / MINIXBSIZE) = true
      · rw [if_pos hfirst]
      · have hle := chunk_le pos r
        have hchunk := chunk_pos pos hpos
        have hnext : wrap (pos + chunk pos r) = pos + chunk pos r := by
          unfold wrap
          omega
        have hrest : Fd.Covers (pos + chunk pos r) (r - chunk pos r) bno := by
          rcases (covers_iff hpos).mp hbno with rfl | hrest
          · exact absurd hbad hfirst
          · exact hrest
        rw [if_neg hfirst, hnext]
        exact ih (by omega) (by omega) hrest

/-- What a loop touches that transfers `r` bytes. -/
structure Moves (buf r : Nat) (blocks : Nat → Nat → Prop) (t : List Touch) : Prop where
  copied : copied t = r
  inbuf : ∀ a chars, .copy a chars ∈ t → buf ≤ a ∧ a + chars ≤ buf + r
  blocks : ∀ d b, .block d b ∈ t ↔ blocks d b

/-- The blocks of the bytes, and those that are read ahead. -/
def Reads (dev pos r d b : Nat) : Prop :=
  d = dev ∧ ∃ l, Fd.Covers pos r l ∧ (b = l ∨ (l % READASIZE = 0 ∧ l ≤ b ∧ b ≤ l + 3))

theorem reads_iff (hr : 0 < r) {d b : Nat} : Reads dev pos r d b ↔
    (d = dev ∧ (b = pos / MINIXBSIZE ∨
      (pos / MINIXBSIZE % READASIZE = 0 ∧ pos / MINIXBSIZE ≤ b ∧ b ≤ pos / MINIXBSIZE + 3))) ∨
    Reads dev (pos + chunk pos r) (r - chunk pos r) d b := by
  unfold Reads
  simp only [covers_iff hr, or_and_right, exists_or, exists_eq_left]
  exact and_or_left

/-- Without bytes nothing is touched. -/
theorem moves_nil {blocks : Nat → Nat → Prop} (buf : Nat) (hnone : ∀ d b, ¬ blocks d b) :
    Moves buf 0 blocks [] where
  copied := rfl
  inbuf _ _ h := by cases h
  blocks d b := iff_of_false not_mem_nil (hnone d b)

theorem not_reads_zero (dev pos d b : Nat) : ¬ Reads dev pos 0 d b := by
  rintro ⟨-, l, hl, -⟩
  exact not_covers_zero pos l hl

/-- A chunk is read, and what is behind it. -/
theorem moves_chunk {t : List Touch} (hpos : 0 < r)
    (ht : Moves (buf + chunk pos r) (r - chunk pos r)
      (Reads dev (pos + chunk pos r) (r - chunk pos r)) t) :
    Moves buf r (Reads dev pos r)
      ((if pos / MINIXBSIZE % READASIZE = 0 then reada dev (pos / MINIXBSIZE) else []) ++
        .block dev (pos / MINIXBSIZE) :: .copy buf (chunk pos r) :: t) := by
  have hle := chunk_le pos r
  refine ⟨?_, fun a chars ha => ?_, fun d b => ?_⟩
  · rw [copied_append]
    have hrest := ht.copied
    have hahead : copied (if pos / MINIXBSIZE % READASIZE = 0 then
        reada dev (pos / MINIXBSIZE) else []) = 0 := by
      split_ifs
      · rfl
      · rfl
    show _ + (chunk pos r + copied t) = r
    omega
  · rcases mem_append.mp ha with ha | ha
    · split_ifs at ha
      · exact absurd ha copy_not_mem_reada
      · cases ha
    · simp only [mem_cons, reduceCtorEq, false_or, Touch.copy.injEq] at ha
      rcases ha with ⟨rfl, rfl⟩ | ha
      · omega
      · have hin := ht.inbuf a chars ha
        omega
  · rw [reads_iff hpos, ← ht.blocks d b, mem_append]
    simp only [mem_cons, reduceCtorEq, false_or, Touch.block.injEq]
    by_cases hahead : pos / MINIXBSIZE % READASIZE = 0
    · rw [if_pos hahead, mem_reada]
      constructor
      · rintro (⟨rfl, hb⟩ | ⟨rfl, rfl⟩ | hb)
        · exact .inl ⟨rfl, .inr ⟨hahead, hb⟩⟩
        · exact .inl ⟨rfl, .inl rfl⟩
        · exact .inr hb
      · rintro (⟨rfl, rfl | ⟨-, hb⟩⟩ | hb)
        · exact .inr (.inl ⟨rfl, rfl⟩)
        · exact .inl ⟨rfl, hb⟩
        · exact .inr (.inr hb)
    · rw [if_neg hahead]
      constructor
      · rintro (hb | ⟨rfl, rfl⟩ | hb)
        · cases hb
        · exact .inl ⟨rfl, .inl rfl⟩
        · exact .inr hb
      · rintro (⟨rfl, rfl | ⟨hzero, -⟩⟩ | hb)
        · exact .inr (.inl ⟨rfl, rfl⟩)
        · exact absurd hzero hahead
        · exact .inr (.inr hb)

theorem readloop_good (hr : r ≤ n) (hwrap : pos + r < 2 ^ 32)
    (hgood : ∀ bno, Fd.Covers pos r bno → bad dev bno = false) :
    ∃ t, readloop bad dev obuf (buf + r) n pos buf = (int (buf + r - obuf), t) ∧
      Moves buf r (Reads dev pos r) t := by
  induction n generalizing pos buf r with
  | zero =>
      obtain rfl : r = 0 := by omega
      exact ⟨[], rfl, moves_nil buf (not_reads_zero dev pos)⟩
  | succ n ih =>
      rcases Nat.eq_zero_or_pos r with rfl | hpos
      · exact ⟨[], readloop_done _, moves_nil buf (not_reads_zero dev pos)⟩
      have hle := chunk_le pos r
      have hchunk := chunk_pos pos hpos
      have hnext : wrap (pos + chunk pos r) = pos + chunk pos r := by
        unfold wrap
        omega
      have hfirst : bad dev (pos / MINIXBSIZE) = false := hgood _ ((covers_iff hpos).mpr (.inl rfl))
      obtain ⟨t, hrun, ht⟩ := @ih (buf + chunk pos r) (pos + chunk pos r) (r - chunk pos r)
        (by omega) (by omega)
        fun bno hbno => hgood bno ((covers_iff hpos).mpr (.inr hbno))
      have hend : buf + chunk pos r + (r - chunk pos r) - obuf = buf + r - obuf := by omega
      rw [readloop_succ hpos, hnext]
      dsimp only
      rw [hfirst, if_neg Bool.false_ne_true, hrun, hend]
      exact ⟨_, rfl, moves_chunk hpos ht⟩

/-! ## Writing an inode -/

/-- The block of the first chunk is only got when no part of it stays. -/
theorem part_iff (hr : 0 < r) (hwrap : pos + r < 2 ^ 32) :
    Fd.Part pos r size (pos / MINIXBSIZE) ↔
      ¬ (chunk pos r = MINIXBSIZE ∨
        (pos % MINIXBSIZE = 0 ∧ size ≤ wrap (pos + chunk pos r))) := by
  have hle := chunk_le pos r
  have hnext : wrap (pos + chunk pos r) = pos + chunk pos r := by
    unfold wrap
    omega
  rw [hnext]
  unfold Fd.Part chunk MINIXBSIZE
  omega

/-- The other blocks are as they are for the bytes behind the first chunk. -/
theorem part_rest (hbno : Fd.Covers (pos + chunk pos r) (r - chunk pos r) bno) :
    Fd.Part (pos + chunk pos r) (r - chunk pos r)
      (if size < pos + chunk pos r then pos + chunk pos r else size) bno ↔
        Fd.Part pos r size bno := by
  unfold Fd.Covers at hbno
  unfold Fd.Part
  have hlast : chunk pos r = MINIXBSIZE - pos % MINIXBSIZE := by
    unfold chunk at hbno ⊢
    omega
  unfold MINIXBSIZE at *
  split_ifs
  · omega
  · omega

theorem writeloop_succ (hr : 0 < r) : writeloop bad dev obuf (buf + r) (n + 1) pos buf size =
    let pos' := wrap (pos + chunk pos r)
    if ¬ (chunk pos r = MINIXBSIZE ∨ (pos % MINIXBSIZE = 0 ∧ size ≤ pos')) ∧
        bad dev (pos / MINIXBSIZE) = true then
      ( EIO, size, [.block dev (pos / MINIXBSIZE)])
    else
      let (e, size, t) := writeloop bad dev obuf (buf + chunk pos r + (r - chunk pos r)) n
        pos' (buf + chunk pos r) (if size < pos' then pos' else size)
      (e, size, .block dev (pos / MINIXBSIZE) :: .copy buf (chunk pos r) :: t) := by
  have hle := chunk_le pos r
  have hend : buf + chunk pos r + (r - chunk pos r) = buf + r := by omega
  have hmin : min (MINIXBSIZE - pos % MINIXBSIZE) (buf + r - buf) = chunk pos r := by
    rw [Nat.add_sub_cancel_left, chunk]
  rw [writeloop, if_neg (by omega), hend]
  simp only [hmin]

theorem writeloop_done (n : Nat) :
    writeloop bad dev obuf buf n pos buf size = (int (buf - obuf), size, []) := by
  cases n with
  | zero => rfl
  | succ n => rw [writeloop, if_pos (Nat.lt_irrefl buf)]

theorem writeloop_ret (hr : r ≤ n) :
    (writeloop bad dev obuf (buf + r) n pos buf size).1 = EIO ∨
      (writeloop bad dev obuf (buf + r) n pos buf size).1 = int (buf + r - obuf) := by
  induction n generalizing pos buf r size with
  | zero =>
      obtain rfl : r = 0 := by omega
      exact .inr rfl
  | succ n ih =>
      rcases Nat.eq_zero_or_pos r with rfl | hpos
      · rw [Nat.add_zero, writeloop_done]
        exact .inr rfl
      rw [writeloop_succ hpos]
      by_cases hbad : ¬ (chunk pos r = MINIXBSIZE ∨
          (pos % MINIXBSIZE = 0 ∧ size ≤ wrap (pos + chunk pos r))) ∧
          bad dev (pos / MINIXBSIZE) = true
      · rw [if_pos hbad]
        exact .inl rfl
      · have hle := chunk_le pos r
        have hchunk := chunk_pos pos hpos
        have hend : buf + r - obuf = buf + chunk pos r + (r - chunk pos r) - obuf := by omega
        rw [if_neg hbad, hend]
        exact ih (by omega)

theorem writeloop_bad (hr : r ≤ n) (hwrap : pos + r < 2 ^ 32) (hbno : Fd.Covers pos r bno)
    (hpart : Fd.Part pos r size bno) (hbad : bad dev bno = true) :
    (writeloop bad dev obuf (buf + r) n pos buf size).1 = EIO := by
  induction n generalizing pos buf r size with
  | zero =>
      obtain rfl : r = 0 := by omega
      exact absurd hbno (not_covers_zero pos bno)
  | succ n ih =>
      have hpos := hbno.1
      have hle := chunk_le pos r
      have hchunk := chunk_pos pos hpos
      have hnext : wrap (pos + chunk pos r) = pos + chunk pos r := by
        unfold wrap
        omega
      rw [writeloop_succ hpos]
      by_cases hfirst : Fd.Part pos r size (pos / MINIXBSIZE) ∧ bad dev (pos / MINIXBSIZE) = true
      · rw [if_pos ⟨(part_iff hpos hwrap).mp hfirst.1, hfirst.2⟩]
      · have hrest : Fd.Covers (pos + chunk pos r) (r - chunk pos r) bno := by
          rcases (covers_iff hpos).mp hbno with rfl | hrest
          · exact absurd ⟨hpart, hbad⟩ hfirst
          · exact hrest
        rw [if_neg fun h => hfirst ⟨(part_iff hpos hwrap).mpr h.1, h.2⟩, hnext]
        exact ih (by omega) (by omega) hrest ((part_rest hrest).mpr hpart)

theorem writeloop_good (hr : r ≤ n) (hwrap : pos + r < 2 ^ 32)
    (hgood : ∀ bno, Fd.Covers pos r bno → Fd.Part pos r size bno → bad dev bno = false) :
    ∃ size' t, writeloop bad dev obuf (buf + r) n pos buf size =
        (int (buf + r - obuf), size', t) ∧
      Moves buf r (fun d b => d = dev ∧ Fd.Covers pos r b) t := by
  have hnone : ∀ d b, ¬ (d = dev ∧ Fd.Covers pos 0 b) := fun d b h => not_covers_zero pos b h.2
  induction n generalizing pos buf r size with
  | zero =>
      obtain rfl : r = 0 := by omega
      exact ⟨size, [], rfl, moves_nil buf hnone⟩
  | succ n ih =>
      rcases Nat.eq_zero_or_pos r with rfl | hpos
      · exact ⟨size, [], writeloop_done _, moves_nil buf hnone⟩
      have hle := chunk_le pos r
      have hchunk := chunk_pos pos hpos
      have hnext : wrap (pos + chunk pos r) = pos + chunk pos r := by
        unfold wrap
        omega
      have hfirst : ¬ (Fd.Part pos r size (pos / MINIXBSIZE) ∧
          bad dev (pos / MINIXBSIZE) = true) := by
        rintro ⟨hpart, hbad⟩
        rw [hgood _ ((covers_iff hpos).mpr (.inl rfl)) hpart] at hbad
        cases hbad
      obtain ⟨size', t, hrun, ht⟩ := @ih (buf + chunk pos r) (pos + chunk pos r)
        (r - chunk pos r) (if size < pos + chunk pos r then pos + chunk pos r else size)
        (by omega) (by omega)
        (fun bno hbno hpart =>
          hgood bno ((covers_iff hpos).mpr (.inr hbno)) ((part_rest hbno).mp hpart))
        (fun d b h => not_covers_zero _ b h.2)
      have hend : buf + chunk pos r + (r - chunk pos r) - obuf = buf + r - obuf := by omega
      rw [writeloop_succ hpos]
      rw [if_neg fun h => hfirst ⟨(part_iff hpos hwrap).mpr h.1, h.2⟩, hnext, hrun, hend]
      refine ⟨size', _, rfl, ?_, fun a chars ha => ?_, fun d b => ?_⟩
      · have hrest := ht.copied
        show chunk pos r + copied t = r
        omega
      · simp only [mem_cons, reduceCtorEq, false_or, Touch.copy.injEq] at ha
        rcases ha with ⟨rfl, rfl⟩ | ha
        · omega
        · have hin := ht.inbuf a chars ha
          omega
      · simp only [mem_cons, reduceCtorEq, false_or, Touch.block.injEq, ht.blocks d b,
          covers_iff hpos, and_or_left]

/-! ## Descriptors -/

/-- What is transferred of `n` bytes: when their end is beyond the last address, nothing. -/
def moved (buf n : Nat) : Nat := if buf + n < 2 ^ 32 then n else 0

section

variable {f : Fd} {len count : Nat}

theorem moved_le (buf n : Nat) : moved buf n ≤ n := by
  unfold moved
  split_ifs
  · exact Nat.le_refl n
  · exact Nat.zero_le n

theorem end_eq (hbuf : buf < 2 ^ 32) (hn : n < 2 ^ 32) :
    (wrap (buf + n) - buf = moved buf n ∧ wrap (buf + n) = buf + moved buf n) ∨
      (wrap (buf + n) - buf = 0 ∧ moved buf n = 0) := by
  unfold wrap moved
  split_ifs
  · omega
  · omega

theorem iread_eq (hbuf : buf < 2 ^ 32) (hlen : len < 2 ^ 32) :
    iread bad f pos buf len =
      readloop bad f.dev buf (buf + moved buf (min (f.size.toNat - pos) len))
        (moved buf (min (f.size.toNat - pos) len)) pos buf := by
  unfold iread
  have hzero : readloop bad f.dev buf (buf + 0) 0 pos buf = (0, []) := by
    rw [readloop, Nat.sub_self]
    rfl
  by_cases hsize : f.size.toNat ≤ pos
  · have hnone : min (f.size.toNat - pos) len = 0 := by omega
    have hmoved : moved buf 0 = 0 := Nat.le_zero.mp (moved_le buf 0)
    rw [if_pos hsize, hnone, hmoved, hzero]
  · rw [if_neg hsize]
    rcases end_eq hbuf (show min (f.size.toNat - pos) len < 2 ^ 32 by omega) with
      ⟨hfuel, hend⟩ | ⟨hfuel, hmoved⟩
    · dsimp only
      rw [hfuel, hend]
    · dsimp only
      rw [hfuel, hmoved, hzero, readloop, Nat.sub_self]
      rfl

theorem iwrite_eq (hbuf : buf < 2 ^ 32) (hlen : len < 2 ^ 32) :
    iwrite bad f pos buf len =
      writeloop bad f.dev buf (buf + moved buf len) (moved buf len) pos buf f.size.toNat := by
  unfold iwrite
  rcases end_eq hbuf hlen with ⟨hfuel, hend⟩ | ⟨hfuel, hmoved⟩
  · dsimp only
    rw [hfuel, hend]
  · dsimp only
    rw [hfuel, hmoved]
    rfl

namespace Fd

theorem clamp_eq (f : Fd) (count : Nat) : f.clamp count =
    max count (if f.curpos.toNat ≤ f.blkdevsize.toNat then
      f.blkdevsize.toNat - f.curpos.toNat
    else 2 ^ 32 + f.blkdevsize.toNat - f.curpos.toNat) := by
  unfold clamp
  rw [toNat_sub]
  congr 1
  split_ifs
  · omega
  · omega

theorem clamp_lt (f : Fd) (hcount : count < 2 ^ 31) : f.clamp count < 2 ^ 32 := by
  unfold clamp
  omega

/-- Which arguments make a read as long as it is to be. -/
theorem readFits_iff (hbuf : buf + count < 2 ^ 32) :
    moved buf (min (f.size.toNat - f.curpos.toNat) (f.clamp count)) = f.want count ↔
      ReadFits f buf count := by
  unfold ReadFits moved want
  rw [clamp_eq]
  split_ifs
  all_goals omega

/-- Which arguments make a write as long as it is to be. -/
theorem writeFits_iff (hbuf : buf + count < 2 ^ 32) :
    moved buf (f.clamp count) = f.want count ↔ WriteFits f buf count := by
  unfold WriteFits moved want
  rw [clamp_eq]
  split_ifs
  all_goals omega

theorem want_nowrap (f : Fd) (count : Nat) : f.curpos.toNat + f.want count < 2 ^ 32 := by
  unfold want
  omega

/-- A number of bytes that is returned is the number of those that are transferred. -/
theorem want_of_ret {e : Int} {m : Nat} (hcount : count < 2 ^ 31) (hm : m < 2 ^ 32)
    (he : e = EIO ∨ e = int (buf + m - buf)) (hret : e = f.want count) : m = f.want count := by
  rcases he with he | he
  · unfold EIO at he
    omega
  · rw [Nat.add_sub_cancel_left, int_eq hm] at he
    split_ifs at he
    · omega
    · omega

/-- What a transfer of the right length is that touches only these blocks. -/
theorem Bounded.of_moves {blocks : Nat → Nat → Prop} {t : List Touch} {g : Fd}
    (hcount : count < 2 ^ 31) (ht : Moves buf (f.want count) blocks t)
    (hcurpos : g.curpos = f.curpos) (hdev : ∀ dev bno, blocks dev bno →
      dev = f.rdev ∧ bno * MINIXBSIZE < f.blkdevsize.toNat) :
    Bounded f buf count (int (buf + f.want count - buf),
      g.advance (int (buf + f.want count - buf)), t) := by
  have hle : f.want count ≤ count := Nat.min_le_left _ _
  have hint : int (buf + f.want count - buf) = f.want count := by
    rw [Nat.add_sub_cancel_left, int_eq (by omega), if_pos (by omega)]
  refine ⟨hint, ht.copied, ?_, fun a chars ha => ?_, fun dev bno hb => ?_⟩
  · rw [hint]
    unfold advance
    split_ifs with hpos
    · rw [hcurpos]
    · have hzero : f.want count = 0 := by omega
      rw [hzero, hcurpos]
      exact (add_zero _).symm
  · have hin := ht.inbuf a chars ha
    omega
  · exact hdev dev bno ((ht.blocks dev bno).mp hb)

theorem covers_indev {f : Fd} (h : Covers f.curpos.toNat (f.want count) bno) :
    bno * MINIXBSIZE < f.blkdevsize.toNat := by
  unfold Covers want at h
  omega

theorem read_bounded_iff (bad : Nat → Nat → Bool) (f : Fd) (hcount : count < 2 ^ 31)
    (hbuf : buf + count < 2 ^ 32) :
    Bounded f buf count (f.read bad buf count) ↔ ReadFits f buf count ∧ ReadsDev bad f count := by
  have hwrap := f.want_nowrap count
  have hclamp := f.clamp_lt hcount
  have hread : iread bad f f.curpos.toNat buf (f.clamp count) = _ := iread_eq (by omega) hclamp
  unfold read
  rw [hread, ← readFits_iff hbuf]
  constructor
  · intro h
    have hm : moved buf (min (f.size.toNat - f.curpos.toNat) (f.clamp count)) = f.want count := by
      refine want_of_ret hcount ?_ (readloop_ret (Nat.le_refl _)) h.ret
      have hle := moved_le buf (min (f.size.toNat - f.curpos.toNat) (f.clamp count))
      omega
    refine ⟨hm, ?_⟩
    rw [hm] at h
    have hgood : ∀ bno, Covers f.curpos.toNat (f.want count) bno → bad f.dev bno = false := by
      intro bno hbno
      by_contra hbad
      have hret : (readloop bad f.dev buf (buf + f.want count) (f.want count) f.curpos.toNat buf).1 =
          f.want count := h.ret
      rw [readloop_bad (Nat.le_refl _) hwrap hbno ((Bool.not_eq_false _).mp hbad)] at hret
      unfold EIO at hret
      omega
    obtain ⟨t, hrun, ht⟩ := @readloop_good bad f.dev buf buf _ _ _ (Nat.le_refl _) hwrap hgood
    rw [hrun] at h
    intro bno hbno
    have hfirst := h.indev f.dev bno ((ht.blocks _ _).mpr ⟨rfl, bno, hbno, .inl rfl⟩)
    refine ⟨hgood bno hbno, hfirst.1, fun hahead => ?_⟩
    exact (h.indev f.dev (bno + 3)
      ((ht.blocks _ _).mpr ⟨rfl, bno, hbno, .inr ⟨hahead, by omega, Nat.le_refl _⟩⟩)).2
  · rintro ⟨hm, hdev⟩
    obtain ⟨t, hrun, ht⟩ := @readloop_good bad f.dev buf buf _ _ _ (Nat.le_refl _) hwrap
      fun bno hbno => (hdev bno hbno).1
    rw [hm, hrun]
    refine Bounded.of_moves hcount ht rfl ?_
    rintro dev bno ⟨rfl, l, hl, rfl | ⟨hahead, -, hle⟩⟩
    · exact ⟨(hdev bno hl).2.1, covers_indev hl⟩
    · have hlast := (hdev l hl).2.2 hahead
      refine ⟨(hdev l hl).2.1, Nat.lt_of_le_of_lt ?_ hlast⟩
      exact Nat.mul_le_mul_right MINIXBSIZE hle

theorem write_bounded_iff (bad : Nat → Nat → Bool) (f : Fd) (hcount : count < 2 ^ 31)
    (hbuf : buf + count < 2 ^ 32) :
    Bounded f buf count (f.write bad buf count) ↔
      WriteFits f buf count ∧ WritesDev bad f count := by
  have hwrap := f.want_nowrap count
  have hclamp := f.clamp_lt hcount
  have hwrite : iwrite bad f f.curpos.toNat buf (f.clamp count) = _ :=
    iwrite_eq (by omega) hclamp
  unfold write
  rw [hwrite, ← writeFits_iff hbuf]
  constructor
  · intro h
    have hm : moved buf (f.clamp count) = f.want count := by
      refine want_of_ret hcount ?_ (writeloop_ret (Nat.le_refl _)) h.ret
      have hle := moved_le buf (f.clamp count)
      omega
    refine ⟨hm, ?_⟩
    rw [hm] at h
    have hgood : ∀ bno, Covers f.curpos.toNat (f.want count) bno →
        Part f.curpos.toNat (f.want count) f.size.toNat bno → bad f.dev bno = false := by
      intro bno hbno hpart
      by_contra hbad
      have hret : (writeloop bad f.dev buf (buf + f.want count) (f.want count) f.curpos.toNat buf
          f.size.toNat).1 = f.want count := h.ret
      rw [writeloop_bad (Nat.le_refl _) hwrap hbno hpart ((Bool.not_eq_false _).mp hbad)] at hret
      unfold EIO at hret
      omega
    obtain ⟨size, t, hrun, ht⟩ :=
      @writeloop_good bad f.dev buf buf _ _ _ _ (Nat.le_refl _) hwrap hgood
    rw [hrun] at h
    intro bno hbno
    exact ⟨(h.indev f.dev bno ((ht.blocks _ _).mpr ⟨rfl, hbno⟩)).1, hgood bno hbno⟩
  · rintro ⟨hm, hdev⟩
    obtain ⟨size, t, hrun, ht⟩ :=
      @writeloop_good bad f.dev buf buf _ _ _ _ (Nat.le_refl _) hwrap
        fun bno hbno => (hdev bno hbno).2
    rw [hm, hrun]
    refine Bounded.of_moves hcount ht rfl ?_
    rintro dev bno ⟨rfl, hbno⟩
    exact ⟨(hdev bno hbno).1, covers_indev hbno⟩

end Fd

end

namespace Fd

/-- A read or a write stays within its bounds exactly when its count fits and its blocks can
be had. -/
theorem blkfd_bounds_iff (bad : Nat → Nat → Bool) (f : Fd) {buf count : Nat}
    (hcount : count < 2 ^ 31) (hbuf : buf + count < 2 ^ 32) :
    (Bounded f buf count (f.read bad buf count) ↔ ReadFits f buf count ∧ ReadsDev bad f count) ∧
    (Bounded f buf count (f.write bad buf count) ↔
      WriteFits f buf count ∧ WritesDev bad f count) :=
  ⟨read_bounded_iff bad f hcount hbuf, write_bounded_iff bad f hcount hbuf⟩

/-- A device of 8 blocks; its inode is on it, and has been written as long as it is. -/
def eight : Fd where
  dev := 3
  size := 8192
  rdev := 3
  blkdevsize := 8192
  curpos := 0

/-- All of it can be read and written at once. -/
theorem eight_bounded :
    Bounded eight 0x1000 8192 (eight.read (fun _ _ => false) 0x1000 8192) ∧
    Bounded eight 0x1000 8192 (eight.write (fun _ _ => false) 0x1000 8192) := by
  have hahead : ∀ bno, bno * 1024 < 8192 → bno % 4 = 0 → (bno + 3) * 1024 < 8192 := by
    intro bno hlast hfour
    have hlt' : bno + 3 < 8 := by omega
    exact Nat.mul_lt_mul_of_pos_right hlt' (by decide)
  have hiff := blkfd_bounds_iff (fun _ _ => false) eight
    (show 8192 < 2 ^ 31 by decide) (show 0x1000 + 8192 < 2 ^ 32 by decide)
  refine ⟨hiff.1.mpr ⟨.inr (.inl (by decide)), fun bno hbno => ⟨rfl, rfl, ?_⟩⟩,
    hiff.2.mpr ⟨.inl (by decide), fun bno hbno => ⟨rfl, fun _ => rfl⟩⟩⟩
  exact hahead bno (covers_indev hbno)

/-- 100 bytes are to be written, and 8192 are. -/
theorem write_not_bounded : ¬ ∀ (bad : Nat → Nat → Bool) (f : Fd) (buf count : Nat),
    count < 2 ^ 31 → buf + count < 2 ^ 32 →
      Bounded f buf count (f.read bad buf count) ∧
        Bounded f buf count (f.write bad buf count) := by
  intro hall
  have hwrite := (hall (fun _ _ => false) { eight with size := 0 } 0x1000 100
    (by decide) (by decide)).2
  rcases ((write_bounded_iff _ _ (by decide) (by decide)).mp hwrite).1 with hfit | hnone
  · exact absurd hfit (by decide)
  · exact absurd hnone.1 (by decide)

end Fd

end Unixlite.Blkfd
