import Unixlite.Fs.Buf

/-!
# Disk requests

Port of `dev/blk/req.h` and `dev/blk/req.cc`.  A buffer is its number and a request
its address; of a buffer there is what a request looks at, and the sectors themselves
are left out.
-/

namespace Unixlite.Blkdev

open Unixlite.Bcache (Bstate Rw SECTSIZE)
open List

/-! ## Buffers -/

/-- `state` and `locked` of a `buf_t`. -/
structure Buf where
  state : Bstate
  locked : Bool

/-- The block that a buffer is for: whole sectors, and not too many for a request. -/
structure Blk where
  dev : Nat
  bno : BitVec 32
  bsize : Nat
  whole : bsize % SECTSIZE = 0
  pos : 0 < bsize / SECTSIZE
  small : bsize / SECTSIZE ≤ 255

/-- `bsize >> SECTBITS`. -/
def Blk.sectperblk (k : Blk) : Nat := k.bsize / SECTSIZE

/-- The first sector of the block. -/
def Blk.startsect (k : Blk) : BitVec 32 := k.bno * BitVec.ofNat 32 k.sectperblk

/-! ## Requests -/

/-- `req_t`.  `left` has the buffers from `curbuf` on, and is empty when `cursect` is
null; `sect` says how many sectors `cursect` is into `curbuf`. -/
structure Req where
  id : Nat
  cmd : Rw
  dev : Nat
  bsize : Nat
  sectperblk : Nat
  startsect : BitVec 32
  nsect : Nat
  bufq : List Nat
  left : List Nat
  sect : Nat
  /-- History: it has been `curreq`. -/
  started : Bool

namespace Req

def lt (a b : Req) : Bool := a.startsect.slt b.startsect

def more (r : Req) : Bool := !r.left.isEmpty

def setcur (r : Req) : Req := { r with left := r.bufq, sect := 0 }

/-- The constructor. -/
def new (id : Nat) (rw : Rw) (b : Nat) (k : Blk) : Req :=
  setcur {
    id := id
    cmd := rw
    dev := k.dev
    bsize := k.bsize
    sectperblk := k.sectperblk
    startsect := k.startsect
    nsect := k.sectperblk
    bufq := [b]
    left := []
    sect := 0
    started := false }

def merge (r : Req) (rw : Rw) (b : Nat) (k : Blk) : Option Req :=
  if rw ≠ r.cmd ∨ k.dev ≠ r.dev ∨ k.bsize ≠ r.bsize then none
  else if 255 < r.nsect + r.sectperblk then none
  else
    let startsect := k.bno * BitVec.ofNat 32 r.sectperblk
    if r.startsect + BitVec.ofNat 32 r.nsect = startsect then
      some (setcur { r with nsect := r.nsect + r.sectperblk, bufq := r.bufq ++ [b] })
    else if startsect + BitVec.ofNat 32 r.sectperblk = r.startsect then
      some (setcur { r with
        startsect := r.startsect - BitVec.ofNat 32 r.sectperblk
        nsect := r.nsect + r.sectperblk
        bufq := b :: r.bufq })
    else none

/-- `nextsect`, with the buffers. -/
def nextsect (state : Bstate) (r : Req) (buf : Nat → Buf) : Req × (Nat → Buf) :=
  match r.left with
  | [] => (r, buf)
  | curbuf :: left =>
      let buf := if state = .error then
          fun b => if b = curbuf then { buf b with state := .error } else buf b
        else buf
      if r.sect + 1 ≠ r.sectperblk then ({ r with sect := r.sect + 1 }, buf)
      else ({ r with left := left, sect := 0 }, buf)

/-- The loop of `error` and of `advance`, for `n` sectors. -/
def nextsects (state : Bstate) : Nat → Req → (Nat → Buf) → Req × (Nat → Buf)
  | 0, r, buf => (r, buf)
  | n + 1, r, buf =>
      if !r.more then (r, buf)
      else
        let x := r.nextsect state buf
        nextsects state n x.1 x.2

/-- `error(nsect)`. -/
def error (r : Req) (n : Nat) (buf : Nat → Buf) : Req × (Nat → Buf) := nextsects .error n r buf

def advance (r : Req) (n : Nat) (buf : Nat → Buf) : Req × (Nat → Buf) := nextsects .clean n r buf

/-- The destructor. -/
def delete (r : Req) (buf : Nat → Buf) : Nat → Buf := fun b =>
  if b ∈ r.bufq then ⟨if (buf b).state = .error then .inval else .clean, false⟩ else buf b

/-! ## What is so of every request -/

structure Ok (r : Req) : Prop where
  nonempty : r.bufq ≠ []
  pos : 0 < r.sectperblk
  nsect : r.nsect = r.bufq.length * r.sectperblk
  small : r.nsect ≤ 255
  sect : r.sect < r.sectperblk
  left : r.left.length ≤ r.bufq.length

/-- Nothing of it has been done. -/
structure Fresh (r : Req) : Prop where
  left : r.left = r.bufq
  sect : r.sect = 0
  started : r.started = false

/-- One sector is left. -/
def last (r : Req) : Bool := r.left.length == 1 && r.sect + 1 == r.sectperblk

variable {r : Req} {rw : Rw} {b n : Nat} {k : Blk} {state : Bstate}

theorem new_ok (id : Nat) (rw : Rw) (b : Nat) (k : Blk) : (new id rw b k).Ok where
  nonempty := cons_ne_nil _ _
  pos := k.pos
  nsect := (Nat.one_mul _).symm
  small := k.small
  sect := k.pos
  left := Nat.le_refl _

theorem new_fresh (id : Nat) (rw : Rw) (b : Nat) (k : Blk) : (new id rw b k).Fresh :=
  ⟨rfl, rfl, rfl⟩

/-- A merged request has the buffer too, and is to be done from its beginning. -/
theorem merge_spec {r' : Req} (h : r.Ok) (hfresh : r.Fresh) (hmerge : r.merge rw b k = some r') :
    r'.Ok ∧ r'.Fresh ∧ r'.id = r.id ∧ r'.bufq.Perm (b :: r.bufq) := by
  have hlen : ∀ q : List Nat, q.length = r.bufq.length + 1 →
      r.nsect + r.sectperblk = q.length * r.sectperblk := by
    intro q hq
    rw [hq, Nat.succ_mul, ← h.nsect]
  unfold merge at hmerge
  split at hmerge
  · cases hmerge
  split at hmerge
  · cases hmerge
  next hsmall =>
  dsimp only at hmerge
  split at hmerge
  · cases hmerge
    refine ⟨⟨?_, h.pos, hlen _ ?_, Nat.not_lt.mp hsmall, h.pos, Nat.le_refl _⟩,
      ⟨rfl, rfl, hfresh.started⟩, rfl, ?_⟩
    · exact append_ne_nil_of_right_ne_nil _ (cons_ne_nil _ _)
    · exact length_append
    · exact perm_append_singleton b r.bufq
  split at hmerge
  · cases hmerge
    refine ⟨⟨cons_ne_nil _ _, h.pos, hlen _ rfl, Nat.not_lt.mp hsmall, h.pos,
      Nat.le_refl _⟩, ⟨rfl, rfl, hfresh.started⟩, rfl, List.Perm.refl _⟩
  · cases hmerge

/-- What `error` and `advance` leave alone. -/
structure Same (r r' : Req) : Prop where
  id : r'.id = r.id
  cmd : r'.cmd = r.cmd
  bufq : r'.bufq = r.bufq
  nsect : r'.nsect = r.nsect
  sectperblk : r'.sectperblk = r.sectperblk
  started : r'.started = r.started

theorem Same.refl (r : Req) : Same r r := ⟨rfl, rfl, rfl, rfl, rfl, rfl⟩

theorem Same.trans {r' r'' : Req} (h : Same r r') (h' : Same r' r'') : Same r r'' :=
  ⟨h'.id.trans h.id, h'.cmd.trans h.cmd, h'.bufq.trans h.bufq, h'.nsect.trans h.nsect,
    h'.sectperblk.trans h.sectperblk, h'.started.trans h.started⟩

/-- How many sectors are left. -/
def remaining (r : Req) : Nat := r.left.length * r.sectperblk - r.sect

theorem nextsect_spec (h : r.Ok) (hmore : r.more = true) (state : Bstate) (buf : Nat → Buf) :
    (r.nextsect state buf).1.Ok ∧ Same r (r.nextsect state buf).1 ∧
      (r.nextsect state buf).1.remaining + 1 = r.remaining ∧
      ∀ b, ((r.nextsect state buf).2 b).locked = (buf b).locked := by
  have hlocked : ∀ curbuf : Nat, ∀ b, ((if state = .error then
      fun b => if b = curbuf then { buf b with state := .error } else buf b
      else buf) b).locked = (buf b).locked := by
    intro curbuf b
    split
    · dsimp only
      split
      · rfl
      · rfl
    · rfl
  have hsect := h.sect
  have hleft := h.left
  unfold nextsect remaining
  unfold more at hmore
  cases hl : r.left with
  | nil =>
      rw [hl] at hmore
      cases hmore
  | cons curbuf left =>
      have hle : (curbuf :: left).length ≤ r.bufq.length := hl ▸ hleft
      have hmul : (curbuf :: left).length * r.sectperblk =
          left.length * r.sectperblk + r.sectperblk := Nat.succ_mul _ _
      dsimp only
      split
      · next hnot =>
        refine ⟨⟨h.nonempty, h.pos, h.nsect, h.small, ?_, hle⟩, ⟨rfl, rfl, rfl, rfl, rfl, rfl⟩,
          ?_, hlocked curbuf⟩
        · dsimp only
          omega
        · dsimp only
          omega
      · next hend =>
        refine ⟨⟨h.nonempty, h.pos, h.nsect, h.small, h.pos, ?_⟩, ⟨rfl, rfl, rfl, rfl, rfl, rfl⟩,
          ?_, hlocked curbuf⟩
        · dsimp only
          exact Nat.le_of_succ_le hle
        · dsimp only
          omega

theorem more_iff (h : r.Ok) : r.more = true ↔ 0 < r.remaining := by
  have hsect := h.sect
  unfold more remaining
  cases r.left with
  | nil => simp
  | cons curbuf left =>
      refine iff_of_true rfl ?_
      rw [length_cons, Nat.succ_mul]
      omega

/-- `error` and `advance` do what they are asked for, or what is left. -/
theorem nextsects_spec (h : r.Ok) (state : Bstate) (n : Nat) (buf : Nat → Buf) :
    (nextsects state n r buf).1.Ok ∧ Same r (nextsects state n r buf).1 ∧
      (nextsects state n r buf).1.remaining = r.remaining - n ∧
      ∀ b, ((nextsects state n r buf).2 b).locked = (buf b).locked := by
  induction n generalizing r buf with
  | zero => exact ⟨h, Same.refl r, rfl, fun _ => rfl⟩
  | succ n ih =>
      unfold nextsects
      split
      · next hmore =>
        have hzero : ¬ 0 < r.remaining := by
          rw [← more_iff h]
          simpa using hmore
        refine ⟨h, Same.refl r, ?_, fun _ => rfl⟩
        dsimp only
        omega
      · next hmore =>
        obtain ⟨hok, hsame, hone, hlocked⟩ := nextsect_spec h
          (by simpa using hmore) state buf
        obtain ⟨hok', hsame', hrest, hlocked'⟩ := ih hok (r.nextsect state buf).2
        dsimp only
        refine ⟨hok', hsame.trans hsame', ?_, fun b => (hlocked' b).trans (hlocked b)⟩
        omega

theorem last_iff (h : r.Ok) (hmore : r.more = true) : r.last = true ↔ r.remaining = 1 := by
  have hsect := h.sect
  unfold last remaining
  unfold more at hmore
  rw [Bool.and_eq_true, beq_iff_eq, beq_iff_eq]
  cases hl : r.left with
  | nil =>
      rw [hl] at hmore
      cases hmore
  | cons curbuf left =>
      rw [length_cons, Nat.succ_mul]
      constructor
      · rintro ⟨hlen, hend⟩
        have hzero : left.length = 0 := by omega
        rw [hzero]
        omega
      · intro hone
        have hzero : left.length = 0 := by
          by_contra hne
          have hle : r.sectperblk ≤ left.length * r.sectperblk :=
            Nat.le_mul_of_pos_left _ (Nat.pos_of_ne_zero hne)
          omega
        omega

/-- All of a request that has not been begun is done with when it fails. -/
theorem error_fresh (h : r.Ok) (hleft : r.left = r.bufq) (buf : Nat → Buf) :
    (r.error r.nsect buf).1.more = false := by
  obtain ⟨hok, -, hrest, -⟩ := nextsects_spec h .error r.nsect buf
  have hzero : ¬ 0 < (nextsects .error r.nsect r buf).1.remaining := by
    rw [hrest]
    unfold remaining
    rw [hleft, h.nsect]
    omega
  rw [← more_iff hok] at hzero
  exact Bool.not_eq_true _ ▸ hzero

end Req

end Unixlite.Blkdev
