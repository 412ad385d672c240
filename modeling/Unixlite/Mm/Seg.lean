import Mathlib.Data.BitVec

/-!
# Pages and segments

Port of `asm/page.h` and of the parts of `mm/mm.cc` that look for a segment.
An address is a number below 2^32.
-/

namespace Unixlite.Mm

def PAGESIZE : Nat := 4096
def USEREND : Nat := 0xC0000000

/-- Addresses are computed in 32 bits. -/
def wrap (vaddr : Nat) : Nat := vaddr % 2 ^ 32

def pagedown (vaddr : Nat) : Nat := vaddr / PAGESIZE * PAGESIZE
def pageup (vaddr : Nat) : Nat := pagedown (wrap (vaddr + PAGESIZE - 1))
def pagediv (vaddr : Nat) : Nat := vaddr / PAGESIZE

def PROTW : BitVec 32 := 2

/-- `seg_t`; the flags are never read. -/
structure Seg where
  start : Nat
  /-- `end`. -/
  stop : Nat
  prot : BitVec 32
  inode : Option Nat
  offset : Nat
deriving DecidableEq

/-- The segment may be written. -/
def Seg.writable (seg : Seg) : Bool := seg.prot &&& PROTW != 0

/-- `findseg`: the place in the queue of the first segment that ends above the
address. -/
def findseg (segq : List Seg) (vaddr : Nat) : Option Nat :=
  segq.findIdx? fun seg => decide (vaddr < seg.stop)

/-- `findustack`: the last of at least four segments, if it may be written. -/
def findustack (segq : List Seg) : Option Nat :=
  if segq.length < 4 then none
  else if (segq.getLast?.map Seg.writable).getD false then some (segq.length - 1)
  else none

/-- `pagefault` up to the label `bad`: the segment that is to supply the page,
and the queue, in which the stack may have grown.  `esp` is what the trap frame
has for the stack pointer. -/
def faultseg (segq : List Seg) (esp vaddr : Nat) (w : Bool) : Option (Seg × List Seg) :=
  match findseg segq vaddr with
  | none => none
  | some k =>
      match segq[k]? with
      | none => none
      | some seg =>
          let grown :=
            if seg.start ≤ vaddr then some seg
            else if findustack segq ≠ some k then none
            else if wrap (vaddr + 32) < esp then none
            else some { seg with start := pagedown vaddr }
          match grown with
          | none => none
          | some seg => if w && !seg.writable then none else some (seg, segq.set k seg)

/-- Whoever may write the page has a segment that may be written. -/
theorem writable_of_faultseg {segq segq' : List Seg} {seg : Seg} {esp vaddr : Nat}
    (h : faultseg segq esp vaddr true = some (seg, segq')) : seg.writable = true := by
  unfold faultseg at h
  split at h
  · cases h
  split at h
  · cases h
  dsimp only at h
  split at h
  · cases h
  split at h
  · cases h
  next hw =>
  cases h
  simpa using hw

end Unixlite.Mm
