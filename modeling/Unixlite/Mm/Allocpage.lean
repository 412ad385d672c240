import Unixlite.Mm.Seg
import Unixlite.Verified.LinkedList
import Unixlite.Verified.Run

/-!
# The page allocator

Port of `mm/allocpage.cc`.  A page is its number; of what a page holds only the
first word is kept, in which `frame_t` has its link.  `none` is a panic or a
failed assertion.
-/

namespace Unixlite.Mm

open Verified.LinkedList

/-! ## Constants -/

def SYSPAGE : Int := -1979
def KERNQUOTA : Int := 4
def DRIVERQUOTA : Int := 12

def AKERN : BitVec 32 := 1
def ADRIVER : BitVec 32 := 2
def AUSER : BitVec 32 := 4
def ACLEAR : BitVec 32 := 8

/-- The first page from 640K on, and from 1M on. -/
def PAGE640K : Nat := 160
def PAGE1M : Nat := 256

/-- Arithmetic of `int`. -/
def int (x : Int) : Int := Int.bmod x (2 ^ 32)

/-! ## The allocator -/

structure Pages where
  nphyspage : Nat
  refcnt : Nat → Int
  /-- The first word of a page, as a link. -/
  next : Nat → Option Nat
  freepageq : Option Nat
  nfreepage : Int
  /-- `vtop(kernend)`. -/
  kernend : Nat
  /-- `vtop(allocbmend)`, which is on a page boundary, as a page. -/
  allocbmend : Nat
  allocbmok : Bool

/-- What `allocpage` returns; `outofmem(0)` kills the task instead. -/
inductive Alloc where
  | page (p : Nat)
  | null
  | outofmem
deriving DecidableEq

namespace Pages

def setRefcnt (s : Pages) (p : Nat) (n : Int) : Pages :=
  { s with refcnt := fun q => if q = p then n else s.refcnt q }

def allocable (s : Pages) (p : Nat) : Bool :=
  decide (1 ≤ p ∧ p < PAGE640K) || decide (s.kernend ≤ p * PAGESIZE ∧ p < s.nphyspage)

def freepage (s : Pages) (p : Nat) : Option Pages :=
  if s.nphyspage ≤ p then none
  else if !s.allocable p then none
  else if s.refcnt p = SYSPAGE then none
  else if s.refcnt p = 0 then none
  else
    let s := s.setRefcnt p (int (s.refcnt p - 1))
    if s.refcnt p ≠ 0 then some s
    else
      some { s with
        next := fun q => if q = p then s.freepageq else s.next q
        freepageq := some p
        nfreepage := s.nfreepage + 1 }

/-- `check`: when pages run low it goes through the list. -/
def check (s : Pages) : Bool :=
  if s.nfreepage ≤ DRIVERQUOTA + KERNQUOTA then
    match follow s.next (s.nphyspage + 1) s.freepageq with
    | none => false
    | some l => l.all (fun p => s.refcnt p == 0) && decide ((l.length : Int) = s.nfreepage)
  else true

/-- What the quota of the caller has against the allocation. -/
def quota (s : Pages) (flags : BitVec 32) : Option (Option Alloc) :=
  if flags &&& AUSER ≠ 0 then
    some (if s.nfreepage ≤ DRIVERQUOTA + KERNQUOTA then some .null else none)
  else if flags &&& ADRIVER ≠ 0 then
    some (if s.nfreepage ≤ KERNQUOTA then some .null else none)
  else if flags &&& AKERN ≠ 0 then
    some (if s.nfreepage = 0 then some .outofmem else none)
  else none

def allocpage (s : Pages) (flags : BitVec 32) : Option (Alloc × Pages) :=
  if !s.check then none
  else
    match s.quota flags with
    | none => none
    | some (some refused) => some (refused, s)
    | some none =>
        match s.freepageq with
        | none => none
        | some p =>
            if !s.allocable p then none
            else if s.refcnt p ≠ 0 then none
            else
              some (.page p, { s.setRefcnt p 1 with
                freepageq := s.next p
                nfreepage := s.nfreepage - 1
                next := fun q =>
                  if q = p ∧ flags &&& ACLEAR ≠ 0 then none else s.next q })

def dupphys (s : Pages) (p : Nat) : Option Pages :=
  if s.nphyspage ≤ p then none
  else if s.refcnt p = SYSPAGE then none
  else some (s.setRefcnt p (int (s.refcnt p + 1)))

/-! ## Boot -/

/-- `marksys`, of `n` pages from `p` on. -/
def marksys : Nat → Nat → Pages → Pages
  | 0, _, s => s
  | n + 1, p, s => marksys n (p + 1) (s.setRefcnt p SYSPAGE)

/-- `markfree`, of `n` pages from `p` on. -/
def markfree : Nat → Nat → Pages → Option Pages
  | 0, _, s => some s
  | n + 1, p, s => ((s.setRefcnt p 1).freepage p).bind fun s => markfree n (p + 1) s

/-- `allocbm`, with `balign` a power of two. -/
def allocbm (s : Pages) (size k : Nat) : Option Pages :=
  let result := (s.kernend + 2 ^ k - 1) / 2 ^ k * 2 ^ k
  if !s.allocbmok then none
  else if s.allocbmend * PAGESIZE < result + size then none
  else some { s with kernend := result + size }

def freebm (s : Pages) : Option Pages :=
  let kernend := (s.kernend + PAGESIZE - 1) / PAGESIZE
  markfree (s.allocbmend - kernend) kernend
    { s with allocbmok := false, kernend := kernend * PAGESIZE }

end Pages

/-- The machine when `pagemapinit` has its page map: the kernel is loaded at 1M,
boot memory has not run out, and it ends below the end of memory, as `vtop`
asserts. -/
structure Boot where
  nphysmeg : Nat
  kernend : Nat
  allocbmend : Nat
  mem : Nat → Option Nat
  low : PAGE1M * PAGESIZE ≤ kernend
  fits : kernend ≤ allocbmend * PAGESIZE
  high : allocbmend < nphysmeg * PAGE1M

def pagemapinit (b : Boot) : Option Pages :=
  let s : Pages := {
    nphyspage := b.nphysmeg * PAGE1M
    refcnt := fun _ => 0
    next := b.mem
    freepageq := none
    nfreepage := 0
    kernend := b.kernend
    allocbmend := b.allocbmend
    allocbmok := true }
  let s := Pages.marksys 1 0 s
  (Pages.markfree (PAGE640K - 1) 1 s).bind fun s =>
    let s := Pages.marksys (PAGE1M - PAGE640K) PAGE640K s
    let s := Pages.marksys (b.allocbmend - PAGE1M) PAGE1M s
    Pages.markfree (s.nphyspage - b.allocbmend) b.allocbmend s

end Unixlite.Mm
