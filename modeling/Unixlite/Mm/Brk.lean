import Unixlite.Mm.Pgtbl
import Unixlite.Mm.PageRun
import Unixlite.Mm.Segq
import Unixlite.Verified.Refcount

/-!
# The heap

Port of `mm_t::brk`, `pagefault`, `mapto` and `seg_t::nopage`, `wppage` and `unmap` from
`mm/mm.cc`, and of `scanpgtbl_t` from `asm/pgtbl.cc`, for one address space: its segments, the
entries of its page tables for user space, the pages of the machine, and what is in them.

The user reads and writes one byte after the other; what the file of a segment has, and what is
in a page behind its end, comes with the access.  `none` is a failed assertion.
-/

namespace Unixlite.Mm

open Verified Refcount
open Unixlite.Paging (PDECOVERED)
open Unixlite.Paging.Phys (rounddown2 roundup2)
open Function (update)

namespace Vm

/-- `pte_t` of a present page. -/
structure Entry where
  page : Nat
  w : Bool
deriving DecidableEq

end Vm

structure Vm where
  segq : List Seg
  /-- The page tables that are there. -/
  pde : Nat → Bool
  pte : Nat → Option Vm.Entry
  pages : Pages
  /-- The bytes of a page. -/
  data : Nat → Nat → BitVec 8

namespace Vm

/-! ## Scanning -/

/-- The loop of `explore`, over `n` entries of the directory. -/
def exploreFrom (pde : Nat → Bool) : Nat → Nat → Nat → Nat
  | 0, start, _ => start
  | n + 1, start, off =>
      if pde (start / PDECOVERED) then start + off
      else exploreFrom pde n (start + PDECOVERED) 0

/-- `explore`: the first page whose table is there. -/
def explore (pde : Nat → Bool) (start stop : Nat) : Option Nat :=
  if stop < start then none
  else
    let off := start % PDECOVERED
    let start := rounddown2 start PDECOVERED
    let stop := roundup2 stop PDECOVERED
    if stop < start then none
    else some (exploreFrom pde ((stop - start) / PDECOVERED) start off)

/-- The loop of `next`, over `n` entries of the directory at most. -/
def skip (pde : Nat → Bool) (stop : Nat) : Nat → Nat → Nat
  | 0, curpos => curpos
  | n + 1, curpos =>
      if stop ≤ curpos then curpos
      else if pde (curpos / PDECOVERED) then curpos
      else skip pde stop n (curpos + PDECOVERED)

def next (pde : Nat → Bool) (stop curpos : Nat) : Nat :=
  let curpos := curpos + PAGESIZE
  if curpos % PDECOVERED ≠ 0 then curpos
  else skip pde stop ((stop - curpos + PDECOVERED - 1) / PDECOVERED) curpos

/-- The loop of `seg_t::unmap`, for `n` pages at most. -/
def unmapFrom (stop : Nat) : Nat → Vm → Nat → Option Vm
  | 0, s, curpos => if stop ≤ curpos then some s else none
  | n + 1, s, curpos =>
      if stop ≤ curpos then some s
      else
        match s.pte (pagediv curpos) with
        | some e =>
            (s.pages.freepage e.page).bind fun pages =>
              unmapFrom stop n
                { s with pages := pages, pte := update s.pte (pagediv curpos) none }
                (next s.pde stop curpos)
        | none => unmapFrom stop n s (next s.pde stop curpos)

/-- `seg_t::unmap`. -/
def unmap (s : Vm) (start stop : Nat) : Option Vm :=
  if pagemod start ≠ 0 ∨ pagemod stop ≠ 0 then none
  else
    (explore s.pde start stop).bind fun curpos =>
      unmapFrom stop ((stop - start) / PAGESIZE) s curpos

/-! ## Faults -/

/-- `getpte`: the table is there, or it is made, or there is no page for it. -/
def getpte (s : Vm) (vaddr : Nat) : Option (Bool × Vm) :=
  if s.pde (vaddr / PDECOVERED) then some (true, s)
  else
    match s.pages.allocpage (AUSER ||| ACLEAR) with
    | some (.page _, pages) =>
        some (true, { s with
          pages := pages
          pde := update s.pde (vaddr / PDECOVERED) true })
    | some (.null, pages) => some (false, { s with pages := pages })
    | _ => none

/-- `mm_t::mapto`; false is `ENOMEM`. -/
def mapto (s : Vm) (vaddr page : Nat) (w : Bool) : Option (Bool × Vm) :=
  match s.getpte vaddr with
  | some (true, s) =>
      if (s.pte (pagediv vaddr)).isSome then none
      else some (true, { s with pte := update s.pte (pagediv vaddr) (some ⟨page, w⟩) })
  | some (false, s) => some (false, s)
  | none => none

/-- `nopage`; false is `outofmem`. -/
def nopage (s : Vm) (seg : Seg) (vaddr : Nat) (file : Nat → BitVec 8) : Option (Bool × Vm) :=
  match s.pages.allocpage AUSER with
  | some (.page page, pages) =>
      match ({ s with pages := pages } : Vm).mapto vaddr page seg.writable with
      | some (true, s) =>
          let bytes := if seg.inode = none then fun _ => 0 else file
          some (true, { s with data := update s.data page bytes })
      | some (false, s) =>
          (s.pages.freepage page).map fun pages => (false, { s with pages := pages })
      | none => none
  | some (.null, pages) => some (false, { s with pages := pages })
  | _ => none

/-- `wppage`; false is `outofmem`. -/
def wppage (s : Vm) (vaddr : Nat) : Option (Bool × Vm) :=
  match s.pte (pagediv vaddr) with
  | none => none
  | some e =>
      if s.pages.nphyspage ≤ e.page then none
      else if s.pages.refcnt e.page ≤ 0 then none
      else if s.pages.refcnt e.page = 1 then
        some (true, { s with pte := update s.pte (pagediv vaddr) (some ⟨e.page, true⟩) })
      else
        match s.pages.allocpage AUSER with
        | some (.page my, pages) =>
            some (true, { s with
              pte := update s.pte (pagediv vaddr) (some ⟨my, true⟩)
              pages := pages.setRefcnt e.page (pages.refcnt e.page - 1)
              data := update s.data my (s.data e.page) })
        | some (.null, pages) => some (false, { s with pages := pages })
        | _ => none

/-- `pagefault` in user mode; false is `SIGSEGV`, from the label `bad` or from `outofmem`. -/
def pagefault (s : Vm) (esp vaddr : Nat) (w p : Bool) (file : Nat → BitVec 8) :
    Option (Bool × Vm) :=
  match faultseg s.segq esp vaddr w with
  | none => some (false, s)
  | some (seg, segq) =>
      let s := { s with segq := segq }
      if p then (if w then s.wppage vaddr else none) else s.nopage seg vaddr file

/-- The user reads or writes a byte; the entry by which that goes in the end. -/
def access (s : Vm) (esp vaddr : Nat) (w : Bool) (file : Nat → BitVec 8) :
    Option (Option Entry × Vm) :=
  let fault (p : Bool) :=
    (s.pagefault esp vaddr w p file).map fun (ok, s) =>
      (if ok then s.pte (pagediv vaddr) else none, s)
  match s.pte (pagediv vaddr) with
  | some e => if w && !e.w then fault true else some (some e, s)
  | none => fault false

/-! ## `brk` -/

/-- `mm_t::brk`. -/
def brk (s : Vm) (ebss : Nat) : Option (Nat × Vm) :=
  let ebss := pageup ebss
  match (findbss s.segq).bind fun k => (s.segq[k]?).map fun bss => (k, bss) with
  | none => some (0, s)
  | some (k, bss) =>
      if ebss < bss.start then some (bss.stop, s)
      else if ebss < bss.stop then
        (s.unmap (pageup ebss) (pageup bss.stop)).map fun s =>
          (ebss, { s with segq := s.segq.set k { bss with stop := ebss } })
      else
        let stop :=
          match s.segq[k + 1]? with
          | some next => min ebss (pagedown next.start)
          | none => ebss
        some (stop, { s with segq := s.segq.set k { bss with stop := stop } })

inductive Event where
  | sysbrk (ebss : BitVec 32)
  | read (esp vaddr : Nat) (file : Nat → BitVec 8)
  | write (esp vaddr : Nat) (file : Nat → BitVec 8) (v : BitVec 8)

/-- What an event comes to. -/
inductive Out where
  | brk (ebss : Nat)
  | byte (v : BitVec 8)
  | written
  | sigsegv
deriving DecidableEq

def step (s : Vm) : Event → Option (Out × Vm)
  | .sysbrk ebss => (s.brk ebss.toNat).map fun (ebss, s) => (.brk ebss, s)
  | .read esp vaddr file =>
      (s.access esp vaddr false file).map fun (e, s) =>
        match e with
        | some e => (.byte (s.data e.page (pagemod vaddr)), s)
        | none => (.sigsegv, s)
  | .write esp vaddr file v =>
      (s.access esp vaddr true file).map fun (e, s) =>
        match e with
        | some e =>
            (.written, { s with
              data := update s.data e.page
                (update (s.data e.page) (pagemod vaddr) v) })
        | none => (.sigsegv, s)

end Vm

end Unixlite.Mm
