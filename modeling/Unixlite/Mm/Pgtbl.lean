import Unixlite.Mm.Allocpage
import Unixlite.Mm.Mmap
import Unixlite.Verified.Partial

/-!
# Page tables in memory

Port of `asm/pte.h`, of `asm/pgtbl.h` and `asm/pgtbl.cc` as far as user space goes, and
of `copypte` and `seg_t::unmap` from `mm/mm.cc`.  A pointer into
memory is the number of its word; a page directory is the number of its page.
-/

namespace Unixlite.Paging

open Unixlite.Mm Unixlite.Verified.Partial

/-! ## Entries -/

/-- `pte_t` and `pde_t`, as their bits. -/
abbrev Pte := BitVec 32

def PTEP : Pte := 0x001
def PTEW : Pte := 0x002
def PTEU : Pte := 0x004
def PTEFRAME : Pte := 0xfffff000
def PROTPGTBL : Pte := PTEU ||| PTEW ||| PTEP

def PDECOVERED : Nat := 2 ^ 22
def KERNSTART : Nat := USEREND

namespace Pte

def none (pte : Pte) : Bool := pte == 0
def tstp (pte : Pte) : Bool := pte &&& PTEP != 0
def tstw (pte : Pte) : Bool := pte &&& PTEW != 0
def setw (pte : Pte) : Pte := pte ||| PTEW
def clrw (pte : Pte) : Pte := pte &&& ~~~PTEW

/-- `paddr`, as the page. -/
def page (pte : Pte) : Nat := pagediv (pte &&& PTEFRAME).toNat

/-- `mapto`, of a page. -/
def mapto (page : Nat) (prot : Pte) : Pte := BitVec.ofNat 32 (page * PAGESIZE) + prot

end Pte

def pteidx (vaddr : Nat) : Nat := pagediv vaddr % 1024

/-- `ptov` of the first byte of a page. -/
def ptov (page : Nat) : Nat := KERNSTART + page * PAGESIZE

/-! ## Memory -/

structure Phys where
  pages : Pages
  /-- The words; the first word of a free page is in `pages`. -/
  mem : Nat → BitVec 32

namespace Phys

/-- The link of `frame_t`. -/
def link : Option Nat → BitVec 32
  | none => 0
  | some page => BitVec.ofNat 32 (ptov page)

def word (s : Phys) (a : Nat) : BitVec 32 :=
  if a % 1024 = 0 ∧ s.pages.refcnt (a / 1024) = 0 then link (s.pages.next (a / 1024))
  else s.mem a

/-- There is nothing mapped above the memory. -/
def load (s : Phys) (a : Nat) : Except Stuck (BitVec 32) :=
  if a / 1024 < s.pages.nphyspage then .ok (s.word a) else .error .assertion

def store (s : Phys) (a : Nat) (v : BitVec 32) : Except Stuck Phys :=
  if a / 1024 < s.pages.nphyspage then .ok { s with mem := fun b => if b = a then v else s.mem b }
  else .error .assertion

/-- `allocpage`; what is in a page that is not cleared stays there. -/
def allocpage (s : Phys) (flags : BitVec 32) : Except Stuck (Option Nat × Phys) :=
  match s.pages.allocpage flags with
  | none => .error .assertion
  | some (.outofmem, _) => .error .outofmem
  | some (.null, pages) => .ok (none, { s with pages := pages })
  | some (.page p, pages) =>
      .ok (some p, ⟨pages, fun a =>
        if a / 1024 = p then (if flags &&& ACLEAR ≠ 0 then 0 else s.word a) else s.mem a⟩)

def freephys (s : Phys) (page : Nat) : Except Stuck Phys :=
  match s.pages.freepage page with
  | none => .error .assertion
  | some pages => .ok { s with pages := pages }

def dupphys (s : Phys) (page : Nat) : Except Stuck Phys :=
  match s.pages.dupphys page with
  | none => .error .assertion
  | some pages => .ok { s with pages := pages }

/-! ## One entry -/

def startpte (s : Phys) (pde : Pte) : Except Stuck Nat :=
  if !pde.tstp then .error .assertion
  else if s.pages.nphyspage < pde.page then .error .assertion
  else .ok (pde.page * 1024)

def getpde (pgd vaddr : Nat) : Nat := pgd * 1024 + pdeidx vaddr

/-- `pde_t::alloc`. -/
def alloc (s : Phys) (pde : Nat) : Except Stuck (Bool × Phys) := do
  let (page, s) ← s.allocpage (AUSER ||| ACLEAR)
  match page with
  | none => .ok (false, s)
  | some page => do
      let s ← s.store pde (Pte.mapto page PROTPGTBL)
      .ok (true, s)

/-- `pde_t::getpte`. -/
def pteof (s : Phys) (pde vaddr : Nat) : Except Stuck Nat := do
  let bits ← s.load pde
  let start ← s.startpte bits
  .ok (start + pteidx vaddr)

/-- `pgtbl_t::getpte`. -/
def getpte (s : Phys) (pgd vaddr : Nat) : Except Stuck (Option Nat × Phys) := do
  let pde := getpde pgd vaddr
  let bits ← s.load pde
  if Pte.tstp bits then
    let pte ← s.pteof pde vaddr
    .ok (some pte, s)
  else
    let (ok, s) ← s.alloc pde
    if !ok then .ok (none, s)
    else
      let pte ← s.pteof pde vaddr
      .ok (some pte, s)

/-- `pgtbl_t::probe`. -/
def probe (s : Phys) (pgd vaddr : Nat) : Except Stuck (Option Nat) := do
  let bits ← s.load (getpde pgd vaddr)
  if Pte.tstp bits then
    let pte ← s.pteof (getpde pgd vaddr) vaddr
    .ok (some pte)
  else .ok none

/-! ## Copying -/

def rounddown2 (vaddr n : Nat) : Nat := vaddr / n * n
def roundup2 (vaddr n : Nat) : Nat := rounddown2 (wrap (vaddr + n - 1)) n

/-- The loop of `explore`, over `n` entries of the directory: where it stops, and
the pointers to the entries there. -/
def exploreFrom (s : Phys) (pgd : Nat) : Nat → Nat → Nat → Except Stuck (Nat × Option (Nat × Nat))
  | 0, from', _ => .ok (from', none)
  | n + 1, from', off => do
      let pde := getpde pgd from'
      let bits ← s.load pde
      if Pte.tstp bits then
        let pte ← s.pteof pde (from' + off)
        .ok (from' + off, some (pde, pte))
      else exploreFrom s pgd n (from' + PDECOVERED) 0

def explore (s : Phys) (pgd start stop : Nat) : Except Stuck (Nat × Option (Nat × Nat)) :=
  if stop < start then .error .assertion
  else
    let off := start % PDECOVERED
    let start := rounddown2 start PDECOVERED
    let stop := roundup2 stop PDECOVERED
    if stop < start then .error .assertion
    else s.exploreFrom pgd ((stop - start) / PDECOVERED) start off

end Phys

/-- `copypgtbl_t`; its pointers are null, which is 0, when it is at its end. -/
structure Copypgtbl where
  dst : Nat
  srcpde : Nat
  dstpde : Nat
  srcpte : Nat
  dstpte : Nat
  curpos : Nat
  /-- `end`. -/
  stop : Nat

namespace Copypgtbl

def more (c : Copypgtbl) : Bool := c.curpos < c.stop

def fromto (s : Phys) (src dst start stop : Nat) : Except Stuck (Int × Copypgtbl × Phys) := do
  if pagemod start ≠ 0 ∨ pagemod stop ≠ 0 then .error .assertion
  else
    let (curpos, found) ← s.explore src start stop
    let null : Copypgtbl := ⟨dst, 0, 0, 0, 0, curpos, stop⟩
    match found with
    -- `explore` has come to the end
    | none => .ok (0, null, s)
    | some (srcpde, srcpte) =>
        if stop ≤ curpos then .ok (0, null, s)
        else do
          let (dstpte, s) ← s.getpte dst curpos
          match dstpte with
          | none => .ok (ENOMEM, null, s)
          | some dstpte =>
              .ok (0, ⟨dst, srcpde, Phys.getpde dst curpos, srcpte, dstpte, curpos, stop⟩, s)

/-- The loop of `next`, with `n` entries of the directory left. -/
def skip : Nat → Phys → Copypgtbl → Except Stuck (Int × Copypgtbl × Phys)
  | 0, s, c => .ok (0, ⟨c.dst, 0, 0, 0, 0, c.curpos, c.stop⟩, s)
  | n + 1, s, c => do
      let bits ← s.load c.srcpde
      if Pte.tstp bits then
        let (dstpte, s) ← s.getpte c.dst c.curpos
        match dstpte with
        | none => .ok (ENOMEM, c, s)
        | some dstpte =>
            .ok (0, { c with dstpte := dstpte, dstpde := Phys.getpde c.dst c.curpos }, s)
      else skip n s { c with srcpde := c.srcpde + 1, curpos := c.curpos + PDECOVERED }

/-- `next`.  `srcpte` goes on to the word behind its table. -/
def next (s : Phys) (c : Copypgtbl) : Except Stuck (Int × Copypgtbl × Phys) :=
  let c := { c with
    srcpte := c.srcpte + 1
    dstpte := c.dstpte + 1
    curpos := c.curpos + PAGESIZE }
  if c.curpos % PDECOVERED ≠ 0 then .ok (0, c, s)
  else
    skip ((c.stop - c.curpos + PDECOVERED - 1) / PDECOVERED) s
      { c with srcpde := c.srcpde + 1, dstpde := c.dstpde + 1 }

end Copypgtbl

/-- The body of the loop of `copypte`, up to `next`. -/
def copyone (s : Phys) (c : Copypgtbl) : Except Stuck Phys := do
  let bits ← s.load c.srcpte
  let s ← s.store c.dstpte bits
  if Pte.none bits then .ok s
  else if Pte.tstw bits then
    let s ← s.store c.srcpte (Pte.clrw bits)
    let s ← s.store c.dstpte (Pte.clrw bits)
    s.dupphys (Pte.page bits)
  else s.dupphys (Pte.page bits)

/-- The loop of `copypte`, for `n` pages at most. -/
def copyptes : Nat → Phys → Copypgtbl → Except Stuck (Int × Phys)
  | 0, s, _ => .ok (0, s)
  | n + 1, s, c =>
      if !c.more then .ok (0, s)
      else do
        let s ← copyone s c
        let (e, c, s) ← c.next s
        if e ≠ 0 then .ok (e, s) else copyptes n s c

def copypte (s : Phys) (x y start stop : Nat) : Except Stuck (Int × Phys) := do
  let (e, c, s) ← Copypgtbl.fromto s x y start stop
  if e ≠ 0 then .ok (e, s) else copyptes ((stop - start) / PAGESIZE) s c

/-! ## Scanning -/

/-- `scanpgtbl_t`; its pointers are null, which is 0, when it is at its end. -/
structure Scanpgtbl where
  pde : Nat
  pte : Nat
  curpos : Nat
  /-- `end`. -/
  stop : Nat

namespace Scanpgtbl

def more (c : Scanpgtbl) : Bool := c.curpos < c.stop

/-- The constructor. -/
def start (s : Phys) (pgd start stop : Nat) : Except Stuck Scanpgtbl := do
  if stop < start then .error .assertion
  else if pagemod start ≠ 0 ∨ pagemod stop ≠ 0 then .error .assertion
  else
    let (curpos, found) ← s.explore pgd start stop
    match found with
    | none => .ok ⟨0, 0, curpos, stop⟩
    | some (pde, pte) => .ok ⟨pde, pte, curpos, stop⟩

/-- The loop of `next`, with `n` entries of the directory left. -/
def skip : Nat → Phys → Scanpgtbl → Except Stuck Scanpgtbl
  | 0, _, c => .ok ⟨0, 0, c.curpos, c.stop⟩
  | n + 1, s, c => do
      let bits ← s.load c.pde
      if Pte.tstp bits then
        let pte ← s.startpte bits
        .ok { c with pte := pte }
      else skip n s { c with pde := c.pde + 1, curpos := c.curpos + PDECOVERED }

def next (s : Phys) (c : Scanpgtbl) : Except Stuck Scanpgtbl :=
  let c := { c with pte := c.pte + 1, curpos := c.curpos + PAGESIZE }
  if c.curpos % PDECOVERED ≠ 0 then .ok c
  else
    skip ((c.stop - c.curpos + PDECOVERED - 1) / PDECOVERED) s { c with pde := c.pde + 1 }

end Scanpgtbl

/-- The body of the loop of `seg_t::unmap`. -/
def unmapone (s : Phys) (pte : Nat) : Except Stuck Phys := do
  let bits ← s.load pte
  if Pte.tstp bits then
    let s ← s.freephys (Pte.page bits)
    s.store pte 0
  else .ok s

/-- The loop of `seg_t::unmap`, for `n` pages at most. -/
def unmapptes : Nat → Phys → Scanpgtbl → Except Stuck Phys
  | 0, s, _ => .ok s
  | n + 1, s, c =>
      if !c.more then .ok s
      else do
        let s ← unmapone s c.pte
        let c ← c.next s
        unmapptes n s c

/-- `seg_t::unmap`. -/
def unmap (s : Phys) (pgd start stop : Nat) : Except Stuck Phys := do
  let c ← Scanpgtbl.start s pgd start stop
  unmapptes ((stop - start) / PAGESIZE) s c

namespace Pgtbl

/-- The loop of `pgtbl_t::none`, for `n` pages at most. -/
def noneptes : Nat → Phys → Scanpgtbl → Except Stuck Bool
  | 0, _, _ => .ok true
  | n + 1, s, c =>
      if !c.more then .ok true
      else do
        let bits ← s.load c.pte
        if !Pte.none bits then .ok false
        else
          let c ← c.next s
          noneptes n s c

/-- `pgtbl_t::none`. -/
def none (s : Phys) (pgd start stop : Nat) : Except Stuck Bool := do
  let c ← Scanpgtbl.start s pgd start stop
  noneptes ((stop - start) / PAGESIZE) s c

end Pgtbl

/-- The loop of `freetree`, over `n` entries of the directory from `pde` on. -/
def freepdes : Nat → Phys → Nat → Except Stuck Phys
  | 0, s, _ => .ok s
  | n + 1, s, pde => do
      let bits ← s.load pde
      if Pte.tstp bits then
        let s ← s.freephys (Pte.page bits)
        let s ← s.store pde 0
        freepdes n s (pde + 1)
      else freepdes n s (pde + 1)

/-- `pgtbl_t::operator delete`, with `freetree`. -/
def deletepgtbl (s : Phys) (pgd : Nat) : Except Stuck Phys := do
  if ← Pgtbl.none s pgd 0 USEREND then
    let s ← freepdes (pdeidx USEREND) s (Phys.getpde pgd 0)
    s.freephys pgd
  else .error .assertion

/-! ## The loop ends -/

variable {s s' : Phys} {c c' : Copypgtbl} {e : Int}

end Unixlite.Paging
