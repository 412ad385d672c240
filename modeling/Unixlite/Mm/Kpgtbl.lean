import Unixlite.Mm.Clone
import Unixlite.Mm.PageRun

/-!
# The kernel's mapping

Port of `init/main.cc` up to `pagemapinit` and of `kpgtblinit` from `asm/pgtbl.cc`,
with the walk of the tables that the processor makes.  `kpgtblinit` goes over pages
and has a table for the last of them, however few they are; `sharekpgtbl` goes over
entries of the directory and stops at the one `KERNEND` is in.  They agree where
`KERNEND` is on a boundary of 4M, to which `main` does not round
(`kernel_mapping`).
-/

namespace Unixlite.Paging

open Unixlite.Mm Unixlite.Verified.Partial Unixlite.Verified.Run
open Phys
open BitVec

def MAXPHYSBYTE : Nat := 0x40000000 - 0x04000000

/-- What `startpaging` maps before there is `kpgtbl`. -/
def BOOTMAPPED : Nat := 2 ^ 22

/-! ## Translation -/

/-- What the processor makes of an address. -/
def translate (word : Nat → BitVec 32) (pgd vaddr : Nat) : Option Nat :=
  let pde := word (getpde pgd vaddr)
  if Pte.tstp pde then
    let pte := word (Pte.page pde * 1024 + pteidx vaddr)
    if Pte.tstp pte then some (Pte.page pte * PAGESIZE + pagemod vaddr) else none
  else none

/-- The directory maps `nphysbyte` bytes from `KERNSTART` on to the bytes from 0 on. -/
def DirectMap (word : Nat → BitVec 32) (pgd nphysbyte : Nat) : Prop :=
  ∀ vaddr, KERNSTART ≤ vaddr → vaddr < KERNSTART + nphysbyte →
    translate word pgd vaddr = some (vaddr - KERNSTART)

/-! ## Boot -/

/-- The kernel as it is loaded: its bss, which has `kpgtbl` in it, ends with it.  All
of it is mapped. -/
structure Image where
  /-- `vtop(&__bss_start)`. -/
  bss : Nat
  /-- `vtop(&_end)`. -/
  kend : Nat
  /-- The page of `kpgtbl`. -/
  kpgtbl : Nat
  mem : Nat → BitVec 32
  low : PAGE1M * PAGESIZE ≤ bss
  inbss : bss ≤ kpgtbl * PAGESIZE ∧ (kpgtbl + 1) * PAGESIZE ≤ kend
  mapped : kend ≤ BOOTMAPPED

/-- `nphysbyte`, as `main` has it of `extmemk`. -/
def nphysbyte (extmemk : BitVec 32) : Nat :=
  ((1024 * 1024 + extmemk * 1024) &&& 0xfff00000#32).toNat

/-- Memory during boot, before there is a page map. -/
structure Bootmem where
  pages : Pages
  /-- The page of `kpgtbl`. -/
  kpgtbl : Nat
  mem : Nat → BitVec 32

/-- `memset`, of whole words. -/
def memset (mem : Nat → BitVec 32) (p v n : Nat) : Nat → BitVec 32 := fun a =>
  if p ≤ 4 * a ∧ 4 * a + 4 ≤ p + n then BitVec.ofNat 32 (v % 256 * 0x01010101) else mem a

namespace Bootmem

/-- `KERNEND`. -/
def kernend (m : Bootmem) : Nat := KERNSTART + m.pages.nphyspage * PAGESIZE

def vtop (m : Bootmem) (vaddr : Nat) : Except Stuck Nat :=
  if KERNSTART ≤ vaddr ∧ vaddr < m.kernend then .ok (vaddr - KERNSTART) else .error .assertion

def load (m : Bootmem) (a : Nat) : Except Stuck (BitVec 32) :=
  if 4 * a + 4 ≤ BOOTMAPPED then .ok (m.mem a) else .error .assertion

def store (m : Bootmem) (a : Nat) (v : BitVec 32) : Except Stuck Bootmem :=
  if 4 * a + 4 ≤ BOOTMAPPED then .ok { m with mem := fun b => if b = a then v else m.mem b }
  else .error .assertion

/-- `allocbm`, with `balign` a power of two: the address, cleared. -/
def allocbm (m : Bootmem) (size k : Nat) : Except Stuck (Nat × Bootmem) :=
  match m.pages.allocbm size k with
  | none => .error .assertion
  | some pages =>
      if pages.kernend ≤ BOOTMAPPED then
        let result := pages.kernend - size
        .ok (KERNSTART + result, { m with pages := pages, mem := memset m.mem result 0 size })
      else .error .assertion

def startpte (m : Bootmem) (pde : Pte) : Except Stuck Nat :=
  if !pde.tstp then .error .assertion
  else if m.pages.nphyspage < pde.page then .error .assertion
  else .ok (pde.page * 1024)

/-- The new table of `getkpte`. -/
def newpte (m : Bootmem) (pde : Nat) : Except Stuck Bootmem := do
  let (result, m) ← m.allocbm PAGESIZE 12
  let pa ← m.vtop result
  m.store pde (BitVec.ofNat 32 pa + PTEU + PTEW + PTEP)

def getkpte (m : Bootmem) (vaddr : Nat) : Except Stuck (Nat × Bootmem) := do
  let pde := getpde m.kpgtbl vaddr
  let bits ← m.load pde
  let m ← if Pte.tstp bits then .ok m else m.newpte pde
  let bits ← m.load pde
  let start ← m.startpte bits
  .ok (start + pteidx vaddr, m)

/-- The body of the loop of `kpgtblinit`, for the page `i`. -/
def mapkpte (m : Bootmem) (i : Nat) : Except Stuck Bootmem := do
  let vaddr := KERNSTART + i * PAGESIZE
  let (pte, m) ← m.getkpte vaddr
  let pa ← m.vtop vaddr
  m.store pte (BitVec.ofNat 32 pa + PTEW + PTEP)

/-- `kpgtblinit`.  The arguments of `memset` are the wrong way round. -/
def kpgtblinit (m : Bootmem) : Except Stuck Bootmem := do
  let m := { m with mem := memset m.mem (m.kpgtbl * PAGESIZE) PAGESIZE 0 }
  let m ← (List.range ((m.kernend - KERNSTART) / PAGESIZE)).foldlM mapkpte m
  let _ ← m.vtop (ptov m.kpgtbl)
  .ok m

/-- The first word of each page as a link, in whatever memory holds. -/
def links (m : Bootmem) (p : Nat) : Option Nat :=
  let word := (m.mem (p * 1024)).toNat
  if word = 0 then none else some ((word - KERNSTART) / PAGESIZE)

/-- `pagemapinit`, with the page map it makes. -/
def pagemapinit (m : Bootmem) : Except Stuck Phys :=
  match m.pages.allocbm (m.pages.nphyspage * 4) 2 with
  | none => .error .assertion
  | some pages =>
      let nphysmeg := pages.nphyspage / PAGE1M
      let size := m.pages.nphyspage * 4
      if h : PAGE1M * PAGESIZE ≤ pages.kernend ∧
          pages.kernend ≤ pages.allocbmend * PAGESIZE ∧
          pages.allocbmend < nphysmeg * PAGE1M then
        let mem := memset m.mem (pages.kernend - size) 0 size
        match Mm.pagemapinit
            ⟨nphysmeg, pages.kernend, pages.allocbmend, m.links, h.1, h.2.1, h.2.2⟩ with
        | none => .error .assertion
        | some pages => .ok ⟨pages, mem⟩
      else .error .assertion

end Bootmem

namespace Image

/-- `allocbminit`, behind `bssinit`. -/
def bootmem (i : Image) (extmemk : BitVec 32) : Bootmem where
  pages := {
    nphyspage := pagediv (nphysbyte extmemk)
    refcnt := fun _ => 0
    next := fun _ => none
    freepageq := none
    nfreepage := 0
    kernend := i.kend
    allocbmend := pagediv (i.kend + nphysbyte extmemk / 2 + PAGESIZE - 1)
    allocbmok := true }
  kpgtbl := i.kpgtbl
  mem := memset i.mem i.bss 0 (i.kend - i.bss)

/-- `main`, up to `kpgtblinit`. -/
def main (i : Image) (extmemk : BitVec 32) : Except Stuck Bootmem :=
  (i.bootmem extmemk).kpgtblinit

/-- The first page behind the kernel, from which on the tables are. -/
def firstpte (i : Image) : Nat := pagediv (i.kend + PAGESIZE - 1)

/-- The pages of the kernel's directory and of its tables. -/
def table (i : Image) (nphysbyte p : Nat) : Prop :=
  p = i.kpgtbl ∨
    i.firstpte ≤ p ∧ p < i.firstpte + (nphysbyte + PDECOVERED - 1) / PDECOVERED

instance (i : Image) (nphysbyte p : Nat) : Decidable (i.table nphysbyte p) :=
  inferInstanceAs (Decidable (_ ∨ _))

/-- There is room for the tables in what is mapped, and for the boot memory. -/
def Fits (i : Image) (nphysbyte : Nat) : Prop :=
  i.firstpte * PAGESIZE < nphysbyte / 2 ∧
    (i.firstpte + (nphysbyte + PDECOVERED - 1) / PDECOVERED) * PAGESIZE ≤ BOOTMAPPED

end Image

/-! ## Entries -/

theorem page_eq (pte : Pte) : pte.page = pte.toNat / 4096 := by
  have hmask : PTEFRAME.toNat >>> 12 = 2 ^ 20 - 1 := by decide
  have hpage : pte.page = (pte.toNat &&& PTEFRAME.toNat) >>> 12 := by
    rw [Nat.shiftRight_eq_div_pow]
    rfl
  rw [hpage, Nat.shiftRight_and_distrib, hmask, Nat.and_two_pow_sub_one_eq_mod,
    Nat.shiftRight_eq_div_pow]
  omega

theorem tstp_iff (pte : Pte) : pte.tstp = true ↔ pte.toNat % 2 = 1 := by
  have hbit : (pte &&& PTEP).toNat = pte.toNat % 2 := by
    exact Nat.and_two_pow_sub_one_eq_mod _ 1
  unfold Pte.tstp
  rw [bne_iff_ne, Ne, ← toNat_inj, hbit]
  change ¬ pte.toNat % 2 = 0 ↔ _
  omega

theorem pde_toNat {x : Nat} (h : x < 2 ^ 22) :
    (BitVec.ofNat 32 x + PTEU + PTEW + PTEP).toNat = x + 7 := by
  have hsum : BitVec.ofNat 32 x + PTEU + PTEW + PTEP = BitVec.ofNat 32 (x + 4 + 2 + 1) := by
    simp only [ofNat_add]
    rfl
  rw [hsum, toNat_ofNat]
  omega

theorem pte_toNat {x : Nat} (h : x < 2 ^ 30) : (BitVec.ofNat 32 x + PTEW + PTEP).toNat = x + 3 := by
  have hsum : BitVec.ofNat 32 x + PTEW + PTEP = BitVec.ofNat 32 (x + 2 + 1) := by
    simp only [ofNat_add]
    rfl
  rw [hsum, toNat_ofNat]
  omega

theorem translate_eq {word : Nat → BitVec 32} {pgd vaddr q p prot prot' : Nat}
    (hpde : (word (getpde pgd vaddr)).toNat = q * 4096 + prot) (hprot : prot < 4096)
    (hodd : prot % 2 = 1) (hpte : (word (q * 1024 + pteidx vaddr)).toNat = p * 4096 + prot')
    (hprot' : prot' < 4096) (hodd' : prot' % 2 = 1) :
    translate word pgd vaddr = some (p * PAGESIZE + pagemod vaddr) := by
  have hq : Pte.page (word (getpde pgd vaddr)) = q := by
    rw [page_eq, hpde]
    omega
  have hp : Pte.page (word (q * 1024 + pteidx vaddr)) = p := by
    rw [page_eq, hpte]
    omega
  have hpresent : Pte.tstp (word (getpde pgd vaddr)) = true := by
    rw [tstp_iff, hpde]
    omega
  have hpresent' : Pte.tstp (word (q * 1024 + pteidx vaddr)) = true := by
    rw [tstp_iff, hpte]
    omega
  unfold translate
  rw [if_pos hpresent, hq, if_pos hpresent', hp]

/-! ## The loop -/

/-- `kpgtblinit` has made `c` tables and mapped the first `k` of `n` pages. -/
structure Built (i : Image) (n c k : Nat) (m : Bootmem) : Prop where
  nphyspage : m.pages.nphyspage = n
  kpgtbl : m.kpgtbl = i.kpgtbl
  allocbmok : m.pages.allocbmok = true
  allocbmend : m.pages.allocbmend = pagediv (i.kend + n * PAGESIZE / 2 + PAGESIZE - 1)
  kernend : m.pages.kernend = if c = 0 then i.kend else (i.firstpte + c) * PAGESIZE
  room : c ≠ 0 → (i.firstpte + c) * PAGESIZE ≤ BOOTMAPPED ∧ i.firstpte + c ≤ n
  pde : ∀ j < 1024, (m.mem (i.kpgtbl * 1024 + j)).toNat =
    if 768 ≤ j ∧ j < 768 + c then (i.firstpte + (j - 768)) * 4096 + 7 else 0
  pte : ∀ j < k, (m.mem (i.firstpte * 1024 + j)).toNat = j * 4096 + 3

section

variable {i : Image} {n c k : Nat} {m t : Bootmem}

theorem Image.kpgtbl_lt (i : Image) : i.kpgtbl < i.firstpte := by
  have hin := i.inbss.2
  unfold Image.firstpte pagediv PAGESIZE at *
  omega

theorem Image.kpgtbl_mapped (i : Image) : (i.kpgtbl + 1) * 4096 ≤ 2 ^ 22 :=
  Nat.le_trans i.inbss.2 i.mapped

theorem pdeidx_page : pdeidx (KERNSTART + k * PAGESIZE) = 768 + k / 1024 ∧
    pteidx (KERNSTART + k * PAGESIZE) = k % 1024 := by
  unfold pdeidx pteidx pagediv KERNSTART USEREND PAGESIZE
  omega

/-- There is room for one more table. -/
def Room (i : Image) (n c : Nat) (m : Bootmem) : Prop :=
  (i.firstpte + c + 1) * PAGESIZE ≤ m.pages.allocbmend * PAGESIZE ∧
    (i.firstpte + c + 1) * PAGESIZE ≤ BOOTMAPPED ∧
    (i.firstpte + c) * PAGESIZE < n * PAGESIZE

instance : Decidable (Room i n c m) := inferInstanceAs (Decidable (_ ∧ _))

/-- One more table, and the entry for it. -/
def withpte (i : Image) (c pde : Nat) (m : Bootmem) : Bootmem :=
  { m with
    pages := { m.pages with kernend := (i.firstpte + c + 1) * PAGESIZE }
    mem := fun b =>
      if b = pde then BitVec.ofNat 32 ((i.firstpte + c) * PAGESIZE) + PTEU + PTEW + PTEP
      else memset m.mem ((i.firstpte + c) * PAGESIZE) 0 PAGESIZE b }

theorem newpte_eq (h : Built i n c k m) {pde : Nat} (hpde : 4 * pde + 4 ≤ BOOTMAPPED) :
    m.newpte pde = if Room i n c m then .ok (withpte i c pde m) else .error .assertion := by
  have hround : (m.pages.kernend + 2 ^ 12 - 1) / 2 ^ 12 * 2 ^ 12 =
      (i.firstpte + c) * PAGESIZE := by
    rw [h.kernend]
    unfold Image.firstpte pagediv PAGESIZE
    split
    · next hzero =>
      rw [hzero]
      rfl
    · omega
  have hend : (i.firstpte + c) * PAGESIZE + PAGESIZE = (i.firstpte + c + 1) * PAGESIZE :=
    (Nat.succ_mul _ _).symm
  have hstart : (i.firstpte + c + 1) * PAGESIZE - PAGESIZE = (i.firstpte + c) * PAGESIZE := by
    rw [← hend, Nat.add_sub_cancel]
  unfold Bootmem.newpte Bootmem.allocbm Pages.allocbm
  dsimp only
  rw [hround, hend, h.allocbmok, if_neg (by decide)]
  by_cases hbm : m.pages.allocbmend * PAGESIZE < (i.firstpte + c + 1) * PAGESIZE
  · rw [if_pos hbm, if_neg fun hc => Nat.not_le.mpr hbm hc.1]
    rfl
  rw [if_neg hbm]
  dsimp only
  by_cases hmapped : (i.firstpte + c + 1) * PAGESIZE ≤ BOOTMAPPED
  swap
  · rw [if_neg hmapped, if_neg fun hc => hmapped hc.2.1]
    rfl
  rw [if_pos hmapped, ok_bind, hstart]
  unfold Bootmem.vtop Bootmem.kernend
  rw [h.nphyspage]
  by_cases hphys : (i.firstpte + c) * PAGESIZE < n * PAGESIZE
  · rw [if_pos ⟨Nat.le_add_right _ _, Nat.add_lt_add_left hphys _⟩, ok_bind,
      if_pos ⟨Nat.not_lt.mp hbm, hmapped, hphys⟩, Nat.add_sub_cancel_left]
    unfold Bootmem.store
    rw [if_pos hpde]
    simp only [withpte, h.nphyspage, h.allocbmok]
  · rw [if_neg fun hc => hphys (Nat.lt_of_add_lt_add_left hc.2), if_neg fun hc => hphys hc.2.2]
    rfl

theorem withpte_built (h : Built i n c k m) (hk : k ≤ c * 1024) (hc : c < 256)
    (hroom : Room i n c m) : Built i n (c + 1) k (withpte i c (i.kpgtbl * 1024 + 768 + c) m) := by
  have hbefore := i.kpgtbl_lt
  obtain ⟨-, hmapped, hphys⟩ := hroom
  have hpage : (i.firstpte + c) * PAGESIZE < 2 ^ 22 := by
    unfold BOOTMAPPED PAGESIZE at *
    omega
  refine ⟨h.nphyspage, h.kpgtbl, h.allocbmok, h.allocbmend, ?_, fun _ => ⟨hmapped, ?_⟩,
    fun j hj => ?_, fun j hj => ?_⟩
  · exact (if_neg (Nat.succ_ne_zero c)).symm
  · have hlt := Nat.lt_of_mul_lt_mul_right hphys
    omega
  · show (if _ then _ else memset _ _ _ _ _ : BitVec 32).toNat = _
    by_cases hj' : j = 768 + c
    · have hentry : (BitVec.ofNat 32 ((i.firstpte + c) * PAGESIZE) + PTEU + PTEW + PTEP).toNat =
          (i.firstpte + c) * PAGESIZE + 7 := pde_toNat (by omega)
      rw [if_pos (by omega), hentry, if_pos (by omega)]
      unfold PAGESIZE
      omega
    · -- the new table is behind `kpgtbl`
      rw [if_neg (by omega), memset, if_neg, h.pde j hj]
      · have hsame : (768 ≤ j ∧ j < 768 + (c + 1)) ↔ (768 ≤ j ∧ j < 768 + c) := by omega
        rw [if_congr hsame rfl rfl]
      · unfold PAGESIZE
        omega
  · show (if _ then _ else memset _ _ _ _ _ : BitVec 32).toNat = _
    rw [if_neg (by omega), memset, if_neg, h.pte j hj]
    unfold PAGESIZE
    omega

/-- `getkpte` where the table is there. -/
theorem getkpte_there (h : Built i n c k m) (hlow : k / 1024 < c) (hc : c ≤ 256) :
    m.getkpte (KERNSTART + k * PAGESIZE) = .ok (i.firstpte * 1024 + k, m) := by
  obtain ⟨hpdeidx, hpteidx⟩ := pdeidx_page (k := k)
  have hmapped := i.kpgtbl_mapped
  obtain ⟨hend, hphys⟩ := h.room (by omega)
  have hbits := h.pde (768 + k / 1024) (by omega)
  rw [if_pos (by omega)] at hbits
  have hpresent : Pte.tstp (m.mem (i.kpgtbl * 1024 + (768 + k / 1024))) = true := by
    rw [tstp_iff, hbits]
    omega
  have hpage : Pte.page (m.mem (i.kpgtbl * 1024 + (768 + k / 1024))) = i.firstpte + k / 1024 := by
    rw [page_eq, hbits]
    omega
  have hload : m.load (getpde m.kpgtbl (KERNSTART + k * PAGESIZE)) =
      .ok (m.mem (i.kpgtbl * 1024 + (768 + k / 1024))) := by
    unfold Bootmem.load getpde
    rw [hpdeidx, h.kpgtbl, if_pos]
    unfold BOOTMAPPED
    omega
  unfold Bootmem.getkpte
  dsimp only
  rw [hload, ok_bind, if_pos hpresent, ok_bind, hload, ok_bind]
  have hsum : (i.firstpte + k / 1024) * 1024 + k % 1024 = i.firstpte * 1024 + k := by omega
  unfold Bootmem.startpte
  rw [hpresent, hpage, if_neg (by decide), if_neg, ok_bind, hpteidx, hsum]
  · rw [h.nphyspage]
    omega

/-- `getkpte` where it is not. -/
theorem getkpte_new (h : Built i n c k m) (hk : k = c * 1024) (hc : c < 256) :
    m.getkpte (KERNSTART + k * PAGESIZE) =
      if Room i n c m then
        (withpte i c (i.kpgtbl * 1024 + 768 + c) m).getkpte (KERNSTART + k * PAGESIZE)
      else .error .assertion := by
  obtain ⟨hpdeidx, -⟩ := pdeidx_page (k := k)
  have hmapped := i.kpgtbl_mapped
  have hidx : k / 1024 = c := by omega
  have hgetpde : getpde i.kpgtbl (KERNSTART + k * PAGESIZE) = i.kpgtbl * 1024 + 768 + c := by
    unfold getpde
    rw [hpdeidx, hidx, Nat.add_assoc]
  have hword : 4 * (i.kpgtbl * 1024 + 768 + c) + 4 ≤ BOOTMAPPED := by
    unfold BOOTMAPPED
    omega
  have habsent : Pte.tstp (m.mem (i.kpgtbl * 1024 + 768 + c)) ≠ true := by
    have hbits := h.pde (768 + c) (by omega)
    rw [if_neg (by omega), ← Nat.add_assoc] at hbits
    rw [Ne, tstp_iff, hbits]
    omega
  have hload : m.load (i.kpgtbl * 1024 + 768 + c) = .ok (m.mem (i.kpgtbl * 1024 + 768 + c)) :=
    if_pos hword
  unfold Bootmem.getkpte
  dsimp only
  rw [h.kpgtbl, hgetpde, hload, ok_bind, if_neg habsent, newpte_eq h hword]
  by_cases hroom : Room i n c m
  · have hbuilt := withpte_built h (Nat.le_of_eq hk) hc hroom
    have hload' : (withpte i c (i.kpgtbl * 1024 + 768 + c) m).load (i.kpgtbl * 1024 + 768 + c) =
        .ok ((withpte i c (i.kpgtbl * 1024 + 768 + c) m).mem (i.kpgtbl * 1024 + 768 + c)) :=
      if_pos hword
    have hpresent : Pte.tstp ((withpte i c (i.kpgtbl * 1024 + 768 + c) m).mem
        (i.kpgtbl * 1024 + 768 + c)) = true := by
      have hbits := hbuilt.pde (768 + c) (by omega)
      rw [if_pos (by omega), ← Nat.add_assoc] at hbits
      rw [tstp_iff, hbits]
      omega
    rw [if_pos hroom, if_pos hroom, ok_bind, hbuilt.kpgtbl, hgetpde, hload', ok_bind,
      ok_bind, if_pos hpresent, ok_bind, hload', ok_bind]
  · rw [if_neg hroom, if_neg hroom]
    rfl

/-- One page, in a table that is there. -/
theorem mapkpte_there (h : Built i n c k m) (hlow : k / 1024 < c) (hc : c ≤ 256) (hk : k < n)
    (hget : m.getkpte (KERNSTART + k * PAGESIZE) = .ok (i.firstpte * 1024 + k, t))
    (ht : Built i n c k t) : ∃ u, m.mapkpte k = .ok u ∧ Built i n c (k + 1) u := by
  have hbefore := i.kpgtbl_lt
  obtain ⟨hend, -⟩ := h.room (by omega)
  have hword : 4 * (i.firstpte * 1024 + k) + 4 ≤ BOOTMAPPED := by
    unfold PAGESIZE at hend
    omega
  have hlt : k * PAGESIZE < n * PAGESIZE := Nat.mul_lt_mul_of_pos_right hk (by decide)
  have hvtop : t.vtop (KERNSTART + k * PAGESIZE) = .ok (k * PAGESIZE) := by
    unfold Bootmem.vtop Bootmem.kernend
    rw [ht.nphyspage, if_pos ⟨Nat.le_add_right _ _, Nat.add_lt_add_left hlt _⟩,
      Nat.add_sub_cancel_left]
  let mem : Nat → BitVec 32 := fun b =>
    if b = i.firstpte * 1024 + k then BitVec.ofNat 32 (k * PAGESIZE) + PTEW + PTEP else t.mem b
  refine ⟨{ t with mem := mem }, ?_, ht.nphyspage, ht.kpgtbl, ht.allocbmok, ht.allocbmend,
    ht.kernend, ht.room, fun j hj => ?_, fun j hj => ?_⟩
  · unfold Bootmem.mapkpte
    dsimp only
    rw [hget, ok_bind]
    rw [hvtop, ok_bind]
    exact if_pos hword
  · show (if _ then _ else _ : BitVec 32).toNat = _
    rw [if_neg (by omega)]
    exact ht.pde j hj
  · show (if _ then _ else _ : BitVec 32).toNat = _
    by_cases hjk : j = k
    · subst hjk
      have hpage : j * PAGESIZE < 2 ^ 30 := by
        unfold PAGESIZE
        omega
      rw [if_pos rfl, pte_toNat hpage]
      rfl
    · rw [if_neg (by omega)]
      exact ht.pte j (by omega)

/-- One turn of the loop: it is stuck only where there is no room for a table. -/
theorem mapkpte_cases (h : Built i n ((k + 1023) / 1024) k m) (hn : n ≤ 2 ^ 18) (hk : k < n) :
    (∃ u, m.mapkpte k = .ok u ∧ Built i n ((k + 1 + 1023) / 1024) (k + 1) u) ∨
      m.mapkpte k = .error .assertion ∧ k % 1024 = 0 ∧ ¬ Room i n ((k + 1023) / 1024) m := by
  by_cases hnew : k % 1024 = 0
  · have hc : (k + 1 + 1023) / 1024 = (k + 1023) / 1024 + 1 := by omega
    have hk' : k = (k + 1023) / 1024 * 1024 := by omega
    have hget := getkpte_new h hk' (by omega)
    by_cases hroom : Room i n ((k + 1023) / 1024) m
    · have ht := withpte_built h (Nat.le_of_eq hk') (by omega) hroom
      have hget' := getkpte_there ht (by omega) (by omega)
      rw [if_pos hroom, hget'] at hget
      rw [hc]
      left
      have hthere := mapkpte_there ht (by omega) (by omega) hk hget' ht
      have hsame : m.mapkpte k =
          (withpte i ((k + 1023) / 1024) (i.kpgtbl * 1024 + 768 + (k + 1023) / 1024) m).mapkpte
            k := by
        unfold Bootmem.mapkpte
        dsimp only
        rw [hget, hget']
      rw [hsame]
      exact hthere
    · rw [if_neg hroom] at hget
      right
      refine ⟨?_, hnew, hroom⟩
      unfold Bootmem.mapkpte
      dsimp only
      rw [hget]
      rfl
  · have hc : (k + 1 + 1023) / 1024 = (k + 1023) / 1024 := by omega
    rw [hc]
    exact .inl (mapkpte_there h (by omega) (by omega) hk
      (getkpte_there h (by omega) (by omega)) h)

/-- In a kernel that fits there is room. -/
theorem Built.fits (h : Built i n c k m) (hfits : i.Fits (n * PAGESIZE)) (hmeg : n % 256 = 0)
    (hc : c < (n + 1023) / 1024) : Room i n c m := by
  obtain ⟨hhalf, hmapped⟩ := hfits
  unfold Room
  rw [h.allocbmend]
  unfold Image.firstpte pagediv PAGESIZE PDECOVERED BOOTMAPPED at *
  omega

/-! ## The kernel's own directory -/

theorem nphysbyte_meg (extmemk : BitVec 32) : nphysbyte extmemk % 2 ^ 20 = 0 := by
  unfold nphysbyte
  have hmask : (0xfff00000#32).toNat % 2 ^ 20 = 0 := by decide
  rw [toNat_and, Nat.and_mod_two_pow, hmask, Nat.and_zero]

theorem nphysbyte_pages (extmemk : BitVec 32) :
    pagediv (nphysbyte extmemk) * PAGESIZE = nphysbyte extmemk ∧
      pagediv (nphysbyte extmemk) % 256 = 0 := by
  have hmeg := nphysbyte_meg extmemk
  unfold pagediv PAGESIZE
  omega

theorem bootmem_built (i : Image) (extmemk : BitVec 32) :
    Built i (pagediv (nphysbyte extmemk)) 0 0 { i.bootmem extmemk with
      mem := memset (i.bootmem extmemk).mem ((i.bootmem extmemk).kpgtbl * PAGESIZE) PAGESIZE 0 } := by
  have hhalf := (nphysbyte_pages extmemk).1
  refine ⟨rfl, rfl, rfl, ?_, rfl, nofun, fun j hj => ?_, nofun⟩
  · rw [hhalf]
    rfl
  · -- `bssinit` has cleared it
    have hin := i.inbss
    show (memset _ _ _ _ _).toNat = _
    rw [memset, if_neg (by omega), if_neg (by omega)]
    show (memset _ _ _ _ _).toNat = _
    rw [memset, if_pos]
    · rfl
    · unfold PAGESIZE at hin
      omega

theorem pages_le {extmemk : BitVec 32} (hmax : nphysbyte extmemk < MAXPHYSBYTE) :
    pagediv (nphysbyte extmemk) ≤ 2 ^ 18 := by
  unfold MAXPHYSBYTE at hmax
  unfold pagediv PAGESIZE
  omega

theorem kpgtblinit_pages (extmemk : BitVec 32) :
    ((i.bootmem extmemk).kernend - KERNSTART) / PAGESIZE = pagediv (nphysbyte extmemk) := by
  show (KERNSTART + pagediv (nphysbyte extmemk) * PAGESIZE - KERNSTART) / PAGESIZE = _
  rw [Nat.add_sub_cancel_left, Nat.mul_div_cancel _ (by decide)]

theorem main_built {extmemk : BitVec 32} (hmax : nphysbyte extmemk < MAXPHYSBYTE)
    (h : i.main extmemk = .ok m) :
    Built i (pagediv (nphysbyte extmemk)) ((pagediv (nphysbyte extmemk) + 1023) / 1024)
      (pagediv (nphysbyte extmemk)) m := by
  obtain ⟨u, hfold, h⟩ := bind_ok h
  obtain ⟨pa, -, h⟩ := bind_ok h
  cases h
  have hpages : (Bootmem.kernend { i.bootmem extmemk with
      mem := memset (i.bootmem extmemk).mem ((i.bootmem extmemk).kpgtbl * PAGESIZE) PAGESIZE 0 } -
      KERNSTART) / PAGESIZE = pagediv (nphysbyte extmemk) := kpgtblinit_pages extmemk
  rw [hpages] at hfold
  refine foldlM_range (P := fun k m => Built i (pagediv (nphysbyte extmemk))
    ((k + 1023) / 1024) k m) (fun k s t hk hs ht => ?_) (bootmem_built i extmemk) hfold
  rcases mapkpte_cases hs (pages_le hmax) hk with ⟨u, hu, hbuilt⟩ | ⟨herror, -⟩
  · rw [hu] at ht
    cases ht
    exact hbuilt
  · rw [herror] at ht
    cases ht

/-- A kernel that fits is mapped. -/
theorem main_ok {extmemk : BitVec 32} (hmax : nphysbyte extmemk < MAXPHYSBYTE)
    (hfits : i.Fits (nphysbyte extmemk)) : ∃ m, i.main extmemk = .ok m := by
  obtain ⟨hbytes, hmeg⟩ := nphysbyte_pages extmemk
  rw [← hbytes] at hfits
  have hloop := foldlM_range_ok (f := Bootmem.mapkpte) (n := pagediv (nphysbyte extmemk))
    (P := fun k m => Built i (pagediv (nphysbyte extmemk)) ((k + 1023) / 1024) k m)
    (fun k s hk hs => by
      rcases mapkpte_cases hs (pages_le hmax) hk with hok | ⟨-, hnew, hroom⟩
      · exact hok
      · exact absurd (hs.fits hfits hmeg (by omega)) hroom)
    (bootmem_built i extmemk)
  obtain ⟨m, hfold, hbuilt⟩ := hloop
  refine ⟨m, ?_⟩
  have hvtop : m.vtop (ptov m.kpgtbl) = .ok (m.kpgtbl * PAGESIZE) := by
    have hlt : i.kpgtbl * PAGESIZE < pagediv (nphysbyte extmemk) * PAGESIZE := by
      calc i.kpgtbl * PAGESIZE
          ≤ i.firstpte * PAGESIZE := Nat.mul_le_mul_right _ (Nat.le_of_lt i.kpgtbl_lt)
        _ < pagediv (nphysbyte extmemk) * PAGESIZE / 2 := hfits.1
        _ ≤ pagediv (nphysbyte extmemk) * PAGESIZE := Nat.div_le_self _ _
    unfold Bootmem.vtop Bootmem.kernend ptov
    rw [hbuilt.nphyspage, hbuilt.kpgtbl,
      if_pos ⟨Nat.le_add_right _ _, Nat.add_lt_add_left hlt _⟩, Nat.add_sub_cancel_left]
  unfold Image.main Bootmem.kpgtblinit
  dsimp only
  have hpages : (Bootmem.kernend { i.bootmem extmemk with
      mem := memset (i.bootmem extmemk).mem ((i.bootmem extmemk).kpgtbl * PAGESIZE) PAGESIZE 0 } -
      KERNSTART) / PAGESIZE = pagediv (nphysbyte extmemk) := kpgtblinit_pages extmemk
  rw [hpages, hfold, ok_bind, hvtop]
  rfl

/-- The address of a byte, in a directory that has the kernel's entry for it. -/
theorem Built.translate {word : Nat → BitVec 32} {pgd vaddr : Nat}
    (h : Built i n ((n + 1023) / 1024) n m) (hn : n ≤ 2 ^ 18) (hlow : KERNSTART ≤ vaddr)
    (hhigh : vaddr < KERNSTART + n * PAGESIZE)
    (hpde : word (getpde pgd vaddr) = m.mem (getpde i.kpgtbl vaddr))
    (htable : ∀ a, i.table (n * PAGESIZE) (a / 1024) → word a = m.mem a) :
    translate word pgd vaddr = some (vaddr - KERNSTART) := by
  obtain ⟨k, off, hoff, rfl⟩ : ∃ k off, off < 4096 ∧ vaddr = KERNSTART + k * 4096 + off :=
    ⟨(vaddr - KERNSTART) / 4096, (vaddr - KERNSTART) % 4096, by omega, by omega⟩
  have hk : k < n := by
    unfold PAGESIZE at hhigh
    omega
  have hpdeidx : pdeidx (KERNSTART + k * 4096 + off) = 768 + k / 1024 := by
    unfold pdeidx KERNSTART USEREND
    omega
  have hpteidx : pteidx (KERNSTART + k * 4096 + off) = k % 1024 := by
    unfold pteidx pagediv KERNSTART USEREND PAGESIZE
    omega
  have hdir : (word (getpde pgd (KERNSTART + k * 4096 + off))).toNat =
      (i.firstpte + k / 1024) * 4096 + 7 := by
    rw [hpde]
    unfold getpde
    rw [hpdeidx, h.pde _ (by omega), if_pos (by omega), Nat.add_sub_cancel_left]
  have hidx : (i.firstpte + k / 1024) * 1024 + k % 1024 = i.firstpte * 1024 + k := by omega
  have hpte : (word ((i.firstpte + k / 1024) * 1024 +
      pteidx (KERNSTART + k * 4096 + off))).toNat = k * 4096 + 3 := by
    rw [hpteidx, hidx, htable _ (.inr ?_)]
    · exact h.pte k hk
    · unfold PAGESIZE PDECOVERED
      omega
  have hbyte : k * PAGESIZE + pagemod (KERNSTART + k * 4096 + off) =
      KERNSTART + k * 4096 + off - KERNSTART := by
    have hoff' : pagemod (KERNSTART + k * 4096 + off) = off := by
      simp only [pagemod, PAGESIZE, KERNSTART, USEREND]
      omega
    rw [hoff', Nat.add_assoc KERNSTART, Nat.add_sub_cancel_left, PAGESIZE]
  rw [translate_eq hdir (by decide) rfl hpte (by decide) rfl, hbyte]

theorem Built.directmap {word : Nat → BitVec 32} (h : Built i n ((n + 1023) / 1024) n m)
    (hn : n ≤ 2 ^ 18) (htable : ∀ a, i.table (n * PAGESIZE) (a / 1024) → word a = m.mem a) :
    DirectMap word i.kpgtbl (n * PAGESIZE) := by
  intro vaddr hlow hhigh
  refine h.translate hn hlow hhigh (htable _ (.inl ?_)) htable
  have hlt : pdeidx vaddr < 1024 := by
    unfold pdeidx KERNSTART USEREND PAGESIZE at *
    omega
  unfold getpde
  omega

end

end Unixlite.Paging
