import Unixlite.Mm.Seg
import Unixlite.Lib.Errno

/-!
# Mapping a file

Port of `insertseg`, `mapto`, `clearfrag`, `mmap`, `seg_t::nopage` and `seg_t::~seg_t`
from `mm/mm.cc` and of `insertlt` from `lib/queue.h`, with the assertions that they
make.  What the pages hold is left out.
-/

namespace Unixlite.Mm

open List

/-- Why a call does not come back. -/
inductive Stuck where
  /-- An assertion fails. -/
  | assertion
  /-- `outofmem`: the task exits. -/
  | outofmem
deriving DecidableEq

def PROTR : BitVec 32 := 1
def PROTX : BitVec 32 := 4

def pagemod (vaddr : Nat) : Nat := vaddr % PAGESIZE
def pdeidx (vaddr : Nat) : Nat := vaddr / 2 ^ 22

/-! ## Pgtbl -/

/-- A page table, and the memory for it. -/
structure Pgtbl where
  /-- The entries of the page directory that are present. -/
  pde : Nat → Bool
  /-- The pages that are mapped. -/
  pte : Nat → Bool
  /-- Whether the next requests for a page find one. -/
  free : Nat → Bool

namespace Pgtbl

/-- `allocpage(AUSER)`. -/
def allocpage (s : Pgtbl) : Bool × Pgtbl := (s.free 0, { s with free := fun n => s.free (n + 1) })

/-- `pgtbl_t::getpte`. -/
def getpte (s : Pgtbl) (vaddr : Nat) : Option Pgtbl :=
  if s.pde (pdeidx vaddr) then some s
  else
    let (ok, s) := s.allocpage
    if ok then some { s with pde := fun i => i == pdeidx vaddr || s.pde i } else none

/-- `mapto`; `none` is `ENOMEM`. -/
def mapto (s : Pgtbl) (vaddr : Nat) : Except Stuck (Option Pgtbl) :=
  match s.getpte vaddr with
  | none => .ok none
  | some s =>
      if s.pte (pagediv vaddr) then .error .assertion
      else .ok (some { s with pte := fun i => i == pagediv vaddr || s.pte i })

end Pgtbl

/-! ## Segments -/

/-- The segments of an `mm_t`, and its page table. -/
structure Space where
  segq : List Seg
  pgtbl : Pgtbl

/-- `seg_t::nopage`, from the kernel. -/
def Space.nopage (s : Space) (seg : Seg) (vaddr : Nat) : Except Stuck Space :=
  if ¬ (seg.start ≤ vaddr ∧ vaddr < seg.stop) then .error .assertion
  else
    let (ok, pgtbl) := s.pgtbl.allocpage
    if !ok then .error .outofmem
    else
      match pgtbl.mapto vaddr with
      | .error e => .error e
      | .ok none => .error .outofmem
      | .ok (some pgtbl) => .ok { s with pgtbl := pgtbl }

/-- `clearfrag`: once its page is there, the end of it is cleared. -/
def Space.clearfrag (s : Space) (start stop : Nat) : Except Stuck Space :=
  if ¬ start < stop then .error .assertion
  else
    match (findseg s.segq start).bind fun k => s.segq[k]? with
    | none => .error .assertion
    | some seg => s.nopage seg start

/-- `insertlt`, with `seg_t::lt`. -/
def insertlt : List Seg → Seg → List Seg
  | [], x => [x]
  | seg :: segq, x => if x.start < seg.start then x :: seg :: segq else seg :: insertlt segq x

def Space.insertseg (s : Space) (x : Seg) : Int × Space :=
  if x.start > x.stop ∨ x.stop > USEREND then (EINVAL, s)
  else (0, { s with segq := insertlt s.segq x })

/-- `seg_t::~seg_t` of a segment that is in the queue of its address space (`linked`)
or in none. -/
def Space.deleteseg (s : Space) (x : Seg) (linked : Bool) : Except Stuck Space :=
  if !linked then .error .assertion
  else
    .ok { segq := s.segq.erase x
          pgtbl := { s.pgtbl with
            pte := fun i => s.pgtbl.pte i && !(pagediv x.start ≤ i && i < pagediv x.stop) } }

/-- `mmap`, with `MAPFIXED`. -/
def Space.mmap (s : Space) (start stop : Nat) (prot : BitVec 32) (inode : Option Nat)
    (offset : Nat) : Except Stuck (Int × Space) := do
  if ¬ start ≤ stop then .error .assertion
  else if inode.isSome ∧ pagemod start ≠ pagemod offset then .ok (EINVAL, s)
  else
    let x : Seg := ⟨pagedown start, pageup stop, prot, inode, pagedown offset⟩
    let (e, s) := s.insertseg x
    if e ≠ 0 then
      let s ← s.deleteseg x false
      .ok (e, s)
    else .ok (0, s)

def Space.anonmap (s : Space) (start stop : Nat) (prot : BitVec 32) :
    Except Stuck (Int × Space) :=
  s.mmap start stop prot none 0

/-! ## What comes back -/

namespace Pgtbl

/-- There is memory for this page, and for its table. -/
def room (s : Pgtbl) (vaddr : Nat) : Bool := s.free 0 && (s.pde (pdeidx vaddr) || s.free 1)

/-- The page is supplied. -/
def supplied (s : Pgtbl) (vaddr : Nat) : Pgtbl where
  pde := fun i => i == pdeidx vaddr || s.pde i
  pte := fun i => i == pagediv vaddr || s.pte i
  free := fun n => s.free (if s.pde (pdeidx vaddr) then n + 1 else n + 2)

end Pgtbl

variable {s s' : Space} {seg x : Seg} {start stop vaddr offset : Nat} {prot : BitVec 32}
  {inode : Option Nat}

theorem Space.nopage_eq (s : Space) (hin : seg.start ≤ vaddr ∧ vaddr < seg.stop) :
    s.nopage seg vaddr =
      if !s.pgtbl.room vaddr then .error .outofmem
      else if s.pgtbl.pte (pagediv vaddr) then .error .assertion
      else .ok { s with pgtbl := s.pgtbl.supplied vaddr } := by
  unfold Space.nopage
  rw [if_neg (not_not.mpr hin)]
  show (if !s.pgtbl.free 0 then _ else _) = _
  cases hfirst : s.pgtbl.free 0 with
  | false => simp [Pgtbl.room, hfirst]
  | true =>
      show (match (match (if s.pgtbl.pde (pdeidx vaddr) then _ else _ : Option Pgtbl) with
        | none => _ | some s => _ : Except Stuck (Option Pgtbl)) with
        | .error e => _ | .ok none => _ | .ok (some pgtbl) => _) = _
      by_cases hpde : s.pgtbl.pde (pdeidx vaddr) = true
      · rw [if_pos hpde]
        have hsame : (fun i => i == pdeidx vaddr || s.pgtbl.pde i) = s.pgtbl.pde := by
          funext i
          by_cases hi : i = pdeidx vaddr
          · rw [hi, hpde, Bool.or_true]
          · rw [beq_false_of_ne hi, Bool.false_or]
        simp only [Pgtbl.room, Pgtbl.supplied, hfirst, hpde, hsame]
        by_cases hpte : s.pgtbl.pte (pagediv vaddr) = true
        · simp [hpte]
        · simp [hpte]
      · rw [if_neg hpde]
        cases hsecond : s.pgtbl.free 1 with
        | false => simp [Pgtbl.room, Pgtbl.allocpage, hfirst, hpde, hsecond]
        | true =>
            by_cases hpte : s.pgtbl.pte (pagediv vaddr) = true
            · simp [Pgtbl.room, Pgtbl.allocpage, hfirst, hpde, hsecond, hpte]
            · simp [Pgtbl.room, Pgtbl.supplied, Pgtbl.allocpage, hfirst, hpde, hsecond, hpte]

/-- The queue is in the order of the addresses. -/
def Sorted (segq : List Seg) : Prop := segq.Pairwise fun x y => x.start ≤ y.start

theorem mem_insertlt {segq : List Seg} : seg ∈ insertlt segq x ↔ seg = x ∨ seg ∈ segq := by
  induction segq with
  | nil => exact mem_cons
  | cons y segq ih =>
      unfold insertlt
      split
      · exact mem_cons
      · rw [mem_cons, ih, mem_cons]
        exact or_left_comm

theorem Sorted.insertlt {segq : List Seg} (h : Sorted segq) (x : Seg) :
    Sorted (insertlt segq x) := by
  induction segq with
  | nil => exact pairwise_singleton _ x
  | cons y segq ih =>
      obtain ⟨hy, hsorted⟩ := pairwise_cons.mp h
      unfold Mm.insertlt
      split
      · next hlt =>
          apply pairwise_cons.mpr
          refine ⟨fun z hz => ?_, h⟩
          rcases mem_cons.mp hz with rfl | hz
          · exact Nat.le_of_lt hlt
          · exact Nat.le_trans (Nat.le_of_lt hlt) (hy z hz)
      · next hlt =>
          apply pairwise_cons.mpr
          refine ⟨fun z hz => ?_, ih hsorted⟩
          rcases mem_insertlt.mp hz with rfl | hz
          · exact Nat.le_of_not_lt hlt
          · exact hy z hz

/-- If some segment contains the address, so does the one that `findseg` finds. -/
theorem Sorted.findseg {segq : List Seg} (h : Sorted segq) (hx : x ∈ segq)
    (hin : x.start ≤ vaddr ∧ vaddr < x.stop) :
    ∃ seg, ((findseg segq vaddr).bind fun k => segq[k]?) = some seg ∧
      seg.start ≤ vaddr ∧ vaddr < seg.stop := by
  have hfind : ((Mm.findseg segq vaddr).bind fun k => segq[k]?) =
      segq.find? fun seg => decide (vaddr < seg.stop) :=
    List.find?_eq_bind_findIdx?_getElem?.symm
  rw [hfind]
  induction segq with
  | nil => cases hx
  | cons y segq ih =>
      obtain ⟨hy, hsorted⟩ := pairwise_cons.mp h
      by_cases hstop : vaddr < y.stop
      · refine ⟨y, List.find?_cons_of_pos (decide_eq_true hstop), ?_, hstop⟩
        rcases mem_cons.mp hx with rfl | hx
        · exact hin.1
        · exact Nat.le_trans (hy x hx) hin.1
      · rcases mem_cons.mp hx with rfl | hx
        · exact absurd hin.2 hstop
        · rw [List.find?_cons_of_neg (by simpa using hstop)]
          exact ih hsorted hx (List.find?_eq_bind_findIdx?_getElem?.symm)

/-- What `clearfrag` does to an address in a segment. -/
theorem Space.clearfrag_eq (s : Space) (hsorted : Sorted s.segq) (hx : x ∈ s.segq)
    (hin : x.start ≤ start ∧ start < x.stop) (hlt : start < stop) :
    s.clearfrag start stop =
      if !s.pgtbl.room start then .error .outofmem
      else if s.pgtbl.pte (pagediv start) then .error .assertion
      else .ok { s with pgtbl := s.pgtbl.supplied start } := by
  obtain ⟨seg, hseg, hinseg⟩ := hsorted.findseg hx hin
  unfold Space.clearfrag
  rw [if_neg (not_not.mpr hlt), hseg]
  exact s.nopage_eq hinseg

/-- The segment from `start` to `stop` can be put into the queue. -/
def Maps (start stop : Nat) : Prop := pagedown start ≤ pageup stop ∧ pageup stop ≤ USEREND

instance : Decidable (Maps start stop) := inferInstanceAs (Decidable (_ ∧ _))

/-- What `mmap` comes to: a segment that cannot be put into the queue is deleted, which
asserts that it is in a queue. -/
theorem Space.mmap_eq (s : Space) : s.mmap start stop prot inode offset =
    if ¬ start ≤ stop then .error .assertion
    else if inode.isSome ∧ pagemod start ≠ pagemod offset then .ok (EINVAL, s)
    else if Maps start stop then .ok (0, { s with
      segq := insertlt s.segq ⟨pagedown start, pageup stop, prot, inode, pagedown offset⟩ })
    else .error .assertion := by
  unfold Space.mmap
  split
  · rfl
  split
  · rfl
  by_cases hmaps : Maps start stop
  · have hin : ¬ (pagedown start > pageup stop ∨ pageup stop > USEREND) := by
      rintro (hgt | hgt)
      · exact Nat.not_le_of_gt hgt hmaps.1
      · exact Nat.not_le_of_gt hgt hmaps.2
    rw [if_pos hmaps]
    dsimp only [Space.insertseg]
    rw [if_neg hin]
    rfl
  · have hin : pagedown start > pageup stop ∨ pageup stop > USEREND := by
      rcases not_and_or.mp hmaps with hle | hle
      · exact .inl (Nat.lt_of_not_le hle)
      · exact .inr (Nat.lt_of_not_le hle)
    rw [if_neg hmaps]
    dsimp only [Space.insertseg]
    rw [if_pos hin]
    rfl

end Unixlite.Mm
