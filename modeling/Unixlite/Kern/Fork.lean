import Unixlite.Mm.Clone

/-!
# Forking

Port of `task_t::clone` and `filesys_t::clone` from `kern/fork.cc`, with the
clones of the descriptors and of the signal actions; the task table and the
process groups are in `Kern.Proc`.  A clone that fails takes nothing back.
-/

namespace Unixlite.Paging

open Unixlite.Mm Unixlite.Verified.Partial

/-- `task_t`, as far as it is cloned here. -/
structure Task where
  mm : Mm
  root : Option Nat
  cwd : Option Nat
  fdvec : List (Option Nat)

structure Kernel where
  mach : Machine
  /-- `refcnt` of each `fdes_t`. -/
  fdes : Nat → Int

def sizeofTask : Nat := 400
def sizeofFilesys : Nat := 12
def sizeofFdvec : Nat := 264
def sizeofSigvec : Nat := 512

namespace Kernel

def new (s : Kernel) (size : Nat) : Except Stuck Kernel := do
  let mach ← s.mach.new size
  .ok { s with mach := mach }

/-- `filesys_t::clone`. -/
def clonefs (s : Kernel) (root cwd : Option Nat) : Except Stuck Kernel := do
  let s ← s.new sizeofFilesys
  let mach ← s.mach.hold root
  let mach ← mach.hold cwd
  .ok { s with mach := mach }

/-- The loop of `fdvec_t::clone`. -/
def holdfdes : List (Option Nat) → Kernel → Except Stuck Kernel
  | [], s => .ok s
  | none :: vec, s => holdfdes vec s
  | some f :: vec, s =>
      if s.fdes f < 0 then .error .assertion
      else holdfdes vec { s with fdes := fun g => if g = f then s.fdes f + 1 else s.fdes g }

/-- `fdvec_t::clone`. -/
def clonefdvec (s : Kernel) (vec : List (Option Nat)) : Except Stuck Kernel := do
  let s ← s.new sizeofFdvec
  holdfdes vec s

/-- `task_t::clone`: the error, the new task, and what is left.  When there is no
memory for an address space the new task has none, and nobody gets to see it. -/
def clone (s : Kernel) (x : Task) : Except Stuck (Int × Option Task × Kernel) := do
  let s ← s.new sizeofTask
  let (e, mm, mach) ← s.mach.clone x.mm
  let s := { s with mach := mach }
  match mm with
  | none => .ok (e, none, s)
  | some mm => do
      let s ← s.clonefs x.root x.cwd
      let s ← s.clonefdvec x.fdvec
      let s ← s.new sizeofSigvec
      .ok (0, some { x with mm := mm }, s)

end Kernel

/-! ## What a failure is to leave -/

/-- The page is on the free list. -/
def Free (s : Pages) (p : Nat) : Prop :=
  ∃ l, Verified.LinkedList.Linked s.next s.freepageq l ∧ p ∈ l

/-- The entry for an address, if its page is there. -/
def Maps (s : Phys) (pgd vaddr : Nat) (pte : Pte) : Prop :=
  ∃ a, s.probe pgd vaddr = .ok (some a) ∧ s.load a = .ok pte ∧ Pte.tstp pte = true

/-- The page may be written, at once or after a fault. -/
def Writable (s : Phys) (pgd vaddr : Nat) : Prop :=
  ∃ t pte, (t = s ∨ s.wppage pgd vaddr = .ok t) ∧ Maps t pgd vaddr pte ∧ Pte.tstw pte = true

/-- From `s` to `t` nothing is taken, and nothing is lost of the address space `x`. -/
structure Restored (x : Mm) (s t : Machine) : Prop where
  refcnt : ∀ p, t.phys.pages.refcnt p = s.phys.pages.refcnt p
  inodes : ∀ i, t.inodes i = s.inodes i
  allocated : ∀ p, Free t.phys.pages p ↔ Free s.phys.pages p
  readable : ∀ vaddr pte, Maps s.phys x.pgtbl vaddr pte →
    ∃ pte', Maps t.phys x.pgtbl vaddr pte' ∧ Pte.page pte' = Pte.page pte
  writable : ∀ vaddr pte, Maps s.phys x.pgtbl vaddr pte → Pte.tstw pte = true →
    Writable t.phys x.pgtbl vaddr

/-- `mm_t::clone` and `task_t::clone` undo what they have done when they fail. -/
def Undoes (s : Kernel) (x : Task) : Prop :=
  (∀ e y t, s.mach.clone x.mm = .ok (e, y, t) → e ≠ 0 → Restored x.mm s.mach t) ∧
  ∀ e y t, s.clone x = .ok (e, y, t) → e ≠ 0 → Restored x.mm s.mach t.mach

variable {s t : Kernel} {x : Task} {e : Int}

theorem not_restored {s t : Machine} {x : Mm} {p : Nat} (hzero : s.phys.pages.refcnt p = 0)
    (hheld : Held t.phys.pages p) : ¬ Restored x s t := by
  intro h
  exact hheld.ne_zero ((h.refcnt p).trans hzero)

/-- The address space of a task that is cloned in vain stays. -/
theorem clone_fails {y : Option Task} (h : s.clone x = .ok (e, y, t)) (he : e ≠ 0) :
    ∃ p, s.mach.phys.pages.refcnt p = 0 ∧ Held t.mach.phys.pages p := by
  obtain ⟨s₁, hnew, h⟩ := bind_ok h
  obtain ⟨mach, hmach, hnew⟩ := bind_ok hnew
  obtain ⟨⟨e', mm, mach'⟩, hclone, h⟩ := bind_ok h
  cases hnew
  obtain ⟨p, hzero, hheld⟩ := Machine.clone_spec hclone
  cases mm with
  | none =>
      cases h
      exact ⟨p, (Machine.new_spec hmach).2 p hzero, hheld⟩
  | some mm =>
      obtain ⟨s₂, -, h⟩ := bind_ok h
      obtain ⟨s₃, -, h⟩ := bind_ok h
      obtain ⟨s₄, -, h⟩ := bind_ok h
      cases h
      exact absurd rfl he

/-- No clone that fails undoes what it has done. -/
theorem clone_never_undone (s : Kernel) (x : Task) :
    (∀ e y t, s.mach.clone x.mm = .ok (e, y, t) → e ≠ 0 → ¬ Restored x.mm s.mach t) ∧
    ∀ e y t, s.clone x = .ok (e, y, t) → e ≠ 0 → ¬ Restored x.mm s.mach t.mach := by
  constructor
  · intro e y t h _
    obtain ⟨p, hzero, hheld⟩ := Machine.clone_spec h
    exact not_restored hzero hheld
  · intro e y t h he
    obtain ⟨p, hzero, hheld⟩ := clone_fails h he
    exact not_restored hzero hheld

/-! ## A fork that fails -/

/-- 18 pages are free, from page 1 on. -/
def lowpages : Pages where
  nphyspage := 1024
  refcnt := fun p =>
    if p = 0 ∨ (PAGE640K ≤ p ∧ p < 512) then SYSPAGE else if p ≤ 18 then 0 else 1
  next := fun p => if p < 18 then some (p + 1) else none
  freepageq := some 1
  nfreepage := 18
  kernend := 512 * PAGESIZE
  allocbmend := 512
  allocbmok := false

/-- Page 23 has two objects of 512 bytes to give, page 24 two of 32 and page 25 two
of 64. -/
def lowpools : Allockm.Machine :=
  let size page := if page = 23 then 512 else if page = 24 then 32 else 64
  let first page := Allockm.objs (ptov page)
  let nmaxfree page := (PAGESIZE - Allockm.sizeofBucket) / size page
  { mem := fun a =>
      let page := (a - KERNSTART) / PAGESIZE
      if a = first page then first page + size page
      else if a = first page + size page then 0
      else Allockm.FREEOBJMAGIC
    bucket := fun a =>
      let page := (a - KERNSTART) / PAGESIZE
      ⟨if page = 23 then 6 else if page = 24 then 1 else 2, size page, first page, 2, nmaxfree page⟩
    pools := fun k =>
      Allockm.kmpools[k]?.map fun ksize =>
        ⟨ksize, if k = 6 then [ptov 23] else if k = 1 then [ptov 24]
          else if k = 2 then [ptov 25] else [], []⟩
    pages := [ptov 23, ptov 24, ptov 25]
    out := [23, 24, 25].flatMap fun page =>
      (List.range (nmaxfree page - 2)).map fun i =>
        ⟨if page = 23 then 6 else if page = 24 then 1 else 2, first page + (i + 2) * size page⟩ }

/-- A kernel with these pages and pools; in it the page directory, the page table and
the only page of `parent` are the pages 19, 20 and 21. -/
def lowmem : Kernel where
  mach :=
    { phys :=
        { pages := lowpages
          mem := fun a =>
            if a = 19 * 1024 + 32 then Pte.mapto 20 PROTPGTBL
            else if a = 20 * 1024 + 72 then Pte.mapto 21 (PTEU ||| PTEW ||| PTEP)
            else 0 }
      km := lowpools
      inodes := fun _ => 1
      kpgtbl := 256 }
  fdes := fun _ => 1

def parent : Task where
  mm := ⟨[⟨0x08048000, 0x08049000, PROTR ||| PROTW, some 7, 0⟩], 19, 22⟩
  root := some 2
  cwd := some 2
  fdvec := []

/-- The call comes back with `ENOMEM`. -/
def outofmem {α β : Type} (r : Except Stuck (Int × Option α × β)) : Bool :=
  match r with
  | .ok (e, none, _) => e == ENOMEM
  | _ => false

theorem exists_of_outofmem {α β : Type} {r : Except Stuck (Int × Option α × β)}
    (h : outofmem r = true) : ∃ t, r = .ok (ENOMEM, none, t) := by
  unfold outofmem at h
  split at h
  · next e t =>
    have he : e = ENOMEM := by simpa using h
    exact ⟨t, by rw [he]⟩
  · cases h

theorem mm_clone_lowmem : ∃ t, lowmem.mach.clone parent.mm = .ok (ENOMEM, none, t) :=
  exists_of_outofmem (by decide +kernel)

theorem clone_lowmem : ∃ t, lowmem.clone parent = .ok (ENOMEM, none, t) :=
  exists_of_outofmem (by decide +kernel)

/-- Both clones of this task fail, and leave pages behind. -/
theorem clone_never_undone_lowmem :
    (∃ t, lowmem.mach.clone parent.mm = .ok (ENOMEM, none, t) ∧
      ¬ Restored parent.mm lowmem.mach t) ∧
    ∃ t, lowmem.clone parent = .ok (ENOMEM, none, t) ∧
      ¬ Restored parent.mm lowmem.mach t.mach := by
  obtain ⟨t, ht⟩ := mm_clone_lowmem
  obtain ⟨u, hu⟩ := clone_lowmem
  exact ⟨⟨t, ht, (clone_never_undone lowmem parent).1 ENOMEM none t ht (by decide)⟩,
    u, hu, (clone_never_undone lowmem parent).2 ENOMEM none u hu (by decide)⟩

/-- The page directory of the child stays allocated. -/
theorem lowmem_not_undoes : ¬ ∀ s x, Undoes s x := by
  intro hall
  obtain ⟨t, ht⟩ := mm_clone_lowmem
  have hrestored := (hall lowmem parent).1 ENOMEM none t ht (by decide)
  obtain ⟨p, hzero, hheld⟩ := Machine.clone_spec ht
  exact not_restored hzero hheld hrestored

end Unixlite.Paging
