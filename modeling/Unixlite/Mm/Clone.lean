import Unixlite.Mm.Allockm
import Unixlite.Mm.Pgtbl

/-!
# Cloning an address space

Port of `mm_t::mm_t`, `mm_t::clone` and `seg_t::wppage` from `mm/mm.cc`, with the
objects that they make, and of `sharekpgtbl` from `asm/pgtbl.cc`.  A page that has
been given out stays so until it is given back (`Later`), and `mm_t::clone` gives
nothing back.
-/

namespace Unixlite.Paging

open Unixlite.Mm Unixlite.Verified.Partial

/-- `mm_t`. -/
structure Mm where
  segq : List Seg
  /-- The page of the directory. -/
  pgtbl : Nat
  kstack : Nat

structure Machine where
  phys : Phys
  km : Allockm.Machine
  /-- `refcnt` of each inode. -/
  inodes : Nat → Int
  /-- The page of `kpgtbl`. -/
  kpgtbl : Nat

def sizeofMm : Nat := 24
def sizeofSeg : Nat := 36

def KSTACKMAGIC : BitVec 32 := 0x1234567
def ALLOCVMSTART : Nat := 0xFC800000
def ALLOCVMEND : Nat := 0xFCC00000

namespace Phys

/-- `KERNEND`. -/
def kernend (s : Phys) : Nat := KERNSTART + s.pages.nphyspage * PAGESIZE

/-- A page that is never refused, as `AKERN` has it. -/
def newpage (s : Phys) (flags : BitVec 32) : Except Stuck (Nat × Phys) := do
  let (page, s) ← s.allocpage flags
  match page with
  | none => .error .assertion
  | some page => .ok (page, s)

/-- A loop of `sharekpgtbl`, over `n` entries from `i` on. -/
def share (kpgtbl pgd : Nat) : Nat → Nat → Phys → Except Stuck Phys
  | 0, _, s => .ok s
  | n + 1, i, s => do
      let bits ← s.load (kpgtbl * 1024 + i)
      let s ← s.store (pgd * 1024 + i) bits
      share kpgtbl pgd n (i + 1) s

def sharekpgtbl (s : Phys) (kpgtbl pgd : Nat) : Except Stuck Phys := do
  let s ← share kpgtbl pgd (pdeidx s.kernend - pdeidx KERNSTART) (pdeidx KERNSTART) s
  share kpgtbl pgd (pdeidx ALLOCVMEND - pdeidx ALLOCVMSTART) (pdeidx ALLOCVMSTART) s

def wppage (s : Phys) (pgd vaddr : Nat) : Except Stuck Phys := do
  match ← s.probe pgd vaddr with
  | none => .error .assertion
  | some pte => do
      let bits ← s.load pte
      let our := Pte.page bits
      if s.pages.nphyspage ≤ our then .error .assertion
      else if s.pages.refcnt our ≤ 0 then .error .assertion
      else if s.pages.refcnt our = 1 then s.store pte (Pte.setw bits)
      else
        let (my, s) ← s.allocpage AUSER
        match my with
        | none => .error .outofmem
        | some my => do
            let s ← s.store pte (Pte.mapto my (PTEU ||| PTEW ||| PTEP))
            .ok ⟨s.pages.setRefcnt our (s.pages.refcnt our - 1), fun a =>
              if a / 1024 = my then s.word (our * 1024 + a % 1024) else s.mem a⟩

end Phys

namespace Machine

/-- `operator new`. -/
def new (s : Machine) (size : Nat) : Except Stuck Machine :=
  match s.km.allockm size none false with
  | none => .error .assertion
  | some (some _, km) => .ok { s with km := km }
  | some (none, _) => do
      -- the pool has no free object
      let (page, phys) ← s.phys.newpage AKERN
      match s.km.allockm size (some (ptov page)) false with
      | some (some _, km) => .ok { s with phys := phys, km := km }
      | _ => .error .assertion

/-- `new mm_t()`. -/
def newmm (s : Machine) : Except Stuck (Mm × Machine) := do
  let s ← s.new sizeofMm
  let (pgtbl, phys) ← s.phys.newpage (AKERN ||| ACLEAR)
  let phys ← phys.sharekpgtbl s.kpgtbl pgtbl
  let (kstack, phys) ← phys.newpage AKERN
  let phys ← phys.store (kstack * 1024) KSTACKMAGIC
  .ok (⟨[], pgtbl, kstack⟩, { s with phys := phys })

/-- `hold`, of an inode that is there. -/
def hold (s : Machine) : Option Nat → Except Stuck Machine
  | none => .ok s
  | some i =>
      if s.inodes i < 0 then .error .assertion
      else .ok { s with inodes := fun j => if j = i then s.inodes i + 1 else s.inodes j }

/-- The loop of `mm_t::clone`. -/
def cloneSegs (x : Mm) : List Seg → Mm → Machine → Except Stuck (Int × Mm × Machine)
  | [], y, s => .ok (0, y, s)
  | seg :: segq, y, s => do
      let s ← s.new sizeofSeg
      let s ← s.hold seg.inode
      let (e, phys) ← copypte s.phys x.pgtbl y.pgtbl seg.start seg.stop
      let s := { s with phys := phys }
      if e ≠ 0 then .ok (e, y, s) else cloneSegs x segq { y with segq := y.segq ++ [seg] } s

/-- `mm_t::clone`: the error, `*result`, and what is left. -/
def clone (s : Machine) (x : Mm) : Except Stuck (Int × Option Mm × Machine) := do
  let (y, s) ← s.newmm
  let (e, y, s) ← cloneSegs x x.segq y s
  if e ≠ 0 then .ok (e, none, s) else .ok (0, some y, s)

end Machine

/-! ## What stays -/

/-- The page has references.  There is no way around to 0: `dupphys` refuses
`SYSPAGE`. -/
def Held (s : Pages) (p : Nat) : Prop :=
  (0 < s.refcnt p ∧ s.refcnt p < 2 ^ 31) ∨ (-2 ^ 31 ≤ s.refcnt p ∧ s.refcnt p ≤ SYSPAGE)

/-- Pages may have been given out, and references added. -/
def Later (s t : Pages) : Prop := ∀ p, Held s p → Held t p

theorem Later.refl (s : Pages) : Later s s := fun _ h => h

theorem Later.trans {s t u : Pages} (h : Later s t) (h' : Later t u) : Later s u :=
  fun p hp => h' p (h p hp)

theorem Held.ne_zero {s : Pages} {p : Nat} (h : Held s p) : s.refcnt p ≠ 0 := by
  rcases h with h | h
  · omega
  · unfold SYSPAGE at h
    omega

theorem quota_ne_page {s : Pages} {flags : BitVec 32} {p : Nat} :
    s.quota flags ≠ some (some (.page p)) := by
  unfold Pages.quota
  intro h
  split at h
  · split at h
    · cases h
    · cases h
  split at h
  · split at h
    · cases h
    · cases h
  split at h
  · split at h
    · cases h
    · cases h
  · cases h

/-- `allocpage` gives out a page without references, or does nothing. -/
theorem allocpage_cases {s t : Pages} {flags : BitVec 32} {r : Alloc}
    (h : s.allocpage flags = some (r, t)) :
    (∃ p, r = .page p ∧ s.refcnt p = 0 ∧
      t.refcnt = fun q => if q = p then 1 else s.refcnt q) ∨
    ((∀ p, r ≠ .page p) ∧ t = s) := by
  unfold Pages.allocpage at h
  split at h
  · cases h
  split at h
  · cases h
  · next refused hrefused =>
    cases h
    exact .inr ⟨fun p hp => quota_ne_page (hp ▸ hrefused), rfl⟩
  split at h
  · cases h
  split at h
  · cases h
  split at h
  · cases h
  next p _ _ hzero =>
  cases h
  exact .inl ⟨p, rfl, not_not.mp hzero, rfl⟩

namespace Phys

variable {s t : Phys} {flags : BitVec 32} {page : Option Nat}

theorem store_pages {a : Nat} {v : BitVec 32} (h : s.store a v = .ok t) : t.pages = s.pages := by
  unfold store at h
  split at h
  · cases h
    rfl
  · cases h

theorem allocpage_spec (h : s.allocpage flags = .ok (page, t)) :
    (∃ p, page = some p ∧ s.pages.refcnt p = 0 ∧
      t.pages.refcnt = fun q => if q = p then 1 else s.pages.refcnt q) ∨
    (page = none ∧ t = s) := by
  unfold allocpage at h
  split at h
  · cases h
  · cases h
  · next pages hpages =>
    cases h
    rcases allocpage_cases hpages with ⟨p, hp, -⟩ | ⟨-, rfl⟩
    · cases hp
    · exact .inr ⟨rfl, rfl⟩
  · next p pages hpages =>
    cases h
    rcases allocpage_cases hpages with ⟨p', hp, hzero, hcnt⟩ | ⟨hp, -⟩
    · cases hp
      exact .inl ⟨p, rfl, hzero, hcnt⟩
    · exact absurd rfl (hp p)

theorem allocpage_later (h : s.allocpage flags = .ok (page, t)) : Later s.pages t.pages := by
  rcases allocpage_spec h with ⟨p, -, hzero, hcnt⟩ | ⟨-, rfl⟩
  · intro q hq
    have hne : q ≠ p := fun heq => hq.ne_zero (heq ▸ hzero)
    have hsame : t.pages.refcnt q = s.pages.refcnt q := by
      rw [hcnt]
      exact if_neg hne
    unfold Held at *
    rwa [hsame]
  · exact Later.refl _

theorem dupphys_later {p : Nat} (h : s.dupphys p = .ok t) : Later s.pages t.pages := by
  unfold dupphys at h
  split at h
  · cases h
  next pages hpages =>
  cases h
  unfold Pages.dupphys at hpages
  split at hpages
  · cases hpages
  split at hpages
  · cases hpages
  next hsys =>
  cases hpages
  intro q hq
  by_cases hqp : q = p
  · subst hqp
    have hcnt : (s.pages.setRefcnt q (int (s.pages.refcnt q + 1))).refcnt q =
        int (s.pages.refcnt q + 1) := if_pos rfl
    have hint := Int.bmod_def (s.pages.refcnt q + 1) (2 ^ 32)
    unfold Held at *
    rw [hcnt, int, hint]
    unfold SYSPAGE at *
    -- a count that gets too high goes on at the lowest one
    split
    · omega
    · omega
  · have hcnt : (s.pages.setRefcnt p (int (s.pages.refcnt p + 1))).refcnt q =
        s.pages.refcnt q := if_neg hqp
    unfold Held at *
    rwa [hcnt]

theorem store_later {a : Nat} {v : BitVec 32} (h : s.store a v = .ok t) :
    Later s.pages t.pages := by
  rw [store_pages h]
  exact Later.refl _

theorem alloc_later {pde : Nat} {ok : Bool} (h : s.alloc pde = .ok (ok, t)) :
    Later s.pages t.pages := by
  obtain ⟨⟨page, u⟩, hpage, h⟩ := bind_ok h
  have hu := allocpage_later hpage
  cases page with
  | none =>
      cases h
      exact hu
  | some page =>
      obtain ⟨v, hstore, h⟩ := bind_ok h
      cases h
      exact hu.trans (store_later hstore)

theorem getpte_later {pgd vaddr : Nat} {pte : Option Nat} (h : s.getpte pgd vaddr = .ok (pte, t)) :
    Later s.pages t.pages := by
  obtain ⟨bits, -, h⟩ := bind_ok h
  split at h
  · obtain ⟨pte, -, h⟩ := bind_ok h
    cases h
    exact Later.refl _
  · obtain ⟨⟨ok, u⟩, halloc, h⟩ := bind_ok h
    have hu := alloc_later halloc
    dsimp only at h
    split at h
    · cases h
      exact hu
    · obtain ⟨pte, -, h⟩ := bind_ok h
      cases h
      exact hu

end Phys

/-! ## Copying keeps them -/

section

variable {s t : Phys} {c c' : Copypgtbl} {e : Int}

theorem fromto_later {src dst start stop : Nat}
    (h : Copypgtbl.fromto s src dst start stop = .ok (e, c, t)) : Later s.pages t.pages := by
  unfold Copypgtbl.fromto at h
  split at h
  · cases h
  obtain ⟨⟨curpos, found⟩, -, h⟩ := bind_ok h
  cases found with
  | none =>
      cases h
      exact Later.refl _
  | some found =>
      dsimp only at h
      split at h
      · cases h
        exact Later.refl _
      obtain ⟨⟨dstpte, u⟩, hget, h⟩ := bind_ok h
      have hu := Phys.getpte_later hget
      cases dstpte with
      | none | some =>
          cases h
          exact hu

theorem skip_later {n : Nat} (h : Copypgtbl.skip n s c = .ok (e, c', t)) :
    Later s.pages t.pages := by
  induction n generalizing c with
  | zero =>
      cases h
      exact Later.refl _
  | succ n ih =>
      obtain ⟨bits, -, h⟩ := bind_ok h
      split at h
      · obtain ⟨⟨dstpte, u⟩, hget, h⟩ := bind_ok h
        have hu := Phys.getpte_later hget
        cases dstpte with
        | none | some =>
            cases h
            exact hu
      · exact ih h

theorem next_later (h : c.next s = .ok (e, c', t)) : Later s.pages t.pages := by
  unfold Copypgtbl.next at h
  dsimp only at h
  split at h
  · cases h
    exact Later.refl _
  · exact skip_later h

theorem copyone_later (h : copyone s c = .ok t) : Later s.pages t.pages := by
  obtain ⟨bits, -, h⟩ := bind_ok h
  obtain ⟨u, hu, h⟩ := bind_ok h
  have hdst := Phys.store_later hu
  split at h
  · cases h
    exact hdst
  split at h
  · obtain ⟨v, hv, h⟩ := bind_ok h
    obtain ⟨w, hw, h⟩ := bind_ok h
    have hprotected := (Phys.store_later hv).trans (Phys.store_later hw)
    exact hdst.trans (hprotected.trans (Phys.dupphys_later h))
  · exact hdst.trans (Phys.dupphys_later h)

theorem copyptes_later {n : Nat} (h : copyptes n s c = .ok (e, t)) : Later s.pages t.pages := by
  induction n generalizing s c with
  | zero =>
      cases h
      exact Later.refl _
  | succ n ih =>
      unfold copyptes at h
      split at h
      · cases h
        exact Later.refl _
      obtain ⟨u, hone, h⟩ := bind_ok h
      obtain ⟨⟨e', c', v⟩, hnext, h⟩ := bind_ok h
      have hv := (copyone_later hone).trans (next_later hnext)
      dsimp only at h
      split at h
      · cases h
        exact hv
      · exact hv.trans (ih h)

theorem copypte_later {x y start stop : Nat} (h : copypte s x y start stop = .ok (e, t)) :
    Later s.pages t.pages := by
  obtain ⟨⟨e', c, u⟩, hfromto, h⟩ := bind_ok h
  have hu := fromto_later hfromto
  dsimp only at h
  split at h
  · cases h
    exact hu
  · exact hu.trans (copyptes_later h)

end

/-! ## What a clone takes -/

namespace Phys

variable {s t : Phys}

theorem newpage_spec {flags : BitVec 32} {page : Nat} (h : s.newpage flags = .ok (page, t)) :
    s.pages.refcnt page = 0 ∧ Held t.pages page ∧ Later s.pages t.pages ∧
      ∀ p, t.pages.refcnt p = 0 → s.pages.refcnt p = 0 := by
  obtain ⟨⟨r, u⟩, hpage, h⟩ := bind_ok h
  have hlater := allocpage_later hpage
  cases r with
  | none => cases h
  | some page =>
  cases h
  rcases allocpage_spec hpage with ⟨p, hp, hzero, hcnt⟩ | ⟨hp, -⟩
  · cases hp
    refine ⟨hzero, .inl ?_, hlater, fun p hp => ?_⟩
    · simp [hcnt]
    · rw [hcnt] at hp
      dsimp only at hp
      split at hp
      · cases hp
      · exact hp
  · cases hp

theorem share_pages {kpgtbl pgd n i : Nat} (h : share kpgtbl pgd n i s = .ok t) :
    t.pages = s.pages := by
  induction n generalizing s i with
  | zero =>
      cases h
      rfl
  | succ n ih =>
      obtain ⟨bits, -, h⟩ := bind_ok h
      obtain ⟨u, hstore, h⟩ := bind_ok h
      exact (ih h).trans (store_pages hstore)

theorem sharekpgtbl_pages {kpgtbl pgd : Nat} (h : s.sharekpgtbl kpgtbl pgd = .ok t) :
    t.pages = s.pages := by
  obtain ⟨u, hu, h⟩ := bind_ok h
  exact (share_pages h).trans (share_pages hu)

end Phys

namespace Machine

variable {s t : Machine}

/-- `operator new` gives nothing back, and uses no page that is in use. -/
theorem new_spec {size : Nat} (h : s.new size = .ok t) :
    Later s.phys.pages t.phys.pages ∧
      ∀ p, t.phys.pages.refcnt p = 0 → s.phys.pages.refcnt p = 0 := by
  unfold new at h
  split at h
  · cases h
  · cases h
    exact ⟨Later.refl _, fun _ hp => hp⟩
  · obtain ⟨⟨page, phys⟩, hpage, h⟩ := bind_ok h
    obtain ⟨-, -, hlater, hzero⟩ := Phys.newpage_spec hpage
    dsimp only at h
    split at h
    · cases h
      exact ⟨hlater, hzero⟩
    · cases h

/-- The page directory of a new address space is a page that nobody had. -/
theorem newmm_spec {y : Mm} (h : s.newmm = .ok (y, t)) :
    s.phys.pages.refcnt y.pgtbl = 0 ∧ Held t.phys.pages y.pgtbl ∧
      Later s.phys.pages t.phys.pages := by
  obtain ⟨s₁, hnew, h⟩ := bind_ok h
  obtain ⟨⟨pgtbl, s₂⟩, hpgtbl, h⟩ := bind_ok h
  obtain ⟨s₃, hshare, h⟩ := bind_ok h
  obtain ⟨⟨kstack, s₄⟩, hkstack, h⟩ := bind_ok h
  obtain ⟨s₅, hstore, h⟩ := bind_ok h
  cases h
  obtain ⟨hlater₁, hzero₁⟩ := new_spec hnew
  obtain ⟨hzero, hheld, hlater₂, -⟩ := Phys.newpage_spec hpgtbl
  have hlater₃ : Later s₂.pages s₅.pages := by
    rw [Phys.store_pages hstore, ← Phys.sharekpgtbl_pages hshare]
    exact (Phys.newpage_spec hkstack).2.2.1
  exact ⟨hzero₁ pgtbl hzero, hlater₃ pgtbl hheld, hlater₁.trans (hlater₂.trans hlater₃)⟩

theorem hold_phys {i : Option Nat} (h : s.hold i = .ok t) : t.phys = s.phys := by
  unfold hold at h
  split at h
  · cases h
    rfl
  split at h
  · cases h
  · cases h
    rfl

theorem cloneSegs_later {x y y' : Mm} {segq : List Seg} {e : Int}
    (h : cloneSegs x segq y s = .ok (e, y', t)) : Later s.phys.pages t.phys.pages := by
  induction segq generalizing s y with
  | nil =>
      cases h
      exact Later.refl _
  | cons seg segq ih =>
      obtain ⟨s₁, hnew, h⟩ := bind_ok h
      obtain ⟨s₂, hhold, h⟩ := bind_ok h
      obtain ⟨⟨e', phys⟩, hcopy, h⟩ := bind_ok h
      have hlater : Later s.phys.pages phys.pages := by
        have hcopied := copypte_later hcopy
        rw [hold_phys hhold] at hcopied
        exact (new_spec hnew).1.trans hcopied
      dsimp only at h
      split at h
      · cases h
        exact hlater
      · exact hlater.trans (ih h)

/-- However `mm_t::clone` comes back, the directory it has made is still there. -/
theorem clone_spec {x : Mm} {y : Option Mm} {e : Int} (h : s.clone x = .ok (e, y, t)) :
    ∃ p, s.phys.pages.refcnt p = 0 ∧ Held t.phys.pages p := by
  obtain ⟨⟨y₁, s₁⟩, hnew, h⟩ := bind_ok h
  obtain ⟨⟨e', y₂, s₂⟩, hsegs, h⟩ := bind_ok h
  obtain ⟨hzero, hheld, -⟩ := newmm_spec hnew
  have ht : t = s₂ := by
    dsimp only at h
    split at h
    · cases h
      rfl
    · cases h
      rfl
  exact ⟨y₁.pgtbl, hzero, ht ▸ cloneSegs_later hsegs y₁.pgtbl hheld⟩

end Machine

end Unixlite.Paging
