import Unixlite.Mm.Kpgtbl

/-!
# The kernel's mapping over whole runs

The kernel's tables are system pages below the end of the kernel, and nobody writes
to them once `kpgtblinit` is done, so every address space that is ever made copies
the same entries of the directory (`kernel_mapping`).
-/

namespace Unixlite.Paging

open Unixlite.Mm Unixlite.Verified.Partial Unixlite.Verified.Run Option

/-! ## The allocator leaves system pages alone -/

namespace Pages

variable {s t : Pages} {p q n : Nat}

theorem setRefcnt_layout {x : Int} : s.Layout (s.setRefcnt p x) := ⟨rfl, rfl, rfl, rfl⟩

theorem marksys_frame : s.Layout (Pages.marksys n p s) ∧
    ∀ q, (Pages.marksys n p s).refcnt q = if p ≤ q ∧ q < p + n then SYSPAGE else s.refcnt q := by
  induction n generalizing s p with
  | zero =>
      refine ⟨Pages.Layout.refl s, fun q => ?_⟩
      rw [if_neg (by omega)]
      rfl
  | succ n ih =>
      obtain ⟨hlay, hcnt⟩ := ih (s := s.setRefcnt p SYSPAGE) (p := p + 1)
      refine ⟨setRefcnt_layout.trans hlay, fun q => ?_⟩
      rw [Pages.marksys, hcnt q]
      by_cases hq : p + 1 ≤ q ∧ q < p + 1 + n
      · rw [if_pos hq, if_pos (by omega)]
      · rw [if_neg hq]
        by_cases hqp : q = p
        · rw [if_pos (by omega), hqp]
          exact Pages.setRefcnt_self
        · rw [if_neg (by omega), Pages.setRefcnt_ne hqp]

theorem freepage_frame (h : s.freepage p = some t) : s.Layout t ∧ s.refcnt p ≠ SYSPAGE ∧
    ∀ q, q ≠ p → t.refcnt q = s.refcnt q := by
  unfold Pages.freepage at h
  split at h
  · cases h
  split at h
  · cases h
  split at h
  · cases h
  next hsys =>
  split at h
  · cases h
  dsimp only at h
  split at h
  · cases h
    exact ⟨setRefcnt_layout, hsys, fun q hq => Pages.setRefcnt_ne hq⟩
  · cases h
    exact ⟨⟨rfl, rfl, rfl, rfl⟩, hsys, fun q hq => Pages.setRefcnt_ne hq⟩

theorem markfree_frame (h : Pages.markfree n p s = some t) : s.Layout t ∧
    ∀ q, q < p → t.refcnt q = s.refcnt q := by
  induction n generalizing s p with
  | zero =>
      cases h
      exact ⟨Pages.Layout.refl _, fun _ _ => rfl⟩
  | succ n ih =>
      obtain ⟨u, hfree, h⟩ := bind_eq_some_iff.mp h
      obtain ⟨hlay, -, hcnt⟩ := freepage_frame hfree
      obtain ⟨hlay', hcnt'⟩ := ih h
      refine ⟨setRefcnt_layout.trans (hlay.trans hlay'), fun q hq => ?_⟩
      rw [hcnt' q (by omega), hcnt q (by omega), Pages.setRefcnt_ne (by omega)]

theorem dupphys_frame (h : s.dupphys p = some t) : s.Layout t ∧ s.refcnt p ≠ SYSPAGE ∧
    ∀ q, q ≠ p → t.refcnt q = s.refcnt q := by
  unfold Pages.dupphys at h
  split at h
  · cases h
  split at h
  · cases h
  next hsys =>
  cases h
  exact ⟨setRefcnt_layout, hsys, fun q hq => Pages.setRefcnt_ne hq⟩

theorem allocpage_layout {flags : BitVec 32} {r : Alloc} (h : s.allocpage flags = some (r, t)) :
    s.Layout t := by
  unfold Pages.allocpage at h
  split at h
  · cases h
  split at h
  · cases h
  · cases h
    exact Pages.Layout.refl s
  split at h
  · cases h
  split at h
  · cases h
  split at h
  · cases h
  cases h
  exact ⟨rfl, rfl, rfl, rfl⟩

/-- `pagemapinit` marks what is between the first megabyte and the end of boot memory. -/
theorem pagemapinit_frame {b : Boot} (h : Mm.pagemapinit b = some t) :
    t.nphyspage = b.nphysmeg * PAGE1M ∧ t.kernend = b.kernend ∧
      ∀ q, PAGE1M ≤ q → q < b.allocbmend → t.refcnt q = SYSPAGE := by
  obtain ⟨u, hlow, h⟩ := bind_eq_some_iff.mp h
  obtain ⟨hlay, -⟩ := markfree_frame hlow
  obtain ⟨hlay', hcnt'⟩ := markfree_frame h
  have hstart := (marksys_frame (n := 1) (p := 0)).1.trans hlay
  have hmiddle := (marksys_frame (s := u) (n := PAGE1M - PAGE640K) (p := PAGE640K)).1.trans
    (marksys_frame (n := b.allocbmend - PAGE1M) (p := PAGE1M)).1
  have hall := (hstart.trans hmiddle).trans hlay'
  refine ⟨hall.1, hall.2.1, fun q hq hq' => ?_⟩
  rw [hcnt' q hq', (marksys_frame (n := b.allocbmend - PAGE1M) (p := PAGE1M)).2, if_pos]
  omega

end Pages

/-! ## After boot -/

/-- What the rest of the kernel does to pages. -/
inductive KernEvent where
  | alloc (flags : BitVec 32)
  | free (p : Nat)
  | dup (p : Nat)
  | store (a : Nat) (v : BitVec 32)
  | allocbm (size k : Nat)
  | freebm

namespace Phys

/-- One event; `none` when it cannot happen or does not return.  Only `getkpte` writes
to the kernel's tables. -/
def kernstep (i : Image) (nphysbyte : Nat) (s : Phys) : KernEvent → Option Phys
  | .alloc flags => (s.allocpage flags).toOption.map (·.2)
  | .free p => (s.freephys p).toOption
  | .dup p => (s.dupphys p).toOption
  | .store a v => if i.table nphysbyte (a / 1024) then none else (s.store a v).toOption
  | .allocbm size k =>
      (s.pages.allocbm size k).map fun pages =>
        ⟨pages, memset s.mem (pages.kernend - size) 0 size⟩
  | .freebm => s.pages.freebm.map fun pages => { s with pages := pages }

end Phys

/-- The kernel's tables are as `kpgtblinit` has left them, and not to be given out. -/
structure Keeps (i : Image) (nphysbyte : Nat) (m : Bootmem) (s : Phys) : Prop where
  nphyspage : s.pages.nphyspage * PAGESIZE = nphysbyte
  sys : ∀ p, i.table nphysbyte p →
    s.pages.refcnt p = SYSPAGE ∧ (p + 1) * PAGESIZE ≤ s.pages.kernend
  mem : ∀ a, i.table nphysbyte (a / 1024) → s.mem a = m.mem a

section

variable {i : Image} {n : Nat} {m : Bootmem} {s t : Phys}

/-- What is behind the kernel is not in a table. -/
theorem Keeps.memset (h : Keeps i n m s) {p size a : Nat} (hp : s.pages.kernend ≤ p)
    (ha : i.table n (a / 1024)) : memset s.mem p 0 size a = m.mem a := by
  have hend := (h.sys _ ha).2
  unfold Paging.memset
  rw [if_neg]
  · exact h.mem a ha
  · unfold PAGESIZE at hend
    omega

theorem toOption_ok {α : Type} {x : Except Stuck α} {r : α} (h : x.toOption = some r) :
    x = .ok r := by
  cases x with
  | error e => cases h
  | ok a =>
      cases h
      rfl

/-- `allocpage` gives a page that no table is in. -/
theorem Keeps.allocpage (h : Keeps i n m s) {flags : BitVec 32} {r : Option Nat}
    (halloc : s.allocpage flags = .ok (r, t)) : Keeps i n m t := by
  unfold Phys.allocpage at halloc
  split at halloc
  · cases halloc
  · cases halloc
  · next pages hpages =>
      cases halloc
      rcases allocpage_cases hpages with ⟨p, hp, -⟩ | ⟨-, rfl⟩
      · cases hp
      · exact h
  · next p pages hpages =>
      cases halloc
      obtain ⟨hn, hkernend, -⟩ := Pages.allocpage_layout hpages
      rcases allocpage_cases hpages with ⟨p', hp, hzero, hcnt⟩ | ⟨hp, -⟩
      swap
      · exact absurd rfl (hp p)
      cases hp
      have hne : ∀ q, i.table n q → q ≠ p := by
        intro q hq hqp
        have hsys := (h.sys q hq).1
        rw [hqp, hzero] at hsys
        cases hsys
      refine ⟨?_, fun q hq => ⟨?_, ?_⟩, fun a ha => ?_⟩
      · rw [← h.nphyspage, ← hn]
      · show pages.refcnt q = SYSPAGE
        rw [hcnt]
        exact (if_neg (hne q hq)).trans (h.sys q hq).1
      · show _ ≤ pages.kernend
        rw [hkernend]
        exact (h.sys q hq).2
      · exact (if_neg (hne _ ha)).trans (h.mem a ha)

/-- An operation of the allocator that leaves the counts of system pages, and does not
bring the end of the kernel down, leaves the tables. -/
theorem Keeps.pages (h : Keeps i n m s) (pages : Pages)
    (hn : pages.nphyspage = s.pages.nphyspage) (hkernend : s.pages.kernend ≤ pages.kernend)
    (hcnt : ∀ p, s.pages.refcnt p = SYSPAGE → (p + 1) * PAGESIZE ≤ s.pages.kernend →
      pages.refcnt p = SYSPAGE) : Keeps i n m { s with pages := pages } := by
  refine ⟨?_, fun p hp => ?_, h.mem⟩
  · show pages.nphyspage * PAGESIZE = n
    rw [hn, h.nphyspage]
  · obtain ⟨hsys, hend⟩ := h.sys p hp
    exact ⟨hcnt p hsys hend, Nat.le_trans hend hkernend⟩

theorem kernstep_keeps (h : Keeps i n m s) {a : KernEvent}
    (hstep : s.kernstep i n a = some t) : Keeps i n m t := by
  cases a with
  | alloc flags =>
      obtain ⟨⟨r, u⟩, hu, rfl⟩ := map_eq_some_iff.mp hstep
      exact h.allocpage (toOption_ok hu)
  | free p =>
      have hfree := toOption_ok hstep
      unfold Phys.freephys at hfree
      split at hfree
      · cases hfree
      next pages hpages =>
      cases hfree
      obtain ⟨hlay, hp, hcnt⟩ := Pages.freepage_frame hpages
      refine h.pages pages hlay.1 (Nat.le_of_eq hlay.2.1.symm) fun q hq _ => ?_
      rw [hcnt q fun hqp => hp (hqp ▸ hq)]
      exact hq
  | dup p =>
      have hdup := toOption_ok hstep
      unfold Phys.dupphys at hdup
      split at hdup
      · cases hdup
      next pages hpages =>
      cases hdup
      obtain ⟨hlay, hp, hcnt⟩ := Pages.dupphys_frame hpages
      refine h.pages pages hlay.1 (Nat.le_of_eq hlay.2.1.symm) fun q hq _ => ?_
      rw [hcnt q fun hqp => hp (hqp ▸ hq)]
      exact hq
  | store a v =>
      unfold Phys.kernstep at hstep
      dsimp only at hstep
      split at hstep
      · cases hstep
      next hnot =>
      have hstore := toOption_ok hstep
      unfold Phys.store at hstore
      split at hstore
      · cases hstore
        refine ⟨h.nphyspage, h.sys, fun b hb => ?_⟩
        have hne : b ≠ a := fun hba => hnot (hba ▸ hb)
        exact (if_neg hne).trans (h.mem b hb)
      · cases hstore
  | allocbm size k =>
      obtain ⟨pages, hpages, rfl⟩ := map_eq_some_iff.mp hstep
      unfold Pages.allocbm at hpages
      dsimp only at hpages
      split at hpages
      · cases hpages
      split at hpages
      · cases hpages
      cases hpages
      have hround : s.pages.kernend ≤ (s.pages.kernend + 2 ^ k - 1) / 2 ^ k * 2 ^ k := by
        have hdiv := Nat.mod_add_div' (s.pages.kernend + 2 ^ k - 1) (2 ^ k)
        omega
      have hkeeps := h.pages { s.pages with
          kernend := (s.pages.kernend + 2 ^ k - 1) / 2 ^ k * 2 ^ k + size }
        rfl (Nat.le_trans hround (Nat.le_add_right _ _)) fun _ hq _ => hq
      refine ⟨hkeeps.nphyspage, hkeeps.sys, fun a ha => ?_⟩
      refine h.memset ?_ ha
      show _ ≤ (s.pages.kernend + 2 ^ k - 1) / 2 ^ k * 2 ^ k + size - size
      rwa [Nat.add_sub_cancel]
  | freebm =>
      obtain ⟨pages, hpages, rfl⟩ := map_eq_some_iff.mp hstep
      obtain ⟨hlay, hcnt⟩ := Pages.markfree_frame hpages
      refine h.pages pages hlay.1 ?_ fun q hq hend => ?_
      · rw [hlay.2.1]
        unfold PAGESIZE
        dsimp only
        omega
      · rw [hcnt q]
        · exact hq
        · unfold PAGESIZE at *
          omega

/-- `pagemapinit` marks the tables. -/
theorem pagemapinit_keeps {N : Nat} (h : Built i N ((N + 1023) / 1024) N m) (hmeg : N % 256 = 0)
    (hinit : m.pagemapinit = .ok s) : Keeps i (N * PAGESIZE) m s := by
  have hcount : (N * PAGESIZE + PDECOVERED - 1) / PDECOVERED = (N + 1023) / 1024 := by
    unfold PAGESIZE PDECOVERED
    omega
  have hfirst := i.kpgtbl_lt
  have hbss := i.low
  have hin := i.inbss
  -- the tables end where the boot memory in use does
  have htable : ∀ p, i.table (N * PAGESIZE) p →
      PAGE1M ≤ p ∧ (p + 1) * PAGESIZE ≤ m.pages.kernend := by
    intro p hp
    unfold Image.table at hp
    rw [h.kernend]
    unfold PAGE1M PAGESIZE at *
    split
    · omega
    · omega
  unfold Bootmem.pagemapinit at hinit
  split at hinit
  · cases hinit
  next pages hpages =>
  unfold Pages.allocbm at hpages
  dsimp only at hpages
  split at hpages
  · cases hpages
  split at hpages
  · cases hpages
  cases hpages
  dsimp only at hinit
  split at hinit
  swap
  · cases hinit
  next hbounds =>
  split at hinit
  · cases hinit
  next pages hpages =>
  cases hinit
  obtain ⟨hn, hkernend, hsys⟩ := Pages.pagemapinit_frame hpages
  dsimp only at hn hkernend hsys
  refine ⟨?_, fun p hp => ?_, fun a ha => ?_⟩
  · show pages.nphyspage * PAGESIZE = _
    rw [hn, h.nphyspage]
    unfold PAGE1M
    congr 1
    omega
  · obtain ⟨hlow, hhigh⟩ := htable p hp
    refine ⟨hsys p hlow ?_, ?_⟩
    · have hfits := hbounds.2.1
      unfold PAGESIZE at *
      omega
    · show _ ≤ pages.kernend
      omega
  · have hhigh := (htable _ ha).2
    show memset m.mem _ 0 _ a = m.mem a
    unfold memset
    rw [if_neg]
    unfold PAGESIZE at hhigh
    omega

/-! ## Sharing -/

/-- A loop of `sharekpgtbl` copies the entries it goes over. -/
theorem share_spec {kpgtbl pgd : Nat} (k idx : Nat) (hk : kpgtbl < s.pages.nphyspage)
    (hpgd : pgd < s.pages.nphyspage) (hcnt : s.pages.refcnt kpgtbl ≠ 0) (hidx : idx + k ≤ 1024) :
    ∃ t, Phys.share kpgtbl pgd k idx s = .ok t ∧ t.pages = s.pages ∧
      ∀ a, t.mem a =
        if pgd * 1024 + idx ≤ a ∧ a < pgd * 1024 + idx + k
        then s.mem (kpgtbl * 1024 + (a - pgd * 1024)) else s.mem a := by
  induction k generalizing s idx with
  | zero =>
      refine ⟨s, rfl, rfl, fun a => ?_⟩
      rw [if_neg (by omega)]
  | succ k ih =>
      have hload : s.load (kpgtbl * 1024 + idx) = .ok (s.mem (kpgtbl * 1024 + idx)) := by
        have hpage : (kpgtbl * 1024 + idx) / 1024 = kpgtbl := by omega
        unfold Phys.load Phys.word
        rw [hpage, if_pos hk, if_neg fun hc => hcnt hc.2]
      let mem : Nat → BitVec 32 := fun b =>
        if b = pgd * 1024 + idx then s.mem (kpgtbl * 1024 + idx) else s.mem b
      have hstore : s.store (pgd * 1024 + idx) (s.mem (kpgtbl * 1024 + idx)) =
          .ok { s with mem := mem } := by
        have hpage : (pgd * 1024 + idx) / 1024 = pgd := by omega
        unfold Phys.store
        rw [hpage, if_pos hpgd]
      obtain ⟨t, ht, hpages, hmem⟩ :=
        ih (s := { s with mem := mem }) (idx + 1) hk hpgd hcnt (by omega)
      refine ⟨t, ?_, hpages, fun a => ?_⟩
      · unfold Phys.share
        rw [hload, ok_bind, hstore, ok_bind]
        exact ht
      · rw [hmem a]
        dsimp only [mem]
        by_cases ha : pgd * 1024 + (idx + 1) ≤ a ∧ a < pgd * 1024 + (idx + 1) + k
        · rw [if_pos ha, if_neg (by omega), if_pos (by omega)]
        · rw [if_neg ha]
          by_cases hfirst : a = pgd * 1024 + idx
          · subst hfirst
            rw [if_pos rfl, if_pos (by omega), Nat.add_sub_cancel_left]
          · rw [if_neg hfirst, if_neg (by omega)]

/-- A new page directory: a page that was free, cleared. -/
theorem newpage_clear {pgd : Nat} (h : s.newpage (AKERN ||| ACLEAR) = .ok (pgd, t)) :
    s.pages.refcnt pgd = 0 ∧ t.pages.refcnt pgd ≠ 0 ∧
      (pgd < PAGE640K ∨ pgd < s.pages.nphyspage) ∧ t.pages.Layout s.pages ∧
      s.allocpage (AKERN ||| ACLEAR) = .ok (some pgd, t) ∧
      ∀ a, a / 1024 = pgd → t.mem a = 0 := by
  obtain ⟨⟨r, u⟩, halloc, h⟩ := bind_ok h
  cases r with
  | none => cases h
  | some p =>
  cases h
  have hspec := halloc
  unfold Phys.allocpage at hspec
  split at hspec
  · cases hspec
  · cases hspec
  · cases hspec
  next p pages hpages =>
  cases hspec
  obtain ⟨hn, hkernend, hend, hok⟩ := Pages.allocpage_layout hpages
  rcases allocpage_cases hpages with ⟨p, hp, hzero, hcnt⟩ | ⟨hp, -⟩
  swap
  · exact absurd rfl (hp pgd)
  cases hp
  refine ⟨hzero, ?_, ?_, ⟨hn.symm, hkernend.symm, hend.symm, hok.symm⟩, halloc, fun a ha => ?_⟩
  · show pages.refcnt pgd ≠ 0
    rw [hcnt]
    simp
  · have hallocable : s.pages.allocable pgd = true := by
      unfold Pages.allocpage at hpages
      split at hpages
      · cases hpages
      split at hpages
      · cases hpages
      · next hrefused =>
          cases hpages
          exact absurd hrefused quota_ne_page
      split at hpages
      · cases hpages
      split at hpages
      · cases hpages
      next hnot =>
      split at hpages
      · cases hpages
      cases hpages
      simpa using hnot
    simp only [Pages.allocable, Bool.or_eq_true, decide_eq_true_eq] at hallocable
    rcases hallocable with hlow | hhigh
    · exact .inl hlow.2
    · exact .inr hhigh.2
  · dsimp only
    rw [if_pos ha, if_pos (by decide)]

/-- What `sharekpgtbl` copies into a cleared directory. -/
theorem sharekpgtbl_spec {kpgtbl pgd N : Nat} (hN : N * PAGESIZE < MAXPHYSBYTE)
    (hpages : s.pages.nphyspage = N) (hk : kpgtbl < N) (hpgd : pgd < N)
    (hcnt : s.pages.refcnt kpgtbl ≠ 0) :
    ∃ t, s.sharekpgtbl kpgtbl pgd = .ok t ∧ t.pages = s.pages ∧
      (∀ a, a / 1024 ≠ pgd → t.mem a = s.mem a) ∧
      (∀ j < N / 1024, t.mem (pgd * 1024 + (768 + j)) = s.mem (kpgtbl * 1024 + (768 + j))) ∧
      (N % 1024 ≠ 0 →
        t.mem (pgd * 1024 + (768 + N / 1024)) = s.mem (pgd * 1024 + (768 + N / 1024))) := by
  have hcount : pdeidx s.kernend - pdeidx KERNSTART = N / 1024 ∧ pdeidx KERNSTART = 768 := by
    unfold Phys.kernend
    unfold pdeidx KERNSTART USEREND PAGESIZE
    omega
  have hvm : pdeidx ALLOCVMEND - pdeidx ALLOCVMSTART = 1 ∧ pdeidx ALLOCVMSTART = 1010 := by
    decide
  have hlt : N / 1024 < 240 := by
    unfold PAGESIZE MAXPHYSBYTE at hN
    omega
  subst hpages
  obtain ⟨t, ht, htpages, htmem⟩ :=
    share_spec (s.pages.nphyspage / 1024) 768 hk hpgd hcnt (by omega)
  obtain ⟨u, hu, hupages, humem⟩ :=
    @share_spec t kpgtbl pgd 1 1010 (htpages ▸ hk) (htpages ▸ hpgd) (htpages ▸ hcnt) (by omega)
  refine ⟨u, ?_, hupages.trans htpages, fun a ha => ?_, fun j hj => ?_, fun hN => ?_⟩
  · unfold Phys.sharekpgtbl
    rw [hcount.1, hcount.2, hvm.1, hvm.2, ht]
    exact hu
  · rw [humem a, if_neg (by omega), htmem a, if_neg (by omega)]
  · rw [humem, if_neg (by omega), htmem, if_pos (by omega), Nat.add_sub_cancel_left]
  · rw [humem, if_neg (by omega), htmem, if_neg (by omega)]

/-- The directory of a new address space has the kernel's mapping if and only if
`KERNEND` is where an entry of the directory begins. -/
theorem share_directmap {N pgd : Nat} (hbuilt : Built i N ((N + 1023) / 1024) N m)
    (hN : N * PAGESIZE < MAXPHYSBYTE) (hk : i.kpgtbl < N) (h : Keeps i (N * PAGESIZE) m s)
    (hpage : s.newpage (AKERN ||| ACLEAR) = .ok (pgd, t)) :
    ∃ u, t.sharekpgtbl i.kpgtbl pgd = .ok u ∧ DirectMap u.word i.kpgtbl (N * PAGESIZE) ∧
      (DirectMap u.word pgd (N * PAGESIZE) ↔ PDECOVERED ∣ N * PAGESIZE) := by
  obtain ⟨hzero, hheld, hlow, hlay, halloc, hclear⟩ := newpage_clear hpage
  have ht := h.allocpage halloc
  have hsys : ∀ p, i.table (N * PAGESIZE) p → t.pages.refcnt p ≠ 0 := by
    intro p hp
    rw [(ht.sys p hp).1]
    decide
  have hne : ∀ p, i.table (N * PAGESIZE) p → p ≠ pgd := by
    intro p hp hpgd
    have hcnt := (h.sys p hp).1
    rw [hpgd, hzero] at hcnt
    cases hcnt
  have hpages : t.pages.nphyspage = N := Nat.eq_of_mul_eq_mul_right (by decide) ht.nphyspage
  have hpgd : pgd < N := by
    have hbss := i.low
    have hin := i.inbss.1
    rw [hlay.1, hpages] at hlow
    unfold PAGE640K PAGE1M PAGESIZE at *
    omega
  obtain ⟨u, hu, hupages, hframe, hcopy, hlast⟩ := sharekpgtbl_spec hN hpages hk hpgd
    (hsys _ (.inl rfl))
  have hword : ∀ a, u.pages.refcnt (a / 1024) ≠ 0 → u.word a = u.mem a := by
    intro a ha
    unfold Phys.word
    rw [if_neg fun hc => ha hc.2]
  have htable : ∀ a, i.table (N * PAGESIZE) (a / 1024) → u.word a = m.mem a := by
    intro a ha
    rw [hword a (hupages ▸ hsys _ ha), hframe a (hne _ ha)]
    exact ht.mem a ha
  have hentry : ∀ j, j < 1024 → u.word (pgd * 1024 + j) = u.mem (pgd * 1024 + j) := by
    intro j hj
    have hdir : (pgd * 1024 + j) / 1024 = pgd := by omega
    apply hword
    rw [hdir, hupages]
    exact hheld
  have hN' : N ≤ 2 ^ 18 := by
    unfold PAGESIZE MAXPHYSBYTE at hN
    omega
  have hdvd : PDECOVERED ∣ N * PAGESIZE ↔ N % 1024 = 0 := by
    unfold PDECOVERED PAGESIZE
    omega
  refine ⟨u, hu, hbuilt.directmap hN' htable, ?_⟩
  rw [hdvd]
  constructor
  · intro hmaps
    by_contra hrest
    -- the first address whose entry is not copied
    have hidx : pdeidx (KERNSTART + N / 1024 * 1024 * PAGESIZE) = 768 + N / 1024 := by
      unfold pdeidx KERNSTART USEREND PAGESIZE
      omega
    have hlt : N / 1024 * 1024 * PAGESIZE < N * PAGESIZE :=
      Nat.mul_lt_mul_of_pos_right (by omega) (by decide)
    have hmapped := hmaps (KERNSTART + N / 1024 * 1024 * PAGESIZE) (Nat.le_add_right _ _)
      (Nat.add_lt_add_left hlt _)
    have hnone : u.word (Phys.getpde pgd (KERNSTART + N / 1024 * 1024 * PAGESIZE)) = 0 := by
      unfold Phys.getpde
      rw [hidx, hentry _ (by omega), hlast hrest]
      exact hclear _ (by omega)
    unfold translate at hmapped
    rw [hnone, if_neg (by decide)] at hmapped
    cases hmapped
  · intro hwhole vaddr hstart hend
    refine hbuilt.translate hN' hstart hend ?_ htable
    have hidx : ∃ j, j < N / 1024 ∧ pdeidx vaddr = 768 + j := by
      refine ⟨(vaddr - KERNSTART) / 2 ^ 22, ?_, ?_⟩
      · unfold PAGESIZE at hend
        omega
      · unfold pdeidx KERNSTART USEREND at *
        omega
    obtain ⟨j, hj, hidx⟩ := hidx
    have hkernel : i.table (N * PAGESIZE) ((i.kpgtbl * 1024 + (768 + j)) / 1024) := by
      left
      omega
    unfold Phys.getpde
    rw [hidx, hentry _ (by omega), hcopy j hj]
    exact ht.mem _ hkernel

end

/-! ## Every machine -/

section

variable {i : Image} {extmemk : BitVec 32} {m : Bootmem}

theorem main_kpgtbl (h : i.main extmemk = .ok m) (hmax : nphysbyte extmemk < MAXPHYSBYTE) :
    i.kpgtbl < pagediv (nphysbyte extmemk) := by
  have hbuilt := main_built hmax h
  obtain ⟨u, -, h⟩ := bind_ok h
  obtain ⟨pa, hvtop, h⟩ := bind_ok h
  cases h
  unfold Bootmem.vtop at hvtop
  split at hvtop
  · next hin =>
    have hlt := hin.2
    unfold Bootmem.kernend ptov at hlt
    rw [hbuilt.kpgtbl, hbuilt.nphyspage] at hlt
    exact Nat.lt_of_mul_lt_mul_right (Nat.lt_of_add_lt_add_left hlt)
  · cases hvtop

/-- There is room for the page map behind the tables. -/
theorem Image.pagemap_room (i : Image) {N c kend allocbmend : Nat} (hmeg : N % 256 = 0)
    (hhalf : i.firstpte * PAGESIZE < N * PAGESIZE / 2) (hc : c = (N + 1023) / 1024)
    (hkend : kend = if c = 0 then i.kend else (i.firstpte + c) * PAGESIZE)
    (hend : allocbmend = pagediv (i.kend + N * PAGESIZE / 2 + PAGESIZE - 1)) :
    PAGE1M * PAGESIZE ≤ (kend + 2 ^ 2 - 1) / 2 ^ 2 * 2 ^ 2 + N * 4 ∧
      (kend + 2 ^ 2 - 1) / 2 ^ 2 * 2 ^ 2 + N * 4 ≤ allocbmend * PAGESIZE ∧
      allocbmend < N / PAGE1M * PAGE1M := by
  have hlow := i.low
  have hin := i.inbss
  have hfirst : i.firstpte = (i.kend + 4096 - 1) / 4096 := rfl
  rw [if_neg (by unfold PAGESIZE at hhalf; omega)] at hkend
  unfold pagediv at hend
  unfold PAGE1M PAGESIZE at *
  omega

/-- A kernel that fits has its page map made. -/
theorem pagemapinit_ok (hmax : nphysbyte extmemk < MAXPHYSBYTE)
    (hfits : i.Fits (nphysbyte extmemk)) (h : i.main extmemk = .ok m) :
    ∃ s, m.pagemapinit = .ok s ∧ PageSys.Inv ⟨s.pages, fun _ => 0⟩ := by
  have hbuilt := main_built hmax h
  obtain ⟨hbytes, hmeg⟩ := nphysbyte_pages extmemk
  rw [← hbytes] at hfits
  obtain ⟨hhalf, -⟩ := hfits
  obtain ⟨hstart, hroom, hend⟩ :=
    i.pagemap_room hmeg hhalf rfl hbuilt.kernend hbuilt.allocbmend
  rw [← hbuilt.nphyspage] at hstart hroom hend
  obtain ⟨kend, hkend⟩ : ∃ kend, kend =
      (m.pages.kernend + 2 ^ 2 - 1) / 2 ^ 2 * 2 ^ 2 + m.pages.nphyspage * 4 := ⟨_, rfl⟩
  rw [← hkend] at hstart hroom
  obtain ⟨u, hu, hinv⟩ := PageSys.boot_inv
    ⟨m.pages.nphyspage / PAGE1M, kend, m.pages.allocbmend, m.links, hstart, hroom, hend⟩
  obtain ⟨pages, hpages, rfl⟩ := map_eq_some_iff.mp hu
  refine ⟨⟨pages, memset m.mem (kend - m.pages.nphyspage * 4) 0 (m.pages.nphyspage * 4)⟩, ?_,
    hinv⟩
  unfold Bootmem.pagemapinit Pages.allocbm
  rw [hbuilt.allocbmok, if_neg (by decide), ← hkend, if_neg (Nat.not_lt.mpr hroom)]
  dsimp only
  rw [dif_pos ⟨hstart, hroom, hend⟩, hpages]

/-- A page directory can be had when boot is done. -/
theorem newpage_boot {s : Phys} (h : PageSys.Inv ⟨s.pages, fun _ => 0⟩) :
    ∃ pgd t, s.newpage (AKERN ||| ACLEAR) = .ok (pgd, t) := by
  have hfree : s.pages.nfreepage ≠ 0 := by
    obtain ⟨l, -, hmem, hlen⟩ := h.list
    have hone : 1 ∈ l := by
      have hm : PageSys.managed s.pages 1 := .inl ⟨Nat.le_refl 1, by decide⟩
      exact (hmem 1).mpr ⟨hm, (h.refs 1 hm).1⟩
    have hpos := List.length_pos_of_mem hone
    intro hzero
    rw [hzero] at hlen
    omega
  have hquota : s.pages.quota (AKERN ||| ACLEAR) = some none := by
    unfold Pages.quota
    rw [if_neg (by decide), if_neg (by decide), if_pos (by decide), if_neg hfree]
  rcases h.allocpage_cases (AKERN ||| ACLEAR) with ⟨hnone, -⟩ | ⟨r, hr, hsame⟩ | ⟨p, l, -, -, hp⟩
  · rw [hquota] at hnone
    cases hnone
  · unfold Pages.allocpage at hsame
    rw [h.check, hquota] at hsame
    dsimp only at hsame
    split at hsame
    · cases hsame
    split at hsame
    · cases hsame
    split at hsame
    · cases hsame
    split at hsame
    · cases hsame
    · have hpage := congrArg Prod.fst (some.inj hsame)
      exact absurd hpage.symm (hr _)
  · have halloc : ∃ t, s.allocpage (AKERN ||| ACLEAR) = .ok (some p, t) := by
      unfold Phys.allocpage
      rw [hp]
      exact ⟨_, rfl⟩
    obtain ⟨t, ht⟩ := halloc
    refine ⟨p, t, ?_⟩
    unfold Phys.newpage
    rw [ht]
    rfl

/-- What `main` has mapped, and what every new address space gets of it. -/
theorem mapping (hmax : nphysbyte extmemk < MAXPHYSBYTE) (h : i.main extmemk = .ok m)
    {s t u : Phys} {es : List KernEvent} {pgd : Nat} (hinit : m.pagemapinit = .ok s)
    (hexec : exec (Phys.kernstep i (nphysbyte extmemk)) s es = some t)
    (hpage : t.newpage (AKERN ||| ACLEAR) = .ok (pgd, u)) :
    ∃ v, u.sharekpgtbl i.kpgtbl pgd = .ok v ∧ DirectMap v.word i.kpgtbl (nphysbyte extmemk) ∧
      (DirectMap v.word pgd (nphysbyte extmemk) ↔ PDECOVERED ∣ nphysbyte extmemk) := by
  obtain ⟨hbytes, hmeg⟩ := nphysbyte_pages extmemk
  have hbuilt := main_built hmax h
  have hk := main_kpgtbl h hmax
  have hkeeps := pagemapinit_keeps hbuilt hmeg hinit
  rw [← hbytes] at hmax hexec ⊢
  have hrun : Always (Phys.kernstep i (pagediv (nphysbyte extmemk) * PAGESIZE))
      (Keeps i (pagediv (nphysbyte extmemk) * PAGESIZE) m) s es :=
    always_of_step (fun _ _ _ hs hstep => kernstep_keeps hs hstep) es hkeeps
  have ht := (always_iff_exec s es).mp hrun es [] t (List.append_nil es).symm hexec
  exact share_directmap hbuilt hmax hk ht hpage

theorem main_directmap (hmax : nphysbyte extmemk < MAXPHYSBYTE) (h : i.main extmemk = .ok m) :
    DirectMap m.mem i.kpgtbl (nphysbyte extmemk) := by
  obtain ⟨hbytes, -⟩ := nphysbyte_pages extmemk
  have hmap : DirectMap m.mem i.kpgtbl (pagediv (nphysbyte extmemk) * PAGESIZE) :=
    (main_built hmax h).directmap (pages_le hmax) fun _ _ => rfl
  rwa [hbytes] at hmap

end

/-- The kernel that fits boots.  Where it does, `kpgtbl` has all of the memory, and a
new address space has it if and only if the memory is a multiple of 4M. -/
theorem kernel_mapping (i : Image) (extmemk : BitVec 32)
    (hmax : nphysbyte extmemk < MAXPHYSBYTE) :
    (i.Fits (nphysbyte extmemk) →
      ∃ m s, i.main extmemk = .ok m ∧ m.pagemapinit = .ok s) ∧
    ∀ m, i.main extmemk = .ok m →
      DirectMap m.mem i.kpgtbl (nphysbyte extmemk) ∧
      ∀ s es t pgd u, m.pagemapinit = .ok s →
        exec (Phys.kernstep i (nphysbyte extmemk)) s es = some t →
        t.newpage (AKERN ||| ACLEAR) = .ok (pgd, u) →
        ∃ v, u.sharekpgtbl i.kpgtbl pgd = .ok v ∧
          DirectMap v.word i.kpgtbl (nphysbyte extmemk) ∧
          (DirectMap v.word pgd (nphysbyte extmemk) ↔ PDECOVERED ∣ nphysbyte extmemk) := by
  constructor
  · intro hfits
    obtain ⟨m, hm⟩ := main_ok hmax hfits
    obtain ⟨s, hs, -⟩ := pagemapinit_ok hmax hfits hm
    exact ⟨m, s, hm, hs⟩
  · intro m hm
    refine ⟨main_directmap hmax hm, fun s es t pgd u hs ht hpage => ?_⟩
    exact mapping hmax hm hs ht hpage

/-- A kernel of a megabyte. -/
def smallImage : Image where
  bss := 0x180000
  kend := 0x200000
  kpgtbl := 0x180
  mem := fun _ => 0
  low := by decide
  inbss := by decide
  mapped := by decide

theorem kernel_mapping_8M :
    ∃ m s pgd u v, smallImage.main 0x1c00 = .ok m ∧ m.pagemapinit = .ok s ∧
      s.newpage (AKERN ||| ACLEAR) = .ok (pgd, u) ∧
      u.sharekpgtbl smallImage.kpgtbl pgd = .ok v ∧
      DirectMap v.word pgd (nphysbyte 0x1c00) := by
  have hmax : nphysbyte 0x1c00 < MAXPHYSBYTE := by decide
  have hfits : smallImage.Fits (nphysbyte 0x1c00) := by
    unfold Image.Fits
    decide
  obtain ⟨hboots, hmaps⟩ := kernel_mapping smallImage 0x1c00 hmax
  obtain ⟨m, -, hm, -⟩ := hboots hfits
  obtain ⟨s, hs, hinv⟩ := pagemapinit_ok hmax hfits hm
  obtain ⟨pgd, u, hu⟩ := newpage_boot hinv
  obtain ⟨v, hv, -, hiff⟩ := (hmaps m hm).2 s [] s pgd u hs rfl hu
  exact ⟨m, s, pgd, u, v, hm, hs, hu, hv, hiff.mpr (by decide)⟩

/-- With 6M the last two are in no address space. -/
theorem kernel_mapping_6M :
    ∃ m s pgd u v, smallImage.main 0x1400 = .ok m ∧ m.pagemapinit = .ok s ∧
      s.newpage (AKERN ||| ACLEAR) = .ok (pgd, u) ∧
      u.sharekpgtbl smallImage.kpgtbl pgd = .ok v ∧
      ¬ DirectMap v.word pgd (nphysbyte 0x1400) := by
  have hmax : nphysbyte 0x1400 < MAXPHYSBYTE := by decide
  have hfits : smallImage.Fits (nphysbyte 0x1400) := by
    unfold Image.Fits
    decide
  obtain ⟨m, hm⟩ := main_ok hmax hfits
  obtain ⟨s, hs, hinv⟩ := pagemapinit_ok hmax hfits hm
  obtain ⟨pgd, u, hu⟩ := newpage_boot hinv
  obtain ⟨v, hv, -, hiff⟩ := @mapping _ _ _ hmax hm s s u [] pgd hs rfl hu
  refine ⟨m, s, pgd, u, v, hm, hs, hu, hv, fun hmaps => ?_⟩
  have hdvd := hiff.mp hmaps
  revert hdvd
  decide

end Unixlite.Paging
