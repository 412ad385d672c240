import Unixlite.Mm.PgtblScan

/-!
# The copy of a page table

`copypgtbl_t` walks two page tables in step.  Where a table of the source ends,
`copypgtbl_t::next` looks up the entry of the destination and leaves the pointer into the source
where it is, behind the table it has come from: `scans_iff` says that the copy comes to the
entries of its source exactly if each table lies in the page behind the one before it.

An entry of the destination is the one of the same address, in a table that is made where there
is none.
-/

namespace Unixlite.Paging

open Unixlite.Mm Unixlite.Verified.Partial Unixlite.Verified.LinkedList
open Unixlite.Mm.Vm (Skips)
open List

/-! ## Entries -/

namespace Pte

variable {page : Nat}

theorem page_eq_div (pte : Pte) : Pte.page pte = pte.toNat / PAGESIZE := by
  have hmask : (pte &&& PTEFRAME) >>> 12 = pte >>> 12 := by
    have hframe : ∀ j < 32, 12 ≤ j → PTEFRAME.getLsbD j = true := by decide
    apply BitVec.eq_of_getLsbD_eq
    intro i hi
    rw [BitVec.getLsbD_ushiftRight, BitVec.getLsbD_ushiftRight, BitVec.getLsbD_and]
    by_cases hin : 12 + i < 32
    · rw [hframe _ hin (Nat.le_add_right 12 i), Bool.and_true]
    · rw [BitVec.getLsbD_of_ge _ _ (Nat.le_of_not_lt hin), Bool.false_and]
  have hshift := congrArg BitVec.toNat hmask
  rw [BitVec.toNat_ushiftRight, BitVec.toNat_ushiftRight, Nat.shiftRight_eq_div_pow,
    Nat.shiftRight_eq_div_pow] at hshift
  exact hshift

/-- What `alloc` puts into the directory. -/
theorem toNat_mapto (hpage : page < 2 ^ 20) :
    (Pte.mapto page PROTPGTBL).toNat = page * PAGESIZE + 7 := by
  have hprot : PROTPGTBL.toNat = 7 := rfl
  rw [Pte.mapto, BitVec.toNat_add, hprot, BitVec.toNat_ofNat]
  simp only [PAGESIZE]
  omega

theorem page_mapto (hpage : page < 2 ^ 20) : Pte.page (Pte.mapto page PROTPGTBL) = page := by
  rw [page_eq_div, toNat_mapto hpage]
  simp only [PAGESIZE]
  omega

theorem tstp_mapto (hpage : page < 2 ^ 20) : Pte.tstp (Pte.mapto page PROTPGTBL) = true := by
  have hbit : (Pte.mapto page PROTPGTBL &&& PTEP).toNat = 1 := by
    rw [BitVec.toNat_and, toNat_mapto hpage, show PTEP.toNat = 1 from rfl, Nat.and_one_is_mod]
    simp only [PAGESIZE]
    omega
  rw [Pte.tstp, bne_iff_ne]
  intro hzero
  rw [hzero] at hbit
  cases hbit

end Pte

/-! ## The two page tables -/

namespace Phys

variable {s t u : Phys} {src dst vaddr page i : Nat}

/-- The pages that users can still get. -/
def spare (s : Phys) : Nat := (s.pages.nfreepage - (DRIVERQUOTA + KERNQUOTA)).toNat

/-- Two page directories that are in use, in a memory whose allocator is in order. -/
structure Pair (s : Phys) (src dst : Nat) : Prop where
  refs : ∃ own, PageSys.Inv ⟨s.pages, own⟩
  /-- Physical addresses have 32 bits. -/
  size : s.pages.nphyspage ≤ 2 ^ 20
  held : s.pages.refcnt src ≠ 0 ∧ s.pages.refcnt dst ≠ 0
  src : s.Directory src
  dst : s.Directory dst

/-- Tables of the destination have been made, and nothing else has become of the two
directories. -/
structure Grows (s t : Phys) (src dst : Nat) : Prop where
  src : ∀ i, i < 1024 → t.word (src * 1024 + i) = s.word (src * 1024 + i)
  dst : ∀ i, i < 1024 → s.table dst i = true → t.word (dst * 1024 + i) = s.word (dst * 1024 + i)

theorem Grows.refl (s : Phys) (src dst : Nat) : Grows s s src dst :=
  ⟨fun _ _ => rfl, fun _ _ _ => rfl⟩

theorem Grows.trans (h : Grows s t src dst) (h' : Grows t u src dst) : Grows s u src dst where
  src := fun i hi => (h'.src i hi).trans (h.src i hi)
  dst := by
    intro i hi htable
    have hmid := h.dst i hi htable
    have htable' : t.table dst i = true := by
      rw [table, hmid]
      exact htable
    exact (h'.dst i hi htable').trans hmid

theorem Grows.table_src (h : Grows s t src dst) (hi : i < 1024) :
    t.table src i = s.table src i := by
  rw [table, table, h.src i hi]

theorem Grows.frame_src (h : Grows s t src dst) (hi : i < 1024) :
    t.frame src i = s.frame src i := by
  rw [frame, frame, h.src i hi]

/-- An entry of the destination stays what it is. -/
theorem Grows.dst_entry (h : Grows s t src dst) (hvaddr : vaddr < USEREND)
    (htable : s.table dst (pdeidx vaddr) = true) :
    t.table dst (pdeidx vaddr) = true ∧ t.entry dst vaddr = s.entry dst vaddr := by
  have hidx : pdeidx vaddr < 1024 := by
    simp only [pdeidx, USEREND] at *
    omega
  have hword := h.dst _ hidx htable
  rw [table, entry, entry, frame, frame, hword]
  exact ⟨htable, rfl⟩

/-- The words of a page that is in use are what has been written there. -/
theorem word_of_held {pgd : Nat} (hheld : s.pages.refcnt pgd ≠ 0) (hi : i < 1024) :
    s.word (pgd * 1024 + i) = s.mem (pgd * 1024 + i) := by
  have hpage : (pgd * 1024 + i) / 1024 = pgd := by omega
  rw [word, hpage, if_neg fun hzero => hheld hzero.2]

/-- A table made for an address. -/
structure Made (s t : Phys) (dst idx page : Nat) : Prop where
  fresh : s.pages.refcnt page = 0
  lt : page < s.pages.nphyspage
  refs : ∃ own, PageSys.Inv ⟨t.pages, own⟩
  nphyspage : t.pages.nphyspage = s.pages.nphyspage
  spare : t.spare + 1 = s.spare
  refcnt : ∀ q, q ≠ page → t.pages.refcnt q = s.pages.refcnt q
  mem : ∀ a, a / 1024 ≠ page → a ≠ dst * 1024 + idx → t.mem a = s.mem a
  entry : t.mem (dst * 1024 + idx) = Pte.mapto page PROTPGTBL

/-- `alloc` makes a table if there is a page for it. -/
theorem alloc_spec (h : s.Pair src dst) (hvaddr : vaddr < USEREND) :
    (s.spare = 0 ∧ s.alloc (getpde dst vaddr) = .ok (false, s)) ∨
      ∃ t page, s.alloc (getpde dst vaddr) = .ok (true, t) ∧
        Made s t dst (pdeidx vaddr) page := by
  obtain ⟨own, hinv⟩ := h.refs
  rcases allocpage_user hinv (AUSER ||| ACLEAR) (by decide) with
    ⟨hfew, halloc⟩ | ⟨page, halloc, hmore, hown, hinv'⟩
  · left
    have hspare : s.spare = 0 := by
      dsimp only at hfew
      rw [spare]
      omega
    refine ⟨hspare, ?_⟩
    rw [alloc, allocpage, halloc]
    rfl
  · right
    dsimp only at halloc hmore hown
    have hmanaged : PageSys.managed s.pages page := by
      by_contra hnot
      have hnone : (if page = page then own page + 1 else own page) = 0 := hinv'.unused page hnot
      rw [if_pos rfl] at hnone
      cases hnone
    have hpage : getpde dst vaddr / 1024 = dst := by
      simp only [getpde, pdeidx, USEREND] at *
      omega
    refine ⟨⟨PageSys.popped s.pages (AUSER ||| ACLEAR) page, fun b =>
      if b = getpde dst vaddr then Pte.mapto page PROTPGTBL
      else if b / 1024 = page then 0 else s.mem b⟩, page, ?_, ?_⟩
    · have hcleared : s.allocpage (AUSER ||| ACLEAR) =
          .ok (some page, ⟨PageSys.popped s.pages (AUSER ||| ACLEAR) page,
            fun b => if b / 1024 = page then 0 else s.mem b⟩) := by
        rw [allocpage, halloc]
        rfl
      have hlt : dst < (PageSys.popped s.pages (AUSER ||| ACLEAR) page).nphyspage := h.dst.lt
      rw [alloc, hcleared, ok_bind]
      dsimp only
      rw [store, hpage, if_pos hlt, ok_bind]
    · refine ⟨?_, PageSys.managed_lt hinv.bounds hmanaged, ⟨_, hinv'⟩, rfl, ?_, ?_, ?_, if_pos rfl⟩
      · have hrefs : s.pages.refcnt page = (own page : Int) := (hinv.refs page hmanaged).1
        rw [hrefs, hown]
        rfl
      · show (s.pages.nfreepage - 1 - _).toNat + 1 = _
        rw [spare]
        omega
      · intro q hq
        exact Pages.setRefcnt_ne hq
      · intro a hout hne
        exact (if_neg hne).trans (if_neg hout)

namespace Made

variable {idx : Nat}

theorem ne_of_held {pgd : Nat} (hm : Made s t dst idx page) (hheld : s.pages.refcnt pgd ≠ 0) :
    pgd ≠ page := by
  rintro rfl
  exact hheld hm.fresh

/-- Other words of a directory stay. -/
theorem word {pgd : Nat} (hm : Made s t dst idx page) (hheld : s.pages.refcnt pgd ≠ 0)
    (hi : i < 1024) (hne : pgd * 1024 + i ≠ dst * 1024 + idx) :
    t.word (pgd * 1024 + i) = s.word (pgd * 1024 + i) := by
  have hpage := hm.ne_of_held hheld
  have hheld' : t.pages.refcnt pgd ≠ 0 := by
    rw [hm.refcnt pgd hpage]
    exact hheld
  rw [word_of_held hheld hi, word_of_held hheld' hi]
  exact hm.mem _ (by omega) hne

theorem entry_word (hm : Made s t dst idx page) (hheld : s.pages.refcnt dst ≠ 0)
    (hidx : idx < 1024) : t.word (dst * 1024 + idx) = Pte.mapto page PROTPGTBL := by
  have hheld' : t.pages.refcnt dst ≠ 0 := by
    rw [hm.refcnt dst (hm.ne_of_held hheld)]
    exact hheld
  rw [word_of_held hheld' hidx, hm.entry]

/-- The new table is in the directory. -/
theorem table (hm : Made s t dst idx page) (h : s.Pair src dst) (hidx : idx < 1024) :
    t.table dst idx = true ∧ t.frame dst idx = page := by
  have hpage : page < 2 ^ 20 := Nat.lt_of_lt_of_le hm.lt h.size
  rw [Phys.table, Phys.frame, hm.entry_word h.held.2 hidx]
  exact ⟨Pte.tstp_mapto hpage, Pte.page_mapto hpage⟩

theorem table_ne (hm : Made s t dst idx page) (h : s.Pair src dst) (hi : i < 1024)
    (hne : i ≠ idx) : t.table dst i = s.table dst i ∧ t.frame dst i = s.frame dst i := by
  have hword := hm.word h.held.2 hi (fun heq => hne (Nat.add_left_cancel heq))
  rw [Phys.table, Phys.frame, hword]
  exact ⟨rfl, rfl⟩

theorem grows (hm : Made s t dst idx page) (h : s.Pair src dst) (hidx : idx < 1024)
    (hsrc : s.table src idx = true) (hdst : s.table dst idx = false) :
    Grows s t src dst ∧ t.Pair src dst := by
  have hne : src ≠ dst := by
    rintro rfl
    rw [hsrc] at hdst
    cases hdst
  have hgrows : Grows s t src dst := by
    constructor
    · intro i hi
      exact hm.word h.held.1 hi (by omega)
    · intro i hi htable
      apply hm.word h.held.2 hi
      intro heq
      rw [Nat.add_left_cancel heq, hdst] at htable
      cases htable
  refine ⟨hgrows, hm.refs, hm.nphyspage ▸ h.size, ⟨?_, ?_⟩, ⟨?_, ?_⟩, ⟨?_, ?_⟩⟩
  · rw [hm.refcnt src (hm.ne_of_held h.held.1)]
    exact h.held.1
  · rw [hm.refcnt dst (hm.ne_of_held h.held.2)]
    exact h.held.2
  · rw [hm.nphyspage]
    exact h.src.lt
  · intro i hi htable
    have hlt : i < 1024 := Nat.lt_trans hi (by decide)
    rw [hgrows.table_src hlt] at htable
    rw [hgrows.frame_src hlt, hm.nphyspage]
    exact h.src.tables i hi htable
  · rw [hm.nphyspage]
    exact h.dst.lt
  · intro i hi htable
    have hlt : i < 1024 := Nat.lt_trans hi (by decide)
    rw [hm.nphyspage]
    by_cases hii : i = idx
    · rw [hii, (hm.table h hidx).2]
      exact hm.lt
    · obtain ⟨htable', hframe⟩ := hm.table_ne h hlt hii
      rw [hframe]
      exact h.dst.tables i hi (htable' ▸ htable)

end Made

/-- What `getpte` of the destination leaves. -/
structure Got (s t : Phys) (src dst vaddr : Nat) : Prop where
  pair : t.Pair src dst
  grows : Grows s t src dst
  there : t.table dst (pdeidx vaddr) = true
  others : ∀ i, i < 1024 → i ≠ pdeidx vaddr → t.table dst i = s.table dst i
  spare : t.spare + (if s.table dst (pdeidx vaddr) then 0 else 1) = s.spare

/-- `getpte` comes to the entry, in a table that it makes where there is none, or there is no page
for the table. -/
theorem getpte_spec (h : s.Pair src dst) (hvaddr : vaddr < USEREND)
    (hsrc : s.table src (pdeidx vaddr) = true) :
    (s.table dst (pdeidx vaddr) = false ∧ s.spare = 0 ∧ s.getpte dst vaddr = .ok (none, s)) ∨
      ∃ t, s.getpte dst vaddr = .ok (some (t.entry dst vaddr), t) ∧ Got s t src dst vaddr := by
  have hidx : pdeidx vaddr < 1024 := Nat.lt_trans (pdeidx_lt hvaddr) (by decide)
  cases hdst : s.table dst (pdeidx vaddr) with
  | true =>
      refine .inr ⟨s, ?_, h, Grows.refl s src dst, hdst, fun _ _ _ => rfl, ?_⟩
      · rw [getpte, h.dst.load hvaddr, ok_bind, tstp_pde, hdst, if_pos rfl,
          h.dst.pteof hvaddr hdst, ok_bind]
      · rw [hdst]
        rfl
  | false =>
      rcases alloc_spec h hvaddr with ⟨hspare, halloc⟩ | ⟨t, page, halloc, hm⟩
      · refine .inl ⟨rfl, hspare, ?_⟩
        rw [getpte, h.dst.load hvaddr, ok_bind, tstp_pde, hdst, if_neg (by decide), halloc, ok_bind]
        rfl
      · obtain ⟨hgrows, hpair⟩ := hm.grows h hidx hsrc hdst
        have htable := (hm.table h hidx).1
        refine .inr ⟨t, ?_, hpair, hgrows, htable, fun i hi hne => (hm.table_ne h hi hne).1, ?_⟩
        · rw [getpte, h.dst.load hvaddr, ok_bind, tstp_pde, hdst, if_neg (by decide), halloc,
            ok_bind]
          dsimp only
          rw [if_neg (by decide), hpair.dst.pteof hvaddr htable, ok_bind]
        · rw [hdst]
          exact hm.spare

end Phys

/-! ## The tables of a range -/

section Tables

variable {pde : Nat → Bool} {start stop cur lo hi i : Nat}

/-- The directory entries of `[start, stop)` whose table is there, in ascending order. -/
def tables (pde : Nat → Bool) (start stop : Nat) : List Nat :=
  (List.range' (pdeidx start)
    (if start < stop then (stop + PDECOVERED - 1) / PDECOVERED - pdeidx start else 0)).filter pde

/-- The first address of the table behind the one of an address. -/
def nexttable (vaddr : Nat) : Nat := (pdeidx vaddr + 1) * PDECOVERED

theorem pdeidx_nexttable : pdeidx (nexttable cur) = pdeidx cur + 1 :=
  Nat.mul_div_cancel _ (by decide)

theorem mem_tables (hi : i ∈ tables pde start stop) :
    pdeidx start ≤ i ∧ i < (stop + PDECOVERED - 1) / PDECOVERED := by
  have hrange := mem_range'_1.mp (mem_of_mem_filter hi)
  split_ifs at hrange
  · omega
  · omega

theorem tables_there (hlt : start < stop) (hpde : pde (pdeidx start) = true) :
    tables pde start stop = pdeidx start :: tables pde (nexttable start) stop := by
  have hcount : (stop + PDECOVERED - 1) / PDECOVERED - pdeidx start =
      (if nexttable start < stop then (stop + PDECOVERED - 1) / PDECOVERED - (pdeidx start + 1)
        else 0) + 1 := by
    by_cases hnext : nexttable start < stop
    · rw [if_pos hnext]
      simp only [pdeidx, PDECOVERED] at *
      omega
    · rw [if_neg hnext]
      simp only [nexttable, pdeidx, PDECOVERED] at *
      omega
  rw [tables, tables, if_pos hlt, pdeidx_nexttable, hcount, List.range'_succ,
    filter_cons_of_pos hpde]

/-- A table that a scan passes over is not there. -/
theorem absent_of_skips (h : Skips pde lo hi) (hlo : pdeidx lo ≤ i) (hhi : i < pdeidx hi) :
    pde i = false := by
  have hidx : max (pagediv lo) (i * 1024) / 1024 = i := by
    simp only [pdeidx, pagediv, PAGESIZE] at *
    omega
  rw [← hidx]
  apply h.absent
  · exact Nat.le_max_left _ _
  · simp only [pdeidx, pagediv, pagemod, PAGESIZE] at *
    omega

theorem tables_skip (h : Skips pde lo hi) (hstop : hi < stop) :
    tables pde lo stop = tables pde hi stop := by
  have hle : pdeidx lo ≤ pdeidx hi := Nat.div_le_div_right h.le
  have hsplit : (stop + PDECOVERED - 1) / PDECOVERED - pdeidx lo =
      (pdeidx hi - pdeidx lo) + ((stop + PDECOVERED - 1) / PDECOVERED - pdeidx hi) := by
    simp only [pdeidx, PDECOVERED] at *
    omega
  have hmid : pdeidx lo + (pdeidx hi - pdeidx lo) = pdeidx hi := by omega
  have hnone : (List.range' (pdeidx lo) (pdeidx hi - pdeidx lo)).filter pde = [] := by
    rw [filter_eq_nil_iff]
    intro i hi'
    have hrange := mem_range'_1.mp hi'
    rw [absent_of_skips h hrange.1 (by omega)]
    decide
  rw [tables, tables, if_pos (Nat.lt_of_le_of_lt h.le hstop), if_pos hstop, hsplit,
    ← List.range'_append_1, filter_append, hnone, nil_append, hmid]

theorem tables_over (h : Skips pde lo hi) (hstop : stop ≤ hi) (hstart : lo ≤ start) :
    tables pde start stop = [] := by
  rw [tables, filter_eq_nil_iff]
  intro i hi'
  have hrange := mem_range'_1.mp hi'
  have halign := h.aligned
  split_ifs at hrange with hlt
  · have hidx : max (pagediv start) (i * 1024) / 1024 = i := by
      simp only [pdeidx, pagediv, PAGESIZE] at *
      omega
    have habsent := h.absent (max (pagediv start) (i * 1024))
      (Nat.le_trans (Nat.div_le_div_right hstart) (Nat.le_max_left _ _)) (by
        simp only [pdeidx, pagediv, pagemod, PAGESIZE, PDECOVERED] at *
        omega)
    rw [hidx] at habsent
    rw [habsent]
    decide
  · omega

/-- The tables that a copy comes to, when the destination has those of `dst` and there are
`free` pages for others. -/
def reach (dst : Nat → Bool) : Nat → List Nat → List Nat
  | _, [] => []
  | free, i :: is =>
      if dst i then i :: reach dst free is
      else
        match free with
        | 0 => []
        | free + 1 => i :: reach dst free is

variable {is : List Nat} {free : Nat}

theorem reach_congr {dst dst' : Nat → Bool}
    (h : ∀ i ∈ is, dst i = dst' i) : reach dst free is = reach dst' free is := by
  induction is generalizing free with
  | nil => rfl
  | cons i is ih =>
      have hrest : ∀ free, reach dst free is = reach dst' free is := fun free =>
        ih fun j hj => h j (mem_cons_of_mem i hj)
      rw [reach.eq_def, reach.eq_def dst']
      dsimp only
      rw [h i mem_cons_self]
      split
      · rw [hrest]
      · cases free with
        | zero => rfl
        | succ free => exact congrArg (i :: ·) (hrest free)

theorem mem_reach {dst : Nat → Bool} (h : i ∈ reach dst free is) : i ∈ is := by
  induction is generalizing free with
  | nil => cases h
  | cons j is ih =>
      rw [reach.eq_def] at h
      dsimp only at h
      split at h
      · rcases mem_cons.mp h with rfl | h
        · exact mem_cons_self
        · exact mem_cons_of_mem j (ih h)
      · cases free with
        | zero => cases h
        | succ free =>
            rcases mem_cons.mp h with rfl | h
            · exact mem_cons_self
            · exact mem_cons_of_mem j (ih h)

/-- The table is there afterwards. -/
theorem reach_cons {dst dst' : Nat → Bool} {free' : Nat}
    (hothers : ∀ j ∈ is, dst' j = dst j) (hfree : free' + (if dst i then 0 else 1) = free) :
    reach dst free (i :: is) = i :: reach dst' free' is := by
  rw [reach.eq_def, reach_congr hothers]
  dsimp only
  split
  · next hthere =>
    rw [if_pos hthere] at hfree
    rw [← hfree, Nat.add_zero]
  · next habsent =>
    rw [if_neg habsent] at hfree
    rw [← hfree]

end Tables

/-! ## `copypgtbl_t` -/

/-- A turn of a loop over a copy. -/
structure Turn where
  cursor : Nat
  srcpte : Nat
  dstpte : Nat
deriving DecidableEq

namespace Copypgtbl

open Phys

/-- `cursor`, `cursrcpte` and `curdstpte`. -/
def turn (c : Copypgtbl) : Turn := ⟨c.curpos, c.srcpte, c.dstpte⟩

/-- The turns of a loop like the one of `copypte`, `n` at most, and where it leaves the copy. -/
def turns : Nat → Phys → Copypgtbl → Except Stuck (Int × List Turn × Copypgtbl × Phys)
  | 0, s, c => .ok (0, [], c, s)
  | n + 1, s, c =>
      if !c.more then .ok (0, [], c, s)
      else do
        let (e, c', s) ← c.next s
        if e ≠ 0 then .ok (e, [c.turn], c', s)
        else
          let (e, rest, last, s) ← turns n s c'
          .ok (e, c.turn :: rest, last, s)

variable {s t : Phys} {src dst start stop vaddr n : Nat} {c c' : Copypgtbl} {srcpte : Nat → Nat}
  {r : Except Stuck (Int × Copypgtbl × Phys)}

/-- The copy is on a page whose table is there in the source, and has the entry of the page in the
destination. -/
structure At (s : Phys) (src : Nat) (c : Copypgtbl) : Prop where
  srctable : s.table src (pdeidx c.curpos) = true
  srcpde : c.srcpde = getpde src c.curpos
  dsttable : s.table c.dst (pdeidx c.curpos) = true
  dstpte : c.dstpte = s.entry c.dst c.curpos

/-- How `fromto` and `next` come back, which look for a table from `vaddr` on and leave the pointer
into the source at `srcpte`. -/
inductive Comes (s : Phys) (src dst stop vaddr : Nat) (srcpte : Nat → Nat) :
    Except Stuck (Int × Copypgtbl × Phys) → Prop
  | past (c : Copypgtbl) (hstop : c.stop = stop) (hover : stop ≤ c.curpos)
      (hskips : Skips (s.table src) vaddr c.curpos) : Comes s src dst stop vaddr srcpte (.ok (0, c, s))
  | on (c : Copypgtbl) (t : Phys) (hdst : c.dst = dst) (hstop : c.stop = stop)
      (hmore : c.curpos < stop) (hskips : Skips (s.table src) vaddr c.curpos) (hat : c.At t src)
      (hpte : c.srcpte = srcpte c.curpos) (hgot : Got s t src dst c.curpos) :
      Comes s src dst stop vaddr srcpte (.ok (0, c, t))
  | nomem (c : Copypgtbl) (hmore : c.curpos < stop) (hskips : Skips (s.table src) vaddr c.curpos)
      (hsrc : s.table src (pdeidx c.curpos) = true) (hdst : s.table dst (pdeidx c.curpos) = false)
      (hspare : s.spare = 0) : Comes s src dst stop vaddr srcpte (.ok (ENOMEM, c, s))

theorem Comes.from {vaddr' : Nat} (h : Comes s src dst stop vaddr' srcpte r)
    (hskips : Skips (s.table src) vaddr vaddr') : Comes s src dst stop vaddr srcpte r := by
  cases h with
  | past c hstop hover hskips' => exact .past c hstop hover (hskips.trans hskips')
  | on c t hdst hstop hmore hskips' hat hpte hgot =>
      exact .on c t hdst hstop hmore (hskips.trans hskips') hat hpte hgot
  | nomem c hmore hskips' hsrc hdst hspare =>
      exact .nomem c hmore (hskips.trans hskips') hsrc hdst hspare

/-- The loop of `next` comes to the next table of the source. -/
theorem skip_spec (h : s.Pair src c.dst) (hend : c.stop ≤ USEREND)
    (halign : c.curpos % PDECOVERED = 0) (hpde : c.srcpde = getpde src c.curpos)
    (henough : c.stop ≤ c.curpos + n * PDECOVERED)
    (hmore : c.curpos + n * PDECOVERED < c.stop + PDECOVERED) :
    Comes s src c.dst c.stop c.curpos (fun _ => c.srcpte) (skip n s c) := by
  have hhere : Skips (s.table src) c.curpos c.curpos := by
    apply Skips.refl
    simp only [pagemod, PAGESIZE, PDECOVERED] at *
    omega
  induction n generalizing c with
  | zero => exact .past _ rfl (by dsimp only; omega) hhere
  | succ n ih =>
      rw [Nat.succ_mul] at henough hmore
      have hlt : c.curpos < c.stop := by omega
      have hin : c.curpos < USEREND := Nat.lt_of_lt_of_le hlt hend
      rw [skip, hpde, h.src.load hin, ok_bind, tstp_pde]
      cases htable : s.table src (pdeidx c.curpos) with
      | true =>
          rcases getpte_spec h hin htable with ⟨hdst, hspare, hget⟩ | ⟨t, hget, hgot⟩
          · rw [hget, ok_bind]
            exact .nomem c hlt hhere htable hdst hspare
          · rw [hget, ok_bind]
            refine .on _ t rfl rfl hlt hhere ⟨?_, rfl, hgot.there, rfl⟩ rfl hgot
            rw [hgot.grows.table_src (Nat.lt_trans (pdeidx_lt hin) (by decide))]
            exact htable
      | false =>
          have hnext : (c.curpos + PDECOVERED) % PDECOVERED = 0 := by
            rw [Nat.add_mod_right, halign]
          have htable' : Skips (s.table src) (c.curpos + 0) (c.curpos + PDECOVERED) :=
            Vm.skips_table halign (Nat.zero_le _) htable
          exact Comes.from (ih (c := { c with
            srcpde := getpde src c.curpos + 1
            curpos := c.curpos + PDECOVERED }) h hend hnext getpde_next.symm (by dsimp only; omega)
            (by dsimp only; omega) (Skips.refl htable'.aligned)) htable'

/-- `next` goes to the next page, or on to the next table of the source. -/
theorem next_spec (h : s.Pair src c.dst) (hend : c.stop ≤ USEREND) (hat : c.At s src)
    (halign : pagemod c.curpos = 0) (hstop : pagemod c.stop = 0) (hmore : c.curpos < c.stop) :
    Comes s src c.dst c.stop (c.curpos + PAGESIZE) (fun _ => c.srcpte + 1) (c.next s) := by
  have hpage : pagemod (c.curpos + PAGESIZE) = 0 := by
    rw [pagemod, Nat.add_mod_right]
    exact halign
  unfold next
  dsimp only
  split
  · next hin =>
    obtain ⟨hidx, htbl⟩ := pteidx_next halign hin
    by_cases hover : c.stop ≤ c.curpos + PAGESIZE
    · exact .past _ rfl hover (Skips.refl hpage)
    · have hsame : Got s s src c.dst (c.curpos + PAGESIZE) := by
        refine ⟨h, Grows.refl s src c.dst, ?_, fun _ _ _ => rfl, ?_⟩
        · rw [htbl, hat.dsttable]
        · rw [htbl, hat.dsttable]
          rfl
      refine .on _ s rfl rfl (Nat.lt_of_not_le hover) (Skips.refl hpage) ⟨?_, ?_, ?_, ?_⟩ rfl hsame
      · rw [htbl, hat.srctable]
      · rw [hat.srcpde, getpde, getpde, htbl]
      · rw [htbl, hat.dsttable]
      · rw [hat.dstpte, entry, entry, hidx, htbl, Nat.add_assoc]
  · next hlast =>
    rw [not_not] at hlast
    obtain ⟨-, htbl⟩ := pteidx_last halign hlast
    refine skip_spec (c := ⟨c.dst, c.srcpde + 1, c.dstpde + 1, c.srcpte + 1, c.dstpte + 1,
      c.curpos + PAGESIZE, c.stop⟩) h hend hlast ?_ ?_ ?_
    · rw [hat.srcpde, getpde, getpde, htbl, Nat.add_assoc]
    · simp only [PDECOVERED]
      omega
    · simp only [pagemod, PAGESIZE, PDECOVERED] at *
      omega

/-- `fromto` comes to the first table of the source, and to the right entry of it. -/
theorem fromto_spec (h : s.Pair src dst) (hle : start ≤ stop) (hstart : pagemod start = 0)
    (hstop : pagemod stop = 0) (hend : stop ≤ USEREND) :
    Comes s src dst stop start (s.entry src) (fromto s src dst start stop) := by
  obtain ⟨curpos, found, hexplore, hskips, hfound⟩ := explore_spec h.src hle hstart hend
  rw [fromto, if_neg (by simp [hstart, hstop]), hexplore, ok_bind]
  rcases hfound with ⟨rfl, hover⟩ | ⟨rfl, htable, hin⟩
  · exact .past _ rfl hover hskips
  · dsimp only
    split
    · next hover => exact .past _ rfl hover hskips
    · next hmore =>
      have hlt : curpos < stop := Nat.lt_of_not_le hmore
      rcases getpte_spec h hin htable with ⟨hdst, hspare, hget⟩ | ⟨t, hget, hgot⟩
      · rw [hget, ok_bind]
        exact .nomem _ hlt hskips htable hdst hspare
      · rw [hget, ok_bind]
        refine .on ⟨dst, getpde src curpos, getpde dst curpos, s.entry src curpos,
          t.entry dst curpos, curpos, stop⟩ t rfl rfl hlt hskips ⟨?_, rfl, hgot.there, rfl⟩ rfl hgot
        rw [hgot.grows.table_src (Nat.lt_trans (pdeidx_lt hin) (by decide))]
        exact htable

/-! ## Turns -/

/-- The turns have the entries of their pages in the source. -/
def Right (s : Phys) (src : Nat) (vs : List Turn) : Prop :=
  ∀ v ∈ vs, v.srcpte = s.entry src v.cursor

/-- Turns that have the entries of their pages in the destination.  They are all pages of the range
whose table is there in the source, or those before the first one for whose table in the
destination there is no page. -/
structure Walked (s t : Phys) (src dst start stop : Nat) (e : Int) (vs : List Turn)
    (last : Copypgtbl) : Prop where
  grows : Grows s t src dst
  ends : e = 0 ∧ last.more = false ∧ vs.map Turn.cursor = present (s.table src) start stop ∨
    e = ENOMEM ∧ t.spare = 0 ∧ ∃ vaddr rest, t.table dst (pdeidx vaddr) = false ∧
      present (s.table src) start stop = vs.map Turn.cursor ++ vaddr :: rest
  entries : ∀ v ∈ vs, t.table dst (pdeidx v.cursor) = true ∧ v.dstpte = t.entry dst v.cursor

/-- The tables that the copy still comes to, from its own on. -/
def ahead (s : Phys) (src : Nat) (c : Copypgtbl) : List Nat :=
  pdeidx c.curpos ::
    reach (s.table c.dst) s.spare (tables (s.table src) (nexttable c.curpos) c.stop)

/-- The second table lies in the page behind the first one. -/
def Adjacent (s : Phys) (src i j : Nat) : Prop := s.frame src j = s.frame src i + 1

theorem turns_over (hover : c.stop ≤ c.curpos) : turns n s c = .ok (0, [], c, s) := by
  cases n with
  | zero => rfl
  | succ n =>
      have hmore : c.more = false := decide_eq_false (Nat.not_lt.mpr hover)
      rw [turns, hmore]
      rfl

/-- Nothing has become of the source. -/
theorem present_grows (h : Grows s t src dst) (hend : stop ≤ USEREND) :
    present (t.table src) start stop = present (s.table src) start stop := by
  apply filter_congr
  intro vaddr hvaddr
  obtain ⟨p, hp, rfl⟩ := mem_map.mp hvaddr
  have hrange := mem_range'_1.mp hp
  apply h.table_src
  simp only [pdeidx, pagediv, PAGESIZE, USEREND] at *
  omega

theorem tables_grows (h : Grows s t src dst) (hend : stop ≤ USEREND) :
    tables (t.table src) start stop = tables (s.table src) start stop := by
  apply filter_congr
  intro i hi
  have hrange := mem_range'_1.mp hi
  apply h.table_src
  split_ifs at hrange
  · simp only [PDECOVERED, USEREND] at *
    omega
  · omega

/-- The tables from `lo` on are those from the page on that the copy has come to. -/
theorem reach_on {lo : Nat} (hend : c.stop ≤ USEREND) (hskips : Skips (s.table src) lo c.curpos)
    (hmore : c.curpos < c.stop) (hat : c.At t src) (hgot : Got s t src c.dst c.curpos) :
    reach (s.table c.dst) s.spare (tables (s.table src) lo c.stop) = ahead t src c := by
  have hidx : pdeidx c.curpos < 1024 :=
    Nat.lt_trans (pdeidx_lt (Nat.lt_of_lt_of_le hmore hend)) (by decide)
  have hthere : s.table src (pdeidx c.curpos) = true := by
    rw [← hgot.grows.table_src hidx]
    exact hat.srctable
  rw [tables_skip hskips hmore, tables_there hmore hthere, ahead, tables_grows hgot.grows hend]
  refine reach_cons (fun j hj => ?_) hgot.spare
  obtain ⟨hlo, hhi⟩ := mem_tables hj
  rw [pdeidx_nexttable] at hlo
  apply hgot.others
  · simp only [PDECOVERED, USEREND] at *
    omega
  · omega

/-- The same tables, one behind the other. -/
theorem chain_grows (h : Grows s t src dst) (hend : c.stop ≤ USEREND) (hin : c.curpos < c.stop) :
    (ahead t src c).IsChain (Adjacent t src) ↔ (ahead t src c).IsChain (Adjacent s src) := by
  have hlt : ∀ i ∈ ahead t src c, i < 1024 := by
    intro i hi
    rcases mem_cons.mp hi with rfl | hi
    · exact Nat.lt_trans (pdeidx_lt (Nat.lt_of_lt_of_le hin hend)) (by decide)
    · have hhi := (mem_tables (mem_reach hi)).2
      simp only [PDECOVERED, USEREND] at *
      omega
  apply List.IsChain.iff_of_mem_imp
  intro i j hi hj
  rw [Adjacent, Adjacent, h.frame_src (hlt i hi), h.frame_src (hlt j hj)]

/-- Another page of the same table is the next page. -/
theorem curpos_same (halign : pagemod c.curpos = 0) (hat : c.At s src)
    (hskips : Skips (s.table src) (c.curpos + PAGESIZE) c'.curpos)
    (hidx : pdeidx c'.curpos = pdeidx c.curpos) : c'.curpos = c.curpos + PAGESIZE := by
  by_contra hne
  have hle := hskips.le
  have halign' := hskips.aligned
  have habsent := hskips.absent (pagediv (c.curpos + PAGESIZE)) (Nat.le_refl _) (by
    simp only [pagediv, pagemod, PAGESIZE] at *
    omega)
  have hsame : pagediv (c.curpos + PAGESIZE) / 1024 = pdeidx c.curpos := by
    simp only [pagediv, pdeidx, PAGESIZE] at *
    omega
  rw [hsame, hat.srctable] at habsent
  cases habsent

/-- Between two tables a scan leaves the first one at its end, and comes to the second one at its
first page. -/
theorem curpos_other (halign : pagemod c.curpos = 0) (hat : c.At s src)
    (hskips : Skips (s.table src) (c.curpos + PAGESIZE) c'.curpos)
    (hthere : s.table src (pdeidx c'.curpos) = true) (hidx : pdeidx c'.curpos ≠ pdeidx c.curpos) :
    (c.curpos + PAGESIZE) % PDECOVERED = 0 ∧ c'.curpos % PDECOVERED = 0 ∧
      Skips (s.table src) (nexttable c.curpos) c'.curpos := by
  have hle := hskips.le
  have halign' := hskips.aligned
  have hlast : (c.curpos + PAGESIZE) % PDECOVERED = 0 := by
    by_contra hin
    have hsame : pagediv (c.curpos + PAGESIZE) / 1024 = pdeidx c.curpos := by
      simp only [pagediv, pdeidx, pagemod, PAGESIZE, PDECOVERED] at *
      omega
    have habsent := hskips.absent (pagediv (c.curpos + PAGESIZE)) (Nat.le_refl _) (by
      simp only [pagediv, pdeidx, pagemod, PAGESIZE, PDECOVERED] at *
      omega)
    rw [hsame, hat.srctable] at habsent
    cases habsent
  have hnext : nexttable c.curpos = c.curpos + PAGESIZE := by
    simp only [nexttable, pdeidx, pagemod, PAGESIZE, PDECOVERED] at *
    omega
  refine ⟨hlast, ?_, hnext ▸ hskips⟩
  by_contra hin
  have hfirst : pdeidx c'.curpos * 1024 / 1024 = pdeidx c'.curpos := Nat.mul_div_cancel _ (by decide)
  have habsent := hskips.absent (pdeidx c'.curpos * 1024)
    (by
      simp only [pagediv, pdeidx, pagemod, PAGESIZE, PDECOVERED] at *
      omega)
    (by
      simp only [pagediv, pdeidx, pagemod, PAGESIZE, PDECOVERED] at *
      omega)
  rw [hfirst, hthere] at habsent
  cases habsent

/-- **One step of the copy.**  From a right entry it comes to a right one exactly if it stays in its
table, or the next table is the adjacent one. -/
theorem right_next (hend : c.stop ≤ USEREND) (halign : pagemod c.curpos = 0)
    (hat : c.At s src) (hdst : c'.dst = c.dst) (hstop : c'.stop = c.stop)
    (hmore : c'.curpos < c'.stop) (hskips : Skips (s.table src) (c.curpos + PAGESIZE) c'.curpos)
    (hat' : c'.At t src) (hpte : c'.srcpte = c.srcpte + 1) (hgot : Got s t src c'.dst c'.curpos)
    (hright : c.srcpte = s.entry src c.curpos) :
    c'.srcpte = t.entry src c'.curpos ∧ (ahead t src c').IsChain (Adjacent t src) ↔
      (ahead s src c).IsChain (Adjacent s src) := by
  have hend' : c'.stop ≤ USEREND := hstop ▸ hend
  have hin : c'.curpos < USEREND := Nat.lt_of_lt_of_le hmore hend'
  have hidx : pdeidx c'.curpos < 1024 := Nat.lt_trans (pdeidx_lt hin) (by decide)
  have hentry : t.entry src c'.curpos = s.entry src c'.curpos := by
    rw [entry, entry, hgot.grows.frame_src hidx]
  rw [chain_grows hgot.grows hend' hmore, hentry, hpte, hright]
  by_cases hsame : pdeidx c'.curpos = pdeidx c.curpos
  · -- the entry is the next one, and no table has been made
    have hcur := curpos_same halign hat hskips hsame
    have hin' : (c.curpos + PAGESIZE) % PDECOVERED ≠ 0 := by
      intro hlast
      have hother := (pteidx_last halign hlast).2
      rw [← hcur, hsame] at hother
      omega
    have hpte' : s.entry src c.curpos + 1 = s.entry src c'.curpos := by
      rw [entry, entry, hsame, hcur, (pteidx_next halign hin').1, Nat.add_assoc]
    have hspare : t.spare = s.spare := by
      have hspare := hgot.spare
      rwa [hsame, hdst, hat.dsttable, if_pos rfl, Nat.add_zero] at hspare
    have hahead : ahead t src c' = ahead s src c := by
      have hnext : nexttable c'.curpos = nexttable c.curpos := by rw [nexttable, nexttable, hsame]
      rw [ahead, ahead, tables_grows hgot.grows hend', hspare, hsame, hnext, hdst, hstop]
      refine congrArg (_ :: ·) (reach_congr fun i hi => ?_)
      obtain ⟨hlo, hhi⟩ := mem_tables hi
      rw [pdeidx_nexttable] at hlo
      rw [← hdst]
      apply hgot.others
      · simp only [PDECOVERED, USEREND] at *
        omega
      · omega
    rw [hahead]
    exact and_iff_right hpte'
  · -- the pointer is behind the table it has come from
    have hthere : s.table src (pdeidx c'.curpos) = true := by
      rw [← hgot.grows.table_src hidx]
      exact hat'.srctable
    obtain ⟨hlast, hfirst, hskips'⟩ := curpos_other halign hat hskips hthere hsame
    have hahead : ahead s src c = pdeidx c.curpos :: ahead t src c' := by
      rw [← reach_on hend' hskips' hmore hat' hgot, ahead, hdst, hstop]
    have hadjacent : s.entry src c.curpos + 1 = s.entry src c'.curpos ↔
        Adjacent s src (pdeidx c.curpos) (pdeidx c'.curpos) := by
      rw [entry_first hfirst, entry, (pteidx_last halign hlast).1, Adjacent]
      omega
    rw [hadjacent, hahead]
    exact isChain_cons_cons.symm

variable {e : Int} {vs : List Turn} {last : Copypgtbl} {u : Phys}

/-- A turn in front of the others. -/
theorem Walked.cons
    (h : Walked t u src c.dst c'.curpos c.stop e vs last) (hend : c.stop ≤ USEREND)
    (hgot : Got s t src c.dst c'.curpos) (halign : pagemod c.curpos = 0)
    (hstop : pagemod c.stop = 0) (hat : c.At s src) (hmore : c.curpos < c.stop)
    (hskips : Skips (s.table src) (c.curpos + PAGESIZE) c'.curpos) :
    Walked s u src c.dst c.curpos c.stop e (c.turn :: vs) last := by
  have hin : c.curpos < USEREND := Nat.lt_of_lt_of_le hmore hend
  have hgrows := hgot.grows.trans h.grows
  have hpresent : present (s.table src) c.curpos c.stop =
      c.curpos :: present (t.table src) c'.curpos c.stop := by
    rw [present_cons halign hstop hmore hat.srctable, present_skip hskips,
      present_grows hgot.grows hend]
  refine ⟨hgrows, ?_, fun v hv => ?_⟩
  · rw [hpresent]
    rcases h.ends with ⟨he, hlast, hvs⟩ | ⟨he, hspare, vaddr, rest, habsent, hvs⟩
    · exact .inl ⟨he, hlast, by rw [map_cons, hvs]; rfl⟩
    · exact .inr ⟨he, hspare, vaddr, rest, habsent, by rw [hvs]; rfl⟩
  · rcases mem_cons.mp hv with rfl | hv
    · obtain ⟨htable, hentry⟩ := hgrows.dst_entry hin hat.dsttable
      exact ⟨htable, hat.dstpte.trans hentry.symm⟩
    · exact h.entries v hv

theorem right_cons {v : Turn} :
    Right s src (v :: vs) ↔ v.srcpte = s.entry src v.cursor ∧ Right s src vs :=
  forall_mem_cons

/-- The turns are on pages of the range. -/
theorem Walked.cursor_lt
    (h : Walked s t src dst start stop e vs last) {v : Turn} (hv : v ∈ vs) : v.cursor < stop := by
  have hmem : v.cursor ∈ present (s.table src) start stop := by
    have hcursor : v.cursor ∈ vs.map Turn.cursor := mem_map_of_mem hv
    rcases h.ends with ⟨-, -, hvs⟩ | ⟨-, -, vaddr, rest, -, hvs⟩
    · rwa [← hvs]
    · rw [hvs]
      exact mem_append_left _ hcursor
  obtain ⟨p, hp, hcursor⟩ := mem_map.mp (mem_of_mem_filter hmem)
  have hrange := mem_range'_1.mp hp
  simp only [pagediv, PAGESIZE] at *
  omega

theorem Walked.right_grows
    (h : Walked t u src dst start stop e vs last) (hgrows : Grows s t src dst)
    (hend : stop ≤ USEREND) : Right s src vs ↔ Right t src vs := by
  have hentry : ∀ v ∈ vs, t.entry src v.cursor = s.entry src v.cursor := by
    intro v hv
    have hin := Nat.lt_of_lt_of_le (h.cursor_lt hv) hend
    rw [entry, entry, hgrows.frame_src (Nat.lt_trans (pdeidx_lt hin) (by decide))]
  constructor
  · exact fun hright v hv => (hright v hv).trans (hentry v hv).symm
  · exact fun hright v hv => (hright v hv).trans (hentry v hv)

/-- Pages without a table in front. -/
theorem Walked.from
    (h : Walked t u src dst vaddr stop e vs last) (hgrows : Grows s t src dst)
    (hend : stop ≤ USEREND) (hskips : Skips (s.table src) start vaddr) :
    Walked s u src dst start stop e vs last := by
  have hpresent : present (s.table src) start stop = present (t.table src) vaddr stop := by
    rw [present_skip hskips, present_grows hgrows hend]
  refine ⟨hgrows.trans h.grows, ?_, h.entries⟩
  rw [hpresent]
  exact h.ends

/-- A copy that has made its last turn. -/
theorem walked_last (hat : c.At s src)
    (hends : e = 0 ∧ last.more = false ∧ present (s.table src) c.curpos c.stop = [c.curpos] ∨
      e = ENOMEM ∧ s.spare = 0 ∧ ∃ vaddr rest, s.table c.dst (pdeidx vaddr) = false ∧
        present (s.table src) c.curpos c.stop = [c.curpos] ++ vaddr :: rest) :
    Walked s s src c.dst c.curpos c.stop e [c.turn] last where
  grows := Grows.refl s src c.dst
  ends := by
    rcases hends with ⟨he, hlast, hpresent⟩ | hends
    · exact .inl ⟨he, hlast, hpresent.symm⟩
    · exact .inr hends
  entries := by
    intro v hv
    rw [mem_singleton.mp hv]
    exact ⟨hat.dsttable, hat.dstpte⟩

theorem right_last (hahead : ahead s src c = [pdeidx c.curpos]) :
    Right s src [c.turn] ↔
      c.srcpte = s.entry src c.curpos ∧ (ahead s src c).IsChain (Adjacent s src) := by
  rw [right_cons, hahead]
  refine and_congr_right fun _ => iff_of_true (fun v hv => ?_) (List.IsChain.singleton _)
  cases hv

/-- The turns of a copy have the entries of their pages in the source exactly if the first one has,
and the tables ahead are adjacent. -/
theorem turns_spec (h : s.Pair src c.dst) (hend : c.stop ≤ USEREND) (hstop : pagemod c.stop = 0)
    (hat : c.At s src) (halign : pagemod c.curpos = 0) (hmore : c.curpos < c.stop)
    (henough : c.stop ≤ c.curpos + n * PAGESIZE) :
    ∃ e vs last t, turns n s c = .ok (e, vs, last, t) ∧
      Walked s t src c.dst c.curpos c.stop e vs last ∧
        (Right s src vs ↔
          c.srcpte = s.entry src c.curpos ∧ (ahead s src c).IsChain (Adjacent s src)) := by
  induction n generalizing s c with
  | zero => omega
  | succ n ih =>
      have hcomes := next_spec h hend hat halign hstop hmore
      rw [turns, if_neg (by simp [more, hmore])]
      generalize c.next s = r at hcomes
      cases hcomes with
      | past c' hstop' hover hskips =>
          have hpresent : present (s.table src) c.curpos c.stop = [c.curpos] := by
            rw [present_cons halign hstop hmore hat.srctable, present_skip hskips,
              present_nil hover]
          have hnext : c.curpos + PAGESIZE ≤ nexttable c.curpos := by
            simp only [nexttable, pdeidx, pagemod, PAGESIZE, PDECOVERED] at *
            omega
          have hahead : ahead s src c = [pdeidx c.curpos] := by
            rw [ahead, tables_over hskips hover hnext]
            rfl
          have hlast : c'.more = false := decide_eq_false (by omega)
          refine ⟨0, [c.turn], c', s, ?_, walked_last hat (.inl ⟨rfl, hlast, hpresent⟩),
            right_last hahead⟩
          rw [ok_bind]
          dsimp only
          rw [if_neg (by decide), turns_over (hstop'.symm ▸ hover), ok_bind]
      | on c' t hdst hstop' hmore' hskips hat' hpte hgot =>
          have hle := hskips.le
          rw [← hdst] at hgot
          obtain ⟨e, vs, last, u, hturns, hwalked, hright⟩ := ih (hdst ▸ hgot.pair)
            (hstop'.symm ▸ hend) (hstop'.symm ▸ hstop) hat' hskips.aligned (hstop'.symm ▸ hmore')
            (by
              rw [Nat.succ_mul] at henough
              omega)
          have hcons := right_next hend halign hat hdst hstop' (hstop'.symm ▸ hmore') hskips hat'
            hpte hgot
          rw [hdst] at hgot
          rw [hdst, hstop'] at hwalked
          refine ⟨e, c.turn :: vs, last, u, ?_,
            hwalked.cons hend hgot halign hstop hat hmore hskips, ?_⟩
          · rw [ok_bind]
            dsimp only
            rw [if_neg (by decide), hturns, ok_bind]
          · rw [right_cons, hwalked.right_grows hgot.grows hend, hright]
            exact and_congr_right hcons
      | nomem c' hmore' hskips hsrc hdst hspare =>
          have hother : pdeidx c'.curpos ≠ pdeidx c.curpos := by
            intro hsame
            rw [hsame, hat.dsttable] at hdst
            cases hdst
          obtain ⟨-, -, hskips'⟩ := curpos_other halign hat hskips hsrc hother
          have hahead : ahead s src c = [pdeidx c.curpos] := by
            rw [ahead, tables_skip hskips' hmore', tables_there hmore' hsrc, hspare, reach.eq_def]
            dsimp only
            rw [if_neg (by rw [hdst]; decide)]
          have hpresent : present (s.table src) c.curpos c.stop =
              [c.curpos] ++ c'.curpos :: present (s.table src) (c'.curpos + PAGESIZE) c.stop := by
            rw [present_cons halign hstop hmore hat.srctable, present_skip hskips,
              present_cons hskips.aligned hstop hmore' hsrc]
            rfl
          refine ⟨ENOMEM, [c.turn], c', s, ?_,
            walked_last hat (.inr ⟨rfl, hspare, _, _, hdst, hpresent⟩), right_last hahead⟩
          rw [ok_bind]
          dsimp only
          rw [if_pos (by decide)]

end Copypgtbl

/-! ## Both scans -/

/-- A loop over `copypgtbl_t`. -/
def copypgtbl (s : Phys) (src dst start stop : Nat) :
    Except Stuck (Int × List Turn × Copypgtbl × Phys) := do
  let (e, c, s) ← Copypgtbl.fromto s src dst start stop
  if e ≠ 0 then .ok (e, [], c, s) else Copypgtbl.turns ((stop - start) / PAGESIZE) s c

section

open Phys Copypgtbl

variable {s : Phys} {src dst start stop : Nat}

/-- `foreachpte2` ends, and has come to the entries of the pages whose table is there. -/
def Scans (s : Phys) (pgd start stop : Nat) : Prop :=
  ∃ last, foreachpte2 s pgd start stop = .ok ((present (s.table pgd) start stop).map
    fun vaddr => (vaddr, s.entry pgd vaddr), last) ∧ last.more = false

/-- The copy ends, and has come to the entries of these pages in both page tables. -/
def Copies (s : Phys) (src dst start stop : Nat) : Prop :=
  ∃ e vs last t, copypgtbl s src dst start stop = .ok (e, vs, last, t) ∧
    Walked s t src dst start stop e vs last ∧ Right s src vs

/-- The tables of the source that the copy comes to lie in pages one behind the other. -/
def InRow (s : Phys) (src dst start stop : Nat) : Prop :=
  (reach (s.table dst) s.spare (tables (s.table src) start stop)).IsChain (Adjacent s src)

theorem copies_iff (h : s.Pair src dst) (hle : start ≤ stop) (hstart : pagemod start = 0)
    (hstop : pagemod stop = 0) (hend : stop ≤ USEREND) :
    Copies s src dst start stop ↔ InRow s src dst start stop := by
  have hcomes := fromto_spec h hle hstart hstop hend
  rw [Copies, copypgtbl]
  generalize fromto s src dst start stop = r at hcomes
  cases hcomes with
  | past c hstop' hover hskips =>
      have hpresent : present (s.table src) start stop = [] := by
        rw [present_skip hskips, present_nil hover]
      have hlast : c.more = false := decide_eq_false (by omega)
      refine iff_of_true ⟨0, [], c, s, ?_, ⟨Grows.refl s src dst, ?_, by simp⟩, by simp [Right]⟩ ?_
      · rw [ok_bind]
        dsimp only
        rw [if_neg (by decide), turns_over (hstop'.symm ▸ hover)]
      · exact .inl ⟨rfl, hlast, hpresent.symm⟩
      · rw [InRow, tables_over hskips hover (Nat.le_refl start)]
        exact List.IsChain.nil
  | on c t hdst hstop' hmore hskips hat hpte hgot =>
      subst hdst hstop'
      have hskipped := hskips.le
      have henough : c.stop ≤ c.curpos + (c.stop - start) / PAGESIZE * PAGESIZE := by
        simp only [pagemod, PAGESIZE] at *
        omega
      obtain ⟨e, vs, last, u, hturns, hwalked, hright⟩ :=
        turns_spec hgot.pair hend hstop hat hskips.aligned hmore henough
      have hin : c.curpos < USEREND := Nat.lt_of_lt_of_le hmore hend
      have hentry : c.srcpte = t.entry src c.curpos := by
        rw [hpte, entry, entry,
          hgot.grows.frame_src (Nat.lt_trans (pdeidx_lt hin) (by decide))]
      have hrow : InRow s src c.dst start c.stop ↔ Right s src vs := by
        rw [InRow, reach_on hend hskips hmore hat hgot, ← chain_grows hgot.grows hend hmore,
          hwalked.right_grows hgot.grows hend, hright]
        exact (and_iff_right hentry).symm
      have hrun : (.ok (0, c, t) >>= fun x => if x.1 ≠ 0 then .ok (x.1, [], x.2.1, x.2.2)
          else turns ((c.stop - start) / PAGESIZE) x.2.2 x.2.1) = .ok (e, vs, last, u) := by
        rw [ok_bind]
        dsimp only
        rw [if_neg (by decide), hturns]
      rw [hrow]
      constructor
      · rintro ⟨e', vs', last', u', hrun', -, hright'⟩
        cases hrun.symm.trans hrun'
        exact hright'
      · intro hright'
        exact ⟨e, vs, last, u, hrun, hwalked.from hgot.grows hend hskips, hright'⟩
  | nomem c hmore hskips hsrc hdst hspare =>
      have hpresent : present (s.table src) start stop =
          c.curpos :: present (s.table src) (c.curpos + PAGESIZE) stop := by
        rw [present_skip hskips, present_cons hskips.aligned hstop hmore hsrc]
      refine iff_of_true ⟨ENOMEM, [], c, s, ?_, ⟨Grows.refl s src dst, ?_, by simp⟩,
        by simp [Right]⟩ ?_
      · rw [ok_bind]
        dsimp only
        rw [if_pos (by decide)]
      · exact .inr ⟨rfl, hspare, _, _, hdst, hpresent⟩
      · rw [InRow, tables_skip hskips hmore, tables_there hmore hsrc, hspare, reach.eq_def]
        dsimp only
        rw [if_neg (by rw [hdst]; decide)]
        exact List.IsChain.nil

/-- **Page-table scans.**  `foreachpte2` and `copypgtbl_t` end and come to the entries of the pages
whose table is there, in ascending order, exactly if the tables that the copy comes to lie in pages
one behind the other. -/
theorem scans_iff (h : s.Pair src dst) (hle : start ≤ stop) (hstart : pagemod start = 0)
    (hstop : pagemod stop = 0) (hend : stop ≤ USEREND) :
    Scans s src start stop ∧ Copies s src dst start stop ↔ InRow s src dst start stop := by
  rw [copies_iff h hle hstart hstop hend]
  exact and_iff_right (foreachpte2_eq h.src hle hstart hstop hend)

end

/-! ## A process with two tables -/

/-- Two megabytes, of which 18 pages are free. -/
def fewfree : Pages where
  nphyspage := 512
  refcnt := fun p =>
    if 512 ≤ p ∨ 1 ≤ p ∧ p ≤ 18 then 0 else if p = 0 ∨ PAGE640K ≤ p ∧ p < 400 then SYSPAGE else 1
  next := fun p => if p < 18 then some (p + 1) else none
  freepageq := some 1
  nfreepage := 18
  kernend := 272 * PAGESIZE
  allocbmend := 400
  allocbmok := true

/-- A process whose first two page tables are in pages 501 and 503. -/
def fragmented : Phys where
  pages := fewfree
  mem := fun a =>
    if a = 500 * 1024 then Pte.mapto 501 PROTPGTBL
    else if a = 500 * 1024 + 1 then Pte.mapto 503 PROTPGTBL
    else 0

theorem managed_fewfree {p : Nat} :
    PageSys.managed fewfree p ↔ 1 ≤ p ∧ p < 160 ∨ 400 ≤ p ∧ p < 512 := Iff.rfl

theorem refcnt_fewfree {p : Nat} : fewfree.refcnt p =
    if 512 ≤ p ∨ 1 ≤ p ∧ p ≤ 18 then 0 else if p = 0 ∨ 160 ≤ p ∧ p < 400 then SYSPAGE else 1 := rfl

theorem fewfree_inv : PageSys.Inv ⟨fewfree, fun p =>
    if (1 ≤ p ∧ p < 160 ∨ 400 ≤ p ∧ p < 512) ∧ 18 < p then 1 else 0⟩ where
  bounds := ⟨by decide, by decide, by decide, by decide⟩
  list := by
    refine ⟨List.range' 1 18, ?_, fun p => ?_, rfl⟩
    · simp [List.range', Linked, fewfree]
    · rw [mem_range'_1, managed_fewfree, refcnt_fewfree]
      split_ifs with hfree hsys
      · omega
      · exact iff_of_false (by omega) fun h => absurd h.2 (by decide)
      · exact iff_of_false (by omega) fun h => absurd h.2 (by decide)
  sys := by
    intro p hp hm
    have hlt : p < 512 := hp
    rw [managed_fewfree] at hm
    rw [refcnt_fewfree, if_neg (by omega), if_pos (by omega)]
  beyond := by
    intro p hp
    exact if_pos (.inl hp)
  refs := by
    intro p hm
    rw [managed_fewfree] at hm
    dsimp only
    rw [refcnt_fewfree]
    by_cases hfree : p ≤ 18
    · rw [if_pos (by omega), if_neg (by omega)]
      decide
    · rw [if_neg (by omega), if_neg (by omega), if_pos (by omega)]
      decide
  unused := by
    intro p hm
    rw [managed_fewfree] at hm
    exact if_neg (by omega)

theorem pair_fragmented : fragmented.Pair 500 504 where
  refs := ⟨_, fewfree_inv⟩
  size := by decide
  held := by decide
  src := ⟨by decide, by decide +kernel⟩
  dst := ⟨by decide, by decide +kernel⟩

/-- One table is always in a row. -/
theorem scans_fragmented :
    Scans fragmented 500 0 PDECOVERED ∧ Copies fragmented 500 504 0 PDECOVERED := by
  have hrow : InRow fragmented 500 504 0 PDECOVERED := by
    exact List.IsChain.singleton 0
  exact (scans_iff pair_fragmented (by decide) (by decide) (by decide) (by decide)).mpr hrow

/-- The last page of the first table and the first one of the second: for the second one the copy
is in page 502, behind the first table. -/
theorem copies_fragmented :
    fragmented.Pair 500 504 ∧ ¬ Copies fragmented 500 504 0x3ff000 0x401000 := by
  refine ⟨pair_fragmented, ?_⟩
  rintro ⟨e, vs, last, t, hrun, -, hright⟩
  have hcopy : ∃ last t, copypgtbl fragmented 500 504 0x3ff000 0x401000 = .ok (0,
      [⟨0x3ff000, 501 * 1024 + 1023, 1 * 1024 + 1023⟩, ⟨0x400000, 502 * 1024, 2 * 1024⟩],
      last, t) := ⟨_, _, rfl⟩
  obtain ⟨last', t', hcopy⟩ := hcopy
  cases hcopy.symm.trans hrun
  have hsecond := hright ⟨0x400000, 502 * 1024, 2 * 1024⟩ (by simp)
  cases hsecond

end Unixlite.Paging
