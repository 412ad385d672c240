import Unixlite.Mm.BrkInv
import Unixlite.Mm.Clone

/-!
# Scans of a page table

`foreachpte2` comes to every page of its range whose table is there, in ascending order
(`foreachpte2_eq`).  What is left of a scan is what is left of that list: the cursor passes
over pages without a table only.

The positions that `explore` and `next` of `asm/pgtbl.cc` go to are those of `Vm`, in which a
directory is the set of its tables.
-/

namespace Unixlite.Paging

open Unixlite.Mm Unixlite.Verified.Partial
open Unixlite.Mm.Vm (Skips)
open List

/-! ## The pages of a range -/

section Present

variable {pde : Nat → Bool} {start mid stop lo hi : Nat}

/-- The pages of `[start, stop)` whose table is there, in ascending order. -/
def present (pde : Nat → Bool) (start stop : Nat) : List Nat :=
  ((List.range' (pagediv start) (pagediv stop - pagediv start)).map (· * PAGESIZE)).filter
    fun vaddr => pde (pdeidx vaddr)

theorem present_nil (h : stop ≤ start) : present pde start stop = [] := by
  have hdiv : pagediv stop ≤ pagediv start := Nat.div_le_div_right h
  rw [present, Nat.sub_eq_zero_of_le hdiv]
  rfl

theorem present_cons (halign : pagemod start = 0) (hstop : pagemod stop = 0) (hlt : start < stop)
    (hpde : pde (pdeidx start) = true) :
    present pde start stop = start :: present pde (start + PAGESIZE) stop := by
  have hnext : pagediv (start + PAGESIZE) = pagediv start + 1 := by
    simp only [pagediv, PAGESIZE]
    omega
  have hcount : pagediv stop - pagediv start = pagediv stop - (pagediv start + 1) + 1 := by
    simp only [pagemod, pagediv, PAGESIZE] at *
    omega
  have hfirst : pagediv start * PAGESIZE = start := by
    simp only [pagemod, pagediv, PAGESIZE] at *
    omega
  rw [present, present, hnext, hcount, List.range'_succ, map_cons, hfirst]
  exact filter_cons_of_pos hpde

/-- Pages without a table are not in the list. -/
theorem present_absent (habsent : ∀ p, pagediv lo ≤ p → p < pagediv hi → pde (p / 1024) = false)
    {n : Nat} (hn : pagediv lo + n ≤ pagediv hi) :
    ((List.range' (pagediv lo) n).map (· * PAGESIZE)).filter (fun a => pde (pdeidx a)) = [] := by
  rw [filter_eq_nil_iff]
  intro vaddr hvaddr
  obtain ⟨p, hp, rfl⟩ := mem_map.mp hvaddr
  have hrange := mem_range'_1.mp hp
  have hidx : pdeidx (p * PAGESIZE) = p / 1024 := by
    simp only [pdeidx, PAGESIZE]
    omega
  rw [hidx, habsent p hrange.1 (by omega)]
  decide

theorem present_skip (h : Skips pde lo hi) : present pde lo stop = present pde hi stop := by
  have hle : pagediv lo ≤ pagediv hi := Nat.div_le_div_right h.le
  by_cases hstop : pagediv stop ≤ pagediv hi
  · have hnone : pagediv stop - pagediv hi = 0 := Nat.sub_eq_zero_of_le hstop
    rw [present, present, hnone]
    by_cases hlo : pagediv stop ≤ pagediv lo
    · rw [Nat.sub_eq_zero_of_le hlo]
      rfl
    · exact present_absent h.absent (by omega)
  · have hsplit : pagediv stop - pagediv lo =
        (pagediv hi - pagediv lo) + (pagediv stop - pagediv hi) := by omega
    have hmid : pagediv lo + (pagediv hi - pagediv lo) = pagediv hi := by omega
    rw [present, present, hsplit, ← List.range'_append_1, map_append, filter_append,
      present_absent h.absent (by omega), nil_append, hmid]

end Present

/-! ## Directories -/

namespace Phys

variable {s : Phys} {pgd vaddr : Nat}

/-- The table is there. -/
def table (s : Phys) (pgd i : Nat) : Bool := Pte.tstp (s.word (pgd * 1024 + i))

/-- The page that a table is in. -/
def frame (s : Phys) (pgd i : Nat) : Nat := Pte.page (s.word (pgd * 1024 + i))

/-- The entry of an address whose table is there. -/
def entry (s : Phys) (pgd vaddr : Nat) : Nat := s.frame pgd (pdeidx vaddr) * 1024 + pteidx vaddr

/-- The page is a page directory, whose tables for user space are in memory. -/
structure Directory (s : Phys) (pgd : Nat) : Prop where
  lt : pgd < s.pages.nphyspage
  tables : ∀ i, i < pdeidx USEREND → s.table pgd i = true → s.frame pgd i < s.pages.nphyspage

theorem tstp_pde : Pte.tstp (s.word (getpde pgd vaddr)) = s.table pgd (pdeidx vaddr) := rfl

theorem page_pde : Pte.page (s.word (getpde pgd vaddr)) = s.frame pgd (pdeidx vaddr) := rfl

theorem pdeidx_lt (h : vaddr < USEREND) : pdeidx vaddr < pdeidx USEREND := by
  simp only [pdeidx, USEREND] at *
  omega

namespace Directory

theorem load (h : s.Directory pgd) (hvaddr : vaddr < USEREND) :
    s.load (getpde pgd vaddr) = .ok (s.word (getpde pgd vaddr)) := by
  have hpage : getpde pgd vaddr / 1024 = pgd := by
    simp only [getpde, pdeidx, USEREND] at *
    omega
  rw [Phys.load, hpage, if_pos h.lt]

theorem startpte (h : s.Directory pgd) (hvaddr : vaddr < USEREND)
    (htable : s.table pgd (pdeidx vaddr) = true) :
    s.startpte (s.word (getpde pgd vaddr)) = .ok (s.frame pgd (pdeidx vaddr) * 1024) := by
  have hframe := h.tables _ (pdeidx_lt hvaddr) htable
  rw [Phys.startpte, tstp_pde, htable, page_pde, if_neg (by decide),
    if_neg (Nat.not_lt.mpr (Nat.le_of_lt hframe))]

theorem pteof (h : s.Directory pgd) (hvaddr : vaddr < USEREND)
    (htable : s.table pgd (pdeidx vaddr) = true) :
    s.pteof (getpde pgd vaddr) vaddr = .ok (s.entry pgd vaddr) := by
  rw [Phys.pteof, h.load hvaddr, ok_bind, h.startpte hvaddr htable]
  rfl

end Directory

/-- Addresses of one table have one entry of the directory. -/
theorem getpde_add {off : Nat} (halign : vaddr % PDECOVERED = 0) (hoff : off < PDECOVERED) :
    getpde pgd (vaddr + off) = getpde pgd vaddr := by
  simp only [getpde, pdeidx, PDECOVERED] at *
  omega

/-- The next table has the next entry. -/
theorem getpde_next : getpde pgd (vaddr + PDECOVERED) = getpde pgd vaddr + 1 := by
  simp only [getpde, pdeidx, PDECOVERED]
  omega

/-- The first address of a table has its first entry. -/
theorem pteidx_first (halign : vaddr % PDECOVERED = 0) : pteidx vaddr = 0 := by
  simp only [pteidx, pagediv, PAGESIZE, PDECOVERED] at *
  omega

theorem entry_first (halign : vaddr % PDECOVERED = 0) :
    s.entry pgd vaddr = s.frame pgd (pdeidx vaddr) * 1024 := by
  rw [entry, pteidx_first halign, Nat.add_zero]

/-- Within a table an address behind another has the entry behind its entry. -/
theorem pteidx_next (halign : pagemod vaddr = 0) (hin : (vaddr + PAGESIZE) % PDECOVERED ≠ 0) :
    pteidx (vaddr + PAGESIZE) = pteidx vaddr + 1 ∧ pdeidx (vaddr + PAGESIZE) = pdeidx vaddr := by
  simp only [pteidx, pagediv, pdeidx, pagemod, PAGESIZE, PDECOVERED] at *
  omega

/-- Behind the last entry of a table is the page behind it. -/
theorem pteidx_last (halign : pagemod vaddr = 0) (hlast : (vaddr + PAGESIZE) % PDECOVERED = 0) :
    pteidx vaddr = 1023 ∧ pdeidx (vaddr + PAGESIZE) = pdeidx vaddr + 1 := by
  simp only [pteidx, pagediv, pdeidx, pagemod, PAGESIZE, PDECOVERED] at *
  omega

/-! ## Where a scan goes -/

variable {start stop off n : Nat}

theorem exploreFrom_spec (h : s.Directory pgd) (halign : start % PDECOVERED = 0)
    (hpage : pagemod off = 0) (hoff : off < PDECOVERED) (hn : n = 0 → off = 0)
    (hend : start + n * PDECOVERED ≤ USEREND) :
    ∃ curpos found, s.exploreFrom pgd n start off = .ok (curpos, found) ∧
      Skips (s.table pgd) (start + off) curpos ∧
      (found = none ∧ curpos = start + n * PDECOVERED ∨
        found = some (getpde pgd curpos, s.entry pgd curpos) ∧ s.table pgd (pdeidx curpos) = true ∧
          curpos < start + n * PDECOVERED) := by
  induction n generalizing start off with
  | zero =>
      refine ⟨start, none, rfl, ?_, .inl ⟨rfl, by omega⟩⟩
      rw [hn rfl]
      apply Skips.refl
      simp only [pagemod, PAGESIZE, PDECOVERED] at *
      omega
  | succ n ih =>
      have hmul : (n + 1) * PDECOVERED = n * PDECOVERED + PDECOVERED := Nat.succ_mul n PDECOVERED
      have hvaddr : start < USEREND := by
        omega
      rw [exploreFrom, h.load hvaddr, ok_bind, tstp_pde]
      cases htable : s.table pgd (pdeidx start) with
      | true =>
          have hidx : pdeidx (start + off) = pdeidx start := by
            simp only [pdeidx, PDECOVERED] at *
            omega
          have hin : start + off < USEREND := by omega
          rw [if_pos rfl, ← getpde_add halign hoff, h.pteof hin (by rw [hidx, htable]), ok_bind]
          refine ⟨_, _, rfl, ?_, .inr ⟨rfl, by rw [hidx, htable], by omega⟩⟩
          apply Skips.refl
          simp only [pagemod, PAGESIZE, PDECOVERED] at *
          omega
      | false =>
          have hnext : (start + PDECOVERED) % PDECOVERED = 0 := by
            rw [Nat.add_mod_right, halign]
          obtain ⟨curpos, found, hexplore, hskips, hfound⟩ :=
            ih hnext rfl (by decide) (fun _ => rfl) (by omega)
          refine ⟨curpos, found, hexplore, ?_, ?_⟩
          · exact (Vm.skips_table halign (Nat.le_of_lt hoff) htable).trans hskips
          · rw [hmul]
            rwa [Nat.add_assoc, Nat.add_comm PDECOVERED] at hfound

/-- `explore` comes to the first page of the range whose table is there. -/
theorem explore_spec (h : s.Directory pgd) (hle : start ≤ stop) (hstart : pagemod start = 0)
    (hstop : stop ≤ USEREND) :
    ∃ curpos found, s.explore pgd start stop = .ok (curpos, found) ∧
      Skips (s.table pgd) start curpos ∧
      (found = none ∧ stop ≤ curpos ∨
        found = some (getpde pgd curpos, s.entry pgd curpos) ∧ s.table pgd (pdeidx curpos) = true ∧
          curpos < USEREND) := by
  obtain ⟨hdown, hroom, halign, hoff, hn, hup, hend, hcount⟩ :=
    Vm.explore_tables hle hstart hstop
  obtain ⟨curpos, found, hexplore, hskips, hfound⟩ :=
    exploreFrom_spec h halign hoff (Nat.mod_lt _ (by decide)) hn (by omega)
  rw [hdown] at hskips
  refine ⟨curpos, found, ?_, hskips, ?_⟩
  · rw [explore, if_neg (Nat.not_lt.mpr hle)]
    rw [if_neg hroom]
    exact hexplore
  · rw [hcount] at hfound
    rcases hfound with ⟨rfl, hcurpos⟩ | ⟨rfl, htable, hcurpos⟩
    · exact .inl ⟨rfl, by omega⟩
    · exact .inr ⟨rfl, htable, by omega⟩

end Phys

/-! ## `scanpgtbl_t` -/

namespace Scanpgtbl

/-- The turns of `foreachpte2`, `n` at most: the cursor and the entry of each, and the scan
behind the last one. -/
def turns (s : Phys) : Nat → Scanpgtbl → Except Stuck (List (Nat × Nat) × Scanpgtbl)
  | 0, c => .ok ([], c)
  | n + 1, c =>
      if !c.more then .ok ([], c)
      else do
        let c' ← c.next s
        let (rest, last) ← turns s n c'
        .ok ((c.curpos, c.pte) :: rest, last)

end Scanpgtbl

/-- `foreachpte2`, with a body that leaves the directory alone. -/
def foreachpte2 (s : Phys) (pgd start stop : Nat) :
    Except Stuck (List (Nat × Nat) × Scanpgtbl) := do
  let c ← Scanpgtbl.start s pgd start stop
  Scanpgtbl.turns s ((stop - start) / PAGESIZE) c

namespace Scanpgtbl

open Phys

variable {s : Phys} {pgd start stop n : Nat} {c c' : Scanpgtbl}

/-- The scan is on a page whose table is there, with its pointers on the entries of the page,
or it is over. -/
structure At (s : Phys) (pgd : Nat) (c : Scanpgtbl) : Prop where
  aligned : pagemod c.curpos = 0
  there : c.curpos < c.stop → s.table pgd (pdeidx c.curpos) = true ∧
    c.pde = getpde pgd c.curpos ∧ c.pte = s.entry pgd c.curpos

/-- The scan has gone on to the page, past pages without a table. -/
structure Goes (s : Phys) (pgd stop : Nat) (vaddr : Nat) (c : Scanpgtbl) : Prop where
  at_ : c.At s pgd
  stop : c.stop = stop
  skips : Skips (s.table pgd) vaddr c.curpos

theorem start_spec (h : s.Directory pgd) (hle : start ≤ stop) (hstart : pagemod start = 0)
    (hstop : pagemod stop = 0) (hend : stop ≤ USEREND) :
    ∃ c, Scanpgtbl.start s pgd start stop = .ok c ∧ c.Goes s pgd stop start := by
  obtain ⟨curpos, found, hexplore, hskips, hfound⟩ := explore_spec h hle hstart hend
  rw [Scanpgtbl.start, if_neg (Nat.not_lt.mpr hle), if_neg (by simp [hstart, hstop]), hexplore,
    ok_bind]
  rcases hfound with ⟨rfl, hbehind⟩ | ⟨rfl, htable, -⟩
  · refine ⟨_, rfl, ⟨hskips.aligned, fun hlt => ?_⟩, rfl, hskips⟩
    exact absurd hlt (Nat.not_lt.mpr hbehind)
  · exact ⟨_, rfl, ⟨hskips.aligned, fun _ => ⟨htable, rfl, rfl⟩⟩, rfl, hskips⟩

/-- The loop of `next` comes to the next table. -/
theorem skip_spec (h : s.Directory pgd) (hend : c.stop ≤ USEREND)
    (halign : c.curpos % PDECOVERED = 0) (hpde : c.pde = getpde pgd c.curpos)
    (henough : c.stop ≤ c.curpos + n * PDECOVERED)
    (hmore : c.curpos + n * PDECOVERED < c.stop + PDECOVERED) :
    ∃ c', skip n s c = .ok c' ∧ c'.Goes s pgd c.stop c.curpos := by
  have hhere : Skips (s.table pgd) c.curpos c.curpos := by
    apply Skips.refl
    simp only [pagemod, PAGESIZE, PDECOVERED] at *
    omega
  induction n generalizing c with
  | zero =>
      refine ⟨_, rfl, ⟨hhere.aligned, fun hlt => ?_⟩, rfl, hhere⟩
      dsimp only at hlt
      omega
  | succ n ih =>
      rw [Nat.succ_mul] at henough hmore
      have hin : c.curpos < USEREND := by omega
      rw [skip, hpde, h.load hin, ok_bind, tstp_pde]
      cases htable : s.table pgd (pdeidx c.curpos) with
      | true =>
          rw [if_pos rfl, h.startpte hin htable, ok_bind]
          refine ⟨_, rfl, ⟨hhere.aligned, fun _ => ⟨htable, rfl, ?_⟩⟩, rfl, hhere⟩
          exact (entry_first halign).symm
      | false =>
          have hnext : (c.curpos + PDECOVERED) % PDECOVERED = 0 := by
            rw [Nat.add_mod_right, halign]
          have htable' : Skips (s.table pgd) (c.curpos + 0) (c.curpos + PDECOVERED) :=
            Vm.skips_table halign (Nat.zero_le _) htable
          obtain ⟨c', hskip, hgoes⟩ := ih (c := ⟨getpde pgd c.curpos + 1, c.pte,
            c.curpos + PDECOVERED, c.stop⟩) hend hnext getpde_next.symm (by dsimp only; omega)
            (by dsimp only; omega) (Skips.refl htable'.aligned)
          exact ⟨c', hskip, hgoes.at_, hgoes.stop, htable'.trans hgoes.skips⟩

/-- `next` goes to the next page, or on to the next table. -/
theorem next_spec (h : s.Directory pgd) (hend : c.stop ≤ USEREND) (hat : c.At s pgd)
    (hmore : c.curpos < c.stop) :
    ∃ c', c.next s = .ok c' ∧ c'.Goes s pgd c.stop (c.curpos + PAGESIZE) := by
  obtain ⟨htable, hpde, hpte⟩ := hat.there hmore
  have halign := hat.aligned
  unfold next
  dsimp only
  split
  · next hin =>
    obtain ⟨hidx, htbl⟩ := pteidx_next halign hin
    have hpage : pagemod (c.curpos + PAGESIZE) = 0 := by
      rw [pagemod, Nat.add_mod_right]
      exact halign
    refine ⟨_, rfl, ⟨hpage, fun _ => ⟨?_, ?_, ?_⟩⟩, rfl, Skips.refl hpage⟩
    · rw [htbl, htable]
    · rw [hpde, getpde, getpde, htbl]
    · rw [hpte, entry, entry, hidx, htbl, Nat.add_assoc]
  · next hlast =>
    rw [not_not] at hlast
    obtain ⟨-, htbl⟩ := pteidx_last halign hlast
    refine skip_spec (c := ⟨c.pde + 1, c.pte + 1, c.curpos + PAGESIZE, c.stop⟩) h hend hlast
      ?_ ?_ ?_
    · rw [hpde, getpde, getpde, htbl, Nat.add_assoc]
    · simp only [PDECOVERED]
      omega
    · simp only [PAGESIZE, PDECOVERED] at *
      omega

/-- What is left of a scan is what is left of the pages of its range. -/
theorem turns_spec (h : s.Directory pgd) (hend : c.stop ≤ USEREND) (hstop : pagemod c.stop = 0)
    (hat : c.At s pgd) (henough : c.stop ≤ c.curpos + n * PAGESIZE) :
    ∃ last, turns s n c = .ok ((present (s.table pgd) c.curpos c.stop).map
        fun vaddr => (vaddr, s.entry pgd vaddr), last) ∧ last.more = false := by
  induction n generalizing c with
  | zero =>
      have hle : c.stop ≤ c.curpos := by omega
      refine ⟨c, ?_, decide_eq_false (Nat.not_lt.mpr hle)⟩
      rw [present_nil hle]
      rfl
  | succ n ih =>
      by_cases hmore : c.curpos < c.stop
      · obtain ⟨htable, -, hpte⟩ := hat.there hmore
        obtain ⟨c', hnext, hgoes⟩ := next_spec h hend hat hmore
        have hle := hgoes.skips.le
        rw [← hgoes.stop] at hend hstop
        obtain ⟨last, hturns, hlast⟩ := ih hend hstop hgoes.at_ (by
          rw [hgoes.stop]
          rw [Nat.succ_mul] at henough
          omega)
        rw [hgoes.stop] at hstop hturns
        have hrest := present_cons hat.aligned hstop hmore htable
        rw [present_skip hgoes.skips] at hrest
        refine ⟨last, ?_, hlast⟩
        rw [turns, if_neg (by simp [more, hmore]), hnext, ok_bind, hturns, ok_bind, hrest,
          map_cons, hpte]
      · have hle : c.stop ≤ c.curpos := Nat.le_of_not_lt hmore
        refine ⟨c, ?_, decide_eq_false hmore⟩
        rw [turns, if_pos (by simp [more, hmore]), present_nil hle]
        rfl

end Scanpgtbl

/-- **`foreachpte2`** comes to the pages of its range whose table is there, once and in ascending
order, each with its entry, and ends. -/
theorem foreachpte2_eq {s : Phys} {pgd start stop : Nat} (h : s.Directory pgd) (hle : start ≤ stop)
    (hstart : pagemod start = 0) (hstop : pagemod stop = 0) (hend : stop ≤ USEREND) :
    ∃ last, foreachpte2 s pgd start stop = .ok ((present (s.table pgd) start stop).map
        fun vaddr => (vaddr, s.entry pgd vaddr), last) ∧ last.more = false := by
  obtain ⟨c, hc, hgoes⟩ := Scanpgtbl.start_spec h hle hstart hstop hend
  have hfuel : c.stop ≤ c.curpos + (stop - start) / PAGESIZE * PAGESIZE := by
    have hskips := hgoes.skips.le
    rw [hgoes.stop]
    simp only [pagemod, PAGESIZE] at *
    omega
  rw [← hgoes.stop] at hend hstop
  obtain ⟨last, hturns, hlast⟩ := Scanpgtbl.turns_spec h hend hstop hgoes.at_ hfuel
  rw [hgoes.stop, ← present_skip hgoes.skips] at hturns
  exact ⟨last, by rw [foreachpte2, hc, ok_bind, hturns], hlast⟩

end Unixlite.Paging
