import Mathlib.Order.Interval.Finset.Nat
import Unixlite.Mm.Brk

/-!
# Page tables and the pages in them

`unmap` comes to every entry of its range that is there, and gives each page back once
(`unmap_spec`).  What carries this is `Tables`: a page has a reference for each entry that maps
it, and for each that is held besides, and a page that can be written to has no other.
-/

namespace Unixlite.Mm

open Verified Refcount
open Unixlite.Paging (PDECOVERED)
open Unixlite.Paging.Phys (rounddown2 roundup2)
open Function (update update_apply update_idem update_of_ne update_self)
open List Option Finset

/-- `freepage` takes one reference. -/
theorem freepage_refcnt {s t : Pages} {p : Nat} (hlt : p < s.nphyspage)
    (hallocable : s.allocable p = true) (hpos : 0 < s.refcnt p) (hmax : s.refcnt p < 2 ^ 31)
    (h : s.freepage p = some t) (f : Nat) :
    t.refcnt f + (if p = f then 1 else 0) = s.refcnt f := by
  have hset : t.refcnt = (s.setRefcnt p (s.refcnt p - 1)).refcnt := by
    by_cases hone : s.refcnt p = 1
    · rw [Pages.freepage_last hlt hallocable hone] at h
      cases h
      rw [hone]
      rfl
    · rw [Pages.freepage_more hlt hallocable (by omega) hmax] at h
      cases h
      rfl
  rw [hset]
  by_cases hf : p = f
  · rw [← hf, Pages.setRefcnt_self, if_pos rfl, Int.sub_add_cancel]
  · rw [Pages.setRefcnt_ne (Ne.symm hf), if_neg hf, add_zero]

/-- What `allocpage` comes to for a user: the page is the first of the free list, and nobody has
it. -/
theorem allocpage_user {sys : PageSys} (h : sys.Inv) (flags : BitVec 32)
    (hflags : flags &&& AUSER ≠ 0) :
    sys.pages.nfreepage ≤ DRIVERQUOTA + KERNQUOTA ∧
        sys.pages.allocpage flags = some (.null, sys.pages) ∨
      ∃ page, sys.pages.allocpage flags = some (.page page, PageSys.popped sys.pages flags page) ∧
        DRIVERQUOTA + KERNQUOTA < sys.pages.nfreepage ∧ sys.refs page = 0 ∧
        (sys.setRefs (PageSys.popped sys.pages flags page) page (sys.refs page + 1)).Inv := by
  have hcheck : ¬ (!sys.pages.check) = true := by
    rw [h.check]
    decide
  have hquota : sys.pages.quota flags =
      some (if sys.pages.nfreepage ≤ DRIVERQUOTA + KERNQUOTA then some .null else none) := by
    rw [Pages.quota, if_pos hflags]
  by_cases hfew : sys.pages.nfreepage ≤ DRIVERQUOTA + KERNQUOTA
  · rw [if_pos hfew] at hquota
    refine .inl ⟨hfew, ?_⟩
    rw [Pages.allocpage, if_neg hcheck, hquota]
  · rw [if_neg hfew] at hquota
    right
    rcases h.allocpage_cases flags with ⟨hnone, -⟩ | ⟨r, hnot, hr⟩ | ⟨page, l, -, hl, hpage⟩
    · rw [hquota] at hnone
      cases hnone
    · exfalso
      rw [Pages.allocpage, if_neg hcheck, hquota] at hr
      dsimp only at hr
      split at hr
      · cases hr
      split_ifs at hr
      exact hnot _ (Prod.mk.inj (some.inj hr)).1.symm
    · exact ⟨page, hpage, not_le.mp hfew, h.alloc flags hl⟩

namespace Vm

/-! ## What a scan passes over -/

/-- Between these addresses no table is there. -/
structure Skips (pde : Nat → Bool) (lo hi : Nat) : Prop where
  le : lo ≤ hi
  aligned : pagemod hi = 0
  absent : ∀ p, pagediv lo ≤ p → p < pagediv hi → pde (p / 1024) = false

variable {pde : Nat → Bool} {lo mid hi start stop off curpos n : Nat}

theorem Skips.refl (h : pagemod lo = 0) : Skips pde lo lo :=
  ⟨Nat.le_refl lo, h, fun _ hlo hhi => absurd hhi (Nat.not_lt.mpr hlo)⟩

theorem Skips.trans (h : Skips pde lo mid) (h' : Skips pde mid hi) : Skips pde lo hi := by
  refine ⟨Nat.le_trans h.le h'.le, h'.aligned, fun p hlo hhi => ?_⟩
  by_cases hmid : p < pagediv mid
  · exact h.absent p hlo hmid
  · exact h'.absent p (Nat.le_of_not_lt hmid) hhi

/-- One table that is not there, from `off` on. -/
theorem skips_table (halign : curpos % PDECOVERED = 0) (hoff : off ≤ PDECOVERED)
    (hpde : pde (curpos / PDECOVERED) = false) :
    Skips pde (curpos + off) (curpos + PDECOVERED) := by
  refine ⟨Nat.add_le_add_left hoff curpos, ?_, fun p hlo hhi => ?_⟩
  · simp only [pagemod, PAGESIZE, PDECOVERED] at *
    omega
  · have hp : p / 1024 = curpos / PDECOVERED := by
      simp only [pagediv, PAGESIZE, PDECOVERED] at *
      omega
    rw [hp, hpde]

theorem exploreFrom_skips (halign : start % PDECOVERED = 0) (hoff : pagemod off = 0)
    (hlt : off < PDECOVERED) (hn : n = 0 → off = 0) :
    Skips pde (start + off) (exploreFrom pde n start off) := by
  induction n generalizing start off with
  | zero =>
      rw [hn rfl]
      apply Skips.refl
      simp only [pagemod, PAGESIZE, PDECOVERED] at *
      omega
  | succ n ih =>
      rw [exploreFrom]
      cases hpde : pde (start / PDECOVERED) with
      | true =>
          apply Skips.refl
          simp only [pagemod, PAGESIZE, PDECOVERED] at *
          omega
      | false =>
          have hnext : (start + PDECOVERED) % PDECOVERED = 0 := by
            rw [Nat.add_mod_right, halign]
          have htable := skips_table halign (Nat.le_of_lt hlt) hpde
          exact htable.trans (ih hnext rfl (by decide) fun _ => rfl)

/-- The tables that `explore` goes through, and where in the first of them it starts. -/
theorem explore_tables (hle : start ≤ stop) (hstart : pagemod start = 0) (hstop : stop ≤ USEREND) :
    rounddown2 start PDECOVERED + start % PDECOVERED = start ∧
    ¬ roundup2 stop PDECOVERED < rounddown2 start PDECOVERED ∧
    rounddown2 start PDECOVERED % PDECOVERED = 0 ∧ pagemod (start % PDECOVERED) = 0 ∧
    ((roundup2 stop PDECOVERED - rounddown2 start PDECOVERED) / PDECOVERED = 0 →
      start % PDECOVERED = 0) ∧
    stop ≤ roundup2 stop PDECOVERED ∧ roundup2 stop PDECOVERED ≤ USEREND ∧
    rounddown2 start PDECOVERED +
      (roundup2 stop PDECOVERED - rounddown2 start PDECOVERED) / PDECOVERED * PDECOVERED =
        roundup2 stop PDECOVERED := by
  have hround : roundup2 stop PDECOVERED = (stop + PDECOVERED - 1) / PDECOVERED * PDECOVERED := by
    have hwrap : wrap (stop + PDECOVERED - 1) = stop + PDECOVERED - 1 := by
      apply Nat.mod_eq_of_lt
      simp only [USEREND, PDECOVERED] at *
      omega
    rw [roundup2, hwrap, rounddown2]
  rw [hround, rounddown2]
  simp only [pagemod, PAGESIZE, PDECOVERED, USEREND] at *
  omega

/-- `explore` comes to the first page of the range whose table is there. -/
theorem explore_skips (hle : start ≤ stop) (hstart : pagemod start = 0) (hstop : stop ≤ USEREND) :
    ∃ curpos, explore pde start stop = some curpos ∧ Skips pde start curpos := by
  obtain ⟨hdown, hroom, halign, hoff, hn, -⟩ := explore_tables hle hstart hstop
  rw [explore, if_neg (Nat.not_lt.mpr hle)]
  rw [if_neg hroom]
  refine ⟨_, rfl, ?_⟩
  conv_lhs => rw [← hdown]
  exact exploreFrom_skips halign hoff (Nat.mod_lt _ (by decide)) hn

theorem skip_skips (halign : curpos % PDECOVERED = 0) :
    Skips pde curpos (skip pde stop n curpos) := by
  have hhere : Skips pde curpos curpos := by
    apply Skips.refl
    simp only [pagemod, PAGESIZE, PDECOVERED] at *
    omega
  induction n generalizing curpos with
  | zero => exact hhere
  | succ n ih =>
      rw [skip]
      split_ifs with hstop hpde
      · exact hhere
      · exact hhere
      · have hnext : (curpos + PDECOVERED) % PDECOVERED = 0 := by
          rw [Nat.add_mod_right, halign]
        have htable : Skips pde (curpos + 0) (curpos + PDECOVERED) :=
          skips_table halign (Nat.zero_le _) (by simpa using hpde)
        exact htable.trans (ih hnext (Skips.refl htable.aligned))

/-- `next` goes to the next page, or on to the next table that is there. -/
theorem next_skips (halign : pagemod curpos = 0) :
    Skips pde (curpos + PAGESIZE) (next pde stop curpos) := by
  rw [next]
  split_ifs with hmod
  · apply Skips.refl
    simp only [pagemod, PAGESIZE] at *
    omega
  · exact skip_skips (not_not.mp hmod)

/-! ## Pages and their references -/

/-- The pages of user space. -/
def userpages : Finset Nat := Finset.range (USEREND / PAGESIZE)

/-- The page that is mapped. -/
def frames (s : Vm) (p : Nat) : Option Nat := (s.pte p).map Entry.page

/-- The entries that map a page. -/
def mapped (s : Vm) (f : Nat) : Nat := refs userpages s.frames f

/-- The page tables are in order, while the pages of `held` are held besides. -/
structure Tables (s : Vm) (held : List Nat) : Prop where
  table : ∀ p e, s.pte p = some e → s.pde (p / 1024) = true
  user : ∀ p e, s.pte p = some e → p ∈ userpages
  /-- Each page has its references, and more where others have it as well. -/
  owned : ∃ own, PageSys.Inv ⟨s.pages, own⟩ ∧ ∀ f, s.mapped f + held.count f ≤ own f
  /-- Nobody else has what can be written to. -/
  sole : ∀ p e, s.pte p = some e → e.w = true → s.pages.refcnt e.page = 1

variable {s t : Vm} {held : List Nat} {p q f page : Nat} {e : Entry}

theorem mapped_pos (h : s.Tables held) (hp : s.pte p = some e) : 0 < s.mapped e.page :=
  refs_pos.mpr ⟨p, h.user p e hp, by rw [frames, hp, map_some]⟩

namespace Tables

/-- A page with references has as many as it counts. -/
theorem counted (h : s.Tables held) (hf : 0 < s.mapped f + held.count f) :
    ((s.mapped f + held.count f : Nat) : Int) ≤ s.pages.refcnt f ∧ 0 < s.pages.refcnt f ∧
      s.pages.refcnt f < 2 ^ 31 ∧ f < s.pages.nphyspage ∧ s.pages.allocable f = true := by
  obtain ⟨own, hinv, hown⟩ := h.owned
  have hle := hown f
  have hmanaged : PageSys.managed s.pages f := by
    by_contra hnot
    have hzero := hinv.unused f hnot
    dsimp only at hzero
    omega
  obtain ⟨hrefs, hmax⟩ := hinv.refs f hmanaged
  dsimp only at hrefs hmax
  refine ⟨by omega, by omega, hmax, ?_, ?_⟩
  · exact PageSys.managed_lt hinv.bounds hmanaged
  · exact PageSys.managed_allocable hinv.bounds hmanaged

/-- Where there is no table there is no entry. -/
theorem absent (h : s.Tables held) (hskips : Skips s.pde lo hi) (hlo : pagediv lo ≤ p)
    (hhi : p < pagediv hi) : s.pte p = none := by
  by_contra hsome
  obtain ⟨e, he⟩ := ne_none_iff_exists'.mp hsome
  have hthere := h.table p e he
  rw [hskips.absent p hlo hhi] at hthere
  cases hthere

/-- What is held need not be given back. -/
theorem keep (h : s.Tables (page :: held)) : s.Tables held := by
  obtain ⟨own, hinv, hown⟩ := h.owned
  refine ⟨h.table, h.user, ⟨own, hinv, fun f => ?_⟩, h.sole⟩
  have hle := hown f
  rw [count_cons] at hle
  omega

/-- `freepage` of a page that is held. -/
theorem free (h : s.Tables (page :: held)) :
    ∃ pages, s.pages.freepage page = some pages ∧
      (∀ f, pages.refcnt f + (if page = f then 1 else 0) = s.pages.refcnt f) ∧
      Tables { s with pages := pages } held := by
  have hcount : 0 < s.mapped page + (page :: held).count page := by
    rw [count_cons_self]
    omega
  obtain ⟨hle, hpos, hmax, hlt, hallocable⟩ := h.counted hcount
  obtain ⟨own, hinv, hown⟩ := h.owned
  obtain ⟨pages, hfree, hinv', -⟩ := hinv.free (p := page) hpos
  have hrefcnt := freepage_refcnt hlt hallocable hpos hmax hfree
  refine ⟨pages, hfree, hrefcnt, h.table, h.user, ⟨_, hinv', fun f => ?_⟩, fun p e hp hw => ?_⟩
  · have hle := hown f
    rw [count_cons] at hle
    show s.mapped f + held.count f ≤ if f = page then own page - 1 else own f
    by_cases hf : f = page
    · subst hf
      rw [if_pos (beq_self_eq_true f)] at hle
      rw [if_pos rfl]
      omega
    · rw [if_neg hf]
      omega
  · -- its only reference is the one of the entry
    have hsole := h.sole p e hp hw
    have hne : page ≠ e.page := by
      intro heq
      have hentry := mapped_pos h hp
      rw [count_cons_self, heq, hsole] at hle
      omega
    have hsame := hrefcnt e.page
    rw [if_neg hne, add_zero] at hsame
    exact hsame.trans hsole

/-- An entry is cleared, and what it mapped is held. -/
theorem clear (h : s.Tables held) (hp : s.pte p = some e) :
    Tables { s with pte := update s.pte p none } (e.page :: held) := by
  have hframes : frames { s with pte := update s.pte p none } =
      update s.frames p none := by
    funext q
    by_cases hq : q = p
    · simp [frames, hq]
    · simp [frames, hq]
  have hkept : ∀ {q e'}, update s.pte p none q = some e' → s.pte q = some e' := by
    intro q e' hq
    rw [update_apply] at hq
    split_ifs at hq
    exact hq
  obtain ⟨own, hinv, hown⟩ := h.owned
  refine ⟨fun q e' hq => h.table q e' (hkept hq), fun q e' hq => h.user q e' (hkept hq),
    ⟨own, hinv, fun f => ?_⟩, fun q e' hq => h.sole q e' (hkept hq)⟩
  have hle := hown f
  have hclear := refs_update_clear (o := f) (h.user p e hp)
    (show s.frames p = some e.page by rw [frames, hp, map_some])
  rw [mapped, hframes, count_cons]
  rw [mapped] at hle
  simp only [beq_iff_eq]
  omega

/-- A page that is held is mapped. -/
theorem map {w : Bool} (h : s.Tables (page :: held)) (hp : s.pte p = none)
    (hpde : s.pde (p / 1024) = true) (hpage : p ∈ userpages)
    (hw : w = true → s.pages.refcnt page = 1) :
    Tables { s with pte := update s.pte p (some ⟨page, w⟩) } held := by
  have hframes : frames { s with pte := update s.pte p (some ⟨page, w⟩) } =
      update s.frames p (some page) := by
    funext q
    by_cases hq : q = p
    · simp [frames, hq]
    · simp [frames, hq]
  have hcases : ∀ {q e'}, update s.pte p (some ⟨page, w⟩) q = some e' →
      q = p ∧ e' = ⟨page, w⟩ ∨ s.pte q = some e' := by
    intro q e' hq
    rw [update_apply] at hq
    split_ifs at hq with hqp
    · cases hq
      exact .inl ⟨hqp, rfl⟩
    · exact .inr hq
  obtain ⟨own, hinv, hown⟩ := h.owned
  refine ⟨fun q e' hq => ?_, fun q e' hq => ?_, ⟨own, hinv, fun f => ?_⟩, fun q e' hq hw' => ?_⟩
  · rcases hcases hq with ⟨rfl, -⟩ | hq
    · exact hpde
    · exact h.table q e' hq
  · rcases hcases hq with ⟨rfl, -⟩ | hq
    · exact hpage
    · exact h.user q e' hq
  · have hle := hown f
    have hmap := refs_update_none (o := f) hpage
      (show s.frames p = none by rw [frames, hp, map_none]) page
    rw [count_cons] at hle
    rw [mapped, hframes]
    rw [mapped] at hle
    simp only [beq_iff_eq] at hle
    omega
  · rcases hcases hq with ⟨-, rfl⟩ | hq
    · exact hw hw'
    · exact h.sole q e' hq hw'

/-- `allocpage` for a user finds a page that nobody has, or none when there are few. -/
theorem alloc (h : s.Tables held) (flags : BitVec 32) (hflags : flags &&& AUSER ≠ 0) :
    s.pages.nfreepage ≤ DRIVERQUOTA + KERNQUOTA ∧
        s.pages.allocpage flags = some (.null, s.pages) ∨
      ∃ page pages, s.pages.allocpage flags = some (.page page, pages) ∧ s.mapped page = 0 ∧
        (∀ f, pages.refcnt f = if f = page then 1 else s.pages.refcnt f) ∧
        pages.nfreepage = s.pages.nfreepage - 1 ∧
        Tables { s with pages := pages } (page :: held) := by
  obtain ⟨own, hinv, hown⟩ := h.owned
  rcases allocpage_user hinv flags hflags with hnull | ⟨page, hpage, -, hzero, hinv'⟩
  · exact .inl hnull
  right
  dsimp only at hpage hzero
  have hlow := hown page
  have hrefcnt : ∀ f, (PageSys.popped s.pages flags page).refcnt f =
      if f = page then 1 else s.pages.refcnt f := fun f => rfl
  refine ⟨page, _, hpage, by omega, hrefcnt, rfl, h.table, h.user, ⟨_, hinv', fun f => ?_⟩,
    fun p e hp hw => ?_⟩
  · have hle := hown f
    show s.mapped f + (page :: held).count f ≤ if f = page then own page + 1 else own f
    rw [count_cons]
    by_cases hf : f = page
    · subst hf
      rw [if_pos (beq_self_eq_true f), if_pos rfl]
      omega
    · rw [if_neg (by simpa using Ne.symm hf), if_neg hf]
      exact hle
  · have hne : e.page ≠ page := by
      rintro rfl
      have hentry := mapped_pos h hp
      omega
    show (PageSys.popped s.pages flags page).refcnt e.page = 1
    rw [hrefcnt, if_neg hne]
    exact h.sole p e hp hw

/-- A page that is held takes the place of one that others have as well: the reference of that
one goes as by `freepage`. -/
theorem copy (h : s.Tables (page :: held)) (hp : s.pte p = some e) (hne : e.page ≠ page)
    (hmore : 1 < s.pages.refcnt e.page) (hone : s.pages.refcnt page = 1) :
    Tables { s with
      pte := update s.pte p (some ⟨page, true⟩)
      pages := s.pages.setRefcnt e.page (s.pages.refcnt e.page - 1) } held := by
  have hpde := h.table p e hp
  have huser := h.user p e hp
  have hclear := h.clear hp
  have hcount : 0 < mapped { s with pte := update s.pte p none } e.page +
      (e.page :: page :: held).count e.page := by
    rw [count_cons_self]
    omega
  obtain ⟨-, -, hmax, hlt, hallocable⟩ := hclear.counted hcount
  obtain ⟨pages, hback, -, hfreed⟩ := hclear.free
  rw [Pages.freepage_more hlt hallocable hmore hmax] at hback
  cases hback
  have hown : (s.pages.setRefcnt e.page (s.pages.refcnt e.page - 1)).refcnt page = 1 := by
    rw [Pages.setRefcnt_ne (Ne.symm hne), hone]
  have hmapped := hfreed.map (w := true) (update_self ..) hpde huser fun _ => hown
  rw [update_idem] at hmapped
  exact hmapped

end Tables

/-! ## `unmap` -/

/-- The entries of the pages from `i` to `j` are gone, and each reference with its entry. -/
structure Unmapped (s t : Vm) (i j : Nat) : Prop where
  data : t.data = s.data
  pte : ∀ p, t.pte p = if i ≤ p ∧ p < j then none else s.pte p
  refcnt : ∀ f, t.pages.refcnt f + refs (Finset.Ico i j) s.frames f = s.pages.refcnt f

variable {i j k : Nat}

theorem Unmapped.refl (hle : j ≤ i) (s : Vm) : Unmapped s s i j := by
  refine ⟨rfl, fun p => ?_, fun f => ?_⟩
  · rw [if_neg (by omega)]
  · rw [Ico_eq_empty (by omega)]
    simp [refs]

/-- Where there is no table nothing is to be done. -/
theorem Unmapped.skip (h : Unmapped s t k j) (hik : i ≤ k)
    (hnone : ∀ p, i ≤ p → p < k → p < j → s.pte p = none) : Unmapped s t i j := by
  refine ⟨h.data, fun p => ?_, fun f => ?_⟩
  · rw [h.pte]
    by_cases hp : i ≤ p ∧ p < k ∧ p < j
    · rw [if_neg (by omega), if_pos (by omega), hnone p hp.1 hp.2.1 hp.2.2]
    · by_cases hin : k ≤ p ∧ p < j
      · rw [if_pos hin, if_pos (by omega)]
      · rw [if_neg hin, if_neg (by omega)]
  · have hsame : refs (Finset.Ico i j) s.frames f = refs (Finset.Ico k j) s.frames f := by
      apply refs_mono (Ico_subset_Ico_left hik)
      intro p hp hnot
      rw [mem_Ico] at hp hnot
      rw [frames, hnone p hp.1 (by omega) hp.2, map_none]
    rw [hsame]
    exact h.refcnt f

/-- The first page of the range is given back. -/
theorem Unmapped.first {pages : Pages} (hp : s.pte i = some e) (hlt : i < j)
    (hpages : ∀ f, pages.refcnt f + (if e.page = f then 1 else 0) = s.pages.refcnt f)
    (h : Unmapped { s with pages := pages, pte := update s.pte i none } t (i + 1) j) :
    Unmapped s t i j := by
  refine ⟨h.data, fun p => ?_, fun f => ?_⟩
  · rw [h.pte]
    dsimp only
    by_cases hpi : p = i
    · rw [if_neg (by omega), if_pos (by omega), hpi, update_self]
    · rw [update_of_ne hpi]
      by_cases hin : i ≤ p ∧ p < j
      · rw [if_pos (by omega), if_pos hin]
      · rw [if_neg (by omega), if_neg hin]
  · have hsame : refs (Finset.Ico (i + 1) j)
        (frames { s with pages := pages, pte := update s.pte i none }) f =
        refs (Finset.Ico (i + 1) j) s.frames f := by
      apply refs_congr
      intro p hmem
      rw [mem_Ico] at hmem
      exact congrArg _ (update_of_ne (show p ≠ i by omega) _ _)
    have hinsert : Finset.Ico i j = insert i (Finset.Ico (i + 1) j) := by
      ext p
      simp only [mem_Ico, mem_insert]
      omega
    have hone := refs_insert (f := s.frames) (o := f)
      (show i ∉ Finset.Ico (i + 1) j by simp)
    have hrest := h.refcnt f
    have hpage := hpages f
    rw [hinsert, hone]
    simp only [frames, hp, map_some, some.injEq] at *
    split_ifs at * with hf
    · omega
    · omega

theorem unmapFrom_spec (h : s.Tables []) (hcur : pagemod curpos = 0) (hstop : pagemod stop = 0)
    (hn : stop ≤ curpos + n * PAGESIZE) :
    ∃ t, unmapFrom stop n s curpos = some t ∧ t.segq = s.segq ∧
      Unmapped s t (pagediv curpos) (pagediv stop) ∧ t.Tables [] := by
  induction n generalizing s curpos with
  | zero =>
      have hle : stop ≤ curpos := by omega
      refine ⟨s, if_pos hle, rfl, Unmapped.refl ?_ s, h⟩
      exact Nat.div_le_div_right hle
  | succ n ih =>
      by_cases hle : stop ≤ curpos
      · exact ⟨s, if_pos hle, rfl, Unmapped.refl (Nat.div_le_div_right hle) s, h⟩
      have hskips : Skips s.pde (curpos + PAGESIZE) (next s.pde stop curpos) := next_skips hcur
      have hfirst : pagediv (curpos + PAGESIZE) = pagediv curpos + 1 :=
        Nat.add_div_right curpos (by decide)
      have hlt : pagediv curpos < pagediv stop := by
        simp only [pagemod, pagediv, PAGESIZE] at *
        omega
      have hfuel : stop ≤ next s.pde stop curpos + n * PAGESIZE := by
        have hstep := hskips.le
        simp only [PAGESIZE] at *
        omega
      have hjump : pagediv curpos + 1 ≤ pagediv (next s.pde stop curpos) := by
        rw [← hfirst]
        exact Nat.div_le_div_right hskips.le
      have hnone : ∀ p, pagediv curpos + 1 ≤ p → p < pagediv (next s.pde stop curpos) →
          s.pte p = none := fun p hlo hhi => h.absent hskips (by omega) hhi
      rw [unmapFrom, if_neg hle]
      cases hpte : s.pte (pagediv curpos) with
      | none =>
          obtain ⟨t, ht, hsegq, hunmapped, htables⟩ := ih h hskips.aligned hfuel
          refine ⟨t, ht, hsegq, hunmapped.skip (by omega) fun p hlo hhi _ => ?_, htables⟩
          by_cases hp : p = pagediv curpos
          · rw [hp, hpte]
          · exact hnone p (by omega) hhi
      | some e =>
          obtain ⟨pages, hfree, hpages, hfreed⟩ := (h.clear hpte).free
          obtain ⟨t, ht, hsegq, hunmapped, htables⟩ := ih hfreed hskips.aligned hfuel
          refine ⟨t, ?_, hsegq, ?_, htables⟩
          · dsimp only at hfree ⊢
            rw [hfree]
            exact ht
          · refine Unmapped.first hpte hlt hpages (hunmapped.skip hjump fun p hlo hhi _ => ?_)
            have hne : p ≠ pagediv curpos := by omega
            exact (update_of_ne hne _ _).trans (hnone p hlo hhi)

/-- `unmap` gives back every page of the range, once. -/
theorem unmap_spec (h : s.Tables []) (hle : start ≤ stop) (hstart : pagemod start = 0)
    (hstop : pagemod stop = 0) (hend : stop ≤ USEREND) :
    ∃ t, s.unmap start stop = some t ∧ t.segq = s.segq ∧
      Unmapped s t (pagediv start) (pagediv stop) ∧ t.Tables [] := by
  obtain ⟨curpos, hexplore, hskips⟩ : ∃ curpos, explore s.pde start stop = some curpos ∧
    Skips s.pde start curpos := explore_skips hle hstart hend
  have hfuel : stop ≤ curpos + (stop - start) / PAGESIZE * PAGESIZE := by
    have hstep := hskips.le
    simp only [pagemod, PAGESIZE] at *
    omega
  obtain ⟨t, ht, hsegq, hunmapped, htables⟩ := unmapFrom_spec h hskips.aligned hstop hfuel
  refine ⟨t, ?_, hsegq, hunmapped.skip (Nat.div_le_div_right hskips.le) fun p hlo hhi _ => ?_,
    htables⟩
  · rw [unmap, if_neg (by simp [hstart, hstop]), hexplore]
    exact ht
  · exact h.absent hskips hlo hhi

/-! ## Faults -/

variable {vaddr : Nat}

/-- There are too few pages for a user who needs two. -/
def Few (s : Vm) : Prop := s.pages.nfreepage ≤ DRIVERQUOTA + KERNQUOTA + 1

/-- Every page that is mapped has in it what it had. -/
def Keeps (s t : Vm) : Prop := ∀ p e, s.pte p = some e → t.data e.page = s.data e.page

/-- The table for an address is there in the end, or there are few pages. -/
theorem getpte_spec (h : s.Tables held) (vaddr : Nat) :
    s.pages.nfreepage ≤ DRIVERQUOTA + KERNQUOTA ∧ s.getpte vaddr = some (false, s) ∨
      ∃ pages pde, s.getpte vaddr = some (true, { s with pages := pages, pde := pde }) ∧
        pde (pagediv vaddr / 1024) = true ∧
        (∀ f, s.pages.refcnt f = 1 → pages.refcnt f = 1) ∧
        Tables { s with pages := pages, pde := pde } held := by
  have hindex : vaddr / PDECOVERED = pagediv vaddr / 1024 := by
    simp only [pagediv, PAGESIZE, PDECOVERED]
    omega
  rw [getpte, hindex]
  cases hpde : s.pde (pagediv vaddr / 1024) with
  | true => exact .inr ⟨s.pages, s.pde, rfl, hpde, fun _ => id, h⟩
  | false =>
      rcases h.alloc (AUSER ||| ACLEAR) (by decide) with
        ⟨hfew, hnull⟩ | ⟨page, pages, hpage, -, hrefcnt, -, htables⟩
      · refine .inl ⟨hfew, ?_⟩
        rw [hnull]
        rfl
      · have htables := htables.keep
        refine .inr ⟨pages, _, by rw [hpage]; rfl, update_self .., fun f hf => ?_,
          fun p e hp => ?_, htables.user, htables.owned, htables.sole⟩
        · rw [hrefcnt]
          split_ifs
          · rfl
          · exact hf
        · have hthere := htables.table p e hp
          by_cases hidx : p / 1024 = pagediv vaddr / 1024
          · rw [hidx]
            exact update_self ..
          · exact (update_of_ne hidx ..).trans hthere

/-- `nopage` maps a new page, or there are few pages. -/
theorem nopage_spec (h : s.Tables []) (hp : s.pte (pagediv vaddr) = none)
    (huser : pagediv vaddr ∈ userpages) (seg : Seg) (file : Nat → BitVec 8) :
    (∃ t, s.nopage seg vaddr file = some (false, t) ∧ s.Few ∧ t.segq = s.segq ∧ t.pte = s.pte ∧
        s.Keeps t ∧ t.Tables []) ∨
      ∃ page t, s.nopage seg vaddr file = some (true, t) ∧ t.segq = s.segq ∧
        t.pte = update s.pte (pagediv vaddr) (some ⟨page, seg.writable⟩) ∧
        (seg.inode = none → t.data page = fun _ => 0) ∧ s.Keeps t ∧ t.Tables [] := by
  unfold nopage Few
  rcases h.alloc AUSER (by decide) with
    ⟨hfew, hnull⟩ | ⟨page, pages, hpage, hzero, hrefcnt, hfree, htables⟩
  · rw [hnull]
    exact .inl ⟨s, rfl, by omega, rfl, rfl, fun _ _ _ => rfl, h⟩
  rw [hpage]
  dsimp only [mapto]
  rcases getpte_spec htables vaddr with ⟨hfew, hnull⟩ | ⟨pages', pde, hpte, hpde, hsole, htables'⟩
  · rw [hnull]
    obtain ⟨pages', hback, -, htables'⟩ := htables.free
    dsimp only at hfew hback ⊢
    rw [hback]
    exact .inl ⟨_, rfl, by omega, rfl, rfl, fun _ _ _ => rfl, htables'⟩
  · rw [hpte]
    dsimp only
    rw [hp]
    refine .inr ⟨page, _, rfl, rfl, rfl, fun hanon => ?_, fun q e hq => ?_, ?_⟩
    · dsimp only
      rw [update_self, if_pos hanon]
    · have hne : e.page ≠ page := by
        rintro rfl
        have hpos := mapped_pos h hq
        omega
      exact update_of_ne hne ..
    · have hone : pages'.refcnt page = 1 := hsole page (by rw [hrefcnt, if_pos rfl])
      have hmapped := htables'.map (w := seg.writable) hp hpde huser fun _ => hone
      exact ⟨hmapped.table, hmapped.user, hmapped.owned, hmapped.sole⟩

/-- After `wppage` the page can be written to, and has in it what it had, or there are few
pages. -/
theorem wppage_spec (h : s.Tables []) (hp : s.pte (pagediv vaddr) = some e) :
    s.Few ∧ s.wppage vaddr = some (false, s) ∨
      ∃ page t, s.wppage vaddr = some (true, t) ∧ t.segq = s.segq ∧
        t.pte = update s.pte (pagediv vaddr) (some ⟨page, true⟩) ∧
        t.data page = s.data e.page ∧ s.Keeps t ∧ t.Tables [] := by
  have hpos := mapped_pos h hp
  obtain ⟨-, hcount, hmax, hlt, hallocable⟩ := h.counted (f := e.page) (by omega)
  unfold wppage Few
  rw [hp]
  dsimp only
  rw [if_neg (by omega), if_neg (by omega)]
  have hidem : ∀ v : Entry, update (update s.pte (pagediv vaddr) none)
      (pagediv vaddr) (some v) = update s.pte (pagediv vaddr) (some v) := fun v =>
    update_idem ..
  have hpde := h.table _ e hp
  have huser := h.user _ e hp
  by_cases hone : s.pages.refcnt e.page = 1
  · rw [if_pos hone]
    refine .inr ⟨e.page, _, rfl, rfl, rfl, rfl, fun _ _ _ => rfl, ?_⟩
    have hmapped := (h.clear hp).map (w := true) (update_self ..) hpde huser fun _ => hone
    rw [← hidem]
    exact hmapped
  · rw [if_neg hone]
    rcases h.alloc AUSER (by decide) with
      ⟨hfew, hnull⟩ | ⟨page, pages, hpage, hzero, hrefcnt, -, htables⟩
    · rw [hnull]
      exact .inl ⟨by omega, rfl⟩
    rw [hpage]
    have hne : e.page ≠ page := by
      intro heq
      rw [heq] at hpos
      omega
    have hsame : pages.refcnt e.page = s.pages.refcnt e.page := by
      rw [hrefcnt, if_neg hne]
    refine .inr ⟨page, _, rfl, rfl, rfl, update_self .., fun q e' hq => ?_, ?_⟩
    · have hne' : e'.page ≠ page := by
        rintro rfl
        have hpos' := mapped_pos h hq
        omega
      exact update_of_ne hne' ..
    · have hown : pages.refcnt page = 1 := by
        rw [hrefcnt, if_pos rfl]
      have hmapped := htables.copy hp hne (by rw [hsame]; omega) hown
      exact ⟨hmapped.table, hmapped.user, hmapped.owned, hmapped.sole⟩

end Vm

end Unixlite.Mm
