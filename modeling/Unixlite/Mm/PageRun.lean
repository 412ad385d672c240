import Unixlite.Mm.Allocpage

/-!
# The free list over whole runs

In a run that frees and duplicates only pages with references, the free list has
exactly the pages without one, and every operation does what it is for
(`run_pages`).
-/

namespace Unixlite.Mm

open Verified.LinkedList Verified.Run Option

/-! ## One page -/

theorem int_of_range {x : Int} (hlow : -(2 ^ 31) ≤ x) (hhigh : x < 2 ^ 31) : int x = x := by
  unfold int Int.bmod
  dsimp only
  split
  · omega
  · omega

namespace Pages

variable {s t : Pages} {p q n : Nat} {D : Nat → Prop}

/-- The free list has the pages in `D` without references. -/
def Listed (s : Pages) (D : Nat → Prop) : Prop :=
  ∃ l, Linked s.next s.freepageq l ∧ (∀ p, p ∈ l ↔ D p ∧ s.refcnt p = 0) ∧
    s.nfreepage = l.length

/-- The layout of memory is the same. -/
def Layout (s t : Pages) : Prop :=
  t.nphyspage = s.nphyspage ∧ t.kernend = s.kernend ∧ t.allocbmend = s.allocbmend ∧
    t.allocbmok = s.allocbmok

theorem Layout.refl (s : Pages) : Layout s s := ⟨rfl, rfl, rfl, rfl⟩

theorem Layout.trans {u : Pages} (h : Layout s t) (h' : Layout t u) : Layout s u :=
  ⟨h'.1.trans h.1, h'.2.1.trans h.2.1, h'.2.2.1.trans h.2.2.1, h'.2.2.2.trans h.2.2.2⟩

theorem Listed.congr {D' : Nat → Prop} (h : s.Listed D) (hnext : t.next = s.next)
    (hq : t.freepageq = s.freepageq) (hn : t.nfreepage = s.nfreepage)
    (hD : ∀ p, D' p ∧ t.refcnt p = 0 ↔ D p ∧ s.refcnt p = 0) : t.Listed D' := by
  obtain ⟨l, hl, hmem, hlen⟩ := h
  refine ⟨l, ?_, fun p => ?_, hn.trans hlen⟩
  · rw [hnext, hq]
    exact hl
  · rw [hD]
    exact hmem p

variable {x : Int}

theorem setRefcnt_self : (s.setRefcnt p x).refcnt p = x := if_pos rfl

theorem setRefcnt_ne (h : q ≠ p) : (s.setRefcnt p x).refcnt q = s.refcnt q := if_neg h

/-- A page that is not on the list may get any count. -/
theorem Listed.setRefcnt (h : s.Listed D) (hp : ¬ D p) : (s.setRefcnt p x).Listed D := by
  refine h.congr rfl rfl rfl fun q => ?_
  by_cases hq : q = p
  · subst hq
    exact iff_of_false (fun hD => hp hD.1) fun hD => hp hD.1
  · rw [setRefcnt_ne hq]

/-- The page is the first of the list. -/
def pushed (s : Pages) (p : Nat) : Pages :=
  { s.setRefcnt p 0 with
    next := fun q => if q = p then s.freepageq else s.next q
    freepageq := some p
    nfreepage := s.nfreepage + 1 }

/-- The last reference goes. -/
theorem freepage_last (hlt : p < s.nphyspage) (ha : s.allocable p = true)
    (hone : s.refcnt p = 1) : s.freepage p = some (s.pushed p) := by
  have hsys : ¬ s.refcnt p = SYSPAGE := by
    rw [hone]
    decide
  have hzero : ¬ s.refcnt p = 0 := by
    rw [hone]
    decide
  have hint : int (s.refcnt p - 1) = 0 := by
    rw [hone]
    rfl
  rw [freepage, if_neg (Nat.not_le.mpr hlt), if_neg (by rw [ha]; decide), if_neg hsys,
    if_neg hzero, hint]
  rw [if_neg (not_not.mpr setRefcnt_self)]
  rfl

/-- Another reference goes. -/
theorem freepage_more (hlt : p < s.nphyspage) (ha : s.allocable p = true)
    (hpos : 1 < s.refcnt p) (hmax : s.refcnt p < 2 ^ 31) :
    s.freepage p = some (s.setRefcnt p (s.refcnt p - 1)) := by
  have hsys : ¬ s.refcnt p = SYSPAGE := by
    rw [SYSPAGE]
    omega
  have hint : int (s.refcnt p - 1) = s.refcnt p - 1 := by
    apply int_of_range
    · omega
    · omega
  rw [freepage, if_neg (Nat.not_le.mpr hlt), if_neg (by rw [ha]; decide), if_neg hsys,
    if_neg (by omega), hint]
  rw [if_pos]
  rw [setRefcnt_self]
  omega

theorem Listed.push (h : s.Listed D) (hone : s.refcnt p = 1) :
    (s.pushed p).Listed fun q => D q ∨ q = p := by
  obtain ⟨l, hl, hmem, hlen⟩ := h
  have hnot : p ∉ l := by
    intro hp
    have hzero := ((hmem p).mp hp).2
    rw [hone] at hzero
    cases hzero
  refine ⟨p :: l, hl.push hnot, fun q => ?_, ?_⟩
  · rw [List.mem_cons]
    by_cases hq : q = p
    · subst hq
      exact iff_of_true (.inl rfl) ⟨.inr rfl, setRefcnt_self⟩
    · show q = p ∨ q ∈ l ↔ (D q ∨ q = p) ∧ (s.setRefcnt p 0).refcnt q = 0
      rw [setRefcnt_ne hq, hmem q]
      simp [hq]
  · rw [List.length_cons, Nat.cast_succ, ← hlen]
    rfl

/-! ## Boot -/

/-- `markfree` puts the pages on the list. -/
theorem markfree_spec (hrange : ∀ q, p ≤ q → q < p + n → q < s.nphyspage ∧ s.allocable q = true)
    (h : s.Listed D) (hD : ∀ q, p ≤ q → q < p + n → ¬ D q) :
    ∃ t, markfree n p s = some t ∧ t.Listed (fun q => D q ∨ p ≤ q ∧ q < p + n) ∧
      (∀ q, t.refcnt q = if p ≤ q ∧ q < p + n then 0 else s.refcnt q) ∧ Layout s t := by
  induction n generalizing s p D with
  | zero =>
      refine ⟨s, rfl, h.congr rfl rfl rfl fun q => ?_, fun q => ?_, Layout.refl s⟩
      · have hempty : ¬ (p ≤ q ∧ q < p + 0) := by omega
        simp only [hempty, or_false]
      · rw [if_neg (by omega)]
  | succ n ih =>
      obtain ⟨hlt, ha⟩ := hrange p (Nat.le_refl p) (by omega)
      have hset := h.setRefcnt (x := 1) (hD p (Nat.le_refl p) (by omega))
      have hone : (s.setRefcnt p 1).refcnt p = 1 := setRefcnt_self
      have hfree := freepage_last (s := s.setRefcnt p 1) hlt ha hone
      have hrest : ∀ q, p + 1 ≤ q → q < p + 1 + n → ¬ (D q ∨ q = p) := by
        rintro q hq hq' (hDq | hqp)
        · exact hD q (by omega) (by omega) hDq
        · omega
      obtain ⟨t, ht, hlist, hcnt, hlay⟩ := ih (s := (s.setRefcnt p 1).pushed p)
        (fun q hq hq' => hrange q (by omega) (by omega)) (hset.push hone) hrest
      refine ⟨t, ?_, hlist.congr rfl rfl rfl fun q => ?_, fun q => ?_,
        Layout.trans ⟨rfl, rfl, rfl, rfl⟩ hlay⟩
      · rw [markfree, hfree]
        exact ht
      · have hsame : (D q ∨ p ≤ q ∧ q < p + (n + 1)) ↔
            ((D q ∨ q = p) ∨ p + 1 ≤ q ∧ q < p + 1 + n) := by
          constructor
          · rintro (hDq | hq)
            · exact .inl (.inl hDq)
            · by_cases hqp : q = p
              · exact .inl (.inr hqp)
              · exact .inr (by omega)
          · rintro ((hDq | hqp) | hq)
            · exact .inl hDq
            · exact .inr (by omega)
            · exact .inr (by omega)
        rw [hsame]
      · rw [hcnt q]
        by_cases hq : p + 1 ≤ q ∧ q < p + 1 + n
        · rw [if_pos hq, if_pos (by omega)]
        · rw [if_neg hq]
          by_cases hqp : q = p
          · rw [if_pos (by omega), hqp]
            exact setRefcnt_self
          · rw [if_neg (by omega)]
            show ((s.setRefcnt p 1).setRefcnt p 0).refcnt q = s.refcnt q
            rw [setRefcnt_ne hqp, setRefcnt_ne hqp]

theorem marksys_spec (h : s.Listed D) (hD : ∀ q, p ≤ q → q < p + n → ¬ D q) :
    (marksys n p s).Listed D ∧
      (∀ q, (marksys n p s).refcnt q = if p ≤ q ∧ q < p + n then SYSPAGE else s.refcnt q) ∧
      Layout s (marksys n p s) := by
  induction n generalizing s p with
  | zero =>
      refine ⟨h, fun q => ?_, Layout.refl s⟩
      rw [if_neg (by omega)]
      rfl
  | succ n ih =>
      have hset := h.setRefcnt (x := SYSPAGE) (hD p (Nat.le_refl p) (by omega))
      obtain ⟨hlist, hcnt, hlay⟩ := ih (p := p + 1) hset
        fun q hq hq' => hD q (by omega) (by omega)
      refine ⟨hlist, fun q => ?_, Layout.trans ⟨rfl, rfl, rfl, rfl⟩ hlay⟩
      rw [marksys, hcnt q]
      by_cases hq : p + 1 ≤ q ∧ q < p + 1 + n
      · rw [if_pos hq, if_pos (by omega)]
      · rw [if_neg hq]
        by_cases hqp : q = p
        · rw [if_pos (by omega), hqp]
          exact setRefcnt_self
        · rw [if_neg (by omega), setRefcnt_ne hqp]

end Pages

/-! ## The system -/

/-- The allocator, and for each page the references that `allocpage` and `dupphys`
have given and `freepage` has not taken back. -/
structure PageSys where
  pages : Pages
  refs : Nat → Nat

inductive PageEvent where
  | alloc (flags : BitVec 32)
  | free (p : Nat)
  | dup (p : Nat)
  /-- Whoever has the page writes its first word. -/
  | store (p : Nat) (v : Option Nat)
  | allocbm (size k : Nat)
  | freebm

namespace PageSys

open Pages

def setRefs (s : PageSys) (pages : Pages) (p n : Nat) : PageSys :=
  ⟨pages, fun q => if q = p then n else s.refs q⟩

/-- One operation; `none` when it cannot happen or does not return. -/
def step (s : PageSys) : PageEvent → Option PageSys
  | .alloc flags =>
      (s.pages.allocpage flags).map fun (r, pages) =>
        match r with
        | .page p => s.setRefs pages p (s.refs p + 1)
        | _ => { s with pages := pages }
  | .free p => (s.pages.freepage p).map fun pages => s.setRefs pages p (s.refs p - 1)
  | .dup p => (s.pages.dupphys p).map fun pages => s.setRefs pages p (s.refs p + 1)
  | .store p v =>
      if s.pages.refcnt p = 0 then none
      else
        some { s with pages := { s.pages with
          next := fun q => if q = p then v else s.pages.next q } }
  | .allocbm size k => (s.pages.allocbm size k).map fun pages => { s with pages := pages }
  | .freebm =>
      if s.pages.allocbmok then s.pages.freebm.map fun pages => { s with pages := pages }
      else none

/-- The page is on the free list. -/
def listed (s : PageSys) (p : Nat) : Prop :=
  ∃ l, Linked s.pages.next s.pages.freepageq l ∧ p ∈ l

/-- The free list ends, has no page twice, and has exactly the allocable pages
without references, `nfreepage` of them and no system page. -/
def Ok (s : PageSys) : Prop :=
  ∃ l, Linked s.pages.next s.pages.freepageq l ∧ l.Nodup ∧
    (∀ p, p ∈ l ↔ p < s.pages.nphyspage ∧ s.pages.allocable p = true ∧ s.pages.refcnt p = 0) ∧
    s.pages.nfreepage = l.length ∧ ∀ p ∈ l, s.pages.refcnt p ≠ SYSPAGE

/-- `allocpage` returns, with a page nobody has, and leaves the quotas alone;
`freepage` returns, and puts the page on the list exactly if the last reference
goes; nothing else puts a page there but the end of boot. -/
def Serves (s : PageSys) (a : PageEvent) : Prop :=
  (∀ t, s.step a = some t → ∀ q, t.listed q →
    s.listed q ∨ a = .free q ∧ s.refs q = 1 ∨ a = .freebm) ∧
  match a with
  | .alloc flags =>
      (flags &&& (AKERN ||| ADRIVER ||| AUSER) ≠ 0 → ∃ r, s.pages.allocpage flags = some r) ∧
      ∀ p t, s.pages.allocpage flags = some (.page p, t) →
        s.listed p ∧ s.refs p = 0 ∧ t.refcnt p = 1 ∧
        (flags &&& AUSER ≠ 0 → DRIVERQUOTA + KERNQUOTA ≤ t.nfreepage) ∧
        (flags &&& ADRIVER ≠ 0 → KERNQUOTA ≤ t.nfreepage)
  | .free p => ∃ t, s.step (.free p) = some t ∧ (t.listed p ↔ s.refs p = 1)
  | _ => True

/-- Only pages that are in use are freed. -/
def Frees (s : PageSys) : PageEvent → Prop
  | .free p => 0 < s.pages.refcnt p
  | _ => True

/-- Only pages that are in use are freed or duplicated, and not beyond what an
`int` counts. -/
def Counts (s : PageSys) : PageEvent → Prop
  | .free p => 0 < s.pages.refcnt p
  | .dup p => 0 < s.pages.refcnt p ∧ s.pages.refcnt p < 2 ^ 31 - 1
  | _ => True

/-! ## The invariant -/

/-- The first page above the kernel that the allocator has. -/
def limit (s : Pages) : Nat := if s.allocbmok then s.allocbmend else s.kernend / PAGESIZE

/-- The pages the allocator has. -/
def managed (s : Pages) (p : Nat) : Prop :=
  1 ≤ p ∧ p < PAGE640K ∨ limit s ≤ p ∧ p < s.nphyspage

/-- Where the kernel ends. -/
structure Bounds (s : Pages) : Prop where
  low : PAGE1M ≤ limit s
  kernend : s.kernend ≤ limit s * PAGESIZE
  fits : PAGE1M * PAGESIZE ≤ s.kernend ∧ s.kernend ≤ s.allocbmend * PAGESIZE
  high : s.allocbmend < s.nphyspage

structure Inv (s : PageSys) : Prop where
  bounds : Bounds s.pages
  list : s.pages.Listed (managed s.pages)
  sys : ∀ p, p < s.pages.nphyspage → ¬ managed s.pages p → s.pages.refcnt p = SYSPAGE
  beyond : ∀ p, s.pages.nphyspage ≤ p → s.pages.refcnt p = 0
  refs : ∀ p, managed s.pages p → s.pages.refcnt p = s.refs p ∧ s.pages.refcnt p < 2 ^ 31
  unused : ∀ p, ¬ managed s.pages p → s.refs p = 0

variable {s s' : PageSys} {p q : Nat} {a : PageEvent}

theorem managed_lt {s : Pages} (hb : Bounds s) (h : managed s p) : p < s.nphyspage := by
  have hfits := hb.fits
  have hhigh := hb.high
  simp only [managed, PAGE640K, PAGE1M, PAGESIZE] at *
  omega

theorem managed_allocable {s : Pages} (hb : Bounds s) (h : managed s p) : s.allocable p = true := by
  have hend := hb.kernend
  simp only [allocable, Bool.or_eq_true, decide_eq_true_eq]
  rcases h with h | ⟨hle, hlt⟩
  · exact .inl h
  · have hmul : limit s * PAGESIZE ≤ p * PAGESIZE := Nat.mul_le_mul_right PAGESIZE hle
    exact .inr ⟨Nat.le_trans hend hmul, hlt⟩

/-- Among the pages without references these are the allocable ones. -/
theorem Inv.allocable_iff (h : Inv s) :
    managed s.pages p ∧ s.pages.refcnt p = 0 ↔
      p < s.pages.nphyspage ∧ s.pages.allocable p = true ∧ s.pages.refcnt p = 0 := by
  constructor
  · intro ⟨hm, hzero⟩
    exact ⟨managed_lt h.bounds hm, managed_allocable h.bounds hm, hzero⟩
  · intro ⟨hlt, _, hzero⟩
    refine ⟨?_, hzero⟩
    by_contra hm
    have hsys := h.sys p hlt hm
    rw [hzero] at hsys
    cases hsys

theorem Inv.ok (h : Inv s) : Ok s := by
  obtain ⟨l, hl, hmem, hlen⟩ := h.list
  refine ⟨l, hl, hl.nodup, fun p => (hmem p).trans h.allocable_iff, hlen, fun p hp => ?_⟩
  rw [((hmem p).mp hp).2]
  decide

theorem Inv.listed_iff (h : Inv s) : s.listed p ↔ managed s.pages p ∧ s.pages.refcnt p = 0 := by
  obtain ⟨l, hl, hmem, -⟩ := h.list
  constructor
  · intro ⟨l', hl', hp⟩
    rw [hl'.unique hl] at hp
    exact (hmem p).mp hp
  · intro hp
    exact ⟨l, hl, (hmem p).mpr hp⟩

theorem limit_layout {s t : Pages} (h : Layout s t) : limit t = limit s := by
  rw [limit, limit, h.2.1, h.2.2.1, h.2.2.2]

theorem managed_layout {s t : Pages} (h : Layout s t) : managed t p ↔ managed s p := by
  rw [managed, managed, limit_layout h, h.1]

theorem Bounds.layout {s t : Pages} (hb : Bounds s) (h : Layout s t) : Bounds t := by
  obtain ⟨hlow, hkern, hfits, hhigh⟩ := hb
  constructor
  · rw [limit_layout h]
    exact hlow
  · rw [limit_layout h, h.2.1]
    exact hkern
  · rw [h.2.1, h.2.2.1]
    exact hfits
  · rw [h.2.2.1, h.1]
    exact hhigh

/-- The count of one page changes, as its references do. -/
theorem Inv.setRefcnt {pages : Pages} {n : Nat} (h : Inv s) (hlay : Layout s.pages pages)
    (hcnt : ∀ q, pages.refcnt q = if q = p then (n : Int) else s.pages.refcnt q)
    (hp : managed s.pages p) (hmax : (n : Int) < 2 ^ 31)
    (hlist : pages.Listed (managed s.pages)) : Inv (s.setRefs pages p n) := by
  refine ⟨h.bounds.layout hlay, hlist.congr rfl rfl rfl fun q => ?_, fun q hlt hq => ?_,
    fun q hle => ?_, fun q hq => ?_, fun q hq => ?_⟩
  · show managed pages q ∧ _ ↔ _
    rw [managed_layout hlay]
    rfl
  · have hq' : ¬ managed s.pages q := fun hm => hq ((managed_layout hlay).mpr hm)
    have hne : q ≠ p := fun hqp => hq' (hqp ▸ hp)
    show pages.refcnt q = SYSPAGE
    rw [hcnt, if_neg hne]
    exact h.sys q (hlay.1 ▸ hlt) hq'
  · have hle' : s.pages.nphyspage ≤ q := hlay.1 ▸ hle
    have hne : q ≠ p := by
      intro hqp
      have hlt := managed_lt h.bounds hp
      omega
    show pages.refcnt q = 0
    rw [hcnt, if_neg hne]
    exact h.beyond q hle'
  · have hq' := (managed_layout hlay).mp hq
    show pages.refcnt q = ((if q = p then n else s.refs q : Nat) : Int) ∧ pages.refcnt q < 2 ^ 31
    rw [hcnt]
    by_cases hqp : q = p
    · rw [if_pos hqp, if_pos hqp]
      exact ⟨rfl, hmax⟩
    · rw [if_neg hqp, if_neg hqp]
      exact h.refs q hq'
  · have hq' : ¬ managed s.pages q := fun hm => hq ((managed_layout hlay).mpr hm)
    have hne : q ≠ p := fun hqp => hq' (hqp ▸ hp)
    exact (if_neg hne).trans (h.unused q hq')

/-- A page that has references is one that the allocator has given. -/
theorem Inv.managed_of_pos (h : Inv s) (hpos : 0 < s.pages.refcnt p) : managed s.pages p := by
  by_contra hm
  by_cases hlt : p < s.pages.nphyspage
  · rw [h.sys p hlt hm, SYSPAGE] at hpos
    omega
  · rw [h.beyond p (by omega)] at hpos
    omega

/-! ### `allocpage` -/

theorem Inv.check (h : Inv s) : s.pages.check = true := by
  obtain ⟨l, hl, hmem, hlen⟩ := h.list
  have hsub : l.length ≤ s.pages.nphyspage := by
    have hrange : l ⊆ List.range s.pages.nphyspage := fun p hp =>
      List.mem_range.mpr (managed_lt h.bounds ((hmem p).mp hp).1)
    have hle := (List.subperm_of_subset hl.nodup hrange).length_le
    rwa [List.length_range] at hle
  unfold Pages.check
  split
  · rw [hl.follow_eq (by omega)]
    rw [Bool.and_eq_true, List.all_eq_true]
    refine ⟨fun p hp => ?_, decide_eq_true hlen.symm⟩
    rw [((hmem p).mp hp).2]
    rfl
  · rfl

/-- Which quota lets a caller through, and what it then leaves. -/
theorem quota_none {s : Pages} {flags : BitVec 32} (h : s.quota flags = some none) :
    (flags &&& AUSER ≠ 0 → DRIVERQUOTA + KERNQUOTA < s.nfreepage) ∧
      (flags &&& ADRIVER ≠ 0 → KERNQUOTA < s.nfreepage) := by
  unfold quota at h
  split at h
  · next huser =>
      have hmore := some.inj h
      split at hmore
      · cases hmore
      · next hlt =>
          simp only [DRIVERQUOTA, KERNQUOTA] at hlt ⊢
          exact ⟨fun _ => by omega, fun _ => by omega⟩
  next huser =>
  split at h
  · have hmore := some.inj h
    split at hmore
    · cases hmore
    · next hlt => exact ⟨fun hu => absurd hu huser, fun _ => by omega⟩
  next hdriver => exact ⟨fun hu => absurd hu huser, fun hd => absurd hd hdriver⟩

/-- No quota lets a caller through when there is no page. -/
theorem quota_pos {s : Pages} {flags : BitVec 32} (h : s.quota flags = some none) :
    s.nfreepage ≠ 0 := by
  intro hzero
  unfold quota at h
  rw [hzero] at h
  split at h
  · cases h
  split at h
  · cases h
  split at h
  · cases h
  · cases h

/-- The allocator gives the first page of its list. -/
def popped (s : Pages) (flags : BitVec 32) (p : Nat) : Pages :=
  { s.setRefcnt p 1 with
    freepageq := s.next p
    nfreepage := s.nfreepage - 1
    next := fun q => if q = p ∧ flags &&& ACLEAR ≠ 0 then none else s.next q }

/-- What `allocpage` comes to. -/
theorem Inv.allocpage_cases (h : Inv s) (flags : BitVec 32) :
    s.pages.quota flags = none ∧ s.pages.allocpage flags = none ∨
    (∃ r, (∀ p, r ≠ .page p) ∧ s.pages.allocpage flags = some (r, s.pages)) ∨
    ∃ p l, s.pages.quota flags = some none ∧ Linked s.pages.next s.pages.freepageq (p :: l) ∧
      s.pages.allocpage flags = some (.page p, popped s.pages flags p) := by
  have hcheck : ¬ (!s.pages.check) = true := by
    rw [h.check]
    decide
  rw [allocpage, if_neg hcheck]
  cases hq : s.pages.quota flags with
  | none => exact .inl ⟨rfl, rfl⟩
  | some r =>
      right
      cases r with
      | some r =>
          refine .inl ⟨r, fun p hr => ?_, rfl⟩
          subst hr
          unfold quota at hq
          split at hq
          · split at hq <;> cases hq
          split at hq
          · split at hq <;> cases hq
          split at hq
          · split at hq <;> cases hq
          · cases hq
      | none =>
          right
          obtain ⟨l, hl, hmem, hlen⟩ := h.list
          cases l with
          | nil =>
              exact absurd hlen (quota_pos hq)
          | cons p l =>
              obtain ⟨hhead, -⟩ := linked_cons.mp hl
              obtain ⟨hm, hzero⟩ := (hmem p).mp List.mem_cons_self
              have ha := managed_allocable h.bounds hm
              refine ⟨p, l, rfl, hl, ?_⟩
              rw [hhead]
              dsimp only
              rw [if_neg (by rw [ha]; decide), if_neg (not_not.mpr hzero)]
              rfl

theorem Inv.popped_listed {flags : BitVec 32} {l : List Nat} (h : Inv s)
    (hl : Linked s.pages.next s.pages.freepageq (p :: l)) :
    (popped s.pages flags p).Listed (managed s.pages) := by
  obtain ⟨l', hl', hmem, hlen⟩ := h.list
  obtain rfl := hl.unique hl'
  obtain ⟨hnot, -⟩ := List.nodup_cons.mp hl.nodup
  refine ⟨l, ?_, fun q => ?_, ?_⟩
  · apply (linked_cons.mp hl).2.congr
    intro q hq
    have hne : q ≠ p := fun hqp => hnot (hqp ▸ hq)
    exact if_neg fun hc => hne hc.1
  · show q ∈ l ↔ managed s.pages q ∧ (s.pages.setRefcnt p 1).refcnt q = 0
    by_cases hqp : q = p
    · subst hqp
      rw [setRefcnt_self]
      exact iff_of_false hnot fun hc => by cases hc.2
    · rw [setRefcnt_ne hqp, ← hmem q, List.mem_cons]
      simp [hqp]
  · show s.pages.nfreepage - 1 = l.length
    rw [hlen, List.length_cons]
    omega

theorem Inv.alloc {l : List Nat} (h : Inv s) (flags : BitVec 32)
    (hl : Linked s.pages.next s.pages.freepageq (p :: l)) :
    s.refs p = 0 ∧ Inv (s.setRefs (popped s.pages flags p) p (s.refs p + 1)) := by
  have hlisted : s.listed p := ⟨p :: l, hl, List.mem_cons_self⟩
  obtain ⟨hm, hzero⟩ := h.listed_iff.mp hlisted
  have hrefs : s.refs p = 0 := by
    have hr := (h.refs p hm).1
    omega
  refine ⟨hrefs, ?_⟩
  rw [hrefs]
  exact h.setRefcnt ⟨rfl, rfl, rfl, rfl⟩ (fun q => rfl) hm (by decide) (h.popped_listed hl)

/-! ### `freepage` and `dupphys` -/

theorem Inv.free (h : Inv s) (hpos : 0 < s.pages.refcnt p) :
    ∃ pages, s.pages.freepage p = some pages ∧
      Inv (s.setRefs pages p (s.refs p - 1)) ∧ Layout s.pages pages := by
  have hm := h.managed_of_pos hpos
  have hlt := managed_lt h.bounds hm
  have ha := managed_allocable h.bounds hm
  obtain ⟨hrefs, hmax⟩ := h.refs p hm
  by_cases hone : s.pages.refcnt p = 1
  · refine ⟨_, freepage_last hlt ha hone, ?_, rfl, rfl, rfl, rfl⟩
    have hn : s.refs p - 1 = 0 := by omega
    rw [hn]
    have hD : ∀ q, managed s.pages q ∨ q = p ↔ managed s.pages q := fun q =>
      ⟨fun hq => hq.elim id fun hqp => hqp ▸ hm, .inl⟩
    have hpush : (s.pages.pushed p).Listed (managed s.pages) :=
      (h.list.push hone).congr rfl rfl rfl fun q => by rw [hD q]
    exact h.setRefcnt ⟨rfl, rfl, rfl, rfl⟩ (fun q => rfl) hm (by decide) hpush
  · refine ⟨_, freepage_more hlt ha (by omega) hmax, ?_, rfl, rfl, rfl, rfl⟩
    have hn : s.pages.refcnt p - 1 = ((s.refs p - 1 : Nat) : Int) := by omega
    rw [hn]
    refine h.setRefcnt ⟨rfl, rfl, rfl, rfl⟩ (fun q => rfl) hm (by omega)
      (h.list.congr rfl rfl rfl fun q => ?_)
    by_cases hqp : q = p
    · subst hqp
      rw [setRefcnt_self]
      exact iff_of_false (fun hc => by omega) fun hc => by omega
    · rw [setRefcnt_ne hqp]

theorem Inv.dup {pages : Pages} (h : Inv s) (hpos : 0 < s.pages.refcnt p)
    (hmax : s.pages.refcnt p < 2 ^ 31 - 1) (hdup : s.pages.dupphys p = some pages) :
    Inv (s.setRefs pages p (s.refs p + 1)) := by
  have hm := h.managed_of_pos hpos
  have hrefs := (h.refs p hm).1
  unfold dupphys at hdup
  split at hdup
  · cases hdup
  split at hdup
  · cases hdup
  cases hdup
  have hint : int (s.pages.refcnt p + 1) = ((s.refs p + 1 : Nat) : Int) := by
    rw [int_of_range (by omega) (by omega)]
    omega
  rw [hint]
  refine h.setRefcnt ⟨rfl, rfl, rfl, rfl⟩ (fun q => rfl) hm (by omega)
    (h.list.congr rfl rfl rfl fun q => ?_)
  by_cases hqp : q = p
  · subst hqp
    rw [setRefcnt_self]
    exact iff_of_false (fun hc => by omega) fun hc => by omega
  · rw [setRefcnt_ne hqp]

/-! ### The end of boot -/

theorem Inv.allocbm {pages : Pages} {size k : Nat} (h : Inv s)
    (hbm : s.pages.allocbm size k = some pages) : Inv { s with pages := pages } := by
  unfold Pages.allocbm at hbm
  dsimp only at hbm
  generalize hresult : (s.pages.kernend + 2 ^ k - 1) / 2 ^ k * 2 ^ k = result at hbm
  split at hbm
  · cases hbm
  next hok =>
  split at hbm
  · cases hbm
  next hroom =>
  cases hbm
  have hok' : s.pages.allocbmok = true := by simpa using hok
  have hlim : limit { s.pages with kernend := result + size } = limit s.pages := by
    rw [limit, limit, hok']
    rfl
  have hup : s.pages.kernend ≤ result := by
    have hdiv := Nat.div_add_mod (s.pages.kernend + 2 ^ k - 1) (2 ^ k)
    rw [Nat.mul_comm, hresult] at hdiv
    omega
  obtain ⟨hlow, hkern, hfits, hhigh⟩ := h.bounds
  have hm : ∀ p, managed { s.pages with kernend := result + size } p ↔ managed s.pages p := by
    intro p
    rw [managed, managed, hlim]
  refine ⟨⟨?_, ?_, ⟨?_, ?_⟩, hhigh⟩, h.list.congr rfl rfl rfl fun p => ?_, fun p hlt hp => ?_,
    h.beyond, fun p hp => h.refs p ((hm p).mp hp),
    fun p hp => h.unused p fun hp' => hp ((hm p).mpr hp')⟩
  · rw [hlim]
    exact hlow
  · rw [hlim, limit, hok', if_pos rfl]
    exact Nat.not_lt.mp hroom
  · show PAGE1M * PAGESIZE ≤ result + size
    omega
  · exact Nat.not_lt.mp hroom
  · rw [hm p]
  · exact h.sys p hlt fun hp' => hp ((hm p).mpr hp')

theorem Inv.freebm (h : Inv s) (hok : s.pages.allocbmok = true) :
    ∃ pages, s.pages.freebm = some pages ∧ Inv { s with pages := pages } := by
  obtain ⟨hlow, hkern, hfits, hhigh⟩ := h.bounds
  have hlim : limit s.pages = s.pages.allocbmend := by
    rw [limit, hok, if_pos rfl]
  unfold Pages.freebm
  generalize hk : (s.pages.kernend + PAGESIZE - 1) / PAGESIZE = k
  have hround : PAGE1M ≤ k ∧ k ≤ s.pages.allocbmend ∧ s.pages.kernend ≤ k * PAGESIZE := by
    simp only [PAGESIZE, PAGE1M] at *
    omega
  obtain ⟨hk1M, hkend, hup⟩ := hround
  let s0 : Pages := { s.pages with allocbmok := false, kernend := k * PAGESIZE }
  have hlist : s0.Listed (managed s.pages) := h.list.congr rfl rfl rfl fun q => Iff.rfl
  obtain ⟨t, ht, htlist, htcnt, htlay⟩ := markfree_spec (s := s0)
    (n := s.pages.allocbmend - k) (p := k)
    (fun q hq hq' => by
      refine ⟨show q < s.pages.nphyspage by omega, ?_⟩
      simp only [allocable, Bool.or_eq_true, decide_eq_true_eq]
      exact .inr ⟨Nat.mul_le_mul_right PAGESIZE hq, show q < s.pages.nphyspage by omega⟩)
    hlist
    (fun q hq hq' hm => by
      rw [managed, hlim] at hm
      simp only [PAGE640K, PAGE1M] at *
      omega)
  refine ⟨t, ht, ?_⟩
  have hlimt : limit t = k := by
    rw [limit_layout htlay]
    show (if false = true then _ else k * PAGESIZE / PAGESIZE) = k
    rw [if_neg Bool.false_ne_true, Nat.mul_div_cancel _ (by decide)]
  have hn : t.nphyspage = s.pages.nphyspage := htlay.1
  have hm : ∀ q, managed t q ↔
      managed s.pages q ∨ k ≤ q ∧ q < k + (s.pages.allocbmend - k) := by
    intro q
    rw [managed, managed, hlimt, hlim, hn]
    omega
  refine ⟨⟨?_, ?_, ⟨?_, ?_⟩, ?_⟩, htlist.congr rfl rfl rfl fun q => ?_, fun q hlt hq => ?_,
    fun q hle => ?_, fun q hq => ?_, fun q hq => ?_⟩
  · rw [hlimt]
    exact hk1M
  · rw [hlimt, htlay.2.1]
  · rw [htlay.2.1]
    exact Nat.mul_le_mul_right PAGESIZE hk1M
  · rw [htlay.2.1, htlay.2.2.1]
    exact Nat.mul_le_mul_right PAGESIZE hkend
  · rw [htlay.2.2.1, htlay.1]
    exact hhigh
  · rw [hm q]
  · rw [htcnt q, if_neg fun hr => hq ((hm q).mpr (.inr hr))]
    exact h.sys q (hn ▸ hlt) fun hs => hq ((hm q).mpr (.inl hs))
  · have hle' : s.pages.nphyspage ≤ q := hn ▸ hle
    rw [htcnt q, if_neg (by omega)]
    exact h.beyond q hle'
  · show t.refcnt q = s.refs q ∧ t.refcnt q < 2 ^ 31
    rw [htcnt q]
    by_cases hr : k ≤ q ∧ q < k + (s.pages.allocbmend - k)
    · have hunused : s.refs q = 0 := by
        apply h.unused
        intro hs
        rw [managed, hlim] at hs
        simp only [PAGE640K, PAGE1M] at *
        omega
      rw [if_pos hr, hunused]
      exact ⟨rfl, by decide⟩
    · rw [if_neg hr]
      exact h.refs q (((hm q).mp hq).resolve_right hr)
  · exact h.unused q fun hs => hq ((hm q).mpr (.inl hs))

/-! ## Boot -/

/-- The allocator when `pagemapinit` is done, before anybody has a page. -/
def boot (b : Boot) : Option PageSys := (pagemapinit b).map fun pages => ⟨pages, fun _ => 0⟩

theorem boot_inv (b : Boot) : ∃ s, boot b = some s ∧ s.Inv := by
  have hlow := b.low
  have hfits := b.fits
  have hhigh := b.high
  have hend : PAGE1M ≤ b.allocbmend := by
    simp only [PAGE1M, PAGESIZE] at *
    omega
  let s0 : Pages := {
    nphyspage := b.nphysmeg * PAGE1M
    refcnt := fun _ => 0
    next := b.mem
    freepageq := none
    nfreepage := 0
    kernend := b.kernend
    allocbmend := b.allocbmend
    allocbmok := true }
  have h0 : s0.Listed fun _ => False := ⟨[], trivial, fun p => by simp, rfl⟩
  obtain ⟨h1, c1, l1⟩ := marksys_spec (n := 1) (p := 0) h0 fun q _ _ => id
  have a1 : ∀ q, 1 ≤ q → q < 1 + (PAGE640K - 1) → q < (marksys 1 0 s0).nphyspage ∧
      (marksys 1 0 s0).allocable q = true := by
    intro q hq hq'
    have hn : (marksys 1 0 s0).nphyspage = b.nphysmeg * PAGE1M := l1.1
    simp only [allocable, Bool.or_eq_true, decide_eq_true_eq]
    simp only [PAGE640K, PAGE1M] at *
    exact ⟨by omega, .inl ⟨hq, by omega⟩⟩
  obtain ⟨s2, e2, h2, c2, l2⟩ := markfree_spec a1 h1 fun q _ _ => id
  obtain ⟨h3, c3, l3⟩ := marksys_spec (n := PAGE1M - PAGE640K) (p := PAGE640K) h2
    fun q hq hq' hD => by
      simp only [false_or, PAGE640K, PAGE1M] at *
      omega
  obtain ⟨h4, c4, l4⟩ := marksys_spec (n := b.allocbmend - PAGE1M) (p := PAGE1M) h3
    fun q hq hq' hD => by
      simp only [false_or, PAGE640K, PAGE1M] at *
      omega
  have l04 := ((l1.trans l2).trans l3).trans l4
  generalize hs4 : marksys (b.allocbmend - PAGE1M) PAGE1M
    (marksys (PAGE1M - PAGE640K) PAGE640K s2) = s4 at *
  have hn4 : s4.nphyspage = b.nphysmeg * PAGE1M := l04.1
  have a4 : ∀ q, b.allocbmend ≤ q → q < b.allocbmend + (s4.nphyspage - b.allocbmend) →
      q < s4.nphyspage ∧ s4.allocable q = true := by
    intro q hq hq'
    have hlt : q < s4.nphyspage := by omega
    have hmul : b.allocbmend * PAGESIZE ≤ q * PAGESIZE := Nat.mul_le_mul_right PAGESIZE hq
    have hkern : s4.kernend ≤ q * PAGESIZE := by
      rw [l04.2.1]
      exact Nat.le_trans hfits hmul
    simp only [allocable, Bool.or_eq_true, decide_eq_true_eq]
    exact ⟨hlt, .inr ⟨hkern, hlt⟩⟩
  obtain ⟨s5, e5, h5, c5, l5⟩ := markfree_spec a4 h4 fun q hq hq' hD => by
    simp only [false_or, PAGE640K, PAGE1M] at *
    omega
  have l05 := l04.trans l5
  have hboot : boot b = some ⟨s5, fun _ => 0⟩ := by
    rw [boot, pagemapinit]
    dsimp only
    rw [e2, bind_some, hs4, e5]
    rfl
  have hlim : limit s5 = b.allocbmend := by
    rw [limit_layout l05]
    rfl
  have hn5 : s5.nphyspage = b.nphysmeg * PAGE1M := l05.1
  have hm : ∀ q, managed s5 q ↔ 1 ≤ q ∧ q < PAGE640K ∨
      b.allocbmend ≤ q ∧ q < b.nphysmeg * PAGE1M := by
    intro q
    rw [managed, hlim, hn5]
  -- which pages are marked how
  have hcnt : ∀ q, (q < b.nphysmeg * PAGE1M → ¬ managed s5 q → s5.refcnt q = SYSPAGE) ∧
      (b.nphysmeg * PAGE1M ≤ q ∨ managed s5 q → s5.refcnt q = 0) := by
    intro q
    rw [c5, c4, c3, c2, c1, hn4, hm]
    simp only [PAGE640K, PAGE1M, s0] at *
    split_ifs <;> first | exact ⟨fun _ _ => rfl, fun _ => by omega⟩ |
      exact ⟨fun _ _ => by omega, fun _ => rfl⟩
  refine ⟨_, hboot, ⟨?_, ?_, ⟨?_, ?_⟩, ?_⟩, h5.congr rfl rfl rfl fun q => ?_, fun q hlt hq => ?_,
    fun q hle => ?_, fun q hq => ?_, fun q _ => rfl⟩
  · rw [hlim]
    exact hend
  · rw [hlim, l05.2.1]
    exact hfits
  · rw [l05.2.1]
    exact hlow
  · rw [l05.2.1, l05.2.2.1]
    exact hfits
  · rw [l05.2.2.1, l05.1]
    exact hhigh
  · rw [hm q, hn4]
    simp only [false_or, PAGE640K, PAGE1M] at *
    have hrange : (1 ≤ q ∧ q < 160 ∨ b.allocbmend ≤ q ∧ q < b.nphysmeg * 256) ↔
        (1 ≤ q ∧ q < 1 + (160 - 1) ∨
          b.allocbmend ≤ q ∧ q < b.allocbmend + (b.nphysmeg * 256 - b.allocbmend)) := by
      omega
    rw [hrange]
  · exact (hcnt q).1 (hn5 ▸ hlt) hq
  · exact (hcnt q).2 (.inl (hn5 ▸ hle))
  · show s5.refcnt q = ((0 : Nat) : Int) ∧ s5.refcnt q < 2 ^ 31
    rw [(hcnt q).2 (.inr hq)]
    exact ⟨rfl, by decide⟩

/-! ## Steps -/

theorem Inv.store {v : Option Nat} (h : Inv s) (hp : s.pages.refcnt p ≠ 0) :
    Inv { s with pages := { s.pages with
      next := fun q => if q = p then v else s.pages.next q } } := by
  obtain ⟨l, hl, hmem, hlen⟩ := h.list
  have hnot : p ∉ l := fun hpl => hp ((hmem p).mp hpl).2
  have hl' : Linked (fun q => if q = p then v else s.pages.next q) s.pages.freepageq l := by
    apply hl.congr
    intro q hq
    have hne : q ≠ p := fun hqp => hnot (hqp ▸ hq)
    exact if_neg hne
  exact ⟨h.bounds.layout ⟨rfl, rfl, rfl, rfl⟩, ⟨l, hl', hmem, hlen⟩, h.sys, h.beyond, h.refs, h.unused⟩

theorem step_inv (h : Inv s) (hc : Counts s a) (hs : s.step a = some s') : Inv s' := by
  cases a with
  | alloc flags =>
      obtain ⟨r, hr, rfl⟩ := map_eq_some_iff.mp hs
      rcases h.allocpage_cases flags with ⟨-, hnone⟩ | ⟨r', hnot, hsame⟩ | ⟨p, l, -, hl, hpage⟩
      · rw [hnone] at hr
        cases hr
      · rw [hsame] at hr
        cases hr
        cases r' with
        | page p => exact absurd rfl (hnot p)
        | null => exact h
        | outofmem => exact h
      · rw [hpage] at hr
        cases hr
        exact (h.alloc flags hl).2
  | free p =>
      obtain ⟨pages, hfree, hinv, -⟩ := h.free hc
      obtain ⟨t, ht, rfl⟩ := map_eq_some_iff.mp hs
      rw [hfree] at ht
      cases ht
      exact hinv
  | dup p =>
      obtain ⟨t, ht, rfl⟩ := map_eq_some_iff.mp hs
      exact h.dup hc.1 hc.2 ht
  | store p v =>
      unfold step at hs
      dsimp only at hs
      split at hs
      · cases hs
      next hp =>
      cases hs
      exact h.store hp
  | allocbm size k =>
      obtain ⟨t, ht, rfl⟩ := map_eq_some_iff.mp hs
      exact h.allocbm ht
  | freebm =>
      unfold step at hs
      dsimp only at hs
      split at hs
      · next hok =>
          obtain ⟨pages, hfree, hinv⟩ := h.freebm hok
          obtain ⟨t, ht, rfl⟩ := map_eq_some_iff.mp hs
          rw [hfree] at ht
          cases ht
          exact hinv
      · cases hs

/-- Before the end of boot the allocator has always the same pages, and a page gives
up references only to `freepage`. -/
theorem step_frame (h : Inv s) (hc : Counts s a) (hs : s.step a = some s') (hne : a ≠ .freebm)
    (hm : managed s'.pages q) :
    managed s.pages q ∧ (s'.refs q = 0 → s.refs q = 0 ∨ a = .free q ∧ s.refs q = 1) := by
  cases a with
  | alloc flags =>
      obtain ⟨r, hr, rfl⟩ := map_eq_some_iff.mp hs
      rcases h.allocpage_cases flags with ⟨-, hnone⟩ | ⟨r', hnot, hsame⟩ | ⟨p, l, -, hl, hpage⟩
      · rw [hnone] at hr
        cases hr
      · rw [hsame] at hr
        cases hr
        cases r' with
        | page p => exact absurd rfl (hnot p)
        | null => exact ⟨hm, .inl⟩
        | outofmem => exact ⟨hm, .inl⟩
      · rw [hpage] at hr
        cases hr
        refine ⟨hm, fun hzero => .inl ?_⟩
        by_cases hqp : q = p
        · rw [hqp]
          exact (h.alloc flags hl).1
        · exact (if_neg hqp).symm.trans hzero
  | free p =>
      obtain ⟨pages, hfree, hinv, hlay⟩ := h.free hc
      obtain ⟨t, ht, rfl⟩ := map_eq_some_iff.mp hs
      rw [hfree] at ht
      cases ht
      refine ⟨(managed_layout hlay).mp hm, fun hzero => ?_⟩
      by_cases hqp : q = p
      · subst hqp
        have hrefs := (h.refs q ((managed_layout hlay).mp hm)).1
        have hpos : 0 < s.pages.refcnt q := hc
        have hlast : s.refs q - 1 = 0 := (if_pos rfl).symm.trans hzero
        exact .inr ⟨rfl, by omega⟩
      · exact .inl ((if_neg hqp).symm.trans hzero)
  | dup p =>
      obtain ⟨t, ht, rfl⟩ := map_eq_some_iff.mp hs
      unfold dupphys at ht
      split at ht
      · cases ht
      split at ht
      · cases ht
      cases ht
      refine ⟨hm, fun hzero => .inl ?_⟩
      by_cases hqp : q = p
      · subst hqp
        have hmore : s.refs q + 1 = 0 := (if_pos rfl).symm.trans hzero
        cases hmore
      · exact (if_neg hqp).symm.trans hzero
  | store p v =>
      unfold step at hs
      dsimp only at hs
      split at hs
      · cases hs
      cases hs
      exact ⟨hm, .inl⟩
  | allocbm size k =>
      obtain ⟨t, ht, rfl⟩ := map_eq_some_iff.mp hs
      refine ⟨?_, .inl⟩
      unfold Pages.allocbm at ht
      dsimp only at ht
      split at ht
      · cases ht
      next hok =>
      split at ht
      · cases ht
      cases ht
      rw [managed, limit, if_pos (by simpa using hok)]
      rw [managed, limit, if_pos (by simpa using hok)] at hm
      exact hm
  | freebm => exact absurd rfl hne

/-- A page that comes to the list had its last reference, or was kept for boot. -/
theorem listed_step (h : Inv s) (hc : Counts s a) (hs : s.step a = some s') (hq : s'.listed q) :
    s.listed q ∨ a = .free q ∧ s.refs q = 1 ∨ a = .freebm := by
  by_cases hboot : a = .freebm
  · exact .inr (.inr hboot)
  have hinv := step_inv h hc hs
  obtain ⟨hm', hzero'⟩ := hinv.listed_iff.mp hq
  have hrefs' := (hinv.refs q hm').1
  obtain ⟨hm, hback⟩ := step_frame h hc hs hboot hm'
  rcases hback (by omega) with hzero | hlast
  · have hrefs := (h.refs q hm).1
    exact .inl (h.listed_iff.mpr ⟨hm, by omega⟩)
  · exact .inr (.inl hlast)

/-- A caller whose flags name a class is answered. -/
theorem quota_isSome {s : Pages} {flags : BitVec 32}
    (h : flags &&& (AKERN ||| ADRIVER ||| AUSER) ≠ 0) : s.quota flags ≠ none := by
  unfold quota
  split
  · exact some_ne_none _
  next huser =>
  split
  · exact some_ne_none _
  next hdriver =>
  split
  · exact some_ne_none _
  next hkern =>
  rw [not_not] at huser hdriver hkern
  refine absurd ?_ h
  rw [BitVec.and_or_distrib_left, BitVec.and_or_distrib_left, huser, hdriver, hkern]
  rfl

theorem serves_of_inv (h : Inv s) (hc : Counts s a) : Serves s a := by
  refine ⟨fun t ht q hq => listed_step h hc ht hq, ?_⟩
  cases a with
  | alloc flags =>
      refine ⟨fun hflags => ?_, fun p t ht => ?_⟩
      · rcases h.allocpage_cases flags with ⟨hq, -⟩ | ⟨r, -, hr⟩ | ⟨p, l, -, -, hr⟩
        · exact absurd hq (quota_isSome hflags)
        · exact ⟨_, hr⟩
        · exact ⟨_, hr⟩
      rcases h.allocpage_cases flags with ⟨-, hr⟩ | ⟨r, hnot, hr⟩ | ⟨p', l, hq, hl, hr⟩
      · rw [hr] at ht
        cases ht
      · rw [hr] at ht
        cases ht
        exact absurd rfl (hnot p)
      rw [hr] at ht
      cases ht
      obtain ⟨huser, hdriver⟩ := quota_none hq
      refine ⟨⟨p :: l, hl, List.mem_cons_self⟩, (h.alloc flags hl).1,
        setRefcnt_self, fun hu => ?_, fun hd => ?_⟩
      · have hlt := huser hu
        show DRIVERQUOTA + KERNQUOTA ≤ s.pages.nfreepage - 1
        omega
      · have hlt := hdriver hd
        show KERNQUOTA ≤ s.pages.nfreepage - 1
        omega
  | free p =>
      obtain ⟨pages, hfree, hinv, hlay⟩ := h.free hc
      have hstep : s.step (.free p) = some (s.setRefs pages p (s.refs p - 1)) := by
        show (s.pages.freepage p).map _ = _
        rw [hfree]
        rfl
      refine ⟨_, hstep, ?_⟩
      have hm := h.managed_of_pos hc
      have hm' : managed pages p := (managed_layout hlay).mpr hm
      have hpos : 0 < s.pages.refcnt p := hc
      have hrefs := (h.refs p hm).1
      have hrefs' : pages.refcnt p = ((s.refs p - 1 : Nat) : Int) := by
        have hself : (s.setRefs pages p (s.refs p - 1)).refs p = s.refs p - 1 := if_pos rfl
        rw [← hself]
        exact (hinv.refs p hm').1
      rw [hinv.listed_iff]
      constructor
      · intro ⟨_, hzero⟩
        have hzero' : pages.refcnt p = 0 := hzero
        omega
      · intro hone
        refine ⟨hm', ?_⟩
        show pages.refcnt p = 0
        omega
  | dup p => trivial
  | store p v => trivial
  | allocbm size k => trivial
  | freebm => trivial

/-! ## Runs -/

/-- **The page allocator.**  It boots, and from then on, as long as only pages in
use are freed or duplicated, the free list is what it should be and every call is
served. -/
theorem run_pages (b : Boot) :
    ∃ s, boot b = some s ∧
      ∀ as, Each step Counts s as → Always step Ok s as ∧ Each step Serves s as := by
  obtain ⟨s, hs, hinv⟩ := boot_inv b
  refine ⟨s, hs, fun as hcounts => ?_⟩
  have hall : Always step Inv s as :=
    always_of_each (fun s a t hs hok ht => step_inv hs hok ht) hinv hcounts
  exact ⟨hall.mono fun s hs => hs.ok, hcounts.of_always (fun s a => serves_of_inv) hall⟩

/-- Two megabytes, with the kernel in the first 64K of the second. -/
def smallBoot : Boot where
  nphysmeg := 2
  kernend := 272 * PAGESIZE
  allocbmend := 400
  mem := fun _ => none
  low := by decide
  fits := by decide
  high := by decide

theorem run_pages_alloc :
    ∃ s, boot smallBoot = some s ∧ Always step Ok s [.alloc AUSER, .alloc ADRIVER, .freebm] ∧
      Each step Serves s [.alloc AUSER, .alloc ADRIVER, .freebm] := by
  obtain ⟨s, hs, hrun⟩ := run_pages smallBoot
  refine ⟨s, hs, hrun _ ?_⟩
  exact ⟨trivial, fun _ _ => ⟨trivial, fun _ _ => ⟨trivial, fun _ _ => trivial⟩⟩⟩

/-- A page that nobody has is duplicated, and stays on the free list. -/
theorem dup_listed :
    ¬ ∀ b s as, boot b = some s → Each step Frees s as →
      Always step Ok s as ∧ Each step Serves s as := by
  intro hclaim
  obtain ⟨s, hs, hinv⟩ := boot_inv smallBoot
  obtain ⟨hok, -⟩ := hclaim smallBoot s [.dup 1] hs ⟨trivial, fun _ _ => trivial⟩
  have hm : managed s.pages 1 := .inl ⟨Nat.le_refl 1, by decide⟩
  have hrefs : s.refs 1 = 0 := by
    obtain ⟨pages, -, rfl⟩ := Option.map_eq_some_iff.mp hs
    rfl
  have hzero : s.pages.refcnt 1 = 0 := by
    rw [(hinv.refs 1 hm).1, hrefs]
    rfl
  have hlt := managed_lt hinv.bounds hm
  have hdup : s.pages.dupphys 1 = some (s.pages.setRefcnt 1 1) := by
    rw [dupphys, if_neg (Nat.not_le.mpr hlt), if_neg (by rw [hzero]; decide), hzero]
    rfl
  have hstep : s.step (.dup 1) = some (s.setRefs (s.pages.setRefcnt 1 1) 1 (s.refs 1 + 1)) := by
    show (s.pages.dupphys 1).map _ = _
    rw [hdup]
    rfl
  obtain ⟨l, hl, -, hmem, -⟩ := (hok.2 _ hstep).head
  -- the list is still the one that page 1 was on
  obtain ⟨l', hl', hp⟩ := hinv.listed_iff.mpr ⟨hm, hzero⟩
  rw [← hl.unique hl'] at hp
  have hnone := ((hmem 1).mp hp).2.2
  cases hnone

end PageSys

end Unixlite.Mm
