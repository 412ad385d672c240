import Unixlite.Mm.Mmap
import Unixlite.Verified.Intervals

/-!
# The segment queue

Port of `findbss`, `brk`, `pagefault` and `initustack` from `mm/mm.cc`, with
what they do to the segments.  `InOrder` says that each segment ends before the
following ones start; the operations that move an end keep it, and so does a
segment that is put where there is room.
-/

namespace Unixlite.Mm

open Unixlite.Verified.Intervals List
open Space
open Option

/-! ## The operations -/

/-- `findbss`: the place of the third segment. -/
def findbss (segq : List Seg) : Option Nat :=
  if segq.length < 4 then none
  else if (segq[2]?.map Seg.writable).getD false then some 2
  else none

/-- `seg_t::unmap`. -/
def Pgtbl.unmap (s : Pgtbl) (start stop : Nat) : Pgtbl :=
  { s with pte := fun i => s.pte i && !(pagediv start ≤ i && i < pagediv stop) }

namespace Space

/-- `brk`: the end of the bss, or 0. -/
def brk (s : Space) (ebss : Nat) : Nat × Space :=
  let ebss := pageup ebss
  match (findbss s.segq).bind fun k => (s.segq[k]?).map fun bss => (k, bss) with
  | none => (0, s)
  | some (k, bss) =>
      if ebss < bss.start then (bss.stop, s)
      else if ebss < bss.stop then
        (ebss, ⟨s.segq.set k { bss with stop := ebss },
          s.pgtbl.unmap (pageup ebss) (pageup bss.stop)⟩)
      else
        let stop :=
          match s.segq[k + 1]? with
          | some next => min ebss (pagedown next.start)
          | none => ebss
        (stop, { s with segq := s.segq.set k { bss with stop := stop } })

/-- `pagefault`; `none` is the label `bad`.  `wppage` changes no segment. -/
def pagefault (s : Space) (esp vaddr : Nat) (w p : Bool) : Except Stuck (Option Space) :=
  match faultseg s.segq esp vaddr w with
  | none => .ok none
  | some (seg, segq) =>
      let s := { s with segq := segq }
      if p then (if w then .ok (some s) else .error .assertion)
      else do
        let s ← s.nopage seg vaddr
        return some s

/-- The loop of `initustack`, for `n` pages. -/
def mapustack : Nat → Space → Nat → Except Stuck (Int × Space)
  | 0, s, _ => .ok (0, s)
  | n + 1, s, vaddr =>
      match s.pgtbl.mapto vaddr with
      | .error e => .error e
      | .ok none => .ok (ENOMEM, s)
      | .ok (some pgtbl) => mapustack n { s with pgtbl := pgtbl } (vaddr + PAGESIZE)

/-- The pages below `vbase` that `createargv` writes to, at the first address
it does. -/
def argvpages (vbase initsp : Nat) : List Nat :=
  (List.range ((vbase - pagedown initsp) / PAGESIZE)).map fun i =>
    max initsp (pagedown initsp + i * PAGESIZE)

/-- The page faults of `createargv`; one that nothing is done about is a
panic. -/
def createargv (s : Space) (esp : Nat) : List Nat → Except Stuck Space
  | [] => .ok s
  | vaddr :: vaddrs =>
      if s.pgtbl.pte (pagediv vaddr) then createargv s esp vaddrs
      else
        match s.pagefault esp vaddr true false with
        | .error e => .error e
        | .ok none => .error .assertion
        | .ok (some s) => createargv s esp vaddrs

/-- `vbase()` of the `npage` pages that the strings take. -/
def vbase (npage : Nat) : Nat := USEREND - npage * PAGESIZE

/-- `initustack`, where `createargv` ends at `initsp`. -/
def initustack (s : Space) (npage initsp esp : Nat) : Except Stuck (Int × Space) := do
  let (e, s) ← mapustack npage s (vbase npage)
  if e ≠ 0 then .ok (e, s)
  else
    let s ← s.createargv esp (argvpages (vbase npage) initsp)
    s.anonmap initsp USEREND (PROTR ||| PROTW)

end Space

/-! ## Order -/

/-- A segment of user space, of whole pages. -/
structure SegOk (seg : Seg) : Prop where
  start : pagemod seg.start = 0
  stop : pagemod seg.stop = 0
  le : seg.start ≤ seg.stop
  bounded : seg.stop ≤ USEREND

/-- The segments are in order and each ends before the next one starts. -/
structure InOrder (segq : List Seg) : Prop where
  ordered : Ordered Seg.start Seg.stop segq
  each : ∀ seg ∈ segq, SegOk seg

/-- What the segments of an address space are to be like. -/
structure SegqOk (segq : List Seg) : Prop where
  sorted : segq.Pairwise fun x y => x.start ≤ y.start
  aligned : ∀ seg ∈ segq, pagemod seg.start = 0 ∧ pagemod seg.stop = 0
  bounded : ∀ seg ∈ segq, seg.start ≤ seg.stop ∧ seg.stop ≤ USEREND
  disjoint : segq.Pairwise fun x y => ∀ vaddr, ¬ ((x.start ≤ vaddr ∧ vaddr < x.stop) ∧
    y.start ≤ vaddr ∧ vaddr < y.stop)
  /-- `findseg` returns the only segment that contains an address. -/
  findseg : ∀ seg ∈ segq, ∀ vaddr, seg.start ≤ vaddr ∧ vaddr < seg.stop →
    ((findseg segq vaddr).bind fun k => segq[k]?) = some seg

/-- `x` can be mapped after `y`: it ends before `y` starts, or starts after `y`
ends.  If both are at one address, `x` comes behind `y`. -/
def Clear (y x : Seg) : Prop := y.stop ≤ x.start ∨ (x.stop ≤ y.start ∧ x.start < y.start)

instance (y x : Seg) : Decidable (Clear y x) := inferInstanceAs (Decidable (_ ∨ _))

variable {segq : List Seg} {seg x y : Seg} {s s' : Space} {vaddr esp : Nat}

namespace InOrder

theorem nil : InOrder [] := ⟨.nil, by simp⟩

theorem segqOk (h : InOrder segq) : SegqOk segq where
  sorted := h.ordered.sorted
  aligned := fun seg hseg => ⟨(h.each seg hseg).start, (h.each seg hseg).stop⟩
  bounded := fun seg hseg => ⟨(h.each seg hseg).le, (h.each seg hseg).bounded⟩
  disjoint := h.ordered.disjoint
  findseg := by
    intro seg hseg vaddr hin
    have hfind : ((Mm.findseg segq vaddr).bind fun k => segq[k]?) =
        segq.find? fun seg => decide (vaddr < seg.stop) :=
      List.find?_eq_bind_findIdx?_getElem?.symm
    rw [hfind]
    exact h.ordered.find hseg hin

/-- A segment that is clear of the others is put in its place. -/
theorem insertlt (h : InOrder segq) (hx : SegOk x) (hclear : ∀ y ∈ segq, Clear y x) :
    InOrder (insertlt segq x) := by
  refine ⟨?_, fun seg hseg => ?_⟩
  · induction segq with
    | nil => exact ordered_cons.mpr ⟨hx.le, by simp, .nil⟩
    | cons y segq ih =>
        obtain ⟨hy, hcross, hl⟩ := ordered_cons.mp h.ordered
        have hy' := hclear y mem_cons_self
        unfold Mm.insertlt
        split
        · next hlt =>
          -- `x` starts below `y`, so it does not start where `y` ends
          have hbefore : x.stop ≤ y.start := by
            rcases hy' with hend | hend
            · omega
            · exact hend.1
          refine ordered_cons.mpr ⟨hx.le, fun z hz => ?_, h.ordered⟩
          rcases mem_cons.mp hz with rfl | hz
          · exact hbefore
          · have hz' := hcross z hz
            omega
        · next hlt =>
          have hafter : y.stop ≤ x.start := by
            rcases hy' with hend | hend
            · exact hend
            · exact absurd hend.2 hlt
          have htail : InOrder segq := ⟨hl, fun z hz => h.each z (mem_cons_of_mem y hz)⟩
          refine ordered_cons.mpr ⟨hy, fun z hz => ?_,
            ih htail fun z hz => hclear z (mem_cons_of_mem y hz)⟩
          rcases mem_insertlt.mp hz with rfl | hz
          · exact hafter
          · exact hcross z hz
  · rcases mem_insertlt.mp hseg with rfl | hseg
    · exact hx
    · exact h.each seg hseg

/-- A segment is changed between its neighbours. -/
theorem set {k : Nat} (h : InOrder segq) (hk : segq[k]? = some seg) (hx : SegOk x)
    (hlow : ∀ i y, i < k → segq[i]? = some y → y.stop ≤ x.start)
    (hhigh : ∀ i y, k < i → segq[i]? = some y → x.stop ≤ y.start) : InOrder (segq.set k x) := by
  refine ⟨h.ordered.set (List.getElem?_eq_some_iff.mp hk).1 hx.le hlow hhigh, fun y hy => ?_⟩
  rcases mem_or_eq_of_mem_set hy with hy | rfl
  · exact h.each y hy
  · exact hx

theorem before {i k : Nat} (h : InOrder segq) (hi : segq[i]? = some x) (hk : segq[k]? = some y)
    (hik : i < k) : x.stop ≤ y.start := by
  obtain ⟨hilt, rfl⟩ := List.getElem?_eq_some_iff.mp hi
  obtain ⟨hklt, rfl⟩ := List.getElem?_eq_some_iff.mp hk
  exact pairwise_iff_getElem.mp h.ordered.before i k hilt hklt hik

end InOrder

/-! ## Where an end moves -/

theorem pagemod_pagedown (vaddr : Nat) : pagemod (pagedown vaddr) = 0 := by
  unfold pagemod pagedown PAGESIZE
  omega

theorem pagedown_of_pagemod (h : pagemod vaddr = 0) : pagedown vaddr = vaddr := by
  unfold pagemod pagedown PAGESIZE at *
  omega

theorem le_pagedown (h : pagemod vaddr = 0) {v : Nat} (hle : vaddr ≤ v) : vaddr ≤ pagedown v := by
  unfold pagemod pagedown PAGESIZE at *
  omega

/-- `brk` moves the end of the bss within the room up to the next segment. -/
theorem brk_inOrder (h : InOrder s.segq) (ebss : Nat) : InOrder (s.brk ebss).2.segq := by
  unfold brk
  dsimp only
  split
  · exact h
  next k bss hfind =>
  obtain ⟨k', hk', hbss⟩ := bind_eq_some_iff.mp hfind
  obtain ⟨bss', hbss', heq⟩ := map_eq_some_iff.mp hbss
  obtain ⟨rfl, rfl⟩ := Prod.mk.inj heq
  have hok := h.each bss' (mem_of_getElem? hbss')
  have hlow : ∀ i y, i < k' → s.segq[i]? = some y → y.stop ≤ bss'.start := fun i y hi hy =>
    h.before hy hbss' hi
  have hhigh : ∀ i y, k' < i → s.segq[i]? = some y → bss'.stop ≤ y.start := fun i y hi hy =>
    h.before hbss' hy hi
  split
  · exact h
  next hstart =>
  split
  · next hstop =>
    have hbounded := hok.bounded
    refine h.set hbss' ⟨hok.start, pagemod_pagedown _, Nat.le_of_not_lt hstart, ?_⟩ hlow
      fun i y hi hy => ?_
    · exact Nat.le_trans (Nat.le_of_lt hstop) hbounded
    · exact Nat.le_trans (Nat.le_of_lt hstop) (hhigh i y hi hy)
  next hstop =>
  split
  · next next hnext =>
    have hnok := h.each next (mem_of_getElem? hnext)
    have hroom := hhigh (k' + 1) next (by omega) hnext
    rw [pagedown_of_pagemod hnok.start]
    have hle : bss'.stop ≤ min (pageup ebss) next.start := by omega
    have hmod : pagemod (min (pageup ebss) next.start) = 0 := by
      rcases Nat.le_total (pageup ebss) next.start with hmin | hmin
      · rw [Nat.min_eq_left hmin]
        exact pagemod_pagedown _
      · rw [Nat.min_eq_right hmin]
        exact hnok.start
    have hend : min (pageup ebss) next.start ≤ next.start := Nat.min_le_right _ _
    refine h.set hbss' ⟨hok.start, hmod, Nat.le_trans hok.le hle, ?_⟩ hlow fun i y hi hy => ?_
    · exact Nat.le_trans hend (Nat.le_trans hnok.le hnok.bounded)
    · -- `next` is the first of the segments behind
      have hfirst : next.start ≤ y.start := by
        rcases Nat.lt_or_ge (k' + 1) i with hlt | hge
        · exact Nat.le_trans hnok.le (h.before hnext hy hlt)
        · obtain rfl : i = k' + 1 := by omega
          rw [hnext, some.injEq] at hy
          rw [hy]
      exact Nat.le_trans hend hfirst
  · next hnone =>
    -- the bss is the third of at least four
    unfold findbss at hk'
    split at hk'
    · cases hk'
    split at hk'
    · cases hk'
      rw [List.getElem?_eq_none_iff] at hnone
      omega
    · cases hk'

/-- The segments below the one that `findseg` finds end at the address, or
below it. -/
theorem findseg_below {k i : Nat} (hk : findseg segq vaddr = some k) (hi : i < k)
    (hx : segq[i]? = some x) : x.stop ≤ vaddr := by
  obtain ⟨hklt, -, hbelow⟩ := List.findIdx?_eq_some_iff_getElem.mp hk
  obtain ⟨hilt, rfl⟩ := List.getElem?_eq_some_iff.mp hx
  simpa using hbelow i hi

/-- `pagefault` grows the stack down to the page of the address. -/
theorem faultseg_inOrder {w : Bool} {segq' : List Seg} (h : InOrder segq)
    (hfault : faultseg segq esp vaddr w = some (seg, segq')) : InOrder segq' := by
  unfold faultseg at hfault
  split at hfault
  · cases hfault
  next k hk =>
  split at hfault
  · cases hfault
  next old hold =>
  dsimp only at hfault
  split at hfault
  · cases hfault
  next grown hgrown =>
  split at hfault
  · cases hfault
  obtain ⟨rfl, rfl⟩ := Prod.mk.inj (some.inj hfault)
  have hok := h.each old (mem_of_getElem? hold)
  have hlow : ∀ i y, i < k → segq[i]? = some y → y.stop ≤ old.start := fun i y hi hy =>
    h.before hy hold hi
  have hhigh : ∀ i y, k < i → segq[i]? = some y → old.stop ≤ y.start := fun i y hi hy =>
    h.before hold hy hi
  split at hgrown
  · cases hgrown
    exact h.set hold hok hlow hhigh
  split at hgrown
  · cases hgrown
  split at hgrown
  · cases hgrown
  next hstart _ _ =>
  cases hgrown
  refine h.set hold ⟨pagemod_pagedown vaddr, hok.stop, ?_, hok.bounded⟩ (fun i y hi hy => ?_) hhigh
  · have hdown : pagedown vaddr ≤ vaddr := Nat.div_mul_le_self _ _
    have hle := hok.le
    dsimp only
    omega
  · exact le_pagedown (h.each y (mem_of_getElem? hy)).stop (findseg_below hk hi hy)

theorem nopage_segq (h : s.nopage seg vaddr = .ok s') : s'.segq = s.segq := by
  unfold nopage at h
  split at h
  · cases h
  dsimp only at h
  split at h
  · cases h
  split at h
  · cases h
  · cases h
  · cases h
    rfl

theorem pagefault_inOrder {w p : Bool} (h : InOrder s.segq)
    (hfault : s.pagefault esp vaddr w p = .ok (some s')) : InOrder s'.segq := by
  unfold pagefault at hfault
  split at hfault
  · cases hfault
  next seg segq' hseg =>
  have h' := faultseg_inOrder h hseg
  dsimp only at hfault
  split at hfault
  · split at hfault
    · cases hfault
      exact h'
    · cases hfault
  · cases hpage : nopage { s with segq := segq' } seg vaddr with
    | error e =>
        rw [hpage] at hfault
        cases hfault
    | ok s₁ =>
        rw [hpage] at hfault
        cases hfault
        rw [nopage_segq hpage]
        exact h'

/-! ## The stack of a new program -/

theorem mapustack_segq {n : Nat} {e : Int} (h : s.mapustack n vaddr = .ok (e, s')) :
    s'.segq = s.segq := by
  induction n generalizing s vaddr with
  | zero =>
      cases h
      rfl
  | succ n ih =>
      unfold mapustack at h
      split at h
      · cases h
      · cases h
        rfl
      · have htail := ih h
        exact htail

/-- Nothing is done about a page fault above the segments. -/
theorem faultseg_none {w : Bool} (h : ∀ seg ∈ segq, seg.stop ≤ vaddr) :
    faultseg segq esp vaddr w = none := by
  have hfind : findseg segq vaddr = none := by
    rw [findseg, List.findIdx?_eq_none_iff]
    intro seg hseg
    simpa using h seg hseg
  unfold faultseg
  rw [hfind]

/-- `createargv` ends without a page fault that is dealt with, if the segments
end below its pages. -/
theorem createargv_segq {vaddrs : List Nat}
    (habove : ∀ vaddr ∈ vaddrs, ∀ seg ∈ s.segq, seg.stop ≤ vaddr)
    (h : s.createargv esp vaddrs = .ok s') : s'.segq = s.segq := by
  induction vaddrs with
  | nil =>
      cases h
      rfl
  | cons vaddr vaddrs ih =>
      unfold createargv at h
      split at h
      · exact ih (fun v hv => habove v (mem_cons_of_mem vaddr hv)) h
      · rw [pagefault, faultseg_none (habove vaddr mem_cons_self)] at h
        cases h

theorem mem_argvpages {vbase initsp : Nat} (h : vaddr ∈ argvpages vbase initsp) :
    pagedown initsp ≤ vaddr ∧ pagedown initsp < vbase := by
  obtain ⟨i, hi, rfl⟩ := mem_map.mp h
  have hi := mem_range.mp hi
  constructor
  · omega
  · by_contra hle
    rw [Nat.sub_eq_zero_of_le (Nat.le_of_not_lt hle), Nat.zero_div] at hi
    exact Nat.not_lt_zero i hi

/-- The segment of the stack. -/
def ustackseg (initsp : Nat) : Seg := ⟨pagedown initsp, USEREND, PROTR ||| PROTW, none, 0⟩

/-- The segments leave room for the stack. -/
structure Below (segq : List Seg) (npage initsp : Nat) : Prop where
  clear : ∀ seg ∈ segq, Clear seg (ustackseg initsp)
  /-- `createargv` writes to pages it has to be given: an empty segment at the
  end of user space could grow down to them. -/
  argv : pagedown initsp < vbase npage → ∀ seg ∈ segq, seg.start < USEREND

theorem pageup_userend : pageup USEREND = USEREND := by decide

theorem pagemod_userend : pagemod USEREND = 0 := by decide

/-- `initustack` maps the stack behind the other segments. -/
theorem initustack_inOrder {npage initsp : Nat} {e : Int} (h : InOrder s.segq)
    (hbelow : Below s.segq npage initsp)
    (hinit : s.initustack npage initsp esp = .ok (e, s')) : InOrder s'.segq := by
  unfold initustack at hinit
  cases hmap : s.mapustack npage (vbase npage) with
  | error e =>
      rw [hmap] at hinit
      cases hinit
  | ok r =>
  obtain ⟨e₁, s₁⟩ := r
  have h₁ := mapustack_segq hmap
  rw [hmap] at hinit
  change (if e₁ ≠ 0 then _ else _) = _ at hinit
  split at hinit
  · cases hinit
    rwa [h₁]
  cases hargv : s₁.createargv esp (argvpages (vbase npage) initsp) with
  | error e =>
      rw [hargv] at hinit
      cases hinit
  | ok s₂ =>
  rw [hargv] at hinit
  change s₂.anonmap initsp USEREND (PROTR ||| PROTW) = _ at hinit
  have h₂ : s₂.segq = s.segq := by
    refine (createargv_segq (fun vaddr hv seg hseg => ?_) hargv).trans h₁
    rw [h₁] at hseg
    obtain ⟨hdown, hvbase⟩ := mem_argvpages hv
    have hstart := hbelow.argv hvbase seg hseg
    rcases hbelow.clear seg hseg with hclear | hclear
    · exact Nat.le_trans hclear hdown
    · have hend : USEREND ≤ seg.start := hclear.1
      omega
  rw [anonmap, mmap_eq] at hinit
  split at hinit
  · cases hinit
  split at hinit
  · next hinode => simp at hinode
  split at hinit
  · next hmaps =>
    cases hinit
    rw [h₂, pageup_userend]
    refine h.insertlt ⟨pagemod_pagedown _, pagemod_userend, ?_, Nat.le_refl _⟩ hbelow.clear
    exact pageup_userend ▸ hmaps.1
  · cases hinit

end Unixlite.Mm
