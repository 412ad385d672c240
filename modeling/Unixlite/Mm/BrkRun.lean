import Unixlite.Mm.BrkInv
import Unixlite.Verified.Recall

/-!
# The heap over whole runs

Whatever a program remembers of its memory is what it reads: what it has written last, zeros
where the heap has grown, and nothing of what it has given up.  A call of `sysbrk` moves the end
of the bss between its start and the next segment, gives each page behind it back once, and
leaves everything else as it is (`heap_law`).
-/

namespace Unixlite.Mm

open Verified Refcount Run List Option

namespace Vm

/-! ## What can be seen -/

/-- A segment without a file has the address. -/
def Anon (s : Vm) (a : Nat) : Prop :=
  ∃ seg ∈ s.segq, seg.inode = none ∧ seg.start ≤ a ∧ a < seg.stop

instance (s : Vm) (a : Nat) : Decidable (s.Anon a) :=
  inferInstanceAs (Decidable (∃ seg ∈ s.segq, _))

/-- What a read comes to; what a file has for an address is not known. -/
def see (s : Vm) (a : Nat) : Option (BitVec 8) :=
  match s.pte (pagediv a) with
  | some e => some (s.data e.page (pagemod a))
  | none => if s.Anon a then some 0 else none

/-- The end of the bss. -/
def ebss (s : Vm) : Nat := (s.segq[2]?.map Seg.stop).getD 0

/-- An address space with code, data, bss and stack. -/
structure Wf (s : Vm) : Prop where
  tables : s.Tables []
  inOrder : InOrder s.segq
  /-- What is mapped is in a segment. -/
  inside : ∀ p e, s.pte p = some e →
    ∃ seg ∈ s.segq, seg.start ≤ p * PAGESIZE ∧ p * PAGESIZE < seg.stop
  length : 4 ≤ s.segq.length
  /-- `findbss` accepts the third segment, and it has no file. -/
  bss : ∀ bss ∈ s.segq[2]?, bss.writable = true ∧ bss.inode = none

variable {s t : Vm} {a p esp vaddr k : Nat} {v : BitVec 8} {e : Entry} {seg old bss x y : Seg}
  {segq segq' : List Seg} {w : Bool} {file : Nat → BitVec 8}

theorem see_present (hp : s.pte (pagediv a) = some e) :
    s.see a = some (s.data e.page (pagemod a)) := by
  rw [see, hp]

theorem see_absent (hp : s.pte (pagediv a) = none) : s.see a = some v ↔ s.Anon a ∧ v = 0 := by
  rw [see, hp]
  by_cases hanon : s.Anon a
  · simp only [hanon, if_true, some.injEq, true_and]
    exact eq_comm
  · simp [hanon]

/-- Segments have whole pages. -/
theorem page_inside (hstart : pagemod seg.start = 0) (hstop : pagemod seg.stop = 0) :
    seg.start ≤ a ∧ a < seg.stop ↔
      seg.start ≤ pagediv a * PAGESIZE ∧ pagediv a * PAGESIZE < seg.stop := by
  simp only [pagemod, pagediv, PAGESIZE] at *
  omega

theorem pageup_of_pagemod (h : pagemod a = 0) (hle : a ≤ USEREND) : pageup a = a := by
  have hwrap : wrap (a + PAGESIZE - 1) = a + PAGESIZE - 1 := by
    apply Nat.mod_eq_of_lt
    simp only [USEREND, PAGESIZE] at *
    omega
  rw [pageup, hwrap]
  simp only [pagedown, pagemod, PAGESIZE] at *
  omega

/-! ## Segments -/

/-- Segments that have an address in common are one. -/
theorem segment_unique (h : InOrder segq) (hx : x ∈ segq) (hy : y ∈ segq)
    (hxa : x.start ≤ a ∧ a < x.stop) (hya : y.start ≤ a ∧ a < y.stop) : x = y := by
  have hfx := h.segqOk.findseg x hx a hxa
  have hfy := h.segqOk.findseg y hy a hya
  exact some.inj (hfx.symm.trans hfy)

/-- `pagefault` finds a segment that has the address, or lets the stack grow down to it. -/
theorem faultseg_cases (h : faultseg segq esp vaddr w = some (seg, segq')) :
    ∃ k old, segq[k]? = some old ∧ segq' = segq.set k seg ∧ seg.start ≤ vaddr ∧
      vaddr < seg.stop ∧ (w = true → seg.writable = true) ∧
      (seg = old ∨ seg = { old with start := pagedown vaddr } ∧ vaddr < old.start ∧
        k + 1 = segq.length) := by
  unfold faultseg at h
  split at h
  · cases h
  next k hk =>
  split at h
  · cases h
  next old hold =>
  dsimp only at h
  split at h
  · cases h
  next grown hgrown =>
  split at h
  · cases h
  next hw =>
  obtain ⟨rfl, rfl⟩ := Prod.mk.inj (some.inj h)
  have hstop : vaddr < old.stop := by
    obtain ⟨hlt, hfound, -⟩ := List.findIdx?_eq_some_iff_getElem.mp hk
    obtain ⟨hlt', rfl⟩ := List.getElem?_eq_some_iff.mp hold
    simpa using hfound
  have hwritable : w = true → grown.writable = true := by
    intro hw'
    simpa [hw'] using hw
  split at hgrown
  · next hstart =>
    cases hgrown
    exact ⟨k, old, hold, rfl, hstart, hstop, hwritable, .inl rfl⟩
  next hstart =>
  split at hgrown
  · cases hgrown
  next hustack =>
  split at hgrown
  · cases hgrown
  cases hgrown
  have hlast : k + 1 = segq.length := by
    have hfind := not_not.mp hustack
    unfold findustack at hfind
    split_ifs at hfind
    have hk' := some.inj hfind
    omega
  have hdown : pagedown vaddr ≤ vaddr := Nat.div_mul_le_self _ _
  exact ⟨k, old, hold, rfl, hdown, hstop, hwritable, .inr ⟨rfl, by omega, hlast⟩⟩

/-- A segment that has the address is found. -/
theorem faultseg_of_mem (h : InOrder segq) (hseg : seg ∈ segq) (ha : seg.start ≤ a ∧ a < seg.stop)
    (hw : seg.writable = true) : faultseg segq esp a w ≠ none := by
  obtain ⟨k, hk, hkseg⟩ := bind_eq_some_iff.mp (h.segqOk.findseg seg hseg a ha)
  unfold faultseg
  rw [hk]
  dsimp only
  rw [hkseg]
  dsimp only
  rw [if_pos ha.1]
  simp [hw]

/-- What an access does to the segments. -/
structure Grows (s t : Vm) : Prop where
  length : t.segq.length = s.segq.length
  /-- Only the last can change. -/
  same : ∀ i, i + 1 < s.segq.length → t.segq[i]? = s.segq[i]?
  /-- Its start can move. -/
  start : ∀ seg ∈ s.segq, ∃ seg' ∈ t.segq, seg'.start ≤ seg.start ∧ seg'.stop = seg.stop ∧
    seg'.inode = seg.inode

theorem Grows.refl (h : t.segq = s.segq) : Grows s t := by
  refine ⟨by rw [h], fun i _ => by rw [h], fun seg hseg => ⟨seg, ?_, Nat.le_refl _, rfl, rfl⟩⟩
  rw [h]
  exact hseg

theorem Grows.of_faultseg (h : faultseg s.segq esp vaddr w = some (seg, segq'))
    (ht : t.segq = segq') : Grows s t := by
  obtain ⟨k, old, hk, rfl, -, -, -, hcases⟩ := faultseg_cases h
  obtain ⟨hlt, hold⟩ := List.getElem?_eq_some_iff.mp hk
  refine ⟨by rw [ht, length_set], fun i hi => ?_, fun x hx => ?_⟩
  · rw [ht]
    rcases hcases with rfl | ⟨-, -, hlast⟩
    · rw [← hold, set_getElem_self]
    · exact List.getElem?_set_ne (by omega)
  · rw [ht]
    obtain ⟨i, hi, rfl⟩ := getElem_of_mem hx
    by_cases hik : i = k
    · subst hik
      refine ⟨seg, mem_set hi seg, ?_⟩
      rcases hcases with rfl | ⟨rfl, hlow, -⟩
      · rw [hold]
        exact ⟨Nat.le_refl _, rfl, rfl⟩
      · have hdown : pagedown vaddr ≤ vaddr := Nat.div_mul_le_self _ _
        rw [hold]
        exact ⟨by dsimp only; omega, rfl, rfl⟩
    · refine ⟨s.segq[i], ?_, Nat.le_refl _, rfl, rfl⟩
      rw [mem_iff_getElem]
      exact ⟨i, by rwa [length_set], getElem_set_ne (Ne.symm hik) _⟩

/-! ## Accesses -/

/-- The address is in the heap. -/
def Heap (s : Vm) (a : Nat) : Prop := ∃ bss ∈ s.segq[2]?, bss.start ≤ a ∧ a < bss.stop

/-- What an access leaves as it is. -/
structure Touches (s t : Vm) (vaddr : Nat) : Prop where
  grows : Grows s t
  other : ∀ p, p ≠ pagediv vaddr → t.pte p = s.pte p

theorem Grows.third (h : Grows s t) (hs : s.Wf) : t.segq[2]? = s.segq[2]? := by
  have hlength := hs.length
  exact h.same 2 (by omega)

theorem Grows.anon (h : Grows s t) (ha : s.Anon a) : t.Anon a := by
  obtain ⟨seg, hseg, hanon, hstart, hstop⟩ := ha
  obtain ⟨seg', hseg', hstart', hstop', hinode⟩ := h.start seg hseg
  exact ⟨seg', hseg', hinode.trans hanon, by omega, by omega⟩

/-- The address space stays well formed, when what is new is in a segment. -/
theorem Wf.touch (hs : s.Wf) (h : Touches s t vaddr) (htables : t.Tables []) (hord : InOrder t.segq)
    (hpage : s.pte (pagediv vaddr) ≠ none ∨ t.pte (pagediv vaddr) = none ∨
      ∃ seg ∈ t.segq, seg.start ≤ vaddr ∧ vaddr < seg.stop) : t.Wf := by
  have hold : ∀ p e, s.pte p = some e →
      ∃ seg ∈ t.segq, seg.start ≤ p * PAGESIZE ∧ p * PAGESIZE < seg.stop := by
    intro p e hp
    obtain ⟨seg, hseg, hstart, hstop⟩ := hs.inside p e hp
    obtain ⟨seg', hseg', hstart', hstop', -⟩ := h.grows.start seg hseg
    exact ⟨seg', hseg', by omega, by omega⟩
  refine ⟨htables, hord, fun p e hp => ?_, ?_, ?_⟩
  · by_cases hne : p = pagediv vaddr
    · subst hne
      rcases hpage with hpte | hpte | ⟨seg, hseg, ha⟩
      · obtain ⟨e', he'⟩ := ne_none_iff_exists'.mp hpte
        exact hold _ e' he'
      · rw [hpte] at hp
        cases hp
      · have hok := hord.each seg hseg
        exact ⟨seg, hseg, (page_inside hok.start hok.stop).mp ha⟩
    · rw [h.other p hne] at hp
      exact hold p e hp
  · rw [h.grows.length]
    exact hs.length
  · rw [h.grows.third hs]
    exact hs.bss

/-- What can be seen stays, if it does on the page of the access. -/
theorem Touches.see (h : Touches s t vaddr) (hkeep : s.Keeps t)
    (hpage : ∀ a v, pagediv a = pagediv vaddr → s.see a = some v → t.see a = some v) (a : Nat)
    (v : BitVec 8) (hv : s.see a = some v) : t.see a = some v := by
  by_cases ha : pagediv a = pagediv vaddr
  · exact hpage a v ha hv
  · have hsame := h.other (pagediv a) ha
    cases hpte : s.pte (pagediv a) with
    | none =>
        obtain ⟨hanon, rfl⟩ := (see_absent hpte).mp hv
        exact (see_absent (hsame.trans hpte)).mpr ⟨h.grows.anon hanon, rfl⟩
    | some e =>
        rw [see_present (hsame.trans hpte), hkeep _ e hpte, ← see_present hpte]
        exact hv

/-- An access that comes to an entry can go by it; if it comes to none there are few pages, or the
address is not in the heap. -/
structure Accesses (s : Vm) (vaddr : Nat) (w : Bool) (r : Option Entry) (t : Vm) : Prop where
  wf : t.Wf
  touches : Touches s t vaddr
  see : ∀ a v, s.see a = some v → t.see a = some v
  entry : ∀ e, r = some e → t.pte (pagediv vaddr) = some e ∧ (w = true → e.w = true)
  denied : r = none → s.Few ∨ ¬ s.Heap vaddr

theorem Accesses.unchanged {r : Option Entry} (hs : s.Wf)
    (hentry : ∀ e, r = some e → s.pte (pagediv vaddr) = some e ∧ (w = true → e.w = true))
    (hdenied : r = none → s.Few ∨ ¬ s.Heap vaddr) : Accesses s vaddr w r s where
  wf := hs
  touches := ⟨Grows.refl rfl, fun _ _ => rfl⟩
  see := fun _ _ => id
  entry := hentry
  denied := hdenied

/-- The segments have no part in the page tables. -/
theorem Tables.setSegq (h : s.Tables []) (segq : List Seg) : Tables { s with segq := segq } [] :=
  ⟨h.table, h.user, h.owned, h.sole⟩

/-- There is no segment for the access. -/
theorem not_heap (hs : s.Wf) (h : faultseg s.segq esp vaddr w = none) : ¬ s.Heap vaddr := by
  rintro ⟨bss, hbss, ha⟩
  have hwritable := (hs.bss bss hbss).1
  exact faultseg_of_mem hs.inOrder (mem_of_getElem? hbss) ha hwritable h

/-- A fault for which there is no page. -/
theorem Accesses.outofmem (hs : s.Wf) (hseg : faultseg s.segq esp vaddr w = some (seg, segq'))
    (hsegq : t.segq = segq') (hpte : t.pte = s.pte) (hkeep : s.Keeps t) (htables : t.Tables [])
    (hfew : s.Few) : Accesses s vaddr w none t := by
  have htouches : Touches s t vaddr := ⟨Grows.of_faultseg hseg hsegq, fun p _ => by rw [hpte]⟩
  have hord : InOrder t.segq := by
    rw [hsegq]
    exact faultseg_inOrder hs.inOrder hseg
  have hpage : s.pte (pagediv vaddr) ≠ none ∨ t.pte (pagediv vaddr) = none := by
    rw [hpte]
    exact (em _).symm
  have hwf := hs.touch htouches htables hord (hpage.imp_right .inl)
  refine ⟨hwf, htouches, ?_, ?_, fun _ => .inl hfew⟩
  · apply htouches.see hkeep
    intro a v ha hv
    cases hp : s.pte (pagediv a) with
    | none =>
        obtain ⟨hanon, rfl⟩ := (see_absent hp).mp hv
        rw [← hpte] at hp
        exact (see_absent hp).mpr ⟨htouches.grows.anon hanon, rfl⟩
    | some e =>
        rw [see_present hp] at hv
        rw [see_present (hpte ▸ hp), hkeep _ e hp]
        exact hv
  · intro e h
    cases h

/-- A fault after which the page is there. -/
theorem Accesses.mapped (hs : s.Wf) (hseg : faultseg s.segq esp vaddr w = some (seg, segq'))
    (hsegq : t.segq = segq') (hpte : t.pte = Function.update s.pte (pagediv vaddr) (some e))
    (hw : w = true → e.w = true) (hkeep : s.Keeps t) (htables : t.Tables [])
    (hpresent : ∀ e', s.pte (pagediv vaddr) = some e' → t.data e.page = s.data e'.page)
    (habsent : s.pte (pagediv vaddr) = none → seg.inode = none → t.data e.page = fun _ => 0) :
    Accesses s vaddr w (t.pte (pagediv vaddr)) t := by
  obtain ⟨k, old, hk, hset, hstart, hstop, -, -⟩ := faultseg_cases hseg
  have hmem : seg ∈ t.segq := by
    rw [hsegq, hset]
    exact mem_set (List.getElem?_eq_some_iff.mp hk).1 seg
  have hgrows : Grows s t := Grows.of_faultseg hseg hsegq
  have htouches : Touches s t vaddr :=
    ⟨hgrows, fun p hp => by rw [hpte, Function.update_of_ne hp]⟩
  have hord : InOrder t.segq := by
    rw [hsegq]
    exact faultseg_inOrder hs.inOrder hseg
  have hentry : t.pte (pagediv vaddr) = some e := by
    rw [hpte, Function.update_self]
  have hwf := hs.touch htouches htables hord (.inr (.inr ⟨seg, hmem, hstart, hstop⟩))
  refine ⟨hwf, htouches, ?_, fun e' h => ?_, fun h => ?_⟩
  · apply htouches.see hkeep
    intro a v ha hv
    have hthere : t.pte (pagediv a) = some e := by
      rw [ha]
      exact hentry
    rw [see_present hthere]
    cases hp : s.pte (pagediv a) with
    | none =>
        obtain ⟨hanon, rfl⟩ := (see_absent hp).mp hv
        -- the segment without a file is the one of the fault
        obtain ⟨seg', hseg', hinode, hin⟩ := hgrows.anon hanon
        have hok := hord.each seg hmem
        have hin' : seg.start ≤ a ∧ a < seg.stop := by
          rw [page_inside hok.start hok.stop, ha, ← page_inside hok.start hok.stop]
          exact ⟨hstart, hstop⟩
        obtain rfl := segment_unique hord hseg' hmem hin hin'
        rw [ha] at hp
        rw [habsent hp hinode]
    | some e' =>
        rw [see_present hp] at hv
        rw [ha] at hp
        rw [hpresent e' hp]
        exact hv
  · rw [hentry] at h
    cases h
    exact ⟨hentry, hw⟩
  · rw [hentry] at h
    cases h

/-- The page is mapped: it can be read, or written to, or it is copied. -/
theorem access_present (hs : s.Wf) (hp : s.pte (pagediv vaddr) = some e) (esp : Nat) (w : Bool)
    (file : Nat → BitVec 8) :
    ∃ r t, s.access esp vaddr w file = some (r, t) ∧ Accesses s vaddr w r t := by
  unfold access
  rw [hp]
  dsimp only
  by_cases hw : (w && !e.w) = true
  · rw [if_pos hw, pagefault]
    rw [Bool.and_eq_true] at hw
    obtain ⟨rfl, -⟩ := hw
    cases hseg : faultseg s.segq esp vaddr true with
    | none => exact ⟨none, s, rfl, Accesses.unchanged hs (by simp) fun _ => .inr (not_heap hs hseg)⟩
    | some r =>
        obtain ⟨seg, segq'⟩ := r
        have htables := hs.tables.setSegq segq'
        rcases wppage_spec htables hp with
          ⟨hfew, ht⟩ | ⟨page, t, ht, hsegq, hpte, hdata, hkeep, htables'⟩
        · refine ⟨none, { s with segq := segq' }, ?_, ?_⟩
          · simp [ht]
          · exact Accesses.outofmem hs hseg rfl rfl (fun _ _ _ => rfl) htables hfew
        · refine ⟨_, t, ?_, Accesses.mapped hs hseg hsegq hpte (fun _ => rfl) hkeep htables' ?_ ?_⟩
          · simp [ht]
          · intro e' he'
            rw [hp] at he'
            cases he'
            exact hdata
          · intro hnone
            rw [hp] at hnone
            cases hnone
  · rw [if_neg hw]
    refine ⟨some e, s, rfl, Accesses.unchanged hs (fun e' h => ?_) (by simp)⟩
    cases h
    refine ⟨hp, fun hw' => ?_⟩
    simpa [hw'] using hw

/-- The page is not mapped: it is, if there is a segment for it. -/
theorem access_absent (hs : s.Wf) (hp : s.pte (pagediv vaddr) = none) (esp : Nat) (w : Bool)
    (file : Nat → BitVec 8) :
    ∃ r t, s.access esp vaddr w file = some (r, t) ∧ Accesses s vaddr w r t := by
  unfold access
  rw [hp]
  dsimp only
  rw [pagefault]
  cases hseg : faultseg s.segq esp vaddr w with
  | none => exact ⟨none, s, rfl, Accesses.unchanged hs (by simp) fun _ => .inr (not_heap hs hseg)⟩
  | some r =>
      obtain ⟨seg, segq'⟩ := r
      obtain ⟨k, old, hk, hset, hstart, hstop, hw, -⟩ := faultseg_cases hseg
      have huser : pagediv vaddr ∈ userpages := by
        have hord := faultseg_inOrder hs.inOrder hseg
        have hmem : seg ∈ segq' := by
          rw [hset]
          exact mem_set (List.getElem?_eq_some_iff.mp hk).1 seg
        have hbounded := (hord.each seg hmem).bounded
        simp only [userpages, Finset.mem_range, pagediv, PAGESIZE, USEREND] at *
        omega
      rcases nopage_spec (hs.tables.setSegq segq') hp huser seg file with
        ⟨t, ht, hfew, hsegq, hpte, hkeep, htables'⟩ |
        ⟨page, t, ht, hsegq, hpte, hdata, hkeep, htables'⟩
      · refine ⟨none, t, ?_, ?_⟩
        · simp [ht]
        · exact Accesses.outofmem hs hseg hsegq hpte hkeep htables' hfew
      · refine ⟨_, t, ?_, Accesses.mapped hs hseg hsegq hpte hw hkeep htables' ?_ fun _ => hdata⟩
        · simp [ht]
        · intro e' he'
          rw [hp] at he'
          cases he'

theorem access_spec (hs : s.Wf) (esp vaddr : Nat) (w : Bool) (file : Nat → BitVec 8) :
    ∃ r t, s.access esp vaddr w file = some (r, t) ∧ Accesses s vaddr w r t := by
  cases hp : s.pte (pagediv vaddr) with
  | none => exact access_absent hs hp esp w file
  | some e => exact access_present hs hp esp w file

/-! ## Writing -/

/-- What can be written to is mapped once. -/
theorem entry_unique {e' : Entry} {q : Nat} (h : s.Tables []) (hp : s.pte p = some e)
    (hw : e.w = true) (hq : s.pte q = some e') (hpage : e'.page = e.page) : q = p := by
  have hpos := mapped_pos h hp
  obtain ⟨hle, -⟩ := h.counted (f := e.page) (by omega)
  rw [h.sole p e hp hw, count_nil] at hle
  have hone : refs userpages s.frames e.page ≤ 1 := by
    rw [mapped] at hle
    omega
  apply eq_of_refs_le_one hone (h.user q e' hq) (h.user p e hp)
  · simp [frames, hq, hpage]
  · simp [frames, hp]

/-- A byte is written. -/
def store (s : Vm) (page off : Nat) (v : BitVec 8) : Vm :=
  { s with data := Function.update s.data page (Function.update (s.data page) off v) }

theorem Wf.store (hs : s.Wf) (page off : Nat) (v : BitVec 8) : (s.store page off v).Wf :=
  ⟨⟨hs.tables.table, hs.tables.user, hs.tables.owned, hs.tables.sole⟩, hs.inOrder, hs.inside,
    hs.length, hs.bss⟩

/-- A write to one address is seen there, and nowhere else. -/
theorem see_store (hs : s.Wf) (hp : s.pte (pagediv a) = some e) (hw : e.w = true) :
    (s.store e.page (pagemod a) v).see a = some v ∧
      ∀ b, b ≠ a → (s.store e.page (pagemod a) v).see b = s.see b := by
  constructor
  · have hsee := see_present (s := s.store e.page (pagemod a) v) hp
    rw [hsee]
    simp [store]
  · intro b hb
    cases hq : s.pte (pagediv b) with
    | none =>
        unfold see
        dsimp only [store]
        rw [hq]
        rfl
    | some e' =>
        have hsee := see_present (s := s.store e.page (pagemod a) v) hq
        rw [hsee, see_present hq]
        dsimp only [store]
        by_cases hpage : e'.page = e.page
        · have hdiv := entry_unique hs.tables hp hw hq hpage
          have hmod : pagemod b ≠ pagemod a := by
            intro hmod
            simp only [pagediv, pagemod, PAGESIZE] at *
            omega
          rw [hpage, Function.update_self, Function.update_of_ne hmod]
        · rw [Function.update_of_ne hpage]

/-! ## Moving the break -/

theorem mem_set_of_mem {l : List Seg} (hk : l[k]? = some y) (h : x ∈ l) (z : Seg) :
    x = y ∨ x ∈ l.set k z := by
  obtain ⟨i, hi, rfl⟩ := getElem_of_mem h
  by_cases hik : i = k
  · subst hik
    obtain ⟨-, rfl⟩ := List.getElem?_eq_some_iff.mp hk
    exact .inl rfl
  · right
    rw [mem_iff_getElem]
    exact ⟨i, by rwa [length_set], getElem_set_ne (Ne.symm hik) _⟩

/-- The end of the bss moves to `ebss`. -/
structure Resized (s t : Vm) (bss next : Seg) (ebss : Nat) : Prop where
  third : s.segq[2]? = some bss
  fourth : s.segq[3]? = some next
  segq : t.segq = s.segq.set 2 { bss with stop := ebss }
  aligned : pagemod ebss = 0
  between : bss.start ≤ ebss ∧ ebss ≤ next.start
  unmapped : Unmapped s t (pagediv ebss) (pagediv bss.stop)

namespace Resized

variable {next : Seg} {ebss : Nat}

theorem ebss_eq (h : Resized s t bss next ebss) : t.ebss = ebss := by
  have hlt := (List.getElem?_eq_some_iff.mp h.third).1
  simp [Vm.ebss, h.segq, hlt]

theorem old_eq (h : Resized s t bss next ebss) : s.ebss = bss.stop := by
  simp [Vm.ebss, h.third]

theorem mem (h : Resized s t bss next ebss) : { bss with stop := ebss } ∈ t.segq := by
  rw [h.segq]
  exact mem_set (List.getElem?_eq_some_iff.mp h.third).1 _

/-- What is not in the bss stays in its segment. -/
theorem keep (h : Resized s t bss next ebss) (hseg : seg ∈ s.segq) : seg = bss ∨ seg ∈ t.segq := by
  rw [h.segq]
  exact mem_set_of_mem h.third hseg _

/-- What is above the bss is above `next`. -/
theorem above {i : Nat} (h : Resized s t bss next ebss) (hs : s.Wf) (hi : 2 < i)
    (hseg : s.segq[i]? = some seg) : next.start ≤ seg.start := by
  rcases Nat.lt_or_ge 3 i with hbeyond | hnext
  · have hbefore := hs.inOrder.before h.fourth hseg hbeyond
    have hle := (hs.inOrder.each next (mem_of_getElem? h.fourth)).le
    omega
  · obtain rfl : i = 3 := by omega
    have hfourth := h.fourth
    rw [hseg] at hfourth
    rw [some.inj hfourth]

theorem apart (h : Resized s t bss next ebss) (hs : s.Wf) (hseg : seg ∈ s.segq) :
    seg.stop ≤ bss.start ∨ seg = bss ∨ next.start ≤ seg.start := by
  obtain ⟨i, hi, rfl⟩ := getElem_of_mem hseg
  have hget : s.segq[i]? = some s.segq[i] := List.getElem?_eq_getElem hi
  rcases Nat.lt_trichotomy i 2 with hlow | rfl | hhigh
  · exact .inl (hs.inOrder.before hget h.third hlow)
  · exact .inr (.inl (some.inj (hget.symm.trans h.third)))
  · exact .inr (.inr (h.above hs hhigh hget))

theorem inOrder (h : Resized s t bss next ebss) (hs : s.Wf) : InOrder t.segq := by
  have hok := hs.inOrder.each bss (mem_of_getElem? h.third)
  have hnext := hs.inOrder.each next (mem_of_getElem? h.fourth)
  have hbounded : ebss ≤ USEREND :=
    Nat.le_trans h.between.2 (Nat.le_trans hnext.le hnext.bounded)
  rw [h.segq]
  apply hs.inOrder.set h.third
  · exact ⟨hok.start, h.aligned, h.between.1, hbounded⟩
  · intro i y hi hy
    have hbefore := hs.inOrder.before hy h.third hi
    exact hbefore
  · intro i y hi hy
    exact Nat.le_trans h.between.2 (h.above hs hi hy)

/-- A page that is still mapped is in its segment. -/
theorem wf (h : Resized s t bss next ebss) (hs : s.Wf) (htables : t.Tables []) : t.Wf := by
  have hok := hs.inOrder.each bss (mem_of_getElem? h.third)
  have hlt := (List.getElem?_eq_some_iff.mp h.third).1
  refine ⟨htables, h.inOrder hs, fun p e hp => ?_, ?_, fun bss' hbss' => ?_⟩
  · rw [h.unmapped.pte] at hp
    split_ifs at hp with hgone
    obtain ⟨seg, hseg, hstart, hstop⟩ := hs.inside p e hp
    rcases h.keep hseg with rfl | hkept
    · refine ⟨_, h.mem, hstart, ?_⟩
      have hend := hok.stop
      simp only [pagemod, pagediv, PAGESIZE] at *
      omega
    · exact ⟨seg, hkept, hstart, hstop⟩
  · rw [h.segq, length_set]
    exact hs.length
  · rw [h.segq, List.getElem?_set_self hlt] at hbss'
    cases hbss'
    exact hs.bss bss h.third

/-- What is new is zero. -/
theorem zero (h : Resized s t bss next ebss) (hs : s.Wf) (hlow : bss.stop ≤ a) (hhigh : a < ebss) :
    t.see a = some 0 := by
  have hok := hs.inOrder.each bss (mem_of_getElem? h.third)
  have hin : bss.start ≤ a := Nat.le_trans hok.le hlow
  have hanon : t.Anon a := ⟨_, h.mem, (hs.bss bss h.third).2, hin, hhigh⟩
  have hnone : t.pte (pagediv a) = none := by
    by_contra hsome
    obtain ⟨e, he⟩ := ne_none_iff_exists'.mp hsome
    rw [h.unmapped.pte] at he
    split_ifs at he
    obtain ⟨seg, hseg, hpage⟩ := hs.inside _ e he
    have hsegok := hs.inOrder.each seg hseg
    have ha := (page_inside hsegok.start hsegok.stop).mpr hpage
    rcases h.apart hs hseg with hbelow | rfl | habove
    · omega
    · omega
    · have hroom := h.between.2
      omega
  exact (see_absent hnone).mpr ⟨hanon, rfl⟩

/-- Behind the break everything is given up, and nothing else. -/
theorem see (h : Resized s t bss next ebss) (hs : s.Wf) (hkept : ¬ (ebss ≤ a ∧ a < bss.stop))
    (hv : s.see a = some v) : t.see a = some v := by
  have hpte : t.pte (pagediv a) = s.pte (pagediv a) := by
    rw [h.unmapped.pte, if_neg]
    have haligned := h.aligned
    simp only [pagemod, pagediv, PAGESIZE] at *
    omega
  cases hp : s.pte (pagediv a) with
  | none =>
      obtain ⟨⟨seg, hseg, hanon, hstart, hstop⟩, rfl⟩ := (see_absent hp).mp hv
      refine (see_absent (hpte.trans hp)).mpr ⟨?_, rfl⟩
      rcases h.keep hseg with rfl | hseg'
      · exact ⟨_, h.mem, hanon, hstart, by dsimp only; omega⟩
      · exact ⟨seg, hseg', hanon, hstart, hstop⟩
  | some e =>
      rw [see_present (hpte.trans hp), h.unmapped.data, ← see_present hp]
      exact hv

end Resized

/-- What a call of `sysbrk` for `x` does: the break moves as near to `x` as it can, the pages
behind it lose the references of their entries, and those without one are free. -/
structure Moves (s t : Vm) (bss next : Seg) (x : Nat) : Prop where
  resized : Resized s t bss next t.ebss
  ebss : t.ebss = if x < bss.start then bss.stop else min x next.start
  freed : PageSys.Ok ⟨t.pages, t.mapped⟩

theorem Resized.moves {next : Seg} {ebss x : Nat} (h : Resized s t bss next ebss) (hs : s.Wf)
    (htables : t.Tables []) (hx : ebss = if x < bss.start then bss.stop else min x next.start) :
    Moves s t bss next x ∧ t.Wf := by
  have hwf := h.wf hs htables
  obtain ⟨own, hinv, -⟩ := htables.owned
  obtain ⟨l, hl⟩ := hinv.ok
  have hebss := h.ebss_eq
  subst hebss
  exact ⟨⟨h, hx, l, hl⟩, hwf⟩

/-- `brk` finds the bss, and a segment behind it. -/
theorem Wf.layout (hs : s.Wf) : ∃ bss next, s.segq[2]? = some bss ∧ s.segq[3]? = some next ∧
    findbss s.segq = some 2 := by
  have hlength := hs.length
  obtain ⟨bss, hbss⟩ : ∃ bss, s.segq[2]? = some bss :=
    ⟨_, List.getElem?_eq_getElem (show 2 < s.segq.length by omega)⟩
  obtain ⟨next, hnext⟩ : ∃ next, s.segq[3]? = some next :=
    ⟨_, List.getElem?_eq_getElem (show 3 < s.segq.length by omega)⟩
  refine ⟨bss, next, hbss, hnext, ?_⟩
  rw [findbss, if_neg (by omega), hbss]
  simp [(hs.bss bss hbss).1]

section

variable {next : Seg} {ebss : Nat} (hs : s.Wf) (hbss : s.segq[2]? = some bss)
  (hnext : s.segq[3]? = some next)

include hs hbss hnext

/-- The break stays. -/
theorem resized_self : Resized s s bss next bss.stop := by
  have hok := hs.inOrder.each bss (mem_of_getElem? hbss)
  have hroom : bss.stop ≤ next.start := hs.inOrder.before hbss hnext (by decide)
  refine ⟨hbss, hnext, ?_, hok.stop, ⟨hok.le, hroom⟩, Unmapped.refl (Nat.le_refl _) s⟩
  obtain ⟨hlt, rfl⟩ := List.getElem?_eq_some_iff.mp hbss
  exact (set_getElem_self hlt).symm

/-- The break goes down, and the pages behind it go. -/
theorem resized_down (haligned : pagemod ebss = 0) (hstart : bss.start ≤ ebss)
    (hstop : ebss < bss.stop) :
    ∃ t, s.unmap (pageup ebss) (pageup bss.stop) = some t ∧
      Resized s { t with segq := t.segq.set 2 { bss with stop := ebss } } bss next ebss ∧
      Tables { t with segq := t.segq.set 2 { bss with stop := ebss } } [] := by
  have hok := hs.inOrder.each bss (mem_of_getElem? hbss)
  have hroom : bss.stop ≤ next.start := hs.inOrder.before hbss hnext (by decide)
  have hbounded := hok.bounded
  obtain ⟨t, ht, hsegq, hunmapped, htables⟩ :=
    unmap_spec hs.tables (Nat.le_of_lt hstop) haligned hok.stop hbounded
  refine ⟨t, ?_, ?_, htables.setSegq _⟩
  · rw [pageup_of_pagemod hok.stop hbounded, pageup_of_pagemod haligned (by omega), ht]
  · refine ⟨hbss, hnext, by rw [hsegq], haligned, ⟨hstart, by omega⟩, ?_⟩
    exact ⟨hunmapped.data, hunmapped.pte, hunmapped.refcnt⟩

/-- The break goes up, to the next segment at most. -/
theorem resized_up (haligned : pagemod ebss = 0) (hstop : bss.stop ≤ ebss) :
    Resized s { s with segq := s.segq.set 2 { bss with stop := min ebss next.start } } bss next
      (min ebss next.start) := by
  have hok := hs.inOrder.each bss (mem_of_getElem? hbss)
  have hnok := hs.inOrder.each next (mem_of_getElem? hnext)
  have hroom : bss.stop ≤ next.start := hs.inOrder.before hbss hnext (by decide)
  have hle : bss.stop ≤ min ebss next.start := Nat.le_min.mpr ⟨hstop, hroom⟩
  have hmin : pagemod (min ebss next.start) = 0 := by
    rcases min_choice ebss next.start with hmin | hmin
    · rw [hmin, haligned]
    · rw [hmin, hnok.start]
  have hdiv : pagediv bss.stop ≤ pagediv (min ebss next.start) := Nat.div_le_div_right hle
  have hnone := Unmapped.refl hdiv s
  refine ⟨hbss, hnext, rfl, hmin, ⟨Nat.le_trans hok.le hle, Nat.min_le_right ..⟩, ?_⟩
  exact ⟨hnone.data, hnone.pte, hnone.refcnt⟩

end

theorem brk_spec (hs : s.Wf) (ebss : Nat) :
    ∃ t bss next, s.brk ebss = some (t.ebss, t) ∧ Moves s t bss next (pageup ebss) ∧ t.Wf := by
  obtain ⟨bss, next, hbss, hnext, hfind⟩ := hs.layout
  have hnok := hs.inOrder.each next (mem_of_getElem? hnext)
  have hroom : bss.stop ≤ next.start := hs.inOrder.before hbss hnext (by decide)
  have hpage : pagemod (pageup ebss) = 0 := pagemod_pagedown _
  unfold brk
  rw [hfind]
  simp only [bind_some, hbss, hnext, map_some]
  by_cases hstart : pageup ebss < bss.start
  · rw [if_pos hstart]
    have hresized := resized_self hs hbss hnext
    obtain ⟨hmoves, hwf⟩ := hresized.moves hs hs.tables (if_pos hstart).symm
    exact ⟨s, bss, next, by rw [hresized.ebss_eq], hmoves, hwf⟩
  rw [if_neg hstart]
  by_cases hstop : pageup ebss < bss.stop
  · rw [if_pos hstop]
    obtain ⟨t, ht, hresized, htables⟩ :=
      resized_down hs hbss hnext hpage (Nat.le_of_not_lt hstart) hstop
    have hebss : pageup ebss = if pageup ebss < bss.start then bss.stop
        else min (pageup ebss) next.start := by
      rw [if_neg hstart, Nat.min_eq_left (by omega)]
    obtain ⟨hmoves, hwf⟩ := hresized.moves hs htables hebss
    refine ⟨_, bss, next, ?_, hmoves, hwf⟩
    rw [ht, hresized.ebss_eq]
    rfl
  · rw [if_neg hstop, pagedown_of_pagemod hnok.start]
    have hresized := resized_up hs hbss hnext hpage (Nat.le_of_not_lt hstop)
    obtain ⟨hmoves, hwf⟩ := hresized.moves hs (hs.tables.setSegq _) (if_neg hstart).symm
    exact ⟨_, bss, next, by rw [hresized.ebss_eq], hmoves, hwf⟩

/-! ## Runs -/

/-- A step for a program that cannot ask what it comes to. -/
def move (s : Vm) (a : Event) : Option Vm := (s.step a).map Prod.snd

/-- What a program remembers after a step, from what it comes to. -/
def record (s : Vm) (a : Event) (_ : Vm) (m : Recall (BitVec 8)) : Recall (BitVec 8) :=
  match a, (s.step a).map Prod.fst with
  | .sysbrk _, some (.brk ebss) => m.move 0 ebss
  | .write _ vaddr _ v, some .written => m.write vaddr v
  | _, _ => m

/-- What can be remembered at most. -/
def known (s : Vm) : Recall (BitVec 8) := ⟨s.ebss, s.see⟩

/-- The heap law for one step of a program that remembers `m`. -/
def Law (s : Vm) (m : Recall (BitVec 8)) : Event → Prop
  | .sysbrk ebss =>
      ∃ t bss next, s.step (.sysbrk ebss) = some (.brk t.ebss, t) ∧
        Moves s t bss next (pageup ebss.toNat)
  | .read esp vaddr file =>
      ∃ out t, s.step (.read esp vaddr file) = some (out, t) ∧ Touches s t vaddr ∧
        (out = .sigsegv ∧ (s.Few ∨ ¬ s.Heap vaddr) ∨
          ∃ v, out = .byte v ∧ (∀ u, m.byte vaddr = some u → v = u) ∧
            (s.Heap vaddr → m.byte vaddr = some v))
  | .write esp vaddr file v =>
      ∃ out t, s.step (.write esp vaddr file v) = some (out, t) ∧ Touches s t vaddr ∧
        (out = .sigsegv ∧ (s.Few ∨ ¬ s.Heap vaddr) ∨ out = .written)

/-- Whatever is remembered can be seen, and the whole heap is remembered. -/
structure Remembers (s : Vm) (m : Recall (BitVec 8)) : Prop where
  wf : s.Wf
  top : m.top = s.ebss
  agrees : m.Agrees s.see
  heap : ∀ a, s.Heap a → ∃ v, m.byte a = some v

variable {m : Recall (BitVec 8)} {ebss : BitVec 32} {out : Out}

theorem known_remembers (hs : s.Wf) : Remembers s s.known := by
  refine ⟨hs, rfl, fun a v => id, ?_⟩
  rintro a ⟨bss, hbss, hstart, hstop⟩
  show ∃ v, s.see a = some v
  cases hp : s.pte (pagediv a) with
  | some e => exact ⟨_, see_present hp⟩
  | none =>
      have hanon : s.Anon a :=
        ⟨bss, mem_of_getElem? hbss, (hs.bss bss hbss).2, hstart, hstop⟩
      exact ⟨0, (see_absent hp).mpr ⟨hanon, rfl⟩⟩

theorem Touches.heap (h : Touches s t vaddr) (hs : s.Wf) : t.Heap a ↔ s.Heap a := by
  unfold Heap
  rw [h.grows.third hs]

/-- An access changes nothing of what is remembered. -/
theorem Remembers.access {r : Option Entry} (h : Remembers s m) (ht : Accesses s vaddr w r t) :
    Remembers t m := by
  refine ⟨ht.wf, ?_, h.agrees.mono ht.see, fun a ha => ?_⟩
  · rw [Vm.ebss, ht.touches.grows.third h.wf]
    exact h.top
  · exact h.heap a ((ht.touches.heap h.wf).mp ha)

theorem Remembers.read (h : Remembers s m) (esp vaddr : Nat) (file : Nat → BitVec 8) :
    Law s m (.read esp vaddr file) ∧
      ∀ t, s.move (.read esp vaddr file) = some t → Remembers t m := by
  obtain ⟨r, t, ht, haccess⟩ := access_spec h.wf esp vaddr false file
  have hremembers := h.access haccess
  cases r with
  | none =>
      have hstep : s.step (.read esp vaddr file) = some (.sigsegv, t) := by
        simp [step, ht]
      refine ⟨⟨_, t, hstep, haccess.touches, .inl ⟨rfl, haccess.denied rfl⟩⟩, fun t' ht' => ?_⟩
      rw [move, hstep] at ht'
      cases ht'
      exact hremembers
  | some e =>
      have hstep : s.step (.read esp vaddr file) =
          some (.byte (t.data e.page (pagemod vaddr)), t) := by
        simp [step, ht]
      have hsee := see_present (haccess.entry e rfl).1
      refine ⟨⟨_, t, hstep, haccess.touches, .inr ⟨_, rfl, fun u hu => ?_, fun hheap => ?_⟩⟩,
        fun t' ht' => ?_⟩
      · have hknown := hremembers.agrees vaddr u hu
        rw [hsee] at hknown
        exact some.inj hknown
      · obtain ⟨u, hu⟩ := h.heap vaddr hheap
        have hknown := hremembers.agrees vaddr u hu
        rw [hsee] at hknown
        rw [hu, hknown]
      · rw [move, hstep] at ht'
        cases ht'
        exact hremembers

theorem Remembers.write (h : Remembers s m) (esp vaddr : Nat) (file : Nat → BitVec 8)
    (v : BitVec 8) :
    Law s m (.write esp vaddr file v) ∧ ∀ t, s.move (.write esp vaddr file v) = some t →
      Remembers t (record s (.write esp vaddr file v) t m) := by
  obtain ⟨r, t, ht, haccess⟩ := access_spec h.wf esp vaddr true file
  have hremembers := h.access haccess
  cases r with
  | none =>
      have hstep : s.step (.write esp vaddr file v) = some (.sigsegv, t) := by
        simp [step, ht]
      refine ⟨⟨_, t, hstep, haccess.touches, .inl ⟨rfl, haccess.denied rfl⟩⟩, fun t' ht' => ?_⟩
      rw [move, hstep] at ht'
      cases ht'
      unfold record
      rw [hstep]
      exact hremembers
  | some e =>
      have hstep : s.step (.write esp vaddr file v) =
          some (.written, t.store e.page (pagemod vaddr) v) := by
        simp [step, ht, store]
      obtain ⟨hentry, hw⟩ := haccess.entry e rfl
      obtain ⟨hhere, helse⟩ := see_store (v := v) hremembers.wf hentry (hw rfl)
      refine ⟨⟨_, _, hstep, ⟨?_, haccess.touches.other⟩, .inr rfl⟩, fun t' ht' => ?_⟩
      · have hgrows := haccess.touches.grows
        exact ⟨hgrows.length, hgrows.same, hgrows.start⟩
      · rw [move, hstep] at ht'
        cases ht'
        unfold record
        rw [hstep]
        refine ⟨hremembers.wf.store _ _ v, hremembers.top, hremembers.agrees.write hhere helse,
          fun a ha => ?_⟩
        obtain ⟨u, hu⟩ := hremembers.heap a ha
        by_cases hav : a = vaddr
        · exact ⟨v, by simp [Recall.write, hav]⟩
        · exact ⟨u, by simp [Recall.write, hav, hu]⟩

theorem Remembers.sysbrk (h : Remembers s m) (ebss : BitVec 32) :
    Law s m (.sysbrk ebss) ∧ ∀ t, s.move (.sysbrk ebss) = some t →
      Remembers t (record s (.sysbrk ebss) t m) := by
  obtain ⟨t, bss, next, ht, hmoves, hwf⟩ := brk_spec h.wf ebss.toNat
  have hstep : s.step (.sysbrk ebss) = some (.brk t.ebss, t) := by
    simp [step, ht]
  refine ⟨⟨t, bss, next, hstep, hmoves⟩, fun t' ht' => ?_⟩
  rw [move, hstep] at ht'
  cases ht'
  unfold record
  rw [hstep]
  have hresized := hmoves.resized
  have htop : m.top = bss.stop := h.top.trans hresized.old_eq
  refine ⟨hwf, rfl, h.agrees.move (fun a hlow hhigh => ?_) (fun a v hkept hv => ?_), fun a ha => ?_⟩
  · rw [htop] at hlow
    exact hresized.zero h.wf hlow hhigh
  · rw [htop] at hkept
    exact hresized.see h.wf hkept hv
  · obtain ⟨bss', hbss', hstart, hstop⟩ := ha
    rw [hresized.segq, List.getElem?_set_self (List.getElem?_eq_some_iff.mp hresized.third).1]
      at hbss'
    cases hbss'
    by_cases hnew : m.top ≤ a
    · exact ⟨0, by simp [Recall.move, hnew, hstop, Nat.not_lt.mpr hnew]⟩
    · have hold : s.Heap a := ⟨bss, hresized.third, hstart, by omega⟩
      obtain ⟨v, hv⟩ := h.heap a hold
      exact ⟨v, by simp [Recall.move, hnew, Nat.not_le.mpr hstop, hv]⟩

theorem Remembers.step (h : Remembers s m) (a : Event) :
    Law s m a ∧ ∀ t, s.move a = some t → Remembers t (record s a t m) := by
  cases a with
  | sysbrk ebss => exact h.sysbrk ebss
  | read esp vaddr file => exact h.read esp vaddr file
  | write esp vaddr file v => exact h.write esp vaddr file v

/-- The code, the data, an empty bss and the stack of a program, before it runs. -/
def loaded (pages : Pages) : Vm where
  segq :=
    [⟨0x1000, 0x3000, PROTR ||| PROTX, some 1, 0⟩,
      ⟨0x3000, 0x4000, PROTR ||| PROTW, some 1, 0x2000⟩,
      ⟨0x4000, 0x4000, PROTR ||| PROTW, none, 0⟩,
      ⟨0xBFFFE000, USEREND, PROTR ||| PROTW, none, 0⟩]
  pde := fun _ => false
  pte := fun _ => none
  pages := pages
  data := fun _ _ => 0

theorem loaded_wf {sys : PageSys} (h : PageSys.Inv sys) : (loaded sys.pages).Wf where
  tables := by
    have hnone : ∀ p e, (loaded sys.pages).pte p ≠ some e := by
      simp [loaded]
    refine ⟨fun p e hp => absurd hp (hnone p e), fun p e hp => absurd hp (hnone p e),
      ⟨sys.refs, h, fun f => ?_⟩, fun p e hp => absurd hp (hnone p e)⟩
    have hmapped : (loaded sys.pages).mapped f = 0 := by
      apply refs_eq_zero.mpr
      simp [frames, loaded]
    rw [hmapped]
    exact Nat.zero_le _
  inOrder := by
    have hle : ∀ seg ∈ (loaded sys.pages).segq, seg.start ≤ seg.stop := by
      simp [loaded, USEREND]
    refine ⟨⟨hle, by simp [loaded]⟩, fun seg hseg => ⟨?_, ?_, hle seg hseg, ?_⟩⟩
    · revert seg
      simp [loaded, pagemod, PAGESIZE]
    · revert seg
      simp [loaded, pagemod, PAGESIZE, USEREND]
    · revert seg
      simp [loaded, USEREND]
  inside := fun p e hp => by cases hp
  length := Nat.le_refl 4
  bss := fun bss hbss => by
    cases hbss
    exact ⟨by decide, rfl⟩

end Vm

end Unixlite.Mm
