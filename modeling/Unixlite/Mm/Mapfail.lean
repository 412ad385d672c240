import Unixlite.Mm.Clone

/-!
# A mapping that fails

Port of `insertseg`, `seg_t::~seg_t`, `mmap` and `anonmap` from `mm/mm.cc` and `mm/mm.h`
over the page tables and the pages as they are in memory, with the reference to the
inode.  What `lose` does with an inode that nobody holds any more is left out.
-/

namespace Unixlite.Paging

open Unixlite.Mm Unixlite.Verified.Partial

def MAPFIXED : BitVec 32 := 0x10
def MAPANON : BitVec 32 := 0x20

/-- Why a call does not come back. -/
inductive Hang where
  /-- `unlink` asserts that the segment is in a queue, and it is not. -/
  | unlinked
  | other (e : Stuck)
deriving DecidableEq

/-- A call of what has no segment to unlink. -/
def lift {α : Type} : Except Stuck α → Except Hang α
  | .ok a => .ok a
  | .error e => .error (.other e)

def insertseg (segq : List Seg) (x : Seg) : Int × List Seg :=
  if x.start > x.stop ∨ x.stop > USEREND then (EINVAL, segq) else (0, insertlt segq x)

namespace Machine

/-- `lose`, of an inode that is there. -/
def loseinode (s : Machine) : Option Nat → Except Stuck Machine
  | none => .ok s
  | some i =>
      if s.inodes i ≤ 0 then .error .assertion
      else .ok { s with inodes := fun j => if j = i then s.inodes i - 1 else s.inodes j }

/-- `seg_t::~seg_t` of a segment that is in the queue of its address space (`linked`)
or in none. -/
def deleteseg (s : Machine) (x : Mm) (seg : Seg) (linked : Bool) :
    Except Hang (Mm × Machine) :=
  if !linked then .error .unlinked
  else do
    let phys ← lift (unmap s.phys x.pgtbl seg.start seg.stop)
    let s ← lift ({ s with phys := phys }.loseinode seg.inode)
    .ok ({ x with segq := x.segq.erase seg }, s)

def mmap (s : Machine) (x : Mm) (start stop : Nat) (prot flags : BitVec 32)
    (inode : Option Nat) (offset : Nat) : Except Hang (Int × Mm × Machine) :=
  if ¬ start ≤ stop then .error (.other .assertion)
  else if flags &&& MAPFIXED = 0 then .error (.other .assertion)
  else if inode.isSome ∧ pagemod start ≠ pagemod offset then .ok (EINVAL, x, s)
  else do
    let s ← lift (s.new sizeofSeg)
    let seg : Seg := ⟨pagedown start, pageup stop, prot, inode, pagedown offset⟩
    let (e, segq) := insertseg x.segq seg
    if e ≠ 0 then
      -- `delete x`, of a segment that no queue has
      let (x, s) ← s.deleteseg x seg false
      .ok (e, x, s)
    else
      let s ← lift (s.hold inode)
      .ok (0, { x with segq := segq }, s)

def anonmap (s : Machine) (x : Mm) (start stop : Nat) (prot flags : BitVec 32) :
    Except Hang (Int × Mm × Machine) :=
  s.mmap x start stop prot (flags ||| MAPANON) none 0

end Machine

/-! ## Rounding outwards -/

/-- The last page boundary of an address. -/
def LASTPAGE : Nat := 0xFFFFF000

/-- The range ends in user space, or its end is rounded up to 0, and its start down to
0. -/
def Fits (start stop : Nat) : Prop :=
  stop ≤ USEREND ∨ (LASTPAGE < stop ∧ start < PAGESIZE)

instance {start stop : Nat} : Decidable (Fits start stop) := inferInstanceAs (Decidable (_ ∨ _))

section

variable {start stop : Nat}

theorem pageup_of_le (hstop : stop ≤ LASTPAGE) :
    stop ≤ pageup stop ∧ (∀ n, stop ≤ n * PAGESIZE → pageup stop ≤ n * PAGESIZE) := by
  unfold LASTPAGE at hstop
  have hwrap : wrap (stop + 4096 - 1) = stop + 4095 := by
    unfold wrap
    omega
  simp only [pageup, pagedown, PAGESIZE, hwrap]
  constructor
  · omega
  · intro n hn
    omega

theorem pageup_of_gt (hgt : LASTPAGE < stop) (hlt : stop < 2 ^ 32) : pageup stop = 0 := by
  unfold LASTPAGE at hgt
  have hwrap : wrap (stop + 4096 - 1) < 4096 := by
    unfold wrap
    omega
  simp only [pageup, pagedown, PAGESIZE]
  omega

/-- Which ranges `insertseg` takes. -/
theorem maps_iff_fits (hle : start ≤ stop) (hlt : stop < 2 ^ 32) :
    Mm.Maps start stop ↔ Fits start stop := by
  have hdown : pagedown start ≤ start := Nat.div_mul_le_self _ _
  by_cases hgt : LASTPAGE < stop
  · have hzero : pagedown start = 0 ↔ start < PAGESIZE := by
      unfold pagedown PAGESIZE
      omega
    have hout : ¬ stop ≤ USEREND := by
      unfold USEREND
      unfold LASTPAGE at hgt
      omega
    simp only [Mm.Maps, Fits, pageup_of_gt hgt hlt, hout, hgt]
    simpa using hzero
  · obtain ⟨hup, hleast⟩ := pageup_of_le (Nat.le_of_not_lt hgt)
    have hordered : pagedown start ≤ pageup stop := hdown.trans (hle.trans hup)
    have husend : pageup stop ≤ USEREND ↔ stop ≤ USEREND :=
      ⟨fun h => hup.trans h, fun h => hleast (USEREND / PAGESIZE) h⟩
    simp only [Mm.Maps, Fits, hordered, husend, hgt]
    simp

end

/-- `insertseg` is called with a segment that is rounded outwards. -/
theorem insertseg_eq (segq : List Seg) {x : Seg} {start stop : Nat}
    (hstart : x.start = pagedown start) (hstop : x.stop = pageup stop) :
    insertseg segq x = if Mm.Maps start stop then (0, insertlt segq x) else (EINVAL, segq) := by
  unfold insertseg
  rw [hstart, hstop]
  by_cases hmaps : Mm.Maps start stop
  · have hin : ¬ (pagedown start > pageup stop ∨ pageup stop > USEREND) := by
      rintro (hgt | hgt)
      · exact Nat.not_le_of_gt hgt hmaps.1
      · exact Nat.not_le_of_gt hgt hmaps.2
    rw [if_pos hmaps, if_neg hin]
  · have hout : pagedown start > pageup stop ∨ pageup stop > USEREND := by
      rcases not_and_or.mp hmaps with hle | hle
      · exact .inl (Nat.lt_of_not_le hle)
      · exact .inr (Nat.lt_of_not_le hle)
    rw [if_neg hmaps, if_pos hout]

/-! ## What a failure leaves -/

/-- A call that fails leaves the segments, the entries and the counts as they were, and
no segment is destroyed that is in no queue. -/
structure NoTrace (x : Mm) (s : Machine) (r : Except Hang (Int × Mm × Machine)) : Prop where
  linked : r ≠ .error .unlinked
  undone : ∀ e y t, r = .ok (e, y, t) → e ≠ 0 →
    y = x ∧ (∀ a, t.phys.word a = s.phys.word a) ∧
      (∀ p, t.phys.pages.refcnt p = s.phys.pages.refcnt p) ∧ ∀ i, t.inodes i = s.inodes i

namespace NoTrace

variable {x : Mm} {s : Machine}

theorem of_other (e : Stuck) : NoTrace x s (.error (.other e)) where
  linked h := by cases h
  undone _ _ _ h := by cases h

theorem of_unchanged (e : Int) : NoTrace x s (.ok (e, x, s)) where
  linked h := by cases h
  undone e' y t h _ := by
    cases h
    exact ⟨rfl, fun _ => rfl, fun _ => rfl, fun _ => rfl⟩

theorem of_done (y : Mm) (t : Machine) : NoTrace x s (.ok (0, y, t)) where
  linked h := by cases h
  undone e y' t' h he := by
    cases h
    exact absurd rfl he

theorem not_unlinked : ¬ NoTrace x s (.error .unlinked) := fun h => h.linked rfl

end NoTrace

namespace Machine

variable {x : Mm} {s : Machine} {start stop offset : Nat} {prot flags : BitVec 32}
  {inode : Option Nat}

/-- Once there is a segment, it is linked, or destroyed for good. -/
theorem mmap_of_new {t : Machine} (hle : start ≤ stop) (hfixed : flags &&& MAPFIXED ≠ 0)
    (hmod : ¬ (inode.isSome ∧ pagemod start ≠ pagemod offset)) (hnew : s.new sizeofSeg = .ok t) :
    NoTrace x s (s.mmap x start stop prot flags inode offset) ↔ Mm.Maps start stop := by
  have hinsert := insertseg_eq x.segq
    (x := ⟨pagedown start, pageup stop, prot, inode, pagedown offset⟩) rfl rfl
  unfold mmap
  rw [if_neg (not_not.mpr hle), if_neg hfixed, if_neg hmod, hnew]
  by_cases hmaps : Mm.Maps start stop
  · rw [if_pos hmaps] at hinsert
    apply iff_of_true
    · show NoTrace x s (match insertseg x.segq _ with | (e, segq) => if e ≠ 0 then _ else _)
      rw [hinsert]
      show NoTrace x s (lift (t.hold inode) >>= fun s => .ok (0, _, s))
      cases t.hold inode with
      | error e => exact NoTrace.of_other e
      | ok u => exact NoTrace.of_done _ u
    · exact hmaps
  · rw [if_neg hmaps] at hinsert
    apply iff_of_false
    · show ¬ NoTrace x s (match insertseg x.segq _ with | (e, segq) => if e ≠ 0 then _ else _)
      rw [hinsert]
      exact NoTrace.not_unlinked
    · exact hmaps

theorem mmap_noTrace (hle : start ≤ stop) (hlt : stop < 2 ^ 32) :
    NoTrace x s (s.mmap x start stop prot flags inode offset) ↔
      flags &&& MAPFIXED = 0 ∨ (inode.isSome ∧ pagemod start ≠ pagemod offset) ∨
        (∀ t, s.new sizeofSeg ≠ .ok t) ∨ Fits start stop := by
  by_cases hfixed : flags &&& MAPFIXED = 0
  · have hmmap : s.mmap x start stop prot flags inode offset = .error (.other .assertion) := by
      unfold mmap
      rw [if_neg (not_not.mpr hle), if_pos hfixed]
    rw [hmmap]
    exact iff_of_true (NoTrace.of_other _) (.inl hfixed)
  by_cases hmod : inode.isSome ∧ pagemod start ≠ pagemod offset
  · have hmmap : s.mmap x start stop prot flags inode offset = .ok (EINVAL, x, s) := by
      unfold mmap
      rw [if_neg (not_not.mpr hle), if_neg hfixed, if_pos hmod]
    rw [hmmap]
    exact iff_of_true (NoTrace.of_unchanged _) (.inr (.inl hmod))
  cases hnew : s.new sizeofSeg with
  | error e =>
      have hmmap : s.mmap x start stop prot flags inode offset = .error (.other e) := by
        unfold mmap
        rw [if_neg (not_not.mpr hle), if_neg hfixed, if_neg hmod, hnew]
        rfl
      rw [hmmap]
      apply iff_of_true
      · exact NoTrace.of_other e
      · exact .inr (.inr (.inl fun t ht => by cases ht))
  | ok t =>
      rw [mmap_of_new hle hfixed hmod hnew, maps_iff_fits hle hlt, or_iff_right hfixed,
        or_iff_right hmod]
      simp

/-- A mapping that fails leaves no trace exactly when it fails before there is a segment,
or does not fail. -/
theorem mmap_noTrace_iff (s : Machine) (x : Mm) (prot flags : BitVec 32) (inode : Option Nat)
    (offset : Nat) (hle : start ≤ stop) (hlt : stop < 2 ^ 32) :
    (NoTrace x s (s.mmap x start stop prot flags inode offset) ↔
      flags &&& MAPFIXED = 0 ∨ (inode.isSome ∧ pagemod start ≠ pagemod offset) ∨
        (∀ t, s.new sizeofSeg ≠ .ok t) ∨ Fits start stop) ∧
    (NoTrace x s (s.anonmap x start stop prot flags) ↔
      flags &&& MAPFIXED = 0 ∨ (∀ t, s.new sizeofSeg ≠ .ok t) ∨ Fits start stop) := by
  constructor
  · exact mmap_noTrace hle hlt
  · have hanon : (flags ||| MAPANON) &&& MAPFIXED = flags &&& MAPFIXED := by
      have hdisjoint : MAPANON &&& MAPFIXED = 0#32 := by decide
      rw [BitVec.and_or_distrib_right, hdisjoint]
      exact BitVec.or_zero
    unfold anonmap
    rw [mmap_noTrace hle hlt, hanon]
    simp

/-! ## A mapping up to the kernel -/

/-- Page 25 has two objects of 64 bytes to give. -/
def segpool : Allockm.Machine :=
  let first := Allockm.objs (ptov 25)
  let nmaxfree := (PAGESIZE - Allockm.sizeofBucket) / 64
  { mem := fun a =>
      if a = first then first + 64 else if a = first + 64 then 0 else Allockm.FREEOBJMAGIC
    bucket := fun _ => ⟨2, 64, first, 2, nmaxfree⟩
    pools := fun k =>
      Allockm.kmpools[k]?.map fun ksize => ⟨ksize, if k = 2 then [ptov 25] else [], []⟩
    pages := [ptov 25]
    out := (List.range (nmaxfree - 2)).map fun i => ⟨2, first + (i + 2) * 64⟩ }

/-- 18 pages are free, from page 1 on; the page directory of `empty` is page 19. -/
def machine : Machine where
  phys :=
    { pages :=
        { nphyspage := 1024
          refcnt := fun p =>
            if p = 0 ∨ (PAGE640K ≤ p ∧ p < 512) then SYSPAGE else if p ≤ 18 then 0 else 1
          next := fun p => if p < 18 then some (p + 1) else none
          freepageq := some 1
          nfreepage := 18
          kernend := 512 * PAGESIZE
          allocbmend := 512
          allocbmok := false }
      mem := fun _ => 0 }
  km := segpool
  inodes := fun _ => 1
  kpgtbl := 256

/-- An address space without segments. -/
def empty : Mm where
  segq := []
  pgtbl := 19
  kstack := 22

/-- The call comes back, with this error. -/
def returns {α : Type} (r : Except Hang (Int × α)) (e : Int) : Bool :=
  match r with
  | .ok (e', _) => e' == e
  | .error _ => false

/-- The last page of user space can be mapped, from inode 7. -/
theorem mmap_noTrace_last_page :
    returns (machine.mmap empty 0xBFFFF123 0xC0000000 PROTR MAPFIXED (some 7) 0x123) 0 = true ∧
    NoTrace empty machine
      (machine.mmap empty 0xBFFFF123 0xC0000000 PROTR MAPFIXED (some 7) 0x123) ∧
    NoTrace empty machine (machine.anonmap empty 0xBFFFF123 0xC0000000 PROTR MAPFIXED) := by
  have hiff := machine.mmap_noTrace_iff empty PROTR MAPFIXED (some 7) 0x123
    (show 0xBFFFF123 ≤ 0xC0000000 by decide) (by decide)
  have hfits : Fits 0xBFFFF123 0xC0000000 := by decide
  exact ⟨by decide +kernel, hiff.1.mpr (.inr (.inr (.inr hfits))), hiff.2.mpr (.inr (.inr hfits))⟩

/-- One byte more, and the destructor gets a segment that was never linked. -/
theorem mmap_one_byte_more : ¬ ∀ (s : Machine) (x : Mm) (start stop offset : Nat)
    (prot flags : BitVec 32) (inode : Option Nat), start ≤ stop → stop < 2 ^ 32 →
      NoTrace x s (s.mmap x start stop prot flags inode offset) := by
  intro hall
  have hend : machine.mmap empty 0xBFFFF123 0xC0000001 PROTR MAPFIXED (some 7) 0x123 =
      .error .unlinked := by
    cases hnew : machine.new sizeofSeg with
    | error e =>
        have hok : (machine.new sizeofSeg).toBool = true := by decide +kernel
        rw [hnew] at hok
        cases hok
    | ok t =>
        rfl
  have htrace := hall machine empty 0xBFFFF123 0xC0000001 0x123 PROTR MAPFIXED (some 7)
    (by decide) (by decide)
  exact htrace.linked hend

end Machine

end Unixlite.Paging
