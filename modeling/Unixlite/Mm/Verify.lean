import Unixlite.Lib.Errno
import Unixlite.Mm.Seg

/-!
# Checking user addresses

Port of `verr`, `verw`, `verrstr` and `verrvec` of `mm/mm.cc`, with the page
faults they take.  `verify_iff` says exactly for which arguments they do what
they are for.

The address space appears as the kernel finds it: the page table by page
number, the bytes, and the kernel's own pages.
-/

namespace Unixlite.Mm

open List

/-! ## Access by the kernel -/

/-- `DRIVERQUOTA + KERNQUOTA`: the free pages a user page does not get. -/
def QUOTA : Nat := 16

/-- A present page. -/
structure Pte where
  w : Bool
  /-- The `refcnt` of its frame exceeds 1. -/
  shared : Bool
deriving DecidableEq

structure Aspace where
  segq : List Seg
  /-- What the fault handler finds in the trap frame for the stack pointer. -/
  esp : Nat
  pde : Nat → Bool
  pte : Nat → Option Pte
  data : Nat → BitVec 8
  /-- What `nopage` puts at an address: zero, or what the file has. -/
  fill : Nat → BitVec 8
  nfreepage : Nat
  /-- The kernel addresses that are mapped. -/
  kmap : Nat → Bool

/-- What comes of one access: it goes through, the handler `onfault` is run, the
task is killed for want of memory, or the kernel panics. -/
inductive Access where
  | done (s : Aspace)
  | onfault (s : Aspace)
  | exit
  | panic

namespace Aspace

def setPte (s : Aspace) (page : Nat) (pte : Pte) : Aspace :=
  { s with pte := fun p => if p = page then some pte else s.pte p }

/-- `nopage`; `none` is `outofmem`. -/
def nopage (s : Aspace) (seg : Seg) (vaddr : Nat) : Option Aspace :=
  let page := pagediv vaddr
  let cost := if s.pde (page / 1024) then 1 else 2
  if s.nfreepage < QUOTA + cost then none
  else
    some { s.setPte page ⟨seg.writable, false⟩ with
      pde := fun d => if d = page / 1024 then true else s.pde d
      data := fun a => if pagediv a = page then s.fill a else s.data a
      nfreepage := s.nfreepage - cost }

/-- `wppage`: the page is made writable if nobody else has it, else copied. -/
def wppage (s : Aspace) (vaddr : Nat) (pte : Pte) : Option Aspace :=
  if !pte.shared then some (s.setPte (pagediv vaddr) { pte with w := true })
  else if s.nfreepage < QUOTA + 1 then none
  else some { s.setPte (pagediv vaddr) ⟨true, false⟩ with nfreepage := s.nfreepage - 1 }

/-- `pagefault` in kernel mode, within `__try`; `pte` is the present page that
the access is not allowed to write. -/
def pagefault (s : Aspace) (vaddr : Nat) (w : Bool) (pte : Option Pte) : Access :=
  match faultseg s.segq s.esp vaddr w with
  | none => if vaddr < USEREND then .onfault s else .panic
  | some (seg, segq) =>
      let s := { s with segq := segq }
      let paged :=
        match pte with
        | some pte => s.wppage vaddr pte
        | none => s.nopage seg vaddr
      match paged with
      | none => .exit
      | some s => .done s

/-- The kernel reads or writes one byte.  After `pagefault` has supplied the page
the instruction goes through. -/
def access (s : Aspace) (w : Bool) (vaddr : Nat) : Access :=
  if vaddr < USEREND then
    match s.pte (pagediv vaddr) with
    | some pte => if w && !pte.w then s.pagefault vaddr w (some pte) else .done s
    | none => s.pagefault vaddr w none
  else if s.kmap vaddr then .done s
  else s.pagefault vaddr w none

/-- The byte that `verr` reads and `verw` reads and writes. -/
def probe (s : Aspace) (w : Bool) (vaddr : Nat) : Access :=
  match s.access false vaddr with
  | .done s => if w then s.access true vaddr else .done s
  | r => r

/-- The kernel reads `n` bytes, one after the other, and the addresses it gets to. -/
def accessN : Nat → Aspace → Nat → Access × List Nat
  | 0, s, _ => (.done s, [])
  | n + 1, s, vaddr =>
      match s.access false vaddr with
      | .done s =>
          let (r, reads) := accessN n s (wrap (vaddr + 1))
          (r, vaddr :: reads)
      | r => (r, [vaddr])

end Aspace

/-! ## The checks -/

inductive Out where
  | ret (e : Int)
  | exit
  | panic
deriving DecidableEq

/-- How a check ends, in which state, and the addresses it has dereferenced. -/
structure Res where
  out : Out
  space : Aspace
  reads : List Nat

namespace Aspace

/-- A check that does not get past an access. -/
def failed (s : Aspace) (reads : List Nat) : Access → Res
  | .done s => ⟨.ret 0, s, reads⟩
  | .onfault s => ⟨.ret EFAULT, s, reads⟩
  | .exit => ⟨.exit, s, reads⟩
  | .panic => ⟨.panic, s, reads⟩

/-- The times `for (; area < stop; area += PAGESIZE)` runs, unless it is left. -/
def pagesTo (area stop : Nat) : Nat := (stop - area + (PAGESIZE - 1)) / PAGESIZE

/-- The loop of `verr` and of `verw`, `n` times.  Below `USEREND` the address does
not wrap. -/
def verloop (w : Bool) : Nat → Aspace → Nat → Res
  | 0, s, _ => ⟨.ret 0, s, []⟩
  | n + 1, s, area =>
      if area < USEREND then
        match s.probe w area with
        | .done s =>
            let r := verloop w n s (area + PAGESIZE)
            { r with reads := area :: r.reads }
        | a => s.failed [area] a
      else ⟨.ret EFAULT, s, []⟩

/-- `verr`, and with `w` `verw`. -/
def ver (s : Aspace) (w : Bool) (area size : BitVec 32) : Res :=
  if size = 0 then ⟨.ret EFAULT, s, []⟩
  else verloop w (pagesTo area.toNat (pageup (area + size).toNat)) s area.toNat

def verr (s : Aspace) (area size : BitVec 32) : Res := s.ver false area size

def verw (s : Aspace) (area size : BitVec 32) : Res := s.ver true area size

/-- The element of `n` bytes ends the string or the vector. -/
def isnull (s : Aspace) (n vaddr : Nat) : Bool :=
  (List.range n).all fun i => s.data (wrap (vaddr + i)) == 0

/-- The loop of `verrstr`, whose elements have one byte, and of `verrvec`, whose
elements have four.  An element is read before its address is looked at; the
second read finds the page there. -/
def verelem (n : Nat) (s : Aspace) (vaddr : Nat) : Res :=
  match accessN n s vaddr with
  | (.done s, reads) =>
      if s.isnull n vaddr then ⟨.ret 0, s, reads⟩
      else if vaddr < USEREND ∧ 0 < n then
        let r := verelem n s (vaddr + n)
        { r with reads := reads ++ r.reads }
      else ⟨.ret EFAULT, s, reads⟩
  | (a, reads) => s.failed reads a
termination_by USEREND - vaddr

def verrstr (s : Aspace) (str : BitVec 32) : Res := verelem 1 s str.toNat

def verrvec (s : Aspace) (vec : BitVec 32) : Res := verelem 4 s vec.toNat

end Aspace

/-! ## What an access does -/

namespace Aspace

/-- The user may read the byte, and with `w` write it. -/
def Grants (s : Aspace) (w : Bool) (vaddr : Nat) : Prop :=
  ∃ pte, s.pte (pagediv vaddr) = some pte ∧ (w = true → pte.w = true)

/-- The pages that are there stay, and can still be used as before. -/
structure Extends (s s' : Aspace) : Prop where
  pte : ∀ p q, s.pte p = some q → ∃ q', s'.pte p = some q' ∧ (q.w = true → q'.w = true)
  data : ∀ a, s.pte (pagediv a) ≠ none → s'.data a = s.data a

variable {s s' t : Aspace} {w : Bool} {vaddr : Nat}

theorem Extends.refl (s : Aspace) : Extends s s := ⟨fun _ q h => ⟨q, h, id⟩, fun _ _ => rfl⟩

theorem Extends.trans (h : Extends s s') (h' : Extends s' t) : Extends s t := by
  refine ⟨fun p q hq => ?_, fun a ha => ?_⟩
  · obtain ⟨q', hq', hw⟩ := h.pte p q hq
    obtain ⟨q'', hq'', hw'⟩ := h'.pte p q' hq'
    exact ⟨q'', hq'', fun hq => hw' (hw hq)⟩
  · obtain ⟨q, hq⟩ := Option.ne_none_iff_exists'.mp ha
    obtain ⟨q', hq', -⟩ := h.pte _ q hq
    have ha' : s'.pte (pagediv a) ≠ none := by
      rw [hq']
      exact Option.some_ne_none q'
    rw [h'.data a ha', h.data a ha]

theorem Grants.extends (hg : s.Grants w vaddr) (h : Extends s s') : s'.Grants w vaddr := by
  obtain ⟨q, hq, hw⟩ := hg
  obtain ⟨q', hq', hw'⟩ := h.pte _ q hq
  exact ⟨q', hq', fun h => hw' (hw h)⟩

theorem Grants.data (hg : s.Grants w vaddr) (h : Extends s s') : s'.data vaddr = s.data vaddr := by
  obtain ⟨q, hq, -⟩ := hg
  apply h.data
  rw [hq]
  exact Option.some_ne_none q

theorem Grants.of_page {v : Nat} (hg : s.Grants w vaddr) (h : pagediv v = pagediv vaddr) :
    s.Grants w v := by
  unfold Grants
  rw [h]
  exact hg

theorem nopage_spec {seg : Seg} (hnone : s.pte (pagediv vaddr) = none)
    (h : s.nopage seg vaddr = some s') : Extends s s' ∧ s'.Grants seg.writable vaddr := by
  unfold nopage at h
  dsimp only at h
  generalize (if s.pde (pagediv vaddr / 1024) then 1 else 2) = cost at h
  split at h
  · cases h
  cases h
  refine ⟨⟨fun p q hq => ⟨q, ?_, id⟩, fun a ha => ?_⟩, ⟨seg.writable, false⟩, if_pos rfl, id⟩
  · have hp : p ≠ pagediv vaddr := by
      intro hp
      rw [hp, hnone] at hq
      cases hq
    exact (if_neg hp).trans hq
  · have hp : pagediv a ≠ pagediv vaddr := by
      intro hp
      rw [hp] at ha
      exact ha hnone
    exact if_neg hp

theorem wppage_spec {pte : Pte} (h : s.wppage vaddr pte = some s') : Extends s s' ∧ s'.Grants true vaddr := by
  have hset : ∀ q : Pte, q.w = true → ∀ n,
      Extends s { s.setPte (pagediv vaddr) q with nfreepage := n } ∧
      Grants { s.setPte (pagediv vaddr) q with nfreepage := n } true vaddr := by
    intro q hq n
    refine ⟨⟨fun p r hr => ?_, fun _ _ => rfl⟩, q, if_pos rfl, fun _ => hq⟩
    by_cases hp : p = pagediv vaddr
    · exact ⟨q, if_pos hp, fun _ => hq⟩
    · exact ⟨r, (if_neg hp).trans hr, id⟩
  unfold wppage at h
  split at h
  · cases h
    exact hset { pte with w := true } rfl s.nfreepage
  split at h
  · cases h
  · cases h
    exact hset ⟨true, false⟩ rfl (s.nfreepage - 1)

theorem pagefault_done {pte : Option Pte} (hpte : s.pte (pagediv vaddr) = pte)
    (hw : pte ≠ none → w = true) (h : s.pagefault vaddr w pte = .done s') :
    Extends s s' ∧ s'.Grants w vaddr := by
  unfold pagefault at h
  split at h
  · split at h
    · cases h
    · cases h
  next seg segq hseg =>
  have hgrown : Extends s { s with segq := segq } := ⟨fun _ q h => ⟨q, h, id⟩, fun _ _ => rfl⟩
  cases pte with
  | some pte =>
      obtain rfl := hw (Option.some_ne_none pte)
      dsimp only at h
      split at h
      · cases h
      next u hu =>
      cases h
      obtain ⟨hext, hgrants⟩ := wppage_spec (s := { s with segq := segq }) hu
      exact ⟨hgrown.trans hext, hgrants⟩
  | none =>
      dsimp only at h
      split at h
      · cases h
      next u hu =>
      cases h
      obtain ⟨hext, q, hq, hqw⟩ := nopage_spec (s := { s with segq := segq }) hpte hu
      refine ⟨hgrown.trans hext, q, hq, fun hw => hqw ?_⟩
      subst hw
      exact writable_of_faultseg hseg

/-- An access that goes through has its page, with the right to it. -/
theorem access_done (ha : vaddr < USEREND) (h : s.access w vaddr = .done s') :
    Extends s s' ∧ s'.Grants w vaddr := by
  unfold access at h
  rw [if_pos ha] at h
  split at h
  · next pte hpte =>
      split at h
      · next hdenied =>
          rw [Bool.and_eq_true] at hdenied
          exact pagefault_done hpte (fun _ => hdenied.1) h
      · next hallowed =>
          cases h
          refine ⟨Extends.refl s, pte, hpte, fun hw => ?_⟩
          subst hw
          simpa using hallowed
  · next hpte => exact pagefault_done hpte (fun hne => absurd rfl hne) h

/-- A user address does not make the kernel panic. -/
theorem access_ne_panic (ha : vaddr < USEREND) : s.access w vaddr ≠ .panic := by
  have hfault : ∀ pte, s.pagefault vaddr w pte ≠ .panic := by
    intro pte h
    unfold pagefault at h
    split at h
    · rw [if_pos ha] at h
      cases h
    · dsimp only at h
      split at h
      · cases h
      · cases h
  unfold access
  rw [if_pos ha]
  split
  · split
    · exact hfault _
    · exact fun h => by cases h
  · exact hfault _

theorem probe_done (ha : vaddr < USEREND) (h : s.probe w vaddr = .done s') :
    Extends s s' ∧ s'.Grants w vaddr := by
  unfold probe at h
  split at h
  · next u hu =>
      obtain ⟨hext, hgrants⟩ := access_done ha hu
      split at h
      · next hw =>
          obtain ⟨hext', hgrants'⟩ := access_done ha h
          rw [hw]
          exact ⟨hext.trans hext', hgrants'⟩
      · next hw =>
          cases h
          rw [Bool.eq_false_iff.mpr hw]
          exact ⟨hext, hgrants⟩
  · next hnot => exact absurd h (hnot s')

theorem probe_ne_panic (ha : vaddr < USEREND) : s.probe w vaddr ≠ .panic := by
  unfold probe
  split
  · split
    · exact access_ne_panic ha
    · exact fun h => by cases h
  · exact access_ne_panic ha

end Aspace

/-! ## `verr` and `verw` -/

/-- The check does not panic and dereferences user addresses only. -/
def Res.Safe (r : Res) : Prop := r.out ≠ .panic ∧ ∀ a ∈ r.reads, a < USEREND

namespace Aspace

variable {s s' : Aspace} {w : Bool} {n area vaddr : Nat}

variable {reads : List Nat} {r : Access}

theorem failed_ret (h : ∀ s', r ≠ .done s') : (s.failed reads r).out ≠ .ret 0 := by
  cases r with
  | done s' => exact absurd rfl (h s')
  | onfault s' => exact nofun
  | exit => exact nofun
  | panic => exact nofun

theorem failed_safe (hpanic : r ≠ .panic)
    (hreads : ∀ a ∈ reads, a < USEREND) : (s.failed reads r).Safe := by
  cases r with
  | panic => exact absurd rfl hpanic
  | _ => exact ⟨nofun, hreads⟩

theorem safe_nil {e : Int} : (Res.mk (.ret e) s []).Safe :=
  ⟨nofun, fun _ ha => absurd ha not_mem_nil⟩

/-- What the loop has looked at when it returns 0. -/
theorem verloop_spec (w : Bool) (n : Nat) (s : Aspace) (area : Nat) :
    (verloop w n s area).Safe ∧ ((verloop w n s area).out = .ret 0 →
      Extends s (verloop w n s area).space ∧ ∀ k < n, area + k * PAGESIZE < USEREND ∧
        (verloop w n s area).space.Grants w (area + k * PAGESIZE)) := by
  induction n generalizing s area with
  | zero =>
      exact ⟨safe_nil, fun _ => ⟨Extends.refl s, fun k hk => absurd hk (Nat.not_lt_zero k)⟩⟩
  | succ n ih =>
      rw [verloop]
      split
      · next ha =>
          split
          · next u hu =>
              obtain ⟨hext, hgrants⟩ := probe_done ha hu
              obtain ⟨⟨hpanic, hreads⟩, hret⟩ := ih u (area + PAGESIZE)
              refine ⟨⟨hpanic, forall_mem_cons.mpr ⟨ha, hreads⟩⟩, fun h0 => ?_⟩
              obtain ⟨hext', hall⟩ := hret h0
              refine ⟨hext.trans hext', fun k hk => ?_⟩
              cases k with
              | zero =>
                  exact ⟨ha, hgrants.extends hext'⟩
              | succ k =>
                  have hnext := hall k (Nat.lt_of_succ_lt_succ hk)
                  rw [Nat.add_assoc, Nat.add_comm PAGESIZE, ← Nat.succ_mul] at hnext
                  exact hnext
          · next hnot =>
              exact ⟨failed_safe (probe_ne_panic ha) (forall_mem_singleton.mpr ha),
                fun h0 => absurd h0 (failed_ret hnot)⟩
      · exact ⟨safe_nil, nofun⟩

theorem verloop_one (w : Bool) (s : Aspace) (area : Nat) :
    (verloop w 1 s area).out = .ret 0 ↔ area < USEREND ∧ ∃ s', s.probe w area = .done s' := by
  rw [verloop]
  split
  · next ha =>
      split
      · next u hu => exact iff_of_true rfl ⟨ha, u, hu⟩
      · next hnot => exact iff_of_false (failed_ret hnot) fun h => hnot _ h.2.choose_spec
  · next ha => exact iff_of_false nofun fun h => ha h.1

/-! ### In 32 bits -/

theorem toNat_area_size (area size : BitVec 32) :
    (area + size).toNat = (area.toNat + size.toNat) % 2 ^ 32 := BitVec.toNat_add area size

/-- Where the range ends before the last page, no address wraps. -/
theorem pageup_of_le {m : Nat} (h : m ≤ 2 ^ 32 - PAGESIZE) :
    pageup m = (m + (PAGESIZE - 1)) / PAGESIZE * PAGESIZE := by
  simp only [pageup, pagedown, wrap, PAGESIZE] at *
  omega

/-- Past it, the loop runs at most once. -/
theorem pagesTo_of_wrap {a n : Nat} (ha : a < 2 ^ 32) (hn : n < 2 ^ 32)
    (h : 2 ^ 32 - PAGESIZE < a + n) :
    pagesTo a (pageup ((a + n) % 2 ^ 32)) =
      if a < pageup ((a + n) % 2 ^ 32) then 1 else 0 := by
  by_cases hlt : a < pageup ((a + n) % 2 ^ 32)
  · rw [if_pos hlt]
    simp only [pagesTo, pageup, pagedown, wrap, PAGESIZE] at *
    omega
  · rw [if_neg hlt]
    simp only [pagesTo, PAGESIZE] at *
    omega

/-- Every byte of the range is on a page that the loop looks at. -/
theorem page_of_byte {a n i : Nat} (hi : i < n) (h : a + n ≤ 2 ^ 32 - PAGESIZE) :
    ∃ k < pagesTo a (pageup (a + n)), pagediv (a + i) = pagediv (a + k * PAGESIZE) ∧
      (a + k * PAGESIZE < USEREND → a + i < USEREND) := by
  rw [pageup_of_le h]
  refine ⟨(a + i) / PAGESIZE - a / PAGESIZE, ?_, ?_, ?_⟩
  · simp only [pagesTo, PAGESIZE] at *
    omega
  · simp only [pagediv, PAGESIZE] at *
    omega
  · simp only [PAGESIZE, USEREND] at *
    omega

/-- `verr` (`verw`) returns 0 only for a range in user space that the user may
read (write), and touches nothing else. -/
def VerOk (s : Aspace) (w : Bool) (area size : BitVec 32) : Prop :=
  (s.ver w area size).Safe ∧ ((s.ver w area size).out = .ret 0 →
    ∀ i < size.toNat, area.toNat + i < USEREND ∧
      (s.ver w area size).space.Grants w (area.toNat + i))

/-- The range is empty, or ends before the last page of all, or wraps to an end
in its first page, which cannot be used. -/
def VerFits (s : Aspace) (w : Bool) (area size : BitVec 32) : Prop :=
  size.toNat = 0 ∨ area.toNat + size.toNat ≤ 2 ^ 32 - PAGESIZE ∨
    area.toNat < pageup (area + size).toNat ∧
      ¬ (area.toNat < USEREND ∧ ∃ s', s.probe w area.toNat = .done s')

theorem verOk_iff (s : Aspace) (w : Bool) (area size : BitVec 32) :
    s.VerOk w area size ↔ s.VerFits w area size := by
  have hsize : size = 0 ↔ size.toNat = 0 := by
    rw [← BitVec.toNat_inj]
    rfl
  constructor
  · intro hok
    by_contra hno
    simp only [VerFits, not_or, not_le] at hno
    obtain ⟨hpos, hwrap, hlast⟩ := hno
    have hne : size ≠ 0 := fun h => hpos (hsize.mp h)
    have hpages := pagesTo_of_wrap area.isLt size.isLt hwrap
    rw [← toNat_area_size] at hpages
    have h0 : (s.ver w area size).out = .ret 0 := by
      rw [ver, if_neg hne, hpages]
      split
      · next hlt =>
          apply (verloop_one w s area.toNat).mpr
          by_contra hnot
          exact hlast ⟨hlt, hnot⟩
      · rfl
    -- the last byte is in the last page
    have hlt := (hok.2 h0 (size.toNat - 1) (by omega)).1
    simp only [PAGESIZE, USEREND] at hwrap hlt
    omega
  · intro hfits
    by_cases hzero : size = 0
    · rw [VerOk, ver, if_pos hzero]
      exact ⟨safe_nil, nofun⟩
    rw [VerOk, ver, if_neg hzero]
    by_cases hend : area.toNat + size.toNat ≤ 2 ^ 32 - PAGESIZE
    · have hsum : (area + size).toNat = area.toNat + size.toNat := by
        rw [toNat_area_size]
        simp only [PAGESIZE] at hend
        omega
      rw [hsum]
      obtain ⟨hsafe, hret⟩ := verloop_spec w
        (pagesTo area.toNat (pageup (area.toNat + size.toNat))) s area.toNat
      refine ⟨hsafe, fun h0 i hi => ?_⟩
      obtain ⟨k, hk, hpage, huser⟩ := page_of_byte hi hend
      obtain ⟨hk', hgrants⟩ := (hret h0).2 k hk
      exact ⟨huser hk', hgrants.of_page hpage⟩
    · obtain ⟨hlt, hnot⟩ := (hfits.resolve_left fun h => hzero (hsize.mpr h)).resolve_left hend
      have hpages := pagesTo_of_wrap area.isLt size.isLt (Nat.not_le.mp hend)
      rw [← toNat_area_size, if_pos hlt] at hpages
      rw [hpages]
      exact ⟨(verloop_spec w 1 s area.toNat).1,
        fun h0 => absurd ((verloop_one w s area.toNat).mp h0) hnot⟩

/-! ## `verrstr` and `verrvec` -/

/-- The state after reading `k` elements, if all can be read and none is null. -/
def passes (n : Nat) : Nat → Aspace → Nat → Option Aspace
  | 0, s, _ => some s
  | k + 1, s, vaddr =>
      match (accessN n s vaddr).1 with
      | .done s => if s.isnull n vaddr then none else passes n k s (vaddr + n)
      | _ => none

/-- The elements that fit below `USEREND` can all be read and none is null, and
the bytes after them can be read as well. -/
def RunsOut (s : Aspace) (n vaddr : Nat) : Prop :=
  ∃ s' s'', passes n ((USEREND - vaddr) / n) s vaddr = some s' ∧
    (accessN ((USEREND - vaddr) % n) s' (vaddr + (USEREND - vaddr) / n * n)).1 = .done s''

/-- Below `USEREND` there is a null element, and all up to it can be read. -/
def Terminated (s : Aspace) (n vaddr : Nat) : Prop :=
  ∃ m, vaddr + (m + 1) * n ≤ USEREND ∧ s.isnull n (vaddr + m * n) = true ∧
    (∀ j < m, s.isnull n (vaddr + j * n) = false) ∧
    ∀ i < (m + 1) * n, s.Grants false (vaddr + i)

/-- The check returns 0 only for a string (a vector) that ends in user space and
that the user may read, and touches nothing else. -/
def VerelemOk (s : Aspace) (n vaddr : Nat) : Prop :=
  (verelem n s vaddr).Safe ∧ ((verelem n s vaddr).out = .ret 0 →
    (verelem n s vaddr).space.Terminated n vaddr)

theorem wrap_of_lt (h : vaddr < 2 ^ 32) : wrap vaddr = vaddr := Nat.mod_eq_of_lt h

/-- Reading bytes of user space. -/
theorem accessN_user (h : vaddr + n ≤ USEREND) :
    (accessN n s vaddr).1 ≠ .panic ∧ (∀ a ∈ (accessN n s vaddr).2, a < USEREND) ∧
    ∀ s', (accessN n s vaddr).1 = .done s' →
      Extends s s' ∧ ∀ i < n, s'.Grants false (vaddr + i) := by
  induction n generalizing s vaddr with
  | zero =>
      refine ⟨nofun, fun _ ha => absurd ha not_mem_nil, fun s' hs' => ?_⟩
      cases hs'
      exact ⟨Extends.refl s, fun i hi => absurd hi (Nat.not_lt_zero i)⟩
  | succ n ih =>
      have ha : vaddr < USEREND := by omega
      have hwrap : wrap (vaddr + 1) = vaddr + 1 := by
        apply wrap_of_lt
        simp only [USEREND] at ha
        omega
      rw [accessN, hwrap]
      split
      · next u hu =>
          obtain ⟨hext, hgrants⟩ := access_done ha hu
          have hnext : vaddr + 1 + n ≤ USEREND := by omega
          obtain ⟨hpanic, hreads, hdone⟩ := ih (s := u) hnext
          refine ⟨hpanic, forall_mem_cons.mpr ⟨ha, hreads⟩, fun s' hs' => ?_⟩
          obtain ⟨hext', hall⟩ := hdone s' hs'
          refine ⟨hext.trans hext', fun i hi => ?_⟩
          cases i with
          | zero => exact hgrants.extends hext'
          | succ i =>
              have hnext := hall i (by omega)
              rwa [Nat.add_assoc, Nat.add_comm 1] at hnext
      · next hnot =>
          exact ⟨access_ne_panic ha, forall_mem_singleton.mpr ha,
            fun s' hs' => absurd hs' (hnot s')⟩

/-- When the first `j` bytes can be read, the next one is. -/
theorem mem_accessN {j d : Nat} (ha : vaddr < 2 ^ 32) (h : (accessN j s vaddr).1 = .done s') :
    wrap (vaddr + j) ∈ (accessN (j + (d + 1)) s vaddr).2 := by
  induction j generalizing s vaddr with
  | zero =>
      rw [Nat.zero_add, Nat.add_zero vaddr, wrap_of_lt ha, accessN]
      split
      · exact mem_cons_self
      · exact mem_singleton_self _
  | succ j ih =>
      rw [Nat.succ_add, accessN]
      rw [accessN] at h
      split at h
      · next u hu =>
          have hwrap : wrap (vaddr + 1) < 2 ^ 32 := Nat.mod_lt _ (by decide)
          have hnext := ih hwrap h
          have hsum : wrap (wrap (vaddr + 1) + j) = wrap (vaddr + (j + 1)) := by
            simp only [wrap]
            omega
          rw [hsum] at hnext
          exact mem_cons_of_mem _ hnext
      · next hnot => exact absurd h (hnot s')

/-- When they cannot, no more is read. -/
theorem accessN_stop {j d : Nat} (h : ∀ s', (accessN j s vaddr).1 ≠ .done s') :
    accessN (j + d) s vaddr = accessN j s vaddr := by
  induction j generalizing s vaddr with
  | zero => exact absurd rfl (h s)
  | succ j ih =>
      rw [Nat.succ_add, accessN, accessN]
      rw [accessN] at h
      split
      · next u hu =>
          rw [hu] at h
          rw [ih h]
      · rfl

theorem Terminated.cons (hnull : s.isnull n vaddr = false)
    (hgrants : ∀ i < n, s.Grants false (vaddr + i)) (h : s.Terminated n (vaddr + n)) :
    s.Terminated n vaddr := by
  obtain ⟨m, hm, hlast, hbefore, hall⟩ := h
  have hstep : ∀ j, vaddr + n + j * n = vaddr + (j + 1) * n := by
    intro j
    rw [Nat.succ_mul]
    omega
  refine ⟨m + 1, ?_, ?_, fun j hj => ?_, fun i hi => ?_⟩
  · rw [← hstep]
    exact hm
  · rw [← hstep]
    exact hlast
  · cases j with
    | zero =>
        rw [Nat.zero_mul, Nat.add_zero]
        exact hnull
    | succ j =>
        rw [← hstep]
        exact hbefore j (Nat.lt_of_succ_lt_succ hj)
  · by_cases hin : i < n
    · exact hgrants i hin
    · have hrest := hall (i - n) (by rw [Nat.succ_mul] at hi; omega)
      have hsum : vaddr + n + (i - n) = vaddr + i := by omega
      rwa [hsum] at hrest

theorem runsOut_of_lt (h : USEREND - vaddr < n) :
    s.RunsOut n vaddr ↔ ∃ s', (accessN (USEREND - vaddr) s vaddr).1 = .done s' := by
  rw [RunsOut, Nat.div_eq_of_lt h, Nat.mod_eq_of_lt h, Nat.zero_mul, Nat.add_zero]
  constructor
  · intro ⟨u, s', hu, hs'⟩
    cases hu
    exact ⟨s', hs'⟩
  · intro ⟨s', hs'⟩
    exact ⟨s, s', rfl, hs'⟩

theorem runsOut_of_le (hn : 0 < n) (h : vaddr + n ≤ USEREND) :
    s.RunsOut n vaddr ↔ ∃ s', (accessN n s vaddr).1 = .done s' ∧
      s'.isnull n vaddr = false ∧ s'.RunsOut n (vaddr + n) := by
  have hsplit : USEREND - vaddr = USEREND - (vaddr + n) + n := by omega
  have hdiv : (USEREND - vaddr) / n = (USEREND - (vaddr + n)) / n + 1 := by
    rw [hsplit, Nat.add_div_right _ hn]
  have hmod : (USEREND - vaddr) % n = (USEREND - (vaddr + n)) % n := by
    rw [hsplit, Nat.add_mod_right]
  have hrest : vaddr + ((USEREND - (vaddr + n)) / n + 1) * n =
      vaddr + n + (USEREND - (vaddr + n)) / n * n := by
    rw [Nat.succ_mul]
    omega
  rw [RunsOut, hdiv, hmod, hrest]
  constructor
  · intro ⟨u, t, hu, ht⟩
    rw [passes] at hu
    split at hu
    · next s' hs' =>
        split at hu
        · cases hu
        · next hnull => exact ⟨s', hs', Bool.eq_false_iff.mpr hnull, u, t, hu, ht⟩
    · cases hu
  · intro ⟨s', hs', hnull, u, t, hu, ht⟩
    refine ⟨u, t, ?_, ht⟩
    rw [passes, hs']
    dsimp only
    rw [if_neg (Bool.eq_false_iff.mp hnull)]
    exact hu

theorem mem_verelem {a : Nat} (h : a ∈ (accessN n s vaddr).2) : a ∈ (verelem n s vaddr).reads := by
  rw [verelem]
  split
  · next u reads hu =>
      rw [hu] at h
      split
      · exact h
      split
      · exact mem_append_left _ h
      · exact h
  · next r reads hnot hr =>
      rw [hr] at h
      cases r <;> exact h

/-- The next element is read after one that is not null. -/
theorem verelem_next {u : Aspace} (hn : 0 < n) (ha : vaddr < USEREND)
    (hr : accessN n s vaddr = (.done u, reads)) (hnull : u.isnull n vaddr = false) :
    verelem n s vaddr = { verelem n u (vaddr + n) with
      reads := reads ++ (verelem n u (vaddr + n)).reads } := by
  rw [verelem, hr]
  dsimp only
  rw [if_neg (Bool.eq_false_iff.mp hnull), if_pos ⟨ha, hn⟩]

theorem not_safe_of_runsOut (hn : 0 < n) (hv : vaddr < 2 ^ 32)
    (h : s.RunsOut n vaddr) : ¬ (verelem n s vaddr).Safe := by
  induction hk : USEREND - vaddr using Nat.strongRecOn generalizing s vaddr with
  | ind k ih =>
      intro hsafe
      by_cases hfit : USEREND - vaddr < n
      · obtain ⟨s', hs'⟩ := (runsOut_of_lt hfit).mp h
        obtain ⟨d, hd⟩ : ∃ d, n = USEREND - vaddr + (d + 1) :=
          ⟨n - (USEREND - vaddr) - 1, by omega⟩
        have hmem := mem_accessN (d := d) hv hs'
        rw [← hd] at hmem
        have hlt := hsafe.2 _ (mem_verelem hmem)
        rw [wrap_of_lt (by simp only [USEREND]; omega)] at hlt
        omega
      · obtain ⟨u, hu, hnull, hrest⟩ := (runsOut_of_le hn (by omega)).mp h
        have hr : accessN n s vaddr = (.done u, (accessN n s vaddr).2) := by rw [← hu]
        rw [verelem_next hn (by omega) hr hnull] at hsafe
        have hv' : vaddr + n < 2 ^ 32 := by
          simp only [USEREND] at hfit
          omega
        exact ih (USEREND - (vaddr + n)) (by omega) hv' hrest rfl
          ⟨hsafe.1, fun a ha => hsafe.2 a (mem_append_right _ ha)⟩

theorem isnull_extends (hn : vaddr + n ≤ USEREND) (hgrants : ∀ i < n, s.Grants false (vaddr + i))
    (h : Extends s s') : s'.isnull n vaddr = s.isnull n vaddr := by
  apply Bool.eq_iff_iff.mpr
  simp only [isnull, all_eq_true, mem_range]
  have hsame : ∀ i < n, s'.data (wrap (vaddr + i)) = s.data (wrap (vaddr + i)) := by
    intro i hi
    rw [wrap_of_lt (by simp only [USEREND] at hn; omega)]
    exact (hgrants i hi).data h
  constructor
  · intro h i hi
    rw [← hsame i hi]
    exact h i hi
  · intro h i hi
    rw [hsame i hi]
    exact h i hi

theorem verelem_fail (h : accessN n s vaddr = (r, reads))
    (hnot : ∀ s', r ≠ .done s') : verelem n s vaddr = s.failed reads r := by
  rw [verelem, h]
  cases r with
  | done s' => exact absurd rfl (hnot s')
  | _ => rfl

theorem verelem_of_not_runsOut (hn : 0 < n) (hv : vaddr < 2 ^ 32) (h : ¬ s.RunsOut n vaddr) :
    (verelem n s vaddr).Safe ∧ ((verelem n s vaddr).out = .ret 0 →
      Extends s (verelem n s vaddr).space ∧ (verelem n s vaddr).space.Terminated n vaddr) := by
  induction hk : USEREND - vaddr using Nat.strongRecOn generalizing s vaddr with
  | ind k ih =>
      by_cases hfit : USEREND - vaddr < n
      · rw [runsOut_of_lt hfit, not_exists] at h
        have hle : vaddr ≤ USEREND := by
          by_contra hlt
          rw [Nat.sub_eq_zero_of_le (by omega)] at h
          exact h s rfl
        obtain ⟨d, hd⟩ : ∃ d, n = USEREND - vaddr + d := ⟨n - (USEREND - vaddr), by omega⟩
        have hstop := accessN_stop (d := d) h
        rw [← hd] at hstop
        have hend : vaddr + (USEREND - vaddr) ≤ USEREND := by omega
        obtain ⟨hpanic, hreads, -⟩ := accessN_user (s := s) hend
        rw [verelem_fail hstop h]
        exact ⟨failed_safe hpanic hreads, fun h0 => absurd h0 (failed_ret h)⟩
      have hle : vaddr + n ≤ USEREND := by omega
      obtain ⟨hpanic, hreads, hdone⟩ := accessN_user (s := s) hle
      rw [runsOut_of_le hn hle] at h
      obtain ⟨r, reads, hr⟩ : ∃ r reads, accessN n s vaddr = (r, reads) := ⟨_, _, rfl⟩
      rw [hr] at hpanic hreads hdone h
      by_cases hnot : ∀ u, r ≠ .done u
      · rw [verelem_fail hr hnot]
        exact ⟨failed_safe hpanic hreads, fun h0 => absurd h0 (failed_ret hnot)⟩
      obtain ⟨u, hu⟩ := not_forall.mp hnot
      obtain rfl := not_not.mp hu
      obtain ⟨hext, hgrants⟩ := hdone u rfl
      by_cases hnull : u.isnull n vaddr = true
      · have hres : verelem n s vaddr = ⟨.ret 0, u, reads⟩ := by
          rw [verelem, hr]
          dsimp only
          rw [if_pos hnull]
        rw [hres]
        refine ⟨⟨nofun, hreads⟩, fun _ => ⟨hext, 0, ?_, ?_, ?_, ?_⟩⟩
        · omega
        · rw [Nat.zero_mul, Nat.add_zero]
          exact hnull
        · intro j hj
          exact absurd hj (Nat.not_lt_zero j)
        · intro i hi
          exact hgrants i (by omega)
      · have hnull' := Bool.eq_false_iff.mpr hnull
        have hv' : vaddr + n < 2 ^ 32 := by
          simp only [USEREND] at hle
          omega
        have hrest : ¬ u.RunsOut n (vaddr + n) := fun hruns => h ⟨u, rfl, hnull', hruns⟩
        obtain ⟨⟨hpanic', hreads'⟩, hret⟩ := ih (USEREND - (vaddr + n)) (by omega) hv' hrest rfl
        rw [verelem_next hn (by omega) hr hnull']
        refine ⟨⟨hpanic', fun a ha => ?_⟩, fun h0 => ?_⟩
        · rcases mem_append.mp ha with ha | ha
          · exact hreads a ha
          · exact hreads' a ha
        · obtain ⟨hext', hterm⟩ := hret h0
          refine ⟨hext.trans hext', Terminated.cons ?_ ?_ hterm⟩
          · rw [isnull_extends hle hgrants hext']
            exact hnull'
          · intro i hi
            exact (hgrants i hi).extends hext'

theorem verelemOk_iff (hn : 0 < n) (hv : vaddr < 2 ^ 32) :
    s.VerelemOk n vaddr ↔ ¬ s.RunsOut n vaddr := by
  constructor
  · intro hok hruns
    exact not_safe_of_runsOut hn hv hruns hok.1
  · intro hno
    obtain ⟨hsafe, hret⟩ := verelem_of_not_runsOut hn hv hno
    exact ⟨hsafe, fun h0 => (hret h0).2⟩

/-- `verr` and `verw` do what they are for exactly for ranges that do not reach
the last page of all, or that they refuse; `verrstr` and `verrvec`, exactly if
user space does not end before the string (the vector) does. -/
theorem verify_iff (s : Aspace) :
    (∀ w area size, s.VerOk w area size ↔ s.VerFits w area size) ∧
    (∀ str : BitVec 32, s.VerelemOk 1 str.toNat ↔ ¬ s.RunsOut 1 str.toNat) ∧
    ∀ vec : BitVec 32, s.VerelemOk 4 vec.toNat ↔ ¬ s.RunsOut 4 vec.toNat :=
  ⟨s.verOk_iff, fun str => verelemOk_iff (by decide) str.isLt,
    fun vec => verelemOk_iff (by decide) vec.isLt⟩

/-- No segments and no pages. -/
def bare : Aspace where
  segq := []
  esp := 0
  pde := fun _ => false
  pte := fun _ => none
  data := fun _ => 0
  fill := fun _ => 0
  nfreepage := 1024
  kmap := fun a => decide (a < USEREND + 1024 * PAGESIZE)

/-- `verw` has nothing against 4 GB less one byte at the start of the kernel, and
`verrstr` takes the kernel's own strings. -/
theorem verw_negative_size :
    ¬ bare.VerOk true 0xC0000000 0xFFFFFFFF ∧ ¬ bare.VerelemOk 1 (0xC0000000 : BitVec 32).toNat := by
  constructor
  · intro hok
    have h0 : (bare.ver true 0xC0000000 0xFFFFFFFF).out = .ret 0 := by decide
    obtain ⟨hlt, -⟩ := hok.2 h0 0 (by decide)
    revert hlt
    decide
  · rintro ⟨⟨-, hreads⟩, -⟩
    have hlt := hreads USEREND (mem_verelem (by decide))
    revert hlt
    decide

end Aspace

end Unixlite.Mm
