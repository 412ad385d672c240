import Unixlite.Kern.Exec
import Unixlite.Mm.Segq
import Unixlite.Verified.Partial
import Unixlite.Verified.Run

/-!
# Runs of programs in their address spaces

`segq_always`: as long as no program is loaded whose segments overlap, the
segments of every address space are in order and disjoint, whatever is forked,
faulted in and asked of `brk`.
-/

namespace Unixlite.Kern

open Unixlite.Mm Unixlite.Verified.Intervals Unixlite.Verified.Partial Unixlite.Verified.Run List
open Option

/-! ## The machine -/

/-- What `sysexecve` does from `flush` on. -/
def execve (exe : Exe) (head stack : Bytes) (s : Space) (npage initsp esp : Nat) :
    Except Stuck (Int × Space) := do
  let (e, _, s) ← loadelf exe head stack s
  if e ≠ 0 then .ok (e, s) else s.initustack npage initsp esp

/-- The address spaces, by task. -/
abbrev Spaces := Nat → Option Space

def Spaces.put (s : Spaces) (tid : Nat) (x : Option Space) : Spaces := fun i =>
  if i = tid then x else s i

inductive SpaceEvent where
  /-- A program is loaded, with the page tables and the memory that there are;
  the strings take `npage` pages and `createargv` ends at `initsp`. -/
  | exec (tid : Nat) (exe : Exe) (head stack : Bytes) (tables free : Nat → Bool)
      (npage initsp esp : Nat)
  | fault (tid esp vaddr : Nat) (w p : Bool)
  | brk (tid ebss : Nat)
  /-- `mm_t::clone`, which gives the child its page table. -/
  | fork (tid child : Nat) (pgtbl : Pgtbl)
  | exit (tid : Nat)

/-- A task without memory exits, and a failed assertion ends it all. -/
def settle (s : Spaces) (tid : Nat) : Except Stuck Space → Option Spaces
  | .ok x => some (s.put tid (some x))
  | .error .outofmem => some (s.put tid none)
  | .error .assertion => none

def spaceStep (s : Spaces) : SpaceEvent → Option Spaces
  | .exec tid exe head stack tables free npage initsp esp => do
      let _ ← s tid
      if matchelf head then
        settle s tid
          ((execve exe head stack (flushed tables free) npage initsp esp).map Prod.snd)
      else none
  | .fault tid esp vaddr w p => do
      let x ← s tid
      -- at `bad` a signal is posted
      settle s tid ((x.pagefault esp vaddr w p).map fun r => r.getD x)
  | .brk tid ebss => do
      let x ← s tid
      return s.put tid (some (x.brk ebss).2)
  | .fork tid child pgtbl => do
      let x ← s tid
      if s child = none then return s.put child (some { x with pgtbl := pgtbl }) else none
  | .exit tid => some (s.put tid none)

def IDLETASKSTART : Nat := 0x1000
def IDLETASKEND : Nat := 0x2000

/-- The address space of the idle task. -/
def idlespaces (pgtbl : Pgtbl) : Spaces := fun tid =>
  if tid = 0 then
    some ⟨[⟨IDLETASKSTART, IDLETASKEND, PROTR ||| PROTW ||| PROTX, none, 0⟩], pgtbl⟩
  else none

/-! ## What a file asks for -/

/-- The segments that the headers are mapped to, in this order, up to a header
that cannot be paged on demand. -/
def asked (ino : Nat) : List Elfphdr → List Seg
  | [] => []
  | p :: ps =>
      if p.type ≠ PTLOAD then asked ino ps
      else if pagemod p.vaddr ≠ pagemod p.offset then []
      else if p.flags &&& PFX ≠ 0 then p.seg ino :: asked ino ps
      else p.seg ino :: p.bssseg :: asked ino ps

/-- All headers can be paged on demand. -/
def Congruent (ps : List Elfphdr) : Prop :=
  ∀ p ∈ ps, p.type = PTLOAD → pagemod p.vaddr = pagemod p.offset

/-- The segments that the file asks for are clear of each other, and of the
stack if it comes to that. -/
def Room (exe : Exe) (head stack : Bytes) (npage initsp : Nat) : Prop :=
  ∀ ps, phdrs exe head stack = .ok ps →
    (asked exe.ino ps).Pairwise Clear ∧ (Congruent ps → Below (asked exe.ino ps) npage initsp)

variable {exe : Exe} {s s' : Space} {p : Elfphdr} {ps : List Elfphdr}

theorem Elfphdr.segOk (p : Elfphdr) (ino : Nat) (h : Maps p.vaddr p.bss) : SegOk (p.seg ino) :=
  ⟨pagemod_pagedown _, pagemod_pagedown _, h.1, h.2⟩

theorem Elfphdr.bsssegOk (p : Elfphdr) (hle : pageup p.bss ≤ pageup p.ebss)
    (hend : pageup p.ebss ≤ USEREND) : SegOk p.bssseg :=
  ⟨pagemod_pagedown _, pagemod_pagedown _, hle, hend⟩

/-- The first of the segments asked for is put in its place. -/
theorem asked_first {segq rest : List Seg} {x : Seg} (h : InOrder segq) (hx : SegOk x)
    (hclear : ∀ y ∈ segq, ∀ z ∈ x :: rest, Clear y z) (hpair : (x :: rest).Pairwise Clear) :
    InOrder (insertlt segq x) ∧ (∀ y ∈ insertlt segq x, ∀ z ∈ rest, Clear y z) ∧
      rest.Pairwise Clear := by
  obtain ⟨hfirst, hrest⟩ := pairwise_cons.mp hpair
  refine ⟨h.insertlt hx fun y hy => hclear y hy x mem_cons_self, fun y hy z hz => ?_, hrest⟩
  rcases mem_insertlt.mp hy with rfl | hy
  · exact hfirst z hz
  · exact hclear y hy z (mem_cons_of_mem x hz)

/-- Where there is room, the headers give segments in order. -/
theorem loadphdrs_inOrder (ps : List Elfphdr) {e : Int} (h : InOrder s.segq)
    (hclear : ∀ y ∈ s.segq, ∀ x ∈ asked exe.ino ps, Clear y x)
    (hpair : (asked exe.ino ps).Pairwise Clear) (hload : loadphdrs exe s ps = .ok (e, s')) :
    InOrder s'.segq ∧
      (e = 0 → Congruent ps ∧ ∀ y ∈ s'.segq, y ∈ s.segq ∨ y ∈ asked exe.ino ps) := by
  induction ps generalizing s with
  | nil =>
      cases hload
      exact ⟨h, fun _ => ⟨fun p hp => (nomatch hp), fun y hy => .inl hy⟩⟩
  | cons p ps ih =>
      obtain ⟨hskip, hload⟩ | ⟨hptload, hload⟩ := loadphdrs_ok h.ordered.sorted hload
      · have hask : asked exe.ino (p :: ps) = asked exe.ino ps := if_pos hskip
        rw [hask] at hclear hpair ⊢
        obtain ⟨hin, hrest⟩ := ih h hclear hpair hload
        refine ⟨hin, fun he => ⟨fun q hq hqload => ?_, (hrest he).2⟩⟩
        rcases mem_cons.mp hq with rfl | hq
        · exact absurd hqload hskip
        · exact (hrest he).1 q hq hqload
      obtain ⟨-, hr⟩ | ⟨hmod, hmaps, hload⟩ := hload
      · cases hr
        exact ⟨h, fun he => nomatch he⟩
      have hcons : Congruent ps → Congruent (p :: ps) := by
        intro hps q hq hqload
        rcases mem_cons.mp hq with rfl | hq
        · exact hmod
        · exact hps q hq hqload
      have hseg := p.segOk exe.ino hmaps
      have hask : asked exe.ino (p :: ps) = if p.flags &&& PFX ≠ 0
          then p.seg exe.ino :: asked exe.ino ps
          else p.seg exe.ino :: p.bssseg :: asked exe.ino ps := by
        rw [asked, if_neg (not_not.mpr hptload), if_neg (not_not.mpr hmod)]
      obtain ⟨hx, hload⟩ | ⟨hx, hle, hend, hload⟩ := hload
      · rw [if_pos hx] at hask
        rw [hask] at hclear hpair ⊢
        obtain ⟨h₁, hclear₁, hpair₁⟩ := asked_first h hseg hclear hpair
        obtain ⟨hin, hrest⟩ := ih (s := mapped exe s p) h₁ hclear₁ hpair₁ hload
        refine ⟨hin, fun he => ⟨hcons (hrest he).1, fun y hy => ?_⟩⟩
        rcases (hrest he).2 y hy with hy | hy
        · exact (mem_insertlt.mp hy).elim (fun heq => .inr (heq ▸ mem_cons_self)) .inl
        · exact .inr (mem_cons_of_mem _ hy)
      · have hbss := p.bsssegOk hle hend
        rw [if_neg hx] at hask
        rw [hask] at hclear hpair ⊢
        obtain ⟨h₁, hclear₁, hpair₁⟩ := asked_first h hseg hclear hpair
        obtain ⟨h₂, hclear₂, hpair₂⟩ := asked_first h₁ hbss hclear₁ hpair₁
        obtain ⟨hin, hrest⟩ := ih (s := filled exe s p) h₂ hclear₂ hpair₂ hload
        refine ⟨hin, fun he => ⟨hcons (hrest he).1, fun y hy => ?_⟩⟩
        rcases (hrest he).2 y hy with hy | hy
        · rcases mem_insertlt.mp hy with rfl | hy
          · exact .inr (mem_cons_of_mem _ mem_cons_self)
          · exact (mem_insertlt.mp hy).elim (fun heq => .inr (heq ▸ mem_cons_self)) .inl
        · exact .inr (mem_cons_of_mem _ (mem_cons_of_mem _ hy))

/-- A program for which there is room is loaded into segments in order, whether
it is loaded to the end or not. -/
theorem execve_inOrder {head stack : Bytes} {tables free : Nat → Bool} {npage initsp esp : Nat}
    {e : Int} (hroom : Room exe head stack npage initsp)
    (hexec : execve exe head stack (flushed tables free) npage initsp esp = .ok (e, s')) :
    InOrder s'.segq := by
  unfold execve loadelf at hexec
  cases hphdrs : phdrs exe head stack with
  | error e =>
      rw [hphdrs] at hexec
      change (if e ≠ 0 then _ else _) = _ at hexec
      split at hexec
      · cases hexec
        exact .nil
      · next he =>
        have hneg := phdrs_error hphdrs
        omega
  | ok ps =>
  obtain ⟨hpair, hstack⟩ := hroom ps hphdrs
  cases hload : loadphdrs exe (flushed tables free) ps with
  | error e =>
      rw [hphdrs] at hexec
      simp only [hload] at hexec
      cases hexec
  | ok r =>
  obtain ⟨e₁, s₁⟩ := r
  obtain ⟨hin, hrest⟩ := loadphdrs_inOrder (s := flushed tables free) ps .nil (by simp [flushed])
    hpair hload
  rw [hphdrs] at hexec
  simp only [hload] at hexec
  by_cases he : e₁ = 0
  · obtain ⟨hcong, hfrom⟩ := hrest he
    have hasked : ∀ y ∈ s₁.segq, y ∈ asked exe.ino ps := fun y hy =>
      (hfrom y hy).resolve_left not_mem_nil
    have hbelow := hstack hcong
    have hbelow₁ : Below s₁.segq npage initsp :=
      ⟨fun y hy => hbelow.clear y (hasked y hy), fun hv y hy => hbelow.argv hv y (hasked y hy)⟩
    have hinit : s₁.initustack npage initsp esp = .ok (e, s') := by
      subst he
      exact hexec
    exact initustack_inOrder hin hbelow₁ hinit
  · have hstop : (Except.ok (e₁, s₁) : Except Stuck (Int × Space)) = .ok (e, s') := by
      change (if e₁ ≠ 0 then _ else _) >>= _ = _ at hexec
      rw [if_pos he] at hexec
      change (if e₁ ≠ 0 then _ else _) = _ at hexec
      rwa [if_pos he] at hexec
    cases hstop
    exact hin

/-! ## Runs -/

/-- Every address space is as it should be. -/
def SegqsOk (s : Spaces) : Prop := ∀ tid x, s tid = some x → SegqOk x.segq

/-- Every address space has its segments in order. -/
def SegsInOrder (s : Spaces) : Prop := ∀ tid x, s tid = some x → InOrder x.segq

/-- A program that is loaded has room. -/
def HasRoom (_ : Spaces) : SpaceEvent → Prop
  | .exec _ exe head stack _ _ npage initsp _ => Room exe head stack npage initsp
  | _ => True

theorem SegsInOrder.put {s : Spaces} (h : SegsInOrder s) {tid : Nat} {x : Option Space}
    (hx : ∀ y, x = some y → InOrder y.segq) : SegsInOrder (s.put tid x) := by
  intro i y hy
  unfold Spaces.put at hy
  split at hy
  · exact hx y hy
  · exact h i y hy

theorem SegsInOrder.settle {s s' : Spaces} (h : SegsInOrder s) {tid : Nat}
    {r : Except Stuck Space} (hr : ∀ x, r = .ok x → InOrder x.segq)
    (hs : settle s tid r = some s') : SegsInOrder s' := by
  unfold Kern.settle at hs
  split at hs
  · cases hs
    exact h.put fun y hy => hr y (by rw [some.inj hy])
  · cases hs
    exact h.put (by simp)
  · cases hs

theorem spaceStep_inOrder {s s' : Spaces} {e : SpaceEvent} (h : SegsInOrder s)
    (hroom : HasRoom s e) (hs : spaceStep s e = some s') : SegsInOrder s' := by
  cases e with
  | exec tid exe head stack tables free npage initsp esp =>
      obtain ⟨x, -, hs⟩ := bind_eq_some_iff.mp hs
      split at hs
      · refine h.settle (fun y hy => ?_) hs
        obtain ⟨⟨e, s₁⟩, hexec, rfl⟩ := map_ok hy
        exact execve_inOrder hroom hexec
      · cases hs
  | fault tid esp vaddr w p =>
      obtain ⟨x, hx, hs⟩ := bind_eq_some_iff.mp hs
      refine h.settle (fun y hy => ?_) hs
      obtain ⟨r, hfault, rfl⟩ := map_ok hy
      cases r with
      | none => exact h tid x hx
      | some y => exact pagefault_inOrder (h tid x hx) hfault
  | brk tid ebss =>
      obtain ⟨x, hx, hs⟩ := bind_eq_some_iff.mp hs
      cases hs
      refine h.put fun y hy => ?_
      cases hy
      exact brk_inOrder (h tid x hx) ebss
  | fork tid child pgtbl =>
      obtain ⟨x, hx, hs⟩ := bind_eq_some_iff.mp hs
      split at hs
      · cases hs
        refine h.put fun y hy => ?_
        cases hy
        exact h tid x hx
      · cases hs
  | exit tid =>
      cases hs
      exact h.put (by simp)

theorem idlespaces_inOrder (pgtbl : Pgtbl) : SegsInOrder (idlespaces pgtbl) := by
  intro tid x hx
  unfold idlespaces at hx
  split at hx
  · cases hx
    refine ⟨ordered_cons.mpr ⟨by decide, by simp, .nil⟩, fun seg hseg => ?_⟩
    obtain rfl := mem_singleton.mp hseg
    exact ⟨by decide, by decide, by decide, by decide⟩
  · cases hx

/-- The start of a program: one page of text, and data at `0x08040000 + page * 0x100` with
a page of zeros behind it. -/
def twosegs (page : Nat) : Bytes := fun i =>
  BitVec.ofNat 8 <| [0x7f, 0x45, 0x4c, 0x46, 1, 1, 1, 0, 0, 0, 0, 0, 0, 0, 0, 0,
    2, 0, 3, 0, 1, 0, 0, 0, 0x74, 0x80, 0x04, 0x08, 52, 0, 0, 0,
    0, 0, 0, 0, 0, 0, 0, 0, 52, 0, 32, 0, 2, 0, 0, 0, 0, 0, 0, 0,
    1, 0, 0, 0, 0, 0, 0, 0, 0, 0x80, 0x04, 0x08, 0, 0x80, 0x04, 0x08,
    0, 0x10, 0, 0, 0, 0x10, 0, 0, 5, 0, 0, 0, 0, 0x10, 0, 0,
    1, 0, 0, 0, 0, 0x10, 0, 0, 0, page, 0x04, 0x08, 0, page, 0x04, 0x08,
    0, 0x0f, 0, 0, 0, 0x1f, 0, 0, 6, 0, 0, 0, 0, 0x10, 0, 0].getD i 0

/-- Init gets memory of its own, and loads such a program. -/
def bootrun (pgtbl : Pgtbl) (page : Nat) : List SpaceEvent :=
  [.fork 0 1 pgtbl, .exec 1 ⟨7, 0x2000, twosegs page, none⟩ (twosegs page) (twosegs page)
    (fun _ => true) (fun _ => true) 1 0xBFFFFF00 0xBFFFFF00]

def emptypgtbl : Pgtbl := ⟨fun _ => true, fun _ => false, fun _ => true⟩

end Unixlite.Kern
