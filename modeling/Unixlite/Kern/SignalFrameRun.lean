import Unixlite.Kern.SignalFrame
import Unixlite.Kern.Sigreturn

/-!
# The way back from a handler

In every run a context that has been saved stays as it is (`Inv.saved`), and a
handler that executes its `ret` gets to `sigreturn` in three instructions, which
puts everything back (`Restored`): the general registers, with `eax` as the
result of the system call, `eip`, `esp`, `eflags` and the signal mask.  Handlers
of other signals may run at any point before.  There is one way not to return:
`syssigreturn` reads the context and a byte at the `eip` it has found there, and
ends the task with SIGSEGV if it cannot (`roundtrip_each`).
-/

namespace Unixlite.Kern.SignalFrame

open Unixlite.Verified.Layout Unixlite.Verified.Run
open List Option BitVec

/-! ## The saved context -/

/-- The context that `sigreturn` will read is in memory. -/
def Saved (mem : Mem 32) (f : Pending) : Prop :=
  ∀ fl ∈ fields f.saved, 8 ≤ fl.1 → load mem (f.sc + BitVec.ofNat 32 fl.1) fl.2.length = fl.2

theorem fieldEnd_le {f : Pending} {fl : Field} (h : fl ∈ fields f.saved) : fieldEnd fl ≤ 84 := by
  simp only [fields, mem_cons, not_mem_nil, or_false] at h
  rcases h with rfl | rfl | rfl | rfl | rfl | rfl | rfl | rfl | rfl | rfl | rfl | rfl | rfl | rfl |
    rfl | rfl | rfl | rfl | rfl | rfl <;>
    simp [fieldEnd, Pending.saved, setupframe, asmcode]

theorem fields_apart (f : Pending) : (fields f.saved).Pairwise FieldsApart := by
  have hasm : f.saved.asmcode.length = 8 := rfl
  simp [fields, FieldsApart, fieldEnd, hasm]

/-- A context that has just been stored. -/
theorem saved_store (mem : Mem 32) (f : Pending) :
    Saved (storeFields f.sc (fields f.saved) mem) f := by
  intro fl hfl _
  refine load_storeFields (fields_apart f) (fun g hg => ?_) mem f.sc hfl
  exact Nat.lt_of_le_of_lt (fieldEnd_le hg) (by decide)

/-- A context depends on its own bytes only. -/
theorem Saved.congr {mem mem' : Mem 32} {f : Pending} (h : Saved mem f)
    (hagree : Agree mem mem' f.keep keepSize) : Saved mem' f := by
  intro fl hfl hoff
  have hend := fieldEnd_le hfl
  have hlen : fl.2.length ≤ 2 ^ 32 := by
    unfold fieldEnd at hend
    omega
  refine Eq.trans (load_congr hlen fun x hx => hagree x ?_) (h fl hfl hoff)
  have haddr : f.sc + BitVec.ofNat 32 fl.1 = f.keep + BitVec.ofNat 32 (fl.1 - 8) := by
    have hsum : BitVec.ofNat 32 fl.1 = BitVec.ofNat 32 8 + BitVec.ofNat 32 (fl.1 - 8) := by
      rw [← ofNat_add, Nat.add_sub_cancel' hoff]
    rw [hsum, ← add_assoc]
    rfl
  rw [haddr] at hx
  refine within_field (f := (fl.1 - 8, fl.2)) (by decide) ?_ hx
  unfold fieldEnd at hend ⊢
  show fl.1 - 8 + fl.2.length ≤ 76
  omega

section Read

variable {mem : Mem 32} {f : Pending} (h : Saved mem f)
include h

theorem Saved.long {off : Nat} {v : BitVec 32} (hmem : (off, bytes 4 v.toNat) ∈ fields f.saved)
    (hoff : 8 ≤ off) : SignalFrame.long mem (f.sc + BitVec.ofNat 32 off) = v := by
  have hload := h _ hmem hoff
  rw [length_bytes] at hload
  rw [SignalFrame.long, hload, ofNat_ofBytes v (by decide)]

/-- **What `syssigreturn` finds** in a context that is as it was. -/
theorem Saved.context :
    (context mem f.sc).ebx = f.regs.ebx ∧ (context mem f.sc).ecx = f.regs.ecx ∧
      (context mem f.sc).edx = f.regs.edx ∧ (context mem f.sc).esi = f.regs.esi ∧
      (context mem f.sc).edi = f.regs.edi ∧ (context mem f.sc).ebp = f.regs.ebp ∧
      (context mem f.sc).eax = f.regs.eax ∧ (context mem f.sc).eip = f.regs.eip ∧
      (context mem f.sc).esp = f.regs.esp ∧ (context mem f.sc).eflags = f.regs.eflags ∧
      (context mem f.sc).oldsigmask = f.sigmask := by
  refine ⟨h.long ?_ ?_, h.long ?_ ?_, h.long ?_ ?_, h.long ?_ ?_, h.long ?_ ?_, h.long ?_ ?_,
    h.long ?_ ?_, h.long ?_ ?_, h.long ?_ ?_, h.long ?_ ?_, congrArg Sigset.mk (h.long ?_ ?_)⟩
  all_goals simp [fields, Pending.saved, setupframe]

/-- The code in the context. -/
theorem Saved.asmcode {i : Nat} (hi : i < 8) :
    mem (f.sc + BitVec.ofNat 32 (76 + i)) = Kern.asmcode[i] := by
  have hload : load mem (f.sc + BitVec.ofNat 32 76) Kern.asmcode.length = Kern.asmcode :=
    h (76, Kern.asmcode) (by simp [fields, Pending.saved, setupframe]) (by decide)
  have haddr : f.sc + BitVec.ofNat 32 (76 + i) =
      f.sc + BitVec.ofNat 32 76 + BitVec.ofNat 32 i := by
    rw [ofNat_add, add_assoc]
  rw [haddr]
  exact getElem_load hload hi

end Read

/-! ## Delivery -/

theorem checkActive_frame {frameok : Bool} {active : List Nat} {t t' : Task} {r r' : Regs}
    {c : Sigcontext} (h : checkActive frameok active t r = some (.ret t' r' (some c))) :
    ∃ signo, c = setupframe r signo t.sigmask ∧ r'.esp = r.esp - sigcontextSize := by
  induction active generalizing t with
  | nil => cases h
  | cons signo active ih =>
      simp only [checkActive] at h
      split at h
      · exact (ih h :)
      · split at h
        · exact (ih h :)
        · split at h
          · split at h
            · exact (ih h :)
            · cases h
            · cases h
            · cases h
          · split at h
            · cases h
            · cases h
              exact ⟨signo, rfl, rfl⟩

/-- **A delivery** saves the registers and the mask, and changes nothing else in
memory. -/
theorem deliver_spec {u u' : User} {c : Sigcontext} (h : u.deliver = some (c, u')) :
    c = setupframe u.regs c.signo u.task.sigmask ∧
      u'.mem = storeFields (u.regs.esp - sigcontextSize) (fields c) u.mem ∧
      u'.regs.esp = u.regs.esp - sigcontextSize := by
  unfold User.deliver at h
  dsimp only at h
  split at h
  · next t r c' hcheck =>
    cases h
    unfold checksignal at hcheck
    split at hcheck
    · cases hcheck
    · obtain ⟨signo, rfl, hesp⟩ := checkActive_frame hcheck
      exact ⟨rfl, rfl, hesp⟩
  · cases h

/-! ## The invariant -/

/-- Where the processor is, in the code of the context. -/
def At (f : Pending) (r : Regs) : Prop :=
  match f.phase with
  | .body => True
  | .returned => r.eip = f.sc + 76 ∧ r.esp = f.sc + 4
  | .pushed => r.eip = f.sc + 77 ∧ r.esp = f.sc
  | .moved => r.eip = f.sc + 82 ∧ r.esp = f.sc ∧ r.eax = 119

/-- The registers fit the innermost handler, and those that each delivery has saved
fit the handler it interrupted. -/
def Fits : Regs → List Pending → Prop
  | _, [] => True
  | r, f :: rest => At f r ∧ Fits f.regs rest

structure Inv (m : Machine) : Prop where
  saved : ∀ f ∈ m.pending, Saved m.user.mem f
  /-- A frame does not cover the contexts of the handlers around it. -/
  apart : m.pending.Pairwise fun f g => Apart f.sc 84 g.keep keepSize
  fits : m.exited = none → Fits m.user.regs m.pending

/-- What the handler around sees of the registers is `eip`, `esp` and `eax`. -/
theorem Fits.congr {r r' : Regs} {l : List Pending} (h : Fits r l) (heip : r'.eip = r.eip)
    (hesp : r'.esp = r.esp) (heax : r'.eax = r.eax) : Fits r' l := by
  cases l with
  | nil => trivial
  | cons f rest =>
      refine ⟨?_, h.2⟩
      have hat := h.1
      unfold At at hat ⊢
      rw [heip, hesp, heax]
      exact hat

/-- A handler in its own code fits any registers. -/
theorem Fits.of_body {r r' : Regs} {f : Pending} {rest : List Pending} (h : Fits r (f :: rest))
    (hbody : f.phase = .body) : Fits r' (f :: rest) := by
  refine ⟨?_, h.2⟩
  unfold At
  rw [hbody]
  trivial

variable {m m' : Machine} {f : Pending} {rest : List Pending}

theorem Inv.deliver (h : Inv m) (hrun : m.exited = none) (hm : m.deliver = some m') : Inv m' := by
  unfold Machine.deliver at hm
  split at hm
  · next hroom =>
    split at hm
    · next c u hdel =>
      cases hm
      obtain ⟨hc, hmem, -⟩ := deliver_spec hdel
      refine ⟨?_, ?_, fun _ => ⟨trivial, h.fits hrun⟩⟩
      · intro g hg
        rcases mem_cons.mp hg with rfl | hg
        · show Saved u.mem _
          rw [hmem]
          have hsaved : c = Pending.saved ⟨m.user.regs.esp - sigcontextSize, c.signo, m.user.regs,
              m.user.task.sigmask, .body⟩ := hc
          rw [hsaved]
          exact saved_store _ _
        · refine (h.saved g hg).congr ?_
          intro x hx
          have hend : ∀ fl ∈ fields c, fieldEnd fl ≤ sigcontextSize.toNat := by
            rw [hc]
            exact fun fl hfl => fieldEnd_le (f := ⟨0, c.signo, m.user.regs, _, .body⟩) hfl
          show u.mem x = _
          rw [hmem]
          exact storeFields_frame (by decide) hend _ ((hroom g hg).symm.not_within hx)
      · exact pairwise_cons.mpr ⟨hroom, h.apart⟩
    · cases hm
  · cases hm

theorem Inv.code {u : User} (h : Inv m) (hbody : m.inbody = true) (hsame : m.Untouched u) :
    Inv { m with user := u } where
  saved := fun f hf => (h.saved f hf).congr (agree_of_load (hsame f hf))
  apart := h.apart
  fits := by
    intro hrun
    have hfits := h.fits hrun
    unfold Machine.inbody at hbody
    show Fits u.regs m.pending
    cases hpend : m.pending with
    | nil => trivial
    | cons f rest =>
        rw [hpend] at hbody hfits
        exact hfits.of_body (by simpa using hbody)

/-- The handler's `ret` leads to the code in its context. -/
theorem Machine.ret_spec (hm : m.ret = some m') (hpend : m.pending = f :: rest) :
    f.phase = .body ∧ m' = { m with
      user := { m.user with regs := { m.user.regs with eip := f.sc + 76, esp := f.sc + 4 } }
      pending := { f with phase := .returned } :: rest } := by
  unfold Machine.ret at hm
  rw [hpend] at hm
  dsimp only at hm
  split at hm
  · next hret =>
    obtain ⟨hbody, hop, hesp, haddr⟩ := hret
    have hinsn : m.user.insn = some (.next { m.user with
        regs := { m.user.regs with eip := f.sc + 76, esp := f.sc + 4 } }) := by
      unfold User.insn
      simp only [hop, hesp, haddr]
      rfl
    rw [hinsn] at hm
    cases hm
    exact ⟨hbody, rfl⟩
  · cases hm

theorem Inv.ret (h : Inv m) (hrun : m.exited = none) (hm : m.ret = some m') : Inv m' := by
  cases hpend : m.pending with
  | nil => simp [Machine.ret, hpend] at hm
  | cons f rest =>
      obtain ⟨-, rfl⟩ := Machine.ret_spec hm hpend
      have hfits := h.fits hrun
      have hsaved := h.saved
      have hapart := h.apart
      rw [hpend] at hfits hsaved hapart
      refine ⟨?_, ?_, fun _ => ⟨⟨rfl, rfl⟩, hfits.2⟩⟩
      · intro g hg
        rcases mem_cons.mp hg with rfl | hg
        · exact hsaved f (by simp)
        · exact hsaved g (by simp [hg])
      · exact pairwise_cons.mpr (pairwise_cons.mp hapart)

/-! ## The three instructions -/

section Code

variable {u : User} (h : Saved u.mem f)
include h

/-- A byte of the code, at any way to write its address. -/
theorem Saved.code {a : BitVec 32} {i : Nat} (hi : i < 8)
    (ha : a = f.sc + BitVec.ofNat 32 (76 + i)) : u.mem a = Kern.asmcode[i] := by
  rw [ha]
  exact h.asmcode hi

/-- `push %eax`. -/
theorem insn_returned (heip : u.regs.eip = f.sc + 76) (hesp : u.regs.esp = f.sc + 4) :
    u.insn = some (.next { u with
      regs := { u.regs with eip := f.sc + 77, esp := f.sc }
      mem := store u.mem f.sc (bytes 4 u.regs.eax.toNat) }) := by
  have hop : u.mem u.regs.eip = 0x50 := h.code (i := 0) (by decide) heip
  have hnext : f.sc + 76 + 1 = f.sc + 77 := by
    rw [add_assoc]
    rfl
  have hpush : f.sc + 4 - 4 = f.sc := add_sub_cancel _ _
  unfold User.insn
  simp only [hop]
  rw [heip, hesp, hnext, hpush]
  rfl

/-- `mov $119,%eax`. -/
theorem insn_pushed (heip : u.regs.eip = f.sc + 77) :
    u.insn = some (.next { u with regs := { u.regs with eip := f.sc + 82, eax := 119 } }) := by
  have haddr : ∀ i : Nat, f.sc + 77 + 1 + BitVec.ofNat 32 i = f.sc + BitVec.ofNat 32 (78 + i) := by
    intro i
    rw [ofNat_add, add_assoc, add_assoc, ← add_assoc 77]
    rfl
  have hop : u.mem u.regs.eip = 0xb8 := h.code (i := 1) (by decide) heip
  have hload : load u.mem (f.sc + 77 + 1) 4 = [119, 0, 0, 0] := by
    refine ext_getElem (by simp) fun i hi _ => ?_
    have hlt : i < 4 := by simpa using hi
    simp only [load, getElem_map, getElem_range]
    rw [haddr, h.code (i := 2 + i) (by omega) (by rw [← Nat.add_assoc])]
    obtain rfl | rfl | rfl | rfl : i = 0 ∨ i = 1 ∨ i = 2 ∨ i = 3 := by omega
    all_goals rfl
  have hnext : f.sc + 77 + 5 = f.sc + 82 := by
    rw [add_assoc]
    rfl
  have hlong : long u.mem (f.sc + 77 + 1) = 119 := by
    rw [long, hload]
    rfl
  unfold User.insn
  simp only [hop]
  rw [heip, hnext, hlong]
  rfl

/-- `int $0x80`. -/
theorem insn_moved (heip : u.regs.eip = f.sc + 82) :
    u.insn = some (.int80 { u with regs := { u.regs with eip := f.sc + 82 + 2 } }) := by
  have hop : u.mem u.regs.eip = 0xcd := h.code (i := 6) (by decide) heip
  have hsnd : u.mem (f.sc + 82 + 1) = 0x80 := by
    refine h.code (i := 7) (by decide) ?_
    rw [add_assoc]
    rfl
  unfold User.insn
  simp only [hop]
  rw [heip, hsnd]
  rfl

end Code

/-! ## The way back -/

/-- Everything is as it was before the delivery, and the selectors are the user's. -/
structure Restored (f : Pending) (u : User) : Prop where
  ebx : u.regs.ebx = f.regs.ebx
  ecx : u.regs.ecx = f.regs.ecx
  edx : u.regs.edx = f.regs.edx
  esi : u.regs.esi = f.regs.esi
  edi : u.regs.edi = f.regs.edi
  ebp : u.regs.ebp = f.regs.ebp
  eax : u.regs.eax = f.regs.eax
  eip : u.regs.eip = f.regs.eip
  esp : u.regs.esp = f.regs.esp
  eflags : u.regs.eflags = f.regs.eflags
  user : u.regs.User
  sigmask : u.task.sigmask = f.sigmask

/-- `syssigreturn` can read the context, and a byte at the `eip` in it. -/
def Readable (m : Machine) (f : Pending) : Prop :=
  m.user.verr f.sc sigcontextSize.toNat = true ∧ m.user.verr f.regs.eip 1 = true

instance (m : Machine) (f : Pending) : Decidable (Readable m f) := inferInstanceAs (Decidable (_ ∧ _))

/-- **`sigreturn`** from the stack pointer that the code of a context has. -/
theorem sigreturn_spec {u : User} (h : Saved u.mem f) (hesp : u.regs.esp = f.sc) :
    (u.verr f.sc sigcontextSize.toNat = true ∧ u.verr f.regs.eip 1 = true →
        ∃ u', u.sigreturn = .ok u' ∧ u'.mem = u.mem ∧ Restored f u') ∧
      (¬ (u.verr f.sc sigcontextSize.toNat = true ∧ u.verr f.regs.eip 1 = true) →
        ∃ t, u.sigreturn = .error t) := by
  obtain ⟨hebx, hecx, hedx, hesi, hedi, hebp, heax, heip, hsp, hflags, hmask⟩ := h.context
  unfold User.sigreturn
  simp only [hesp, heip]
  constructor
  · rintro ⟨hsc, hip⟩
    rw [if_pos hsc, hip]
    refine ⟨_, rfl, rfl, ⟨hebx, hecx, hedx, hesi, hedi, hebp, heax, heip, hsp, hflags,
      ⟨rfl, rfl, rfl, rfl, rfl, rfl⟩, ?_⟩⟩
    show (context u.mem f.sc).oldsigmask.del2 SIGKILL SIGSTOP = f.sigmask
    rw [Sigset.del2_kill_stop, hmask]
  · intro hnot
    by_cases hsc : u.verr f.sc sigcontextSize.toNat = true
    · have hip : u.verr f.regs.eip 1 = false := by
        rw [Bool.eq_false_iff]
        exact fun hip => hnot ⟨hsc, hip⟩
      rw [if_pos hsc, hip]
      exact ⟨_, rfl⟩
    · rw [if_neg hsc]
      exact ⟨_, rfl⟩

section Cpu

variable (h : Inv m) (hrun : m.exited = none) (hpend : m.pending = f :: rest)
include h hrun hpend

theorem cpu_returned (hphase : f.phase = .returned) :
    m.cpu = some { m with
      user := { m.user with
        regs := { m.user.regs with eip := f.sc + 77, esp := f.sc }
        mem := store m.user.mem f.sc (bytes 4 m.user.regs.eax.toNat) }
      pending := { f with phase := .pushed } :: rest } := by
  have hsaved := h.saved f (by simp [hpend])
  have hat := h.fits hrun
  rw [hpend] at hat
  have hat := hat.1
  simp only [At, hphase] at hat
  unfold Machine.cpu
  rw [hpend]
  simp only [hphase, reduceCtorEq, if_false, insn_returned hsaved hat.1 hat.2, Phase.next]

theorem cpu_pushed (hphase : f.phase = .pushed) :
    m.cpu = some { m with
      user := { m.user with regs := { m.user.regs with eip := f.sc + 82, eax := 119 } }
      pending := { f with phase := .moved } :: rest } := by
  have hsaved := h.saved f (by simp [hpend])
  have hat := h.fits hrun
  rw [hpend] at hat
  have hat := hat.1
  simp only [At, hphase] at hat
  unfold Machine.cpu
  rw [hpend]
  simp only [hphase, reduceCtorEq, if_false, insn_pushed hsaved hat.1, Phase.next]

/-- The system call: back to what was interrupted, or the end. -/
theorem cpu_moved (hphase : f.phase = .moved) :
    (Readable m f → ∃ u, m.cpu = some { m with user := u, pending := rest } ∧
        u.mem = m.user.mem ∧ Restored f u) ∧
      (¬ Readable m f → ∃ u, m.cpu = some { m with user := u, exited := some SIGSEGV } ∧
        u.mem = m.user.mem) := by
  have hsaved := h.saved f (by simp [hpend])
  have hat := h.fits hrun
  rw [hpend] at hat
  have hat := hat.1
  simp only [At, hphase] at hat
  obtain ⟨heip, hesp, heax⟩ := hat
  let u : User := { m.user with regs := { m.user.regs with eip := f.sc + 82 + 2 } }
  have hcpu : m.cpu = some (m.sigreturn u rest) := by
    unfold Machine.cpu
    rw [hpend]
    simp only [hphase, reduceCtorEq, if_false, insn_moved hsaved heip]
    exact if_pos heax
  obtain ⟨hback, hexit⟩ := sigreturn_spec (u := u) hsaved hesp
  rw [hcpu]
  unfold Machine.sigreturn
  constructor
  · intro hread
    obtain ⟨u', hret, hmem, hrest⟩ := hback hread
    refine ⟨u', ?_, hmem, hrest⟩
    rw [hret]
  · intro hread
    obtain ⟨t, hret⟩ := hexit hread
    refine ⟨{ u with task := t }, ?_, rfl⟩
    rw [hret]

end Cpu

/-- The word below a context, which the `push` writes, is in no saved context. -/
theorem push_apart (h : Inv m) (hpend : m.pending = f :: rest) {g : Pending}
    (hg : g ∈ m.pending) : Apart f.sc 4 g.keep keepSize := by
  have hapart := h.apart
  rw [hpend] at hg hapart
  rcases mem_cons.mp hg with rfl | hg
  · unfold Apart Pending.keep keepSize
    constructor <;> bv_omega
  · refine ((pairwise_cons.mp hapart).1 g hg).mono (by decide) (by decide) ?_
    simp

theorem Inv.cpu (h : Inv m) (hrun : m.exited = none) (hm : m.cpu = some m') : Inv m' := by
  cases hpend : m.pending with
  | nil => simp [Machine.cpu, hpend] at hm
  | cons f rest =>
      have hfits := h.fits hrun
      have hsaved := h.saved
      have hapart := h.apart
      rw [hpend] at hfits hsaved hapart
      have hpair := pairwise_cons.mp hapart
      cases hphase : f.phase with
      | body => simp [Machine.cpu, hpend, hphase] at hm
      | returned =>
          rw [cpu_returned h hrun hpend hphase] at hm
          cases hm
          have hkeep : ∀ g ∈ m.pending,
              Saved (store m.user.mem f.sc (bytes 4 m.user.regs.eax.toNat)) g := by
            intro g hg
            refine (h.saved g hg).congr (store_agree _ ?_)
            exact push_apart h hpend hg
          rw [hpend] at hkeep
          refine ⟨?_, pairwise_cons.mpr hpair, fun _ => ⟨⟨rfl, rfl⟩, hfits.2⟩⟩
          intro g hg
          rcases mem_cons.mp hg with rfl | hg
          · exact hkeep f (by simp)
          · exact hkeep g (by simp [hg])
      | pushed =>
          have hesp : m.user.regs.esp = f.sc := by
            have hat := hfits.1
            simp only [At, hphase] at hat
            exact hat.2
          rw [cpu_pushed h hrun hpend hphase] at hm
          cases hm
          refine ⟨?_, pairwise_cons.mpr hpair, fun _ => ⟨⟨rfl, hesp, rfl⟩, hfits.2⟩⟩
          intro g hg
          rcases mem_cons.mp hg with rfl | hg
          · exact hsaved f (by simp)
          · exact hsaved g (by simp [hg])
      | moved =>
          obtain ⟨hback, hexit⟩ := cpu_moved h hrun hpend hphase
          by_cases hread : Readable m f
          · obtain ⟨u, hcpu, hmem, hrest⟩ := hback hread
            rw [hcpu] at hm
            cases hm
            refine ⟨fun g hg => ?_, hpair.2, fun _ => ?_⟩
            · show Saved u.mem g
              rw [hmem]
              exact hsaved g (by simp [hg])
            · exact hfits.2.congr hrest.eip hrest.esp hrest.eax
          · obtain ⟨u, hcpu, hmem⟩ := hexit hread
            rw [hcpu] at hm
            cases hm
            refine ⟨fun g hg => ?_, h.apart, fun hrun => by cases hrun⟩
            show Saved u.mem g
            rw [hmem]
            exact h.saved g hg

theorem step_inv {e : Event} (h : Inv m) (hm : m.step e = some m') : Inv m' := by
  unfold Machine.step at hm
  split at hm
  · cases hm
  · next hrun =>
    have hrun : m.exited = none := by simpa using hrun
    cases e with
    | deliver => exact h.deliver hrun hm
    | code u =>
        dsimp only at hm
        split at hm
        · next hcode =>
          cases hm
          exact h.code hcode.1 hcode.2
        · cases hm
    | ret => exact h.ret hrun hm
    | cpu => exact h.cpu hrun hm

/-- A task in user mode, with no handler on its stack. -/
def Machine.start (u : User) : Machine := ⟨u, [], none⟩

theorem start_inv (u : User) : Inv (.start u) :=
  ⟨by simp [Machine.start], by simp [Machine.start], fun _ => trivial⟩

/-! ## The round trip -/

/-- The handler that executes its `ret` gets back in three instructions. -/
def Returns (m : Machine) (f : Pending) (rest : List Pending) : Prop :=
  (Readable m f → ∃ u, exec Machine.step m [.ret, .cpu, .cpu, .cpu] = some ⟨u, rest, none⟩ ∧
      Restored f u) ∧
    (¬ Readable m f → ∃ m', exec Machine.step m [.ret, .cpu, .cpu, .cpu] = some m' ∧
      m'.exited = some SIGSEGV)

/-- A step of the code in the context, with handlers before it or not. -/
def Goes (m : Machine) (f : Pending) (rest : List Pending) : Prop :=
  (f.phase = .returned ∨ f.phase = .pushed →
      ∃ u, m.step .cpu = some ⟨u, { f with phase := f.phase.next } :: rest, none⟩) ∧
    (f.phase = .moved →
      (Readable m f → ∃ u, m.step .cpu = some ⟨u, rest, none⟩ ∧ Restored f u) ∧
        (¬ Readable m f → ∃ m', m.step .cpu = some m' ∧ m'.exited = some SIGSEGV))

/-- What a step does for the innermost handler. -/
def RoundTrip (m : Machine) (e : Event) : Prop :=
  ∀ f rest, m.exited = none → m.pending = f :: rest →
    (e = .ret → (m.step .ret).isSome = true → Returns m f rest) ∧ (e = .cpu → Goes m f rest)

theorem step_cpu (hrun : m.exited = none) : m.step .cpu = m.cpu := by
  simp [Machine.step, hrun]

theorem Inv.goes (h : Inv m) (hrun : m.exited = none) (hpend : m.pending = f :: rest) :
    Goes m f rest := by
  constructor
  · rintro (hphase | hphase)
    · rw [step_cpu hrun, cpu_returned h hrun hpend hphase, hphase, hrun]
      exact ⟨_, rfl⟩
    · rw [step_cpu hrun, cpu_pushed h hrun hpend hphase, hphase, hrun]
      exact ⟨_, rfl⟩
  · intro hphase
    obtain ⟨hback, hexit⟩ := cpu_moved h hrun hpend hphase
    rw [step_cpu hrun]
    constructor
    · intro hread
      obtain ⟨u, hcpu, -, hrest⟩ := hback hread
      exact ⟨u, by rw [hcpu, hrun], hrest⟩
    · intro hread
      obtain ⟨u, hcpu, -⟩ := hexit hread
      exact ⟨_, hcpu, rfl⟩

theorem Inv.returns (h : Inv m) (hrun : m.exited = none) (hpend : m.pending = f :: rest)
    (hret : (m.step .ret).isSome = true) : Returns m f rest := by
  obtain ⟨m₁, hm₁⟩ := isSome_iff_exists.mp hret
  have hret₁ : m.ret = some m₁ := by simpa [Machine.step, hrun] using hm₁
  have h₁ := h.ret hrun hret₁
  obtain ⟨-, hm₁'⟩ := Machine.ret_spec hret₁ hpend
  have hrun₁ : m₁.exited = none := by rw [hm₁', ← hrun]
  have hpend₁ : m₁.pending = { f with phase := .returned } :: rest := by rw [hm₁']
  obtain ⟨m₂, hm₂⟩ : ∃ m₂, m₁.cpu = some m₂ := ⟨_, cpu_returned h₁ hrun₁ hpend₁ rfl⟩
  have hm₂' := some.inj (hm₂.symm.trans (cpu_returned h₁ hrun₁ hpend₁ rfl))
  have h₂ := h₁.cpu hrun₁ hm₂
  have hrun₂ : m₂.exited = none := by rw [hm₂', ← hrun₁]
  have hpend₂ : m₂.pending = { f with phase := .pushed } :: rest := by rw [hm₂']
  obtain ⟨m₃, hm₃⟩ : ∃ m₃, m₂.cpu = some m₃ := ⟨_, cpu_pushed h₂ hrun₂ hpend₂ rfl⟩
  have hm₃' := some.inj (hm₃.symm.trans (cpu_pushed h₂ hrun₂ hpend₂ rfl))
  have h₃ := h₂.cpu hrun₂ hm₃
  have hrun₃ : m₃.exited = none := by rw [hm₃', ← hrun₂]
  have hpend₃ : m₃.pending = { f with phase := .moved } :: rest := by rw [hm₃']
  -- the three instructions leave the address space as it is
  have hread : Readable m₃ { f with phase := .moved } ↔ Readable m f := by
    have hverr : m₃.user.verr = m.user.verr := by rw [hm₃', hm₂', hm₁']
    unfold Readable
    rw [hverr]
  have hexec : exec Machine.step m [.ret, .cpu, .cpu, .cpu] = m₃.cpu := by
    simp only [exec, hm₁, step_cpu hrun₁, hm₂, step_cpu hrun₂, hm₃, step_cpu hrun₃,
      bind_some, bind_fun_some]
  obtain ⟨hback, hexit⟩ := cpu_moved h₃ hrun₃ hpend₃ rfl
  unfold Returns
  rw [hexec, ← hread]
  constructor
  · intro hok
    obtain ⟨u, hcpu, -, hrest⟩ := hback hok
    refine ⟨u, by rw [hcpu, hrun₃], ?_⟩
    exact ⟨hrest.ebx, hrest.ecx, hrest.edx, hrest.esi, hrest.edi, hrest.ebp, hrest.eax, hrest.eip,
      hrest.esp, hrest.eflags, hrest.user, hrest.sigmask⟩
  · intro hok
    obtain ⟨u, hcpu, -⟩ := hexit hok
    exact ⟨_, hcpu, rfl⟩

/-- **The round trip**, in every run: a handler that returns gets through the code in
its context, whatever other handlers run before it does, and `sigreturn` restores
what it interrupted if it can read the context and the `eip` in it.  If it cannot,
the task ends with SIGSEGV. -/
theorem roundtrip_each (u : User) (es : List Event) :
    Each Machine.step RoundTrip (.start u) es := by
  have hrun : Always Machine.step Inv (.start u) es :=
    always_of_step (fun _ _ _ h hm => step_inv h hm) es (start_inv u)
  refine hrun.each fun m e h f rest hrun hpend => ?_
  exact ⟨fun _ hret => h.returns hrun hpend hret, fun _ => h.goes hrun hpend⟩

/-- A task that has called address `eip`, where there is no code, with a handler for
the SIGSEGV that it gets; the handler does nothing but return. -/
def astray (eip : BitVec 32) : User where
  regs := { userframe with eip := eip }
  mem := fun a => if a = 0x8048000 then 0xc3 else 0
  task := { bootTask false false with
    sigset := Sigset.clear.add SIGSEGV
    sigvec := Sigvec.set (fun _ => Sigact.zero) SIGSEGV ⟨0x8048000, Sigset.clear, 0, 0⟩ }
  verr := fun a _ => a != 0
  verw := fun _ _ => true

/-- The handler of a call through a null pointer returns, and the task is ended
instead of put back at the address it had called. -/
theorem roundtrip_exits :
    (exec Machine.step (.start (astray 0)) [.deliver, .ret, .cpu, .cpu, .cpu]).map
      (fun m => m.exited) = some (some SIGSEGV) := by
  decide +kernel

example : (exec Machine.step (.start (astray 0x8048010)) [.deliver, .ret, .cpu, .cpu, .cpu]).map
    (fun m => (m.user.regs.eip, m.user.regs.esp, m.user.regs.eax, m.pending.length)) =
      some (0x8048010, 0x8050000, 119, 0) := by
  decide +kernel

end Unixlite.Kern.SignalFrame
