import Mathlib.Data.BitVec
import Unixlite.Lib.Errno

/-!
# Signals of one task

Port of `kern/signal.h`, `kern/signal.cc` and of `post` and `force` from
`kern/kill.cc`.  A function of the source that changes `curr` takes the task
and returns it; what it reads from user memory is an argument, and `verr` or
`verw` failing is the `error` case of that argument.  Pointers and machine
words are 32 bits wide.
-/

namespace Unixlite.Kern

open BitVec

/-! ## Signal numbers -/

def NSIG : Nat := 32
def SIGKILL : Nat := 9
def SIGSEGV : Nat := 11
def SIGPIPE : Nat := 13
def SIGCHLD : Nat := 17
def SIGCONT : Nat := 18
def SIGSTOP : Nat := 19
def SIGTSTP : Nat := 20
def SIGTTIN : Nat := 21
def SIGTTOU : Nat := 22

def SANOMASK : BitVec 32 := 0x40000000
def SAONESHOT : BitVec 32 := 0x80000000

def SIGXBLOCK : Int := 0
def SIGXUNBLOCK : Int := 1
def SIGXSETMASK : Int := 2

/-- `SIGXDFL` and `SIGXIGN`, the two handler values that are not addresses. -/
def SIGXDFL : BitVec 32 := 0
def SIGXIGN : BitVec 32 := 1

def validsig (signo : Nat) : Bool := 0 < signo && signo < NSIG

/-! ## Signal sets -/

/-- `sigset_t`: signal `a` is bit `a - 1`. -/
structure Sigset where
  bits : BitVec 32
deriving DecidableEq, Repr

/-- `1UL << --a`. -/
def sigbit (a : Nat) : BitVec 32 := 1#32 <<< (a - 1)

namespace Sigset

def clear : Sigset := ⟨0⟩

def addSet (x set : Sigset) : Sigset := ⟨x.bits ||| set.bits⟩

def delSet (x set : Sigset) : Sigset := ⟨x.bits &&& ~~~set.bits⟩

def empty (x : Sigset) : Bool := x.bits == 0

def contain (x : Sigset) (a : Nat) : Bool := (x.bits &&& sigbit a) != 0

def invalid (x : Sigset) : Bool := x.contain SIGKILL || x.contain SIGSTOP

def add (x : Sigset) (a : Nat) : Sigset := ⟨x.bits ||| sigbit a⟩

def del (x : Sigset) (a : Nat) : Sigset := ⟨x.bits &&& ~~~sigbit a⟩

/-- `del(int a, int b)`: the two complements are joined by "or". -/
def del2 (x : Sigset) (a b : Nat) : Sigset :=
  ⟨x.bits &&& (~~~sigbit a ||| ~~~sigbit b)⟩

/-- `del(int a, int b, int c, int d)`, with the same "or". -/
def del4 (x : Sigset) (a b c d : Nat) : Sigset :=
  ⟨x.bits &&& (~~~sigbit a ||| ~~~sigbit b ||| ~~~sigbit c ||| ~~~sigbit d)⟩

/-- The signals that repeated `del()` (bit scan forward and clear) hands out,
lowest first. -/
def signals (x : Sigset) : List Nat :=
  (List.range 32).filterMap fun i => if x.bits.getLsbD i then some (i + 1) else none

/-! ### Membership -/

private theorem and_shiftLeft_ne_zero (b : BitVec 32) (i : Nat) :
    ((b &&& 1#32 <<< i) != 0) = b.getLsbD i := by
  by_cases hi : i < 32
  · have hbit : b &&& 1#32 <<< i = if b.getLsbD i then 1#32 <<< i else 0 := by
      ext j hj
      by_cases hji : j = i
      · subst hji
        cases hb : b.getLsbD j <;> simp [← getLsbD_eq_getElem, hb]
      · have : ¬ (i ≤ j ∧ j - i = 0) := by omega
        cases hb : b.getLsbD i <;> simp <;> omega
    have hpos : 1#32 <<< i ≠ 0#32 := by
      intro hzero
      have := congrArg (fun v => BitVec.getLsbD v i) hzero
      simp [hi] at this
    rw [hbit]
    cases b.getLsbD i <;> simp [hpos]
  · rw [getLsbD_of_ge b i (by omega), shiftLeft_eq_zero (by omega)]
    simp

theorem contain_eq (x : Sigset) (a : Nat) : x.contain a = x.bits.getLsbD (a - 1) :=
  and_shiftLeft_ne_zero x.bits (a - 1)

/-- Neither SIGKILL nor SIGSTOP is in the set. -/
def Safe (x : Sigset) : Prop := x.contain SIGKILL = false ∧ x.contain SIGSTOP = false

theorem invalid_eq_false_iff (x : Sigset) : x.invalid = false ↔ x.Safe := by
  simp [invalid, Safe]

theorem safe_iff (x : Sigset) : x.Safe ↔ x.bits.getLsbD 8 = false ∧ x.bits.getLsbD 18 = false := by
  simp [Safe, contain_eq, SIGKILL, SIGSTOP]

theorem safe_clear : clear.Safe := by
  simp [safe_iff, clear]

theorem Safe.addSet {x set : Sigset} (hx : x.Safe) (hset : set.Safe) : (x.addSet set).Safe := by
  simp_all [safe_iff, Sigset.addSet]

theorem Safe.delSet {x : Sigset} (hx : x.Safe) (set : Sigset) : (x.delSet set).Safe := by
  simp_all [safe_iff, Sigset.delSet]

theorem Safe.del {x : Sigset} (hx : x.Safe) (a : Nat) : (x.del a).Safe := by
  simp_all [safe_iff, Sigset.del]

/-- Adding a signal other than SIGKILL and SIGSTOP. -/
theorem Safe.add {x : Sigset} (hx : x.Safe) {a : Nat} (hpos : 0 < a)
    (hkill : a ≠ SIGKILL) (hstop : a ≠ SIGSTOP) : (x.add a).Safe := by
  rw [safe_iff] at hx ⊢
  simp only [Sigset.add, sigbit, getLsbD_or, getLsbD_shiftLeft, hx.1, hx.2]
  simp only [SIGKILL, SIGSTOP] at hkill hstop
  constructor <;> simp <;> omega

/-- `del(SIGKILL, SIGSTOP)` deletes nothing: no bit is missing from both
complements. -/
theorem del2_kill_stop (x : Sigset) : x.del2 SIGKILL SIGSTOP = x := by
  have hall : (~~~sigbit SIGKILL ||| ~~~sigbit SIGSTOP) = BitVec.allOnes 32 := by
    decide
  simp only [del2, hall, and_allOnes]

end Sigset

/-! ## Actions and tasks -/

structure Sigact where
  func : BitVec 32
  mask : Sigset
  flags : BitVec 32
  restorer : BitVec 32
deriving DecidableEq, Repr

/-- A `sigact_t` of a `sigvec_t` just cleared by its constructor. -/
def Sigact.zero : Sigact := ⟨SIGXDFL, Sigset.clear, 0, 0⟩

/-- `sigvec_t`; only indices below `NSIG` are used. -/
abbrev Sigvec := Nat → Sigact

def Sigvec.set (vec : Sigvec) (signo : Nat) (sa : Sigact) : Sigvec :=
  fun i => if i = signo then sa else vec i

/-- `sigvec_t::clearonexec`. -/
def Sigvec.clearonexec (vec : Sigvec) : Sigvec := fun i =>
  let sa := vec i
  { sa with
    mask := Sigset.clear
    flags := 0
    func := if sa.func != SIGXIGN then SIGXDFL else sa.func }

inductive Tstate where
  | run | sleep | wait | zombie | stop
deriving DecidableEq, Repr

/-- What a task still has to do inside the signal code: `syssigsuspend` holds
the old mask in a local variable while it waits. -/
inductive Kont where
  | none
  | sigsuspend (oldmask : Sigset)
deriving DecidableEq, Repr

/-- The fields of `task_t` that the signal code uses. -/
structure Task where
  isidle : Bool
  isinit : Bool
  state : Tstate
  sigset : Sigset
  sigmask : Sigset
  sigvec : Sigvec
  kont : Kont

namespace Task

/-- `maskedsig`: the pending signals that are blocked. -/
def maskedsig (t : Task) : Sigset := ⟨t.sigset.bits &&& t.sigmask.bits⟩

def unmaskedsig (t : Task) : Sigset := ⟨t.sigset.bits &&& ~~~t.sigmask.bits⟩

def hassig (t : Task) : Bool := !t.unmaskedsig.empty

end Task

/-- `sigdflact[signo]`, by the function the table holds. -/
inductive Dflact where
  | ignore | terminate | stop
deriving DecidableEq, Repr

/-- The table `sigdflact`; `coredump` calls `terminate`.  The slots past the
initialiser hold no function. -/
def sigdflact : Nat → Option Dflact
  | 0 => some .ignore
  | 7 => some .ignore
  | 17 => some .ignore
  | 18 => some .ignore
  | 19 => some .stop
  | 20 => some .stop
  | 21 => some .stop
  | 22 => some .stop
  | 24 => some .ignore
  | 28 => some .ignore
  | 29 => some .ignore
  | n => if n < 30 then some .terminate else Option.none

def sigdflign (signo : Nat) : Bool := sigdflact signo == some .ignore

/-! ## Posting -/

namespace Task

/-- `task_t::post`. -/
def post (t : Task) (signo : Nat) : Task :=
  if t.isidle || t.state == .zombie then t
  else if t.isinit && signo != SIGCHLD then t
  else
    let sigset :=
      if signo = SIGKILL ∨ signo = SIGCONT then
        t.sigset.del4 SIGSTOP SIGTSTP SIGTTIN SIGTTOU
      else if signo = SIGSTOP ∨ signo = SIGTSTP ∨ signo = SIGTTIN ∨ signo = SIGTTOU then
        t.sigset.del SIGCONT
      else t.sigset
    let t := { t with sigset := sigset }
    let sf := (t.sigvec signo).func
    if sf == SIGXIGN && signo != SIGCHLD then t
    else if sf == SIGXDFL && sigdflign signo then t
    else
      let t := { t with sigset := t.sigset.add signo }
      if !t.sigmask.contain signo && t.state == .wait then { t with state := .run } else t

/-- `task_t::force`. -/
def force (t : Task) (signo : Nat) : Task :=
  let t := { t with sigmask := t.sigmask.del signo }
  let t :=
    if (t.sigvec signo).func == SIGXIGN then
      { t with sigvec := t.sigvec.set signo { t.sigvec signo with func := SIGXDFL } }
    else t
  t.post signo

end Task

/-! ## System calls -/

/-- `syssigprocmask`.  `oset` is `none` for a null pointer and else what `verw`
returns for it; `set` is what `verr` returns, or the set found there. -/
def syssigprocmask (t : Task) (how : Int) (set : Except Int Sigset)
    (oset : Option Int) : Int × Task :=
  if oset.getD 0 ≠ 0 then (oset.getD 0, t)
  else
    match set with
    | .error e => (e, t)
    | .ok set =>
        if set.invalid then (EINVAL, t)
        else if how = SIGXBLOCK then (0, { t with sigmask := t.sigmask.addSet set })
        else if how = SIGXUNBLOCK then (0, { t with sigmask := t.sigmask.delSet set })
        else if how = SIGXSETMASK then (0, { t with sigmask := set })
        else (EINVAL, t)

def sysssetmask (t : Task) (newmask : BitVec 32) : Int × Task :=
  if newmask &&& (sigbit SIGKILL ||| sigbit SIGSTOP) ≠ 0 then (EINVAL, t)
  else (t.sigmask.bits.toInt, { t with sigmask := ⟨newmask⟩ })

/-- The first half of `syssigsuspend`: the new mask is installed and the task
waits, unless a signal is already pending. -/
def syssigsuspend (t : Task) (bits : BitVec 32) : Int × Task :=
  let newmask : Sigset := ⟨bits⟩
  if newmask.invalid then (EINVAL, t)
  else
    let oldmask := t.sigmask
    let t := { t with sigmask := newmask }
    if t.hassig then (EINTR, { t with sigmask := oldmask })
    else (EINTR, { t with state := .wait, kont := .sigsuspend oldmask })

/-- The second half of `syssigsuspend`, when `waitq.wait()` has returned. -/
def sigsuspendReturn (t : Task) (oldmask : Sigset) : Int × Task :=
  (EINTR, { t with sigmask := oldmask, kont := .none })

def checkpending (t : Task) (sa : Sigact) (signo : Nat) : Task :=
  if sa.func == SIGXIGN then
    if signo = SIGCHLD then t else { t with sigset := t.sigset.del signo }
  else if sa.func == SIGXDFL then
    if !sigdflign signo then t else { t with sigset := t.sigset.del signo }
  else t

/-- `verfunc`; `e` is what `verr(func, 1)` returns. -/
def verfunc (func : BitVec 32) (e : Int) : Int :=
  if func = SIGXIGN ∨ func = SIGXDFL then 0 else e

/-- `syssignal`; `e` is what `verr(func, 1)` returns. -/
def syssignal (t : Task) (signo : Nat) (func : BitVec 32) (e : Int) : Int × Task :=
  if !validsig signo || signo = SIGKILL || signo = SIGSTOP then (EINVAL, t)
  else if verfunc func e ≠ 0 then (verfunc func e, t)
  else
    let ofunc := (t.sigvec signo).func
    let sa : Sigact := ⟨func, Sigset.clear, SAONESHOT ||| SANOMASK, 0⟩
    (ofunc.toInt, checkpending { t with sigvec := t.sigvec.set signo sa } sa signo)

/-- `syssigaction`.  `act` and `oact` are `none` for null pointers; `act` is
then what `verr` returns or the action found there, `oact` what `verw` returns,
and `e` what `verr(act->func, 1)` returns. -/
def syssigaction (t : Task) (signo : Nat) (act : Option (Except Int Sigact))
    (oact : Option Int) (e : Int) : Int × Task :=
  if !validsig signo || signo = SIGKILL || signo = SIGSTOP then (EINVAL, t)
  else if oact.getD 0 ≠ 0 then (oact.getD 0, t)
  else
    match act with
    | none => (0, t)
    | some (.error e) => (e, t)
    | some (.ok act) =>
        if verfunc act.func e ≠ 0 then (verfunc act.func e, t)
        else if act.mask.invalid then (EINVAL, t)
        else
          let sa :=
            if act.flags &&& SANOMASK ≠ 0 then { act with mask := Sigset.clear }
            else { act with mask := act.mask.add signo }
          (0, checkpending { t with sigvec := t.sigvec.set signo sa } sa signo)

/-! ## Frames -/

def UCODESEL : BitVec 16 := 15
def UDATASEL : BitVec 16 := 23
def NOTSYSCALLFRAME : BitVec 32 := 0x19790106

/-- `regs_t`, the registers saved on entry to the kernel. -/
structure Regs where
  ebx : BitVec 32
  ecx : BitVec 32
  edx : BitVec 32
  esi : BitVec 32
  edi : BitVec 32
  ebp : BitVec 32
  eax : BitVec 32
  ds : BitVec 16
  es : BitVec 16
  fs : BitVec 16
  gs : BitVec 16
  origeax : BitVec 32
  eip : BitVec 32
  cs : BitVec 16
  eflags : BitVec 32
  esp : BitVec 32
  ss : BitVec 16

/-- `sigcontext_t`, the frame on the user stack. -/
structure Sigcontext where
  retaddr : BitVec 32
  signo : Nat
  gs : BitVec 16
  fs : BitVec 16
  es : BitVec 16
  ds : BitVec 16
  edi : BitVec 32
  esi : BitVec 32
  ebp : BitVec 32
  esp : BitVec 32
  ebx : BitVec 32
  edx : BitVec 32
  ecx : BitVec 32
  eax : BitVec 32
  eip : BitVec 32
  cs : BitVec 16
  eflags : BitVec 32
  ss : BitVec 16
  oldsigmask : Sigset
  asmcode : List (BitVec 8)

/-- `sizeof(sigcontext_t)` and the offset of its `asmcode`. -/
def sigcontextSize : BitVec 32 := 84
def asmcodeOffset : BitVec 32 := 76

/-- `push %eax; mov $__NR_sigreturn,%eax; int $0x80`. -/
def asmcode : List (BitVec 8) := [0x50, 0xb8, 119, 0, 0, 0, 0xcd, 0x80]

/-- `syssigreturn`.  `sc` is `none` when `verr` refuses the frame, `eipok` says
whether `verr(sc->eip, 1)` accepts the address; an error is `doexit(SIGSEGV)`
with the task as it is then. -/
def syssigreturn (t : Task) (r : Regs) (sc : Option Sigcontext) (eipok : Bool) :
    Except Task (BitVec 32 × Task × Regs) :=
  match sc with
  | none => .error t
  | some sc =>
      let t := { t with sigmask := sc.oldsigmask.del2 SIGKILL SIGSTOP }
      let r := { r with
        cs := UCODESEL, ss := UDATASEL, ds := UDATASEL, es := UDATASEL,
        fs := UDATASEL, gs := UDATASEL }
      if !eipok then .error t
      else
        .ok (sc.eax, t, { r with
          ebx := sc.ebx, ecx := sc.ecx, edx := sc.edx, esi := sc.esi, edi := sc.edi,
          esp := sc.esp, ebp := sc.ebp, eip := sc.eip, eflags := sc.eflags,
          origeax := NOTSYSCALLFRAME })

/-- The frame `setupframe` writes at `r->esp - sizeof(sigcontext_t)`. -/
def setupframe (r : Regs) (signo : Nat) (oldsigmask : Sigset) : Sigcontext where
  retaddr := r.esp - sigcontextSize + asmcodeOffset
  signo := signo
  gs := r.gs
  fs := r.fs
  es := r.es
  ds := r.ds
  edi := r.edi
  esi := r.esi
  ebp := r.ebp
  esp := r.esp
  ebx := r.ebx
  edx := r.edx
  ecx := r.ecx
  eax := r.eax
  eip := r.eip
  cs := r.cs
  eflags := r.eflags
  ss := r.ss
  oldsigmask := oldsigmask
  asmcode := asmcode

/-- How `checksignal` ends: back to user mode (with the frame it has built, if
any), in `doexit`, or stopped.  Nothing in the source wakes a stopped task, so
the signals it has not looked at are lost. -/
inductive Checked where
  | ret (t : Task) (r : Regs) (frame : Option Sigcontext)
  | exit (t : Task) (exitcode : Nat)
  | stopped (t : Task) (signo : Nat)

/-- The loop of `checksignal` over the signals that were active when it began.
`frameok` says whether `verw` accepts the place for the frame.  A slot of
`sigdflact` without a function is a jump to address 0, which ends in an
unhandled page fault of the kernel: `none`. -/
def checkActive (frameok : Bool) : List Nat → Task → Regs → Option Checked
  | [], t, r => some (.ret t r none)
  | signo :: active, t, r =>
      let t := { t with sigset := t.sigset.del signo }
      let sa := t.sigvec signo
      if t.isinit && signo != SIGCHLD then checkActive frameok active t r
      -- an ignored SIGCHLD also reaps the children, which leaves the task as it is
      else if sa.func == SIGXIGN then checkActive frameok active t r
      else if sa.func == SIGXDFL then
        match sigdflact signo with
        | some .ignore => checkActive frameok active t r
        | some .terminate => some (.exit t signo)
        | some .stop =>
            some (.stopped { t with state := .stop } signo)
        | none => none
      else if !frameok then some (.exit t SIGSEGV)
      else
        let frame := setupframe r signo t.sigmask
        let sa' := if sa.flags &&& SAONESHOT ≠ 0 then { sa with func := SIGXDFL } else sa
        let t := { t with
          sigvec := t.sigvec.set signo sa'
          sigmask := t.sigmask.addSet sa.mask }
        some (.ret t { r with esp := r.esp - sigcontextSize, eip := sa.func } (some frame))

/-- `checksignal`, called on every return to user mode. -/
def checksignal (frameok : Bool) (t : Task) (r : Regs) : Option Checked :=
  if t.isidle then some (.ret t r none)
  else checkActive frameok t.unmaskedsig.signals t r

/-! ## Fork and exec -/

/-- The signal part of `task_t::clone`. -/
def Task.clone (t : Task) : Task where
  isidle := false
  isinit := false
  state := .run
  sigset := Sigset.clear
  sigmask := Sigset.clear
  sigvec := t.sigvec
  kont := .none

/-- The signal part of `flush()` in `sysexecve`. -/
def Task.flush (t : Task) : Task :=
  { t with sigset := Sigset.clear, sigvec := t.sigvec.clearonexec }

end Unixlite.Kern
