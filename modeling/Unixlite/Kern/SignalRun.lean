import Unixlite.Verified.Run
import Unixlite.Kern.Signal

/-!
# Signal masks over whole runs

The tasks of `Unixlite.Kern.Signal` put together into one system.  An event is
one stretch of kernel code that runs without sleeping: a system call of one
task (with whatever the task left in user memory), the return to user mode, a
trap, a signal posted by somebody else, or the end of a wait.

Every writer of `sigmask` refuses or drops SIGKILL and SIGSTOP, except
`syssigreturn`, whose `del(SIGKILL, SIGSTOP)` leaves the set as it is
(`del2_kill_stop`).
-/

namespace Unixlite.Kern

open Unixlite.Verified.Run
open Sigset
open Option

/-! ## The system -/

/-- What a running task can do to its own signal state. -/
inductive Call where
  | sigprocmask (how : Int) (set : Except Int Sigset) (oset : Option Int)
  | ssetmask (newmask : BitVec 32)
  | sigsuspend (bits : BitVec 32)
  | signal (signo : Nat) (func : BitVec 32) (e : Int)
  | sigaction (signo : Nat) (act : Option (Except Int Sigact)) (oact : Option Int) (e : Int)
  | sigreturn (r : Regs) (sc : Option Sigcontext) (eipok : Bool)
  | rettouser (frameok : Bool) (r : Regs)
  | trap (signo : Nat)
  | exec
  /-- Any other call that sleeps, and its wait being interruptible or not. -/
  | sleep (interruptible : Bool)
  | exit

inductive Event where
  | call (tid : Nat) (c : Call)
  /-- The task is scheduled again inside `syssigsuspend`. -/
  | resume (tid : Nat)
  | fork (tid child : Nat)
  | post (tid signo : Nat)
  /-- A wait queue other than the one of `syssigsuspend` is signalled. -/
  | wakeup (tid : Nat)
  | reap (tid : Nat)

/-- The tasks by number, the zombies included. -/
abbrev Sys := Nat → Option Task

def Sys.put (s : Sys) (tid : Nat) (t : Option Task) : Sys :=
  fun i => if i = tid then t else s i

/-- `doexit` as far as the signal state goes. -/
def Task.doexit (t : Task) : Task := { t with state := .zombie }

/-- One call of a running task; `none` when it cannot happen. -/
def Task.call (t : Task) : Call → Option Task
  | .sigprocmask how set oset => some (syssigprocmask t how set oset).2
  | .ssetmask newmask => some (sysssetmask t newmask).2
  | .sigsuspend bits => some (syssigsuspend t bits).2
  | .signal signo func e => some (syssignal t signo func e).2
  | .sigaction signo act oact e => some (syssigaction t signo act oact e).2
  | .sigreturn r sc eipok =>
      match syssigreturn t r sc eipok with
      | .ok (_, t', _) => some t'
      | .error t' => some t'.doexit
  | .rettouser frameok r =>
      match checksignal frameok t r with
      | some (.ret t' _ _) => some t'
      | some (.exit t' _) => some t'.doexit
      | some (.stopped t' _) => some t'
      | none => none
  | .trap signo => if validsig signo then some (t.force signo) else none
  | .exec => some t.flush
  | .sleep interruptible =>
      if !interruptible then some { t with state := .sleep }
      else if t.hassig then some t
      else some { t with state := .wait }
  | .exit => some t.doexit

/-- The rest of `syssigsuspend`, once the task runs again. -/
def Task.resume (t : Task) : Option Task :=
  match t.kont with
  | .sigsuspend oldmask => some (sigsuspendReturn t oldmask).2
  | .none => none

/-- The task is running, and not inside `syssigsuspend`. -/
def Task.free (t : Task) : Prop := t.state = .run ∧ t.kont = .none

instance (t : Task) : Decidable t.free := inferInstanceAs (Decidable (_ ∧ _))

/-- One event of the system; `none` when it cannot happen. -/
def step (s : Sys) : Event → Option Sys
  | .call tid c => do
      let t ← s tid
      if t.free then return s.put tid (← t.call c) else none
  | .resume tid => do
      let t ← s tid
      if t.state = .run then return s.put tid (← t.resume) else none
  | .fork tid child => do
      let t ← s tid
      if t.free ∧ s child = none then return s.put child t.clone else none
  | .post tid signo => do
      let t ← s tid
      if validsig signo then return s.put tid (t.post signo) else none
  | .wakeup tid => do
      let t ← s tid
      if (t.state = .sleep ∨ t.state = .wait) ∧ t.kont = .none then
        return s.put tid (some { t with state := .run })
      else none
  | .reap tid => do
      let t ← s tid
      if t.state = .zombie then return s.put tid none else none

/-- A task as the boot code leaves it: nothing pending, nothing masked, every
action the default one. -/
def bootTask (isidle isinit : Bool) : Task where
  isidle := isidle
  isinit := isinit
  state := .run
  sigset := clear
  sigmask := clear
  sigvec := fun _ => Sigact.zero
  kont := .none

/-- `idletask` is task 0, `inittask` is task 1. -/
def boot : Sys
  | 0 => some (bootTask true false)
  | 1 => some (bootTask false true)
  | _ => none

/-! ## Masks without SIGKILL and SIGSTOP -/

/-- No task masks SIGKILL or SIGSTOP. -/
def MaskOk (s : Sys) : Prop :=
  ∀ tid t, s tid = some t →
    t.sigmask.contain SIGKILL = false ∧ t.sigmask.contain SIGSTOP = false

/-- A `sigreturn` whose frame can be read finds neither SIGKILL nor SIGSTOP in
the mask saved there. -/
def SigreturnOk (s : Sys) : Event → Prop
  | .call tid (.sigreturn _ (some sc) _) =>
      ∀ t, s tid = some t → t.free →
        sc.oldsigmask.contain SIGKILL = false ∧ sc.oldsigmask.contain SIGSTOP = false
  | _ => True

/-! ## The invariant -/

/-- Everything that can end up in a signal mask is free of SIGKILL and
SIGSTOP: the mask, the masks of the actions and the mask a `sigsuspend` will
put back. -/
structure Task.Safe (t : Task) : Prop where
  sigmask : t.sigmask.Safe
  sigvec : ∀ signo, (t.sigvec signo).mask.Safe
  kont : ∀ oldmask, t.kont = .sigsuspend oldmask → oldmask.Safe

/-- The invariant of the system. -/
def Inv (s : Sys) : Prop := ∀ tid t, s tid = some t → t.Safe

theorem Inv.maskOk {s : Sys} (h : Inv s) : MaskOk s :=
  fun tid t ht => (h tid t ht).sigmask

variable {t u : Task}

theorem Inv.put {s : Sys} (h : Inv s) (tid : Nat) (ht : t.Safe) : Inv (s.put tid (some t)) := by
  intro i u hu
  by_cases hi : i = tid
  · simp only [Sys.put, hi, if_true, some.injEq] at hu
    exact hu ▸ ht
  · simp only [Sys.put, hi, if_false] at hu
    exact h i u hu

/-! ### Actions -/

private theorem sigvec_set_safe {vec : Sigvec} (h : ∀ signo, (vec signo).mask.Safe)
    (signo : Nat) {sa : Sigact} (hsa : sa.mask.Safe) :
    ∀ i, (vec.set signo sa i).mask.Safe := by
  intro i
  unfold Sigvec.set
  split
  · exact hsa
  · exact h i

private theorem clearonexec_safe (vec : Sigvec) (signo : Nat) :
    (vec.clearonexec signo).mask.Safe := by
  simp [Sigvec.clearonexec, safe_clear]

/-- Whatever leaves masks, actions and the continuation alone keeps a task
safe. -/
theorem Task.Safe.of_eq (h : t.Safe) (hmask : u.sigmask = t.sigmask)
    (hvec : u.sigvec = t.sigvec) (hkont : u.kont = t.kont) : u.Safe where
  sigmask := hmask ▸ h.sigmask
  sigvec := hvec ▸ h.sigvec
  kont := hkont ▸ h.kont

/-- A new mask. -/
theorem Task.Safe.setMask (h : t.Safe) {m : Sigset} (hm : m.Safe) :
    ({ t with sigmask := m } : Task).Safe where
  sigmask := hm
  sigvec := h.sigvec
  kont := h.kont

/-- A new action. -/
theorem Task.Safe.setAction (h : t.Safe) (signo : Nat) {sa : Sigact}
    (hsa : sa.mask.Safe) : ({ t with sigvec := t.sigvec.set signo sa } : Task).Safe where
  sigmask := h.sigmask
  sigvec := sigvec_set_safe h.sigvec signo hsa
  kont := h.kont

/-! ### Posting -/

/-- `post` touches only the pending set and the scheduling state. -/
theorem post_frame (t : Task) (signo : Nat) :
    (t.post signo).sigmask = t.sigmask ∧ (t.post signo).sigvec = t.sigvec ∧
      (t.post signo).kont = t.kont := by
  unfold Task.post
  dsimp only
  split_ifs <;> exact ⟨rfl, rfl, rfl⟩

theorem Task.Safe.post (h : t.Safe) (signo : Nat) : (t.post signo).Safe := by
  obtain ⟨hmask, hvec, hkont⟩ := post_frame t signo
  exact h.of_eq hmask hvec hkont

theorem Task.Safe.force (h : t.Safe) (signo : Nat) : (t.force signo).Safe := by
  have hdel : ({ t with sigmask := t.sigmask.del signo } : Task).Safe :=
    h.setMask (h.sigmask.del signo)
  refine Task.Safe.post ?_ signo
  split
  · exact hdel.setAction signo (h.sigvec signo)
  · exact hdel

/-! ### System calls -/

theorem syssigprocmask_safe (h : t.Safe) (how : Int) (set : Except Int Sigset)
    (oset : Option Int) : (syssigprocmask t how set oset).2.Safe := by
  unfold syssigprocmask
  split
  · exact h
  · cases set with
    | error e => exact h
    | ok set =>
        dsimp only
        split_ifs with hinv
        · exact h
        all_goals
          have hset : set.Safe :=
            (invalid_eq_false_iff set).mp (by simpa using hinv)
        · exact h.setMask (h.sigmask.addSet hset)
        · exact h.setMask (h.sigmask.delSet set)
        · exact h.setMask hset
        · exact h

/-- The mask `sysssetmask` tests is the mask `sigset_t::invalid` tests. -/
theorem safe_of_ssetmask {m : BitVec 32}
    (h : ¬ (m &&& (sigbit SIGKILL ||| sigbit SIGSTOP) ≠ 0)) : Safe ⟨m⟩ := by
  have hzero : m &&& (sigbit SIGKILL ||| sigbit SIGSTOP) = 0 := by simpa using h
  have h8 := congrArg (fun v => BitVec.getLsbD v 8) hzero
  have h18 := congrArg (fun v => BitVec.getLsbD v 18) hzero
  rw [safe_iff]
  constructor
  · simpa [sigbit, SIGKILL, SIGSTOP] using h8
  · simpa [sigbit, SIGKILL, SIGSTOP] using h18

theorem sysssetmask_safe (h : t.Safe) (newmask : BitVec 32) : (sysssetmask t newmask).2.Safe := by
  unfold sysssetmask
  split
  · exact h
  · next hmask => exact h.setMask (safe_of_ssetmask hmask)

theorem syssigsuspend_safe (h : t.Safe) (bits : BitVec 32) : (syssigsuspend t bits).2.Safe := by
  unfold syssigsuspend
  dsimp only
  split
  · exact h
  · next hinv =>
      have hnew : Safe ⟨bits⟩ :=
        (invalid_eq_false_iff _).mp (by simpa using hinv)
      split
      · exact h
      · refine ⟨hnew, h.sigvec, ?_⟩
        rintro oldmask ⟨⟩
        exact h.sigmask

theorem sigsuspendReturn_safe (h : t.Safe) {oldmask : Sigset}
    (hold : oldmask.Safe) : (sigsuspendReturn t oldmask).2.Safe where
  sigmask := hold
  sigvec := h.sigvec
  kont := by rintro _ ⟨⟩

theorem checkpending_safe (h : t.Safe) (sa : Sigact) (signo : Nat) :
    (checkpending t sa signo).Safe := by
  unfold checkpending
  split_ifs <;> first | exact h | exact h.of_eq rfl rfl rfl

theorem syssignal_safe (h : t.Safe) (signo : Nat) (func : BitVec 32) (e : Int) :
    (syssignal t signo func e).2.Safe := by
  unfold syssignal
  split_ifs
  · exact h
  · exact h
  · exact checkpending_safe (h.setAction signo safe_clear) _ _

theorem syssigaction_safe (h : t.Safe) (signo : Nat)
    (act : Option (Except Int Sigact)) (oact : Option Int) (e : Int) :
    (syssigaction t signo act oact e).2.Safe := by
  unfold syssigaction
  split
  · exact h
  · next hsig =>
      simp only [validsig, Bool.or_eq_true, Bool.not_eq_true', not_or,
        decide_eq_true_eq] at hsig
      obtain ⟨⟨hvalid, hkill⟩, hstop⟩ := hsig
      have hpos : 0 < signo := by
        simp only [Bool.not_eq_false, Bool.and_eq_true, decide_eq_true_eq] at hvalid
        exact hvalid.1
      split
      · exact h
      · match act with
        | none => exact h
        | some (.error _) => exact h
        | some (.ok act) =>
            dsimp only
            split_ifs with hfunc hinv hflags
            · exact h
            · exact h
            · exact checkpending_safe (h.setAction signo safe_clear) _ _
            · have hmask : act.mask.Safe :=
                (invalid_eq_false_iff _).mp (by simpa using hinv)
              exact checkpending_safe
                (h.setAction signo (hmask.add hpos hkill hstop)) _ _

/-! ### Delivery -/

/-- The task `checksignal` leaves, however it ends. -/
def Checked.task : Checked → Task
  | .ret t _ _ => t
  | .exit t _ => t
  | .stopped t _ => t

theorem checkActive_safe (frameok : Bool) (active : List Nat) (h : t.Safe)
    (r : Regs) {c : Checked} (hc : checkActive frameok active t r = some c) :
    c.task.Safe := by
  induction active generalizing t with
  | nil => cases hc; exact h
  | cons signo active ih =>
      have hdel : ({ t with sigset := t.sigset.del signo } : Task).Safe :=
        h.of_eq rfl rfl rfl
      unfold checkActive at hc
      dsimp only at hc
      split_ifs at hc
      · exact ih hdel hc
      · exact ih hdel hc
      · split at hc
        · exact ih hdel hc
        · cases hc; exact hdel
        · cases hc; exact h.of_eq rfl rfl rfl
        · cases hc
      · cases hc; exact hdel
      all_goals
        cases hc
        exact ⟨h.sigmask.addSet (h.sigvec signo),
          sigvec_set_safe h.sigvec signo (h.sigvec signo), h.kont⟩

theorem checksignal_safe (frameok : Bool) (h : t.Safe) (r : Regs) {c : Checked}
    (hc : checksignal frameok t r = some c) : c.task.Safe := by
  unfold checksignal at hc
  split at hc
  · cases hc; exact h
  · exact checkActive_safe frameok _ h r hc

/-! ## One event -/

theorem Task.Safe.doexit (h : t.Safe) : t.doexit.Safe := h.of_eq rfl rfl rfl

theorem Task.Safe.clone (h : t.Safe) : t.clone.Safe where
  sigmask := safe_clear
  sigvec := h.sigvec
  kont := by rintro _ ⟨⟩

theorem Task.Safe.flush (h : t.Safe) : t.flush.Safe where
  sigmask := h.sigmask
  sigvec := clearonexec_safe t.sigvec
  kont := h.kont

/-- What `syssigreturn` leaves in the mask is the mask of the user's frame. -/
theorem syssigreturn_call (t : Task) (r : Regs) (sc : Sigcontext) (eipok : Bool) :
    ∃ u, t.call (.sigreturn r (some sc) eipok) = some u ∧ u.sigmask = sc.oldsigmask ∧
      u.sigvec = t.sigvec ∧ u.kont = t.kont := by
  cases eipok <;> simp [Task.call, syssigreturn, del2_kill_stop, Task.doexit]

/-- A call keeps its task safe, provided a `sigreturn` is given a safe mask. -/
theorem call_safe (h : t.Safe) {c : Call}
    (hok : ∀ r sc eipok, c = .sigreturn r (some sc) eipok → sc.oldsigmask.Safe)
    (hc : t.call c = some u) : u.Safe := by
  cases c with
  | sigprocmask how set oset => cases hc; exact syssigprocmask_safe h how set oset
  | ssetmask newmask => cases hc; exact sysssetmask_safe h newmask
  | sigsuspend bits => cases hc; exact syssigsuspend_safe h bits
  | signal signo func e => cases hc; exact syssignal_safe h signo func e
  | sigaction signo act oact e => cases hc; exact syssigaction_safe h signo act oact e
  | sigreturn r sc eipok =>
      cases sc with
      | none => cases hc; exact h.doexit
      | some sc =>
          obtain ⟨v, hv, hmask, hvec, hkont⟩ := syssigreturn_call t r sc eipok
          obtain rfl : v = u := by simpa [hv] using hc
          exact ⟨hmask ▸ hok r sc eipok rfl, hvec ▸ h.sigvec, hkont ▸ h.kont⟩
  | rettouser frameok r =>
      simp only [Task.call] at hc
      split at hc
      · next hcheck => cases hc; exact checksignal_safe frameok h r hcheck
      · next hcheck =>
          cases hc
          exact Task.Safe.doexit (checksignal_safe frameok h r hcheck)
      · next hcheck => cases hc; exact checksignal_safe frameok h r hcheck
      · cases hc
  | trap signo =>
      simp only [Task.call] at hc
      split at hc
      · cases hc; exact h.force signo
      · cases hc
  | exec => cases hc; exact h.flush
  | sleep interruptible =>
      simp only [Task.call] at hc
      split_ifs at hc <;> cases hc
      · exact h.of_eq rfl rfl rfl
      · exact h
      · exact h.of_eq rfl rfl rfl
  | exit => cases hc; exact h.doexit

theorem resume_safe (h : t.Safe) (hu : t.resume = some u) : u.Safe := by
  unfold Task.resume at hu
  split at hu
  · next oldmask hkont => cases hu; exact sigsuspendReturn_safe h (h.kont oldmask hkont)
  · cases hu

/-- **Step lemma.**  Every event keeps the invariant, provided a `sigreturn`
is given a safe mask. -/
theorem step_inv (s : Sys) (a : Event) (s' : Sys) (h : Inv s) (hok : SigreturnOk s a)
    (hs : step s a = some s') : Inv s' := by
  cases a with
  | call tid c =>
      simp only [step, bind_eq_bind, bind_eq_some_iff] at hs
      obtain ⟨t, ht, hs⟩ := hs
      split at hs
      · next hfree =>
          obtain ⟨u, hu, hs⟩ := bind_eq_some_iff.mp hs
          cases hs
          refine h.put tid (call_safe (h tid t ht) ?_ hu)
          rintro r sc eipok rfl
          exact hok t ht hfree
      · cases hs
  | resume tid =>
      simp only [step, bind_eq_bind, bind_eq_some_iff] at hs
      obtain ⟨t, ht, hs⟩ := hs
      split at hs
      · obtain ⟨u, hu, hs⟩ := bind_eq_some_iff.mp hs
        cases hs
        exact h.put tid (resume_safe (h tid t ht) hu)
      · cases hs
  | fork tid child =>
      simp only [step, bind_eq_bind, bind_eq_some_iff] at hs
      obtain ⟨t, ht, hs⟩ := hs
      split at hs
      · cases hs
        exact h.put child (h tid t ht).clone
      · cases hs
  | post tid signo =>
      simp only [step, bind_eq_bind, bind_eq_some_iff] at hs
      obtain ⟨t, ht, hs⟩ := hs
      split at hs
      · cases hs
        exact h.put tid ((h tid t ht).post signo)
      · cases hs
  | wakeup tid =>
      simp only [step, bind_eq_bind, bind_eq_some_iff] at hs
      obtain ⟨t, ht, hs⟩ := hs
      split at hs
      · cases hs
        exact h.put tid ((h tid t ht).of_eq rfl rfl rfl)
      · cases hs
  | reap tid =>
      simp only [step, bind_eq_bind, bind_eq_some_iff] at hs
      obtain ⟨t, ht, hs⟩ := hs
      split at hs
      · cases hs
        intro i u hu
        by_cases hi : i = tid
        · simp [Sys.put, hi] at hu
        · simp only [Sys.put, hi, if_false] at hu
          exact h i u hu
      · cases hs

theorem bootTask_safe (isidle isinit : Bool) : (bootTask isidle isinit).Safe where
  sigmask := safe_clear
  sigvec := fun _ => safe_clear
  kont := by rintro _ ⟨⟩

theorem boot_inv : Inv boot := by
  intro tid t ht
  unfold boot at ht
  split at ht
  · cases ht; exact bootTask_safe _ _
  · cases ht; exact bootTask_safe _ _
  · cases ht

/-- A `sigreturn` that leaves good masks has been given a good mask. -/
theorem sigreturnOk_of_step (s : Sys) (a : Event)
    (h : ∀ s', step s a = some s' → MaskOk s') : SigreturnOk s a := by
  unfold SigreturnOk
  split
  · next tid r sc eipok =>
      intro t ht hfree
      obtain ⟨u, hu, hmask, -, -⟩ := syssigreturn_call t r sc eipok
      have hstep : step s (.call tid (.sigreturn r (some sc) eipok)) =
          some (s.put tid (some u)) := by
        simp [step, ht, hfree, hu]
      have hsafe := h _ hstep tid u (by simp [Sys.put])
      rwa [hmask] at hsafe
  · trivial

/-! ## Runs -/

/-- In a run of any number of tasks from boot, no task ever masks SIGKILL or
SIGSTOP exactly if no `sigreturn` of the run is handed a frame that does. -/
theorem run_maskOk_iff (as : List Event) :
    Always step MaskOk boot as ↔ Each step SigreturnOk boot as := by
  constructor
  · intro h
    exact each_of_always (fun s a _ hs => sigreturnOk_of_step s a hs) h
  · intro h
    have hinv : Always step Inv boot as := always_of_each step_inv boot_inv h
    exact hinv.mono fun _ => Inv.maskOk

/-- A frame like the one `setupframe` builds, but with SIGKILL in the mask. -/
def killFrame : Sigcontext :=
  { setupframe ⟨0, 0, 0, 0, 0, 0, 0, 0, 0, 0, 0, 0, 0, 0, 0, 0, 0⟩ 1 clear with
    oldsigmask := ⟨0x100⟩ }

/-- One `sigreturn` of the init task with that frame blocks SIGKILL. -/
theorem sigreturn_masks_sigkill :
    ¬ ∀ as : List Event, Always step MaskOk boot as := by
  intro h
  have hrun := (h [.call 1 (.sigreturn
    ⟨0, 0, 0, 0, 0, 0, 0, 0, 0, 0, 0, 0, 0, 0, 0, 0, 0⟩ (some killFrame) true)]).2
  have hkill := (hrun _ rfl 1 _ rfl).1
  revert hkill
  decide

end Unixlite.Kern
