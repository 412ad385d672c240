import Unixlite.Kern.SignalRun

/-!
# Waiting for a signal

`waitq_t::wait` first tests `hassig` and then goes to sleep, and
`syssigsuspend` changes the mask before it calls `wait`.  Here the two halves
are separate steps of a machine that also says where in the kernel each task
stands, so that everything the rest of the kernel may do in between is a step
of its own.

The kernel switches tasks in `waitsleep` and in `rettouser` only.  A hardware
interrupt that hits the kernel calls `wakeup` and requests softirqs; the
softirqs, which post signals, run in `rettouser`.
-/

namespace Unixlite.Kern.Wait

open Unixlite.Verified.Run Option
open BitVec Bool

/-! ## The machine -/

/-- Where the kernel code of a task stands. -/
inductive Place where
  | user
  /-- In a system call, a trap, or an interrupt that hit user mode. -/
  | kernel
  /-- At the call of `waitq_t::wait`. -/
  | wait
  /-- In `waitq_t::wait`, between the test and the sleep. -/
  | tested
  /-- `waitsleep` has set the state and the task has not run since. -/
  | slept
  /-- In `rettouser`, up to the end of `checksignal`. -/
  | ret
deriving DecidableEq, Repr

structure Machine where
  tasks : Sys
  place : Nat → Place
  curr : Nat

inductive Event where
  | enter
  /-- A call of `curr` that neither waits nor returns to user mode. -/
  | call (c : Call)
  /-- `syssigsuspend` up to its `waitq.wait()`. -/
  | sigsuspend (bits : BitVec 32)
  /-- The rest of `syssigsuspend`. -/
  | resume
  /-- A call gets to a `waitq.wait()`. -/
  | wait
  /-- `if (!curr->hassig())` of `waitq_t::wait`. -/
  | hassig
  /-- `waitsleep(TWAIT)` of `waitq_t::wait`, up to `sched()`. -/
  | waitsleep
  /-- `waitq_t::sleep`, up to `sched()`. -/
  | sleep
  /-- `sched()` switches to the task. -/
  | sched (tid : Nat)
  | leave
  | checksignal (frameok : Bool) (r : Regs)
  | post (tid signo : Nat)
  /-- `wakeup`, by the kernel or by an interrupt. -/
  | wakeup (tid : Nat)
  | fork (child : Nat)
  | reap (tid : Nat)

/-- `task_t::wakeup`. -/
def wakeup (t : Task) : Task :=
  if t.state ≠ .sleep ∧ t.state ≠ .wait then t else { t with state := .run }

/-- `syssigsuspend` up to its `waitq.wait()`: the task and where it stands. -/
def sigsuspend (t : Task) (bits : BitVec 32) : Task × Place :=
  let newmask : Sigset := ⟨bits⟩
  if newmask.invalid then (t, .kernel)
  else ({ t with sigmask := newmask, kont := .sigsuspend t.sigmask }, .wait)

/-- The calls that are one step of `curr`. -/
def oneStep : Call → Bool
  | .sigsuspend _ | .sleep _ | .rettouser _ _ => false
  | _ => true

namespace Machine

/-- Task `tid` becomes `t` and stands at `p`. -/
def put (m : Machine) (tid : Nat) (t : Task) (p : Place) : Machine :=
  { m with tasks := m.tasks.put tid (some t), place := fun i => if i = tid then p else m.place i }

/-- Another task, which does not run, becomes `t`. -/
def touch (m : Machine) (tid : Nat) (t : Task) : Machine :=
  { m with tasks := m.tasks.put tid (some t) }

/-- `curr`, if it stands at `p`. -/
def currAt (m : Machine) (p : Place) : Option Task :=
  if m.place m.curr = p then m.tasks m.curr else none

end Machine

/-- After a call or `checksignal` the task stands at `p`, unless it has ended
or stopped, which are `waitsleep` of a queue that is never signalled. -/
def after (t : Task) (p : Place) : Place := if t.state = .run then p else .slept

/-- One event; `none` when it cannot happen. -/
def step (m : Machine) : Event → Option Machine
  | .enter => do
      let t ← m.currAt .user
      return m.put m.curr t .kernel
  | .call c => do
      let t ← m.currAt .kernel
      if t.free ∧ oneStep c then
        let t' ← t.call c
        return m.put m.curr t' (after t' .kernel)
      else none
  | .sigsuspend bits => do
      let t ← m.currAt .kernel
      if t.free then return m.put m.curr (sigsuspend t bits).1 (sigsuspend t bits).2
      else none
  | .resume => do
      let t ← m.currAt .kernel
      return m.put m.curr (← t.resume) .kernel
  | .wait => do
      let t ← m.currAt .kernel
      if t.free then return m.put m.curr t .wait else none
  | .hassig => do
      let t ← m.currAt .wait
      return m.put m.curr t (if t.hassig then .kernel else .tested)
  | .waitsleep => do
      let t ← m.currAt .tested
      return m.put m.curr { t with state := .wait } .slept
  | .sleep => do
      let t ← m.currAt .kernel
      return m.put m.curr { t with state := .sleep } .slept
  | .sched tid => do
      let t ← m.tasks tid
      if (m.place m.curr = .slept ∨ m.place m.curr = .ret) ∧ t.state = .run then
        let p := if m.place tid = .slept then .kernel else m.place tid
        return { m.put tid t p with curr := tid }
      else none
  | .leave => do
      let t ← m.currAt .kernel
      if t.free then return m.put m.curr t .ret else none
  | .checksignal frameok r => do
      let t ← m.currAt .ret
      let t' ← t.call (.rettouser frameok r)
      return m.put m.curr t' (after t' .user)
  | .post tid signo => do
      -- by a system call, a trap or `checksignal` of `curr`, or by a softirq
      let t ← m.tasks tid
      if (m.place m.curr = .kernel ∨ m.place m.curr = .ret) ∧ validsig signo then
        return m.touch tid (t.post signo)
      else none
  | .wakeup tid => do
      let t ← m.tasks tid
      return m.touch tid (wakeup t)
  | .fork child => do
      let t ← m.currAt .kernel
      if t.free ∧ m.tasks child = none then return m.put child t.clone .user else none
  | .reap tid => do
      let _ ← m.currAt .kernel
      let t ← m.tasks tid
      if t.state = .zombie then return { m with tasks := m.tasks.put tid none } else none

/-- The machine when the idle task is launched. -/
def launch : Machine where
  tasks := boot
  place := fun _ => .user
  curr := 0

/-! ## No missed signal -/

/-- What `checkwait` asserts: no task in TWAIT has a signal that is pending and
not blocked. -/
def NoMissed (m : Machine) : Prop :=
  ∀ tid t, m.tasks tid = some t → t.state = .wait → t.hassig = false

/-- What is known of task `tid`, standing at `p`. -/
structure TaskOk (curr tid : Nat) (t : Task) (p : Place) : Prop where
  wait : t.state = .wait → t.hassig = false
  /-- Nothing happens to the task between the test and the sleep. -/
  tested : p = .tested → tid = curr ∧ t.state = .run ∧ t.hassig = false
  running : p ≠ .slept → t.state = .run

/-- The invariant of the machine. -/
def Inv (m : Machine) : Prop :=
  ∀ tid t, m.tasks tid = some t → TaskOk m.curr tid t (m.place tid)

variable {m : Machine} {x : Sigset} {a curr i signo tid : Nat} {t : Task} {p : Place}

theorem Inv.noMissed (h : Inv m) : NoMissed m :=
  fun tid t ht => (h tid t ht).wait

/-! ### Single tasks -/

theorem hassig_eq_false_iff (t : Task) :
    t.hassig = false ↔
      ∀ i, t.sigset.bits.getLsbD i = true → t.sigmask.bits.getLsbD i = true := by
  have hbits : t.hassig = false ↔ t.sigset.bits &&& ~~~t.sigmask.bits = 0 := by
    simp [Task.hassig, Task.unmaskedsig, Sigset.empty]
  rw [hbits]
  constructor
  · intro hzero i hi
    have hlt : i < 32 := lt_of_getLsbD hi
    have := congrArg (fun v => BitVec.getLsbD v i) hzero
    simpa [hi, hlt] using this
  · intro h
    ext i hi
    have := h i
    simp
    exact this

/-- A signal added to the set of pending ones is the only new one. -/
theorem mem_add (h : (x.add a).bits.getLsbD i = true) : x.bits.getLsbD i = true ∨ i = a - 1 := by
  simp only [Sigset.add, sigbit, getLsbD_or, getLsbD_shiftLeft,
    or_eq_true] at h
  rcases h with h | h
  · exact .inl h
  · simp at h
    omega

theorem mem_del (h : (x.del a).bits.getLsbD i = true) : x.bits.getLsbD i = true := by
  simp only [Sigset.del, getLsbD_and, and_eq_true] at h
  exact h.1

theorem mem_del4 {b c d : Nat}
    (h : (x.del4 a b c d).bits.getLsbD i = true) : x.bits.getLsbD i = true := by
  simp only [Sigset.del4, getLsbD_and, and_eq_true] at h
  exact h.1

/-- The set `post` starts from: the signals that cancel each other are gone. -/
theorem mem_posted
    (h : (if signo = SIGKILL ∨ signo = SIGCONT then
        t.sigset.del4 SIGSTOP SIGTSTP SIGTTIN SIGTTOU
      else if signo = SIGSTOP ∨ signo = SIGTSTP ∨ signo = SIGTTIN ∨ signo = SIGTTOU then
        t.sigset.del SIGCONT
      else t.sigset).bits.getLsbD i = true) : t.sigset.bits.getLsbD i = true := by
  split_ifs at h
  · exact mem_del4 h
  · exact mem_del h
  · exact h

/-- A signal that is pending after a `post` which leaves its task waiting was
pending before, or is blocked. -/
theorem post_mem (hwait : (t.post signo).state = .wait)
    (hi : (t.post signo).sigset.bits.getLsbD i = true) :
    t.sigset.bits.getLsbD i = true ∨ t.sigmask.bits.getLsbD i = true := by
  unfold Task.post at hwait hi
  dsimp only at hwait hi
  split at hi
  · exact .inl hi
  split at hi
  · exact .inl hi
  split at hi
  · exact .inl (mem_posted hi)
  split at hi
  · exact .inl (mem_posted hi)
  next hidle hinit hign hdfl =>
  simp only [hidle, hinit, hign, hdfl, if_false, false_eq_true] at hwait
  split at hi
  · next hwake => simp [hwake] at hwait
  next hwake =>
  simp only [hwake, false_eq_true, if_false] at hwait
  rcases mem_add hi with hold | rfl
  · exact .inl (mem_posted hold)
  · right
    rw [← Sigset.contain_eq]
    simpa [hwait] using hwake

/-- `post` never leaves a task waiting for a signal it has. -/
theorem post_hassig (ht : t.hassig = false)
    (hwait : (t.post signo).state = .wait) : (t.post signo).hassig = false := by
  rw [hassig_eq_false_iff] at ht ⊢
  intro i hi
  rw [(post_frame t signo).1]
  exact (post_mem hwait hi).elim (ht i) id

/-- `post` changes the state of a task only to wake it. -/
theorem post_state (t : Task) (signo : Nat) :
    (t.post signo).state = t.state ∨ (t.post signo).state = .run := by
  unfold Task.post
  dsimp only
  split_ifs <;> simp

theorem post_run (ht : t.state = .run) (signo : Nat) : (t.post signo).state = .run := by
  rcases post_state t signo with h | h
  · rw [h, ht]
  · exact h

theorem force_run (ht : t.state = .run) (signo : Nat) : (t.force signo).state = .run := by
  refine post_run ?_ signo
  split <;> exact ht

theorem wakeup_run (ht : t.state = .run) : wakeup t = t := by
  simp [wakeup, ht]

/-- A task that `wakeup` has seen does not wait. -/
theorem wakeup_state (t : Task) : (wakeup t).state ≠ .wait := by
  unfold wakeup
  split <;> simp_all

theorem checkpending_state (t : Task) (sa : Sigact) (signo : Nat) :
    (checkpending t sa signo).state = t.state := by
  unfold checkpending
  split_ifs <;> rfl

theorem checkActive_state (frameok : Bool) (active : List Nat)
    (ht : t.state = .run) (r : Regs) {c : Checked}
    (hc : checkActive frameok active t r = some c) : c.task.state ≠ .wait := by
  induction active generalizing t with
  | nil => cases hc; simp [Checked.task, ht]
  | cons signo active ih =>
      unfold checkActive at hc
      dsimp only at hc
      split_ifs at hc
      · exact ih (t := { t with sigset := t.sigset.del signo }) ht hc
      · exact ih (t := { t with sigset := t.sigset.del signo }) ht hc
      · split at hc
        · exact ih (t := { t with sigset := t.sigset.del signo }) ht hc
        · cases hc; simp [Checked.task, ht]
        · cases hc; simp [Checked.task]
        · cases hc
      · cases hc; simp [Checked.task, ht]
      all_goals cases hc; simp [Checked.task, ht]

theorem checksignal_state (frameok : Bool) (ht : t.state = .run) (r : Regs)
    {c : Checked} (hc : checksignal frameok t r = some c) : c.task.state ≠ .wait := by
  unfold checksignal at hc
  split at hc
  · cases hc; simp [Checked.task, ht]
  · exact checkActive_state frameok _ ht r hc

/-- No call that is one step, nor the return to user mode, makes its task
wait. -/
theorem call_state {u : Task} (ht : t.state = .run) {c : Call}
    (hone : oneStep c = true ∨ ∃ frameok r, c = .rettouser frameok r)
    (hc : t.call c = some u) : u.state ≠ .wait := by
  cases c with
  | sigprocmask how set oset =>
      cases hc
      unfold syssigprocmask
      split
      · simp [ht]
      · cases set with
        | error e => simp [ht]
        | ok set => dsimp only; split_ifs <;> simp [ht]
  | ssetmask newmask => cases hc; unfold sysssetmask; split_ifs <;> simp [ht]
  | sigsuspend bits => simp [oneStep] at hone
  | signal signo func e =>
      cases hc
      unfold syssignal
      split_ifs <;> simp [ht, checkpending_state]
  | sigaction signo act oact e =>
      cases hc
      unfold syssigaction
      split_ifs
      · simp [ht]
      · simp [ht]
      · match act with
        | none => simp [ht]
        | some (.error _) => simp [ht]
        | some (.ok act) => dsimp only; split_ifs <;> simp [ht, checkpending_state]
  | sigreturn r sc eipok =>
      cases sc with
      | none => cases hc; simp [Task.doexit]
      | some sc => cases eipok <;> cases hc <;> simp [Task.doexit, ht]
  | rettouser frameok r =>
      simp only [Task.call] at hc
      split at hc
      · next hcheck => cases hc; exact checksignal_state frameok ht r hcheck
      · cases hc; simp [Task.doexit]
      · next hcheck => cases hc; exact checksignal_state frameok ht r hcheck
      · cases hc
  | trap signo =>
      simp only [Task.call] at hc
      split at hc
      · cases hc; simp [force_run ht]
      · cases hc
  | exec => cases hc; simp [Task.flush, ht]
  | sleep interruptible => simp [oneStep] at hone
  | exit => cases hc; simp [Task.doexit]

/-! ### Steps -/

theorem currAt_eq_some : m.currAt p = some t ↔ m.place m.curr = p ∧ m.tasks m.curr = some t := by
  simp [Machine.currAt]

/-- A running task that is not between the test and the sleep. -/
theorem TaskOk.run (ht : t.state = .run) (hp : p ≠ .tested) : TaskOk curr tid t p where
  wait := by simp [ht]
  tested := fun h => absurd h hp
  running := fun _ => ht

/-- A task that has been put to sleep. -/
theorem TaskOk.slept (ht : t.state = .wait → t.hassig = false) : TaskOk curr tid t .slept where
  wait := ht
  tested := by simp
  running := by simp

/-- A task after a call: it goes on, or it has ended or stopped. -/
theorem TaskOk.after (ht : t.state ≠ .wait) (hp : p ≠ .tested) : TaskOk curr tid t (after t p) := by
  unfold Wait.after
  split
  · next hrun => exact .run hrun hp
  · exact .slept fun h => absurd h ht

theorem Inv.put (h : Inv m) (ht : TaskOk m.curr tid t p) : Inv (m.put tid t p) := by
  intro i u hu
  by_cases hi : i = tid
  · subst hi
    simp only [Machine.put, Sys.put, if_true, some.injEq] at hu
    subst hu
    simpa [Machine.put] using ht
  · simp only [Machine.put, Sys.put, hi, if_false] at hu
    simpa [Machine.put, hi] using h i u hu

/-- A change of a task that stays where it is. -/
theorem Inv.touch (h : Inv m) (ht : TaskOk m.curr tid t (m.place tid)) : Inv (m.touch tid t) := by
  intro i u hu
  by_cases hi : i = tid
  · subst hi
    simp only [Machine.touch, Sys.put, if_true, some.injEq] at hu
    exact hu ▸ ht
  · simp only [Machine.touch, Sys.put, hi, if_false] at hu
    exact h i u hu

/-- The task that runs, where it stands. -/
theorem Inv.currAt (h : Inv m) (ht : m.currAt p = some t) : TaskOk m.curr m.curr t p := by
  obtain ⟨hp, htask⟩ := currAt_eq_some.mp ht
  exact hp ▸ h m.curr t htask

/-- A signal posted to any task, by kernel code that is not in `wait`. -/
theorem Inv.post (h : Inv m)
    (ht : m.tasks tid = some t) (hcurr : m.place m.curr = .kernel ∨ m.place m.curr = .ret) :
    Inv (m.touch tid (t.post signo)) := by
  have hok := h tid t ht
  refine h.touch ⟨?_, ?_, fun hp => post_run (hok.running hp) signo⟩
  · intro hwait
    rcases post_state t signo with hold | hnew
    · exact post_hassig (hok.wait (hold ▸ hwait)) hwait
    · simp [hnew] at hwait
  · intro htested
    have hself := (hok.tested htested).1
    rw [← hself, htested] at hcurr
    simp at hcurr

/-- `wakeup`, at any time: a task that runs is left alone. -/
theorem Inv.wakeup (h : Inv m) (ht : m.tasks tid = some t) : Inv (m.touch tid (Wait.wakeup t)) := by
  have hok := h tid t ht
  by_cases hrun : t.state = .run
  · rw [wakeup_run hrun]
    exact h.touch hok
  · have hslept : m.place tid = .slept := by
      by_contra hp
      exact hrun (hok.running hp)
    refine h.touch ?_
    rw [hslept]
    exact .slept fun hwait => absurd hwait (wakeup_state t)

/-- `sched()` leaves a task that is not between the test and the sleep. -/
theorem Inv.sched (h : Inv m) (ht : m.tasks tid = some t) (hrun : t.state = .run)
    (hcurr : m.place m.curr = .slept ∨ m.place m.curr = .ret) :
    Inv { m.put tid t (if m.place tid = .slept then .kernel else m.place tid) with
      curr := tid } := by
  have hnone : ∀ i u, m.tasks i = some u → m.place i ≠ .tested := by
    intro i u hu htested
    have hself := ((h i u hu).tested htested).1
    rw [← hself, htested] at hcurr
    simp at hcurr
  intro i u hu
  by_cases hi : i = tid
  · subst hi
    simp only [Machine.put, Sys.put, if_true, some.injEq] at hu
    subst hu
    refine TaskOk.run hrun ?_
    simp only [Machine.put, if_true]
    split
    · simp
    · exact hnone i t ht
  · simp only [Machine.put, Sys.put, hi, if_false] at hu
    have hok := h i u hu
    simp only [Machine.put, hi, if_false]
    exact ⟨hok.wait, fun htested => absurd htested (hnone i u hu), hok.running⟩

theorem step_inv {m' : Machine} {e : Event} (h : Inv m) (hstep : step m e = some m') : Inv m' := by
  cases e with
  | enter =>
      obtain ⟨t, ht, hm⟩ := bind_eq_some_iff.mp hstep
      cases hm
      exact h.put (.run ((h.currAt ht).running (by simp)) (by simp))
  | call c =>
      obtain ⟨t, ht, hm⟩ := bind_eq_some_iff.mp hstep
      split at hm
      · next hfree =>
          obtain ⟨t', hcall, hm⟩ := bind_eq_some_iff.mp hm
          cases hm
          exact h.put (.after (call_state hfree.1.1 (.inl hfree.2) hcall) (by simp))
      · cases hm
  | sigsuspend bits =>
      obtain ⟨t, ht, hm⟩ := bind_eq_some_iff.mp hstep
      split at hm
      · next hfree =>
          cases hm
          refine h.put ?_
          unfold sigsuspend
          dsimp only
          split <;> exact .run hfree.1 (by simp)
      · cases hm
  | resume =>
      obtain ⟨t, ht, hm⟩ := bind_eq_some_iff.mp hstep
      obtain ⟨t', hres, hm⟩ := bind_eq_some_iff.mp hm
      cases hm
      have hrun := (h.currAt ht).running (by simp)
      refine h.put (.run ?_ (by simp))
      unfold Task.resume at hres
      split at hres
      · cases hres; exact hrun
      · cases hres
  | wait | leave =>
      obtain ⟨t, ht, hm⟩ := bind_eq_some_iff.mp hstep
      split at hm
      · next hfree => cases hm; exact h.put (.run hfree.1 (by simp))
      · cases hm
  | hassig =>
      obtain ⟨t, ht, hm⟩ := bind_eq_some_iff.mp hstep
      cases hm
      have hrun := (h.currAt ht).running (by simp)
      cases hsig : t.hassig with
      | true => simpa using h.put (.run hrun (by simp))
      | false =>
          simpa using h.put
            ⟨by simp [hsig], fun _ => ⟨rfl, hrun, hsig⟩, fun _ => hrun⟩
  | waitsleep =>
      obtain ⟨t, ht, hm⟩ := bind_eq_some_iff.mp hstep
      cases hm
      -- the test is still good: the task is `curr` and nobody else has run
      exact h.put (.slept fun _ => ((h.currAt ht).tested rfl).2.2)
  | sleep =>
      obtain ⟨t, ht, hm⟩ := bind_eq_some_iff.mp hstep
      cases hm
      exact h.put (.slept (by simp))
  | sched tid =>
      obtain ⟨t, ht, hm⟩ := bind_eq_some_iff.mp hstep
      split at hm
      · next hgo => cases hm; exact h.sched ht hgo.2 hgo.1
      · cases hm
  | checksignal frameok r =>
      obtain ⟨t, ht, hm⟩ := bind_eq_some_iff.mp hstep
      obtain ⟨t', hcall, hm⟩ := bind_eq_some_iff.mp hm
      cases hm
      have hrun := (h.currAt ht).running (by simp)
      exact h.put (.after (call_state hrun (.inr ⟨_, _, rfl⟩) hcall) (by simp))
  | post tid signo =>
      obtain ⟨t, ht, hm⟩ := bind_eq_some_iff.mp hstep
      split at hm
      · next hgo => cases hm; exact h.post ht hgo.1
      · cases hm
  | wakeup tid =>
      obtain ⟨t, ht, hm⟩ := bind_eq_some_iff.mp hstep
      cases hm
      exact h.wakeup ht
  | fork child =>
      obtain ⟨t, ht, hm⟩ := bind_eq_some_iff.mp hstep
      split at hm
      · cases hm; exact h.put (.run rfl (by simp))
      · cases hm
  | reap tid =>
      obtain ⟨c, hc, hm⟩ := bind_eq_some_iff.mp hstep
      obtain ⟨t, ht, hm⟩ := bind_eq_some_iff.mp hm
      split at hm
      · cases hm
        intro i u hu
        by_cases hi : i = tid
        · simp [Sys.put, hi] at hu
        · simp only [Sys.put, hi, if_false] at hu
          exact h i u hu
      · cases hm

/-- The machine is launched with no task waiting. -/
theorem launch_inv : Inv launch := by
  intro tid t ht
  refine .run ?_ (by simp [launch])
  match tid, ht with
  | 0, ht => cases ht; rfl
  | 1, ht => cases ht; rfl

/-- **No missed signal.**  Whatever the tasks, the softirqs and the interrupts
do, and in whatever order, no task ever waits in TWAIT with a signal that is
pending and not blocked. -/
theorem noMissed_always (es : List Event) : Always step NoMissed launch es :=
  (always_of_step (fun _ _ _ h hstep => step_inv h hstep) es launch_inv).mono
    fun _ h => h.noMissed

/-- A task does get to TWAIT: `init` is scheduled and pauses. -/
example :
    (exec step launch [.enter, .leave, .sched 1, .enter, .wait, .hassig, .waitsleep]).map
      (fun m => (m.tasks 1).map Task.state) = some (some .wait) := rfl

end Unixlite.Kern.Wait
