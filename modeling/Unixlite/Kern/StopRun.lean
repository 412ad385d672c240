import Unixlite.Kern.Proc
import Unixlite.Kern.SchedRun
import Unixlite.Kern.Sigreturn
import Unixlite.Kern.StopCont

/-!
# Stopped tasks

The scheduler of `Unixlite.Kern.Sched` together with the signals of each task:
`task_t::post` with its `wakeup`, and `checksignal` with the default action
`stop` and its `waitq.stop()`.

`post` wakes a task that is in `TWAIT`, and `wakeup` one in `TSLEEP` or `TWAIT`;
no code tests for `TSTOP` to leave it.  So a stopped task is stopped for ever
(`stopped_always`), and SIGCONT and SIGKILL find a task that they can continue
only if it has not stopped yet (`continued_iff`).
-/

namespace Unixlite.Kern.Sched

open Option
open Machine (broadcastLoop deqrun enqrun enqtail find prempt refill sched signal unlinkrun wakeup)

/-! ## What the scheduler does to a stopped task -/

/-- The task is there and has stopped. -/
def Machine.Stopped (m : Machine) (t : Nat) : Prop :=
  t ∈ m.alltaskq ∧ (m.task t).state = .stop

instance (m : Machine) (t : Nat) : Decidable (m.Stopped t) :=
  inferInstanceAs (Decidable (_ ∧ _))

/-- The same tasks are there, in the same states. -/
structure SameStates (m m' : Machine) : Prop where
  alltaskq : m'.alltaskq = m.alltaskq
  state : ∀ i, (m'.task i).state = (m.task i).state

theorem SameStates.refl (m : Machine) : SameStates m m := ⟨rfl, fun _ => rfl⟩

theorem SameStates.trans {m₁ m₂ m₃ : Machine} (h : SameStates m₁ m₂) (h' : SameStates m₂ m₃) :
    SameStates m₁ m₃ :=
  ⟨h'.alltaskq.trans h.alltaskq, fun i => (h'.state i).trans (h.state i)⟩

theorem SameStates.of_task {m m' : Machine} (hall : m'.alltaskq = m.alltaskq)
    (htask : m'.task = m.task) : SameStates m m' :=
  ⟨hall, fun i => by rw [htask]⟩

theorem SameStates.stopped {m m' : Machine} (h : SameStates m m') {t : Nat} (hs : m.Stopped t) :
    m'.Stopped t :=
  ⟨h.alltaskq ▸ hs.1, (h.state t).trans hs.2⟩

section Frames

variable {m m' : Machine} {t : Nat}

/-- A task gets a record with the state it has. -/
theorem sameStates_setTask {x : Task} (hx : x.state = (m.task t).state) :
    SameStates m (m.setTask t x) := by
  refine ⟨rfl, fun i => ?_⟩
  show (if i = t then x else m.task i).state = _
  split
  · next h => rw [hx, h]
  · rfl

theorem sameStates_enqrun (h : m.enqrun t = some m') : SameStates m m' := by
  simp only [enqrun, enqtail, bind_eq_bind] at h
  split at h
  · split at h
    · cases h
    · cases h
      exact SameStates.of_task rfl rfl
  · cases h

theorem sameStates_unlinkrun (h : m.unlinkrun t = some m') : SameStates m m' := by
  simp only [unlinkrun] at h
  split at h
  · cases h
    exact SameStates.of_task rfl rfl
  · cases h

theorem sameStates_deqrun (h : m.deqrun t = some m') : SameStates m m' := by
  simp only [deqrun, bind_eq_bind] at h
  split at h
  · obtain ⟨m₁, hoff, h⟩ := bind_eq_some_iff.mp h
    have hsame := sameStates_unlinkrun hoff
    split at h
    · cases h
      exact hsame.trans (SameStates.of_task rfl rfl)
    · cases h
      exact hsame
  · cases h

theorem sameStates_setcounter {newval : Int} (h : m.setcounter t newval = some m') :
    SameStates m m' := by
  simp only [Machine.setcounter, bind_eq_bind] at h
  split at h
  · cases h
    exact sameStates_setTask rfl
  · obtain ⟨m₁, hdeq, h⟩ := bind_eq_some_iff.mp h
    have hsame := sameStates_deqrun hdeq
    have hset : SameStates m₁ (m₁.setTask t { m.task t with counter := newval }) :=
      sameStates_setTask (hsame.state t).symm
    exact (hsame.trans hset).trans (sameStates_enqrun h)

theorem sameStates_timerisr (h : m.timerisr = some m') : SameStates m m' := by
  simp only [Machine.timerisr, bind_eq_bind] at h
  split at h
  · cases h
    exact SameStates.refl m
  · split at h
    · cases h
      exact SameStates.of_task rfl rfl
    · obtain ⟨m₁, hset, h⟩ := bind_eq_some_iff.mp h
      cases h
      exact (sameStates_setcounter hset).trans (SameStates.of_task rfl rfl)

theorem sameStates_refill {ts : List Nat} (h : refill ts m = some m') : SameStates m m' := by
  induction ts generalizing m with
  | nil =>
      cases h
      exact SameStates.refl _
  | cons u ts ih =>
      obtain ⟨m₁, hset, h⟩ := bind_eq_some_iff.mp h
      exact (sameStates_setcounter hset).trans (ih h)

theorem sameStates_findRepeat {fuel : Nat} (h : Machine.findRepeat fuel m = some (t, m')) :
    SameStates m m' := by
  induction fuel generalizing m with
  | zero =>
      obtain ⟨idx, -, h⟩ := bind_eq_some_iff.mp h
      split at h
      · cases h
      · obtain ⟨u, -, h⟩ := bind_eq_some_iff.mp h
        split at h
        · cases h
          exact SameStates.refl _
        · cases h
  | succ fuel ih =>
      obtain ⟨idx, -, h⟩ := bind_eq_some_iff.mp h
      split at h
      · obtain ⟨m₁, hfill, h⟩ := bind_eq_some_iff.mp h
        exact (sameStates_refill hfill).trans (ih h)
      · obtain ⟨u, -, h⟩ := bind_eq_some_iff.mp h
        split at h
        · cases h
          exact SameStates.refl _
        · cases h

theorem sameStates_sched (h : m.sched = some m') : SameStates m m' := by
  simp only [sched, find, bind_eq_bind] at h
  obtain ⟨⟨target, m₁⟩, hfind, h⟩ := bind_eq_some_iff.mp h
  split at hfind
  · have hsame := sameStates_findRepeat hfind
    split at h
    all_goals
      cases h
      exact hsame.trans (SameStates.of_task rfl rfl)
  · cases hfind

theorem sameStates_nice {inc : Int} {suser : Bool} (h : m.sysnice inc suser = some m') :
    SameStates m m' := by
  simp only [Machine.sysnice] at h
  split at h
  · cases h
    exact SameStates.refl m
  · refine (sameStates_setTask ?_).trans (sameStates_setcounter h)
    split <;> rfl

/-- `wakeup` leaves a stopped task alone. -/
theorem stopped_wakeup {u : Nat} (h : m.wakeup u = some m') (hs : m.Stopped t) : m'.Stopped t := by
  simp only [wakeup, bind_eq_bind] at h
  split at h
  · cases h
    exact hs
  · next hstate =>
    obtain ⟨m₁, hoff, h⟩ := bind_eq_some_iff.mp h
    obtain ⟨m₂, hon, h⟩ := bind_eq_some_iff.mp h
    have hne : t ≠ u := by
      rintro rfl
      rw [hs.2] at hstate
      exact hstate (by simp)
    have h₁ : m₁.Stopped t := (sameStates_unlinkrun hoff).stopped hs
    have h₂ : m₂.Stopped t := by
      refine (sameStates_enqrun hon).stopped ⟨h₁.1, ?_⟩
      show (if t = u then _ else m₁.task t).state = .stop
      rw [if_neg hne]
      exact h₁.2
    split at h <;> cases h <;> exact h₂

theorem wakeup_curr {u : Nat} (h : m.wakeup u = some m') : m'.curr = m.curr := by
  simp only [wakeup, unlinkrun, enqrun, enqtail,
    bind_eq_bind] at h
  split at h
  · cases h
    rfl
  · obtain ⟨m₁, hoff, h⟩ := bind_eq_some_iff.mp h
    obtain ⟨m₂, hon, h⟩ := bind_eq_some_iff.mp h
    have h₁ : m₁.curr = m.curr := by
      split at hoff <;> cases hoff
      rfl
    have h₂ : m₂.curr = m₁.curr := by
      split at hon
      · split at hon <;> cases hon
        rfl
      · cases hon
    split at h <;> cases h <;> exact h₂.trans h₁

theorem stopped_broadcastLoop {fuel q : Nat} (h : broadcastLoop fuel m q = some m')
    (hs : m.Stopped t) : m'.Stopped t := by
  induction fuel generalizing m with
  | zero =>
      simp only [broadcastLoop] at h
      split at h
      · cases h
        exact hs
      · cases h
  | succ fuel ih =>
      simp only [broadcastLoop, signal, bind_eq_bind] at h
      split at h
      · cases h
        exact hs
      · obtain ⟨m₁, hsig, h⟩ := bind_eq_some_iff.mp h
        split at hsig
        · cases hsig
          exact ih h hs
        · exact ih h (stopped_wakeup hsig hs)

theorem stopped_waitsleep {q : Nat} {state : Tstate} (h : m.waitsleep q state = some m')
    (hne : t ≠ m.curr) (hs : m.Stopped t) : m'.Stopped t := by
  simp only [Machine.waitsleep, enqtail, bind_eq_bind] at h
  obtain ⟨m₁, hdeq, h⟩ := bind_eq_some_iff.mp h
  have h₁ : m₁.Stopped t := (sameStates_deqrun hdeq).stopped hs
  have hcurr : m₁.curr = m.curr := by
    simp only [deqrun, unlinkrun, bind_eq_bind] at hdeq
    split at hdeq
    · split at hdeq
      · simp only [bind_some] at hdeq
        split at hdeq <;> cases hdeq <;> rfl
      · cases hdeq
    · cases hdeq
  split at h
  · cases h
  · cases h
    refine ⟨h₁.1, ?_⟩
    show (if t = m₁.curr then _ else m₁.task t).state = .stop
    rw [if_neg (hcurr ▸ hne)]
    exact h₁.2

theorem stopped_ne_curr (hrun : m.running = true) (hs : m.Stopped t) : t ≠ m.curr := by
  rintro rfl
  have := running_iff.mp hrun
  rw [hs.2] at this
  cases this

/-- **No step of the scheduler leads out of `TSTOP`.** -/
theorem stopped_step {e : Event} (h : step m e = some m') (hs : m.Stopped t) : m'.Stopped t := by
  cases e with
  | clone u =>
      simp only [step] at h
      split at h
      · next hu =>
        cases h
        refine ⟨hs.1, ?_⟩
        have hne : t ≠ u := by
          rintro rfl
          exact hu.2.1 hs.1
        show (if t = u then _ else m.task t).state = .stop
        rw [if_neg hne]
        exact hs.2
      · cases h
  | install u =>
      simp only [step, Machine.install] at h
      split at h
      · refine (sameStates_enqrun h).stopped ⟨?_, hs.2⟩
        exact List.mem_append_left _ hs.1
      · cases h
  | timerisr => exact (sameStates_timerisr h).stopped hs
  | setcounter u newval =>
      simp only [step] at h
      split at h
      · exact (sameStates_setcounter h).stopped hs
      · cases h
  | nice inc suser =>
      simp only [step] at h
      split at h
      · exact (sameStates_nice h).stopped hs
      · cases h
  | waitsleep q state =>
      simp only [step] at h
      split at h
      · next hrun => exact stopped_waitsleep h (stopped_ne_curr hrun.1 hs) hs
      · cases h
  | wakeup u =>
      simp only [step] at h
      split at h
      · exact stopped_wakeup h hs
      · cases h
  | signal q =>
      simp only [step, signal] at h
      split at h
      · cases h
        exact hs
      · exact stopped_wakeup h hs
  | broadcast q => exact stopped_broadcastLoop h hs
  | sched => exact (sameStates_sched h).stopped hs
  | prempt =>
      simp only [step, prempt] at h
      split at h
      · exact (sameStates_sched h).stopped hs
      · cases h
        exact hs
  | uninstall u =>
      simp only [step, Machine.uninstall] at h
      split at h
      · split at h
        · next hzombie =>
          have hne : t ≠ u := by
            rintro rfl
            rw [hs.2] at hzombie
            cases hzombie
          refine (sameStates_unlinkrun h).stopped ⟨?_, hs.2⟩
          exact (List.mem_erase_of_ne hne).mpr hs.1
        · cases h
      · cases h

end Frames

end Unixlite.Kern.Sched

namespace Unixlite.Kern.Stopped

open Unixlite.Verified.Run
open Sched (idletask)
open Option

/-- `inittask`, the first task that is made. -/
def inittask : Nat := 1

structure Machine where
  sched : Sched.Machine
  /-- What the signal code knows of a task; its state is that of the scheduler. -/
  sig : Nat → Task
  parent : Nat → Nat

namespace Machine

def state (m : Machine) (t : Nat) : Tstate := (m.sched.task t).state

/-- The task as the signal code finds it. -/
def view (m : Machine) (t : Nat) : Task :=
  { m.sig t with isidle := t == idletask, isinit := t == inittask, state := m.state t }

def setSig (m : Machine) (t : Nat) (x : Task) : Machine :=
  { m with sig := fun i => if i = t then x else m.sig i }

def setSched (m : Machine) (sched : Sched.Machine) : Machine := { m with sched := sched }

/-- `task_t::post`; a task that it lets run goes through `wakeup`. -/
def post (m : Machine) (t signo : Nat) : Option Machine := do
  let x := (m.view t).post signo
  let m' := m.setSig t x
  if x.state = m.state t then return m'
  else return m'.setSched (← m.sched.wakeup t)

/-- `stop`, up to the `sched()` of its `waitsleep`; `q` is the wait queue that it has
on its stack. -/
def stop (m : Machine) (q : Nat) : Option Machine := do
  let t := m.sched.curr
  let parent := m.parent t
  let told :=
    if ((m.sig parent).sigvec SIGCHLD).flags &&& SANOCLDSTOP = 0 then m.post parent SIGCHLD
    else some m
  let m ← told
  return m.setSched (← m.sched.waitsleep q .stop)

/-- The end of `doexit`, up to its `sched()`. -/
def zombie (m : Machine) (q : Nat) : Option Machine := do
  return m.setSched (← m.sched.waitsleep q .zombie)

/-- `checksignal` on the way of `curr` back to user mode. -/
def checksignal (m : Machine) (frameok : Bool) (r : Regs) (q : Nat) : Option Machine := do
  let t := m.sched.curr
  match ← Kern.checksignal frameok (m.view t) r with
  | .ret x _ _ => return m.setSig t x
  | .exit x _ => (m.setSig t x).zombie q
  | .stopped x _ => (m.setSig t x).stop q

end Machine

/-- A system call that changes masks or actions, and returns without sleeping. -/
def quiet : Call → Bool
  | .sigprocmask .. => true
  | .ssetmask .. => true
  | .signal .. => true
  | .sigaction .. => true
  | .exec => true
  | _ => false

inductive Event where
  | sched (e : Sched.Event)
  | post (t signo : Nat)
  | call (c : Call)
  | checksignal (frameok : Bool) (r : Regs) (q : Nat)

/-- A step of the scheduler; `waitq_t::stop` is called in `stop` alone. -/
def schedstep (m : Machine) : Sched.Event → Option Machine
  | .waitsleep _ .stop => none
  | .clone t => do
      let sched ← Sched.step m.sched (.clone t)
      return (m.setSched sched).setSig t (m.view m.sched.curr).clone
  | e => do return m.setSched (← Sched.step m.sched e)

/-- One event.  The queue of `stop` is one that nobody else knows. -/
def step (m : Machine) : Event → Option Machine
  | .sched e => schedstep m e
  | .post t signo => if t ∈ m.sched.alltaskq ∧ validsig signo then m.post t signo else none
  | .call c =>
      if m.sched.running ∧ quiet c then do
        return m.setSig m.sched.curr (← (m.view m.sched.curr).call c)
      else none
  | .checksignal frameok r q =>
      if m.sched.running ∧ m.parent m.sched.curr ∈ m.sched.alltaskq ∧
          m.sched.queue (.wait q) = [] then
        m.checksignal frameok r q
      else none

/-! ## A stopped task stays stopped -/

theorem post_state {x : Task} {signo : Nat} (h : x.state ≠ .wait) :
    (x.post signo).state = x.state := by
  have hwait : (x.state == Tstate.wait) = false := by
    simpa using h
  simp only [Task.post, hwait, Bool.and_false, Bool.false_eq_true, if_false]
  repeat' split
  all_goals rfl

section Stop

variable {m m' : Machine} {t : Nat}

/-- **A post to a stopped task does not touch the scheduler.** -/
theorem post_to_stopped {signo : Nat} (hs : m.sched.Stopped t) :
    m.post t signo = some (m.setSig t ((m.view t).post signo)) := by
  have hview : (m.view t).state = .stop := hs.2
  have hstate : ((m.view t).post signo).state = m.state t :=
    post_state (by simp [hview])
  simp [Machine.post, hstate]

theorem stopped_post {u signo : Nat} (h : m.post u signo = some m') (hs : m.sched.Stopped t) :
    m'.sched.Stopped t := by
  simp only [Machine.post, bind_eq_bind] at h
  split at h
  · cases h
    exact hs
  · obtain ⟨sched, hwake, h⟩ := bind_eq_some_iff.mp h
    cases h
    exact Sched.stopped_wakeup hwake hs

theorem post_curr {u signo : Nat} (h : m.post u signo = some m') :
    m'.sched.curr = m.sched.curr := by
  simp only [Machine.post, bind_eq_bind] at h
  split at h
  · cases h
    rfl
  · obtain ⟨sched, hwake, h⟩ := bind_eq_some_iff.mp h
    cases h
    exact Sched.wakeup_curr hwake

/-- Another task stops. -/
theorem stopped_stop {q : Nat} (h : m.stop q = some m') (hne : t ≠ m.sched.curr)
    (hs : m.sched.Stopped t) : m'.sched.Stopped t := by
  obtain ⟨m₁, htold, h⟩ := bind_eq_some_iff.mp h
  obtain ⟨sched, hsleep, h⟩ := bind_eq_some_iff.mp h
  cases h
  have h₁ : m₁.sched.Stopped t ∧ m₁.sched.curr = m.sched.curr := by
    split at htold
    · exact ⟨stopped_post htold hs, post_curr htold⟩
    · cases htold
      exact ⟨hs, rfl⟩
  exact Sched.stopped_waitsleep hsleep (h₁.2 ▸ hne) h₁.1

theorem stopped_checksignal {frameok : Bool} {r : Regs} {q : Nat}
    (h : m.checksignal frameok r q = some m') (hne : t ≠ m.sched.curr)
    (hs : m.sched.Stopped t) : m'.sched.Stopped t := by
  obtain ⟨c, -, h⟩ := bind_eq_some_iff.mp h
  cases c with
  | ret x _ _ =>
      cases h
      exact hs
  | exit x _ =>
      obtain ⟨sched, hsleep, h⟩ := bind_eq_some_iff.mp h
      cases h
      exact Sched.stopped_waitsleep hsleep hne hs
  | stopped x _ => exact stopped_stop h hne hs

/-- **No event leads out of `TSTOP`.** -/
theorem stopped_step {e : Event} (h : step m e = some m') (hs : m.sched.Stopped t) :
    m'.sched.Stopped t := by
  cases e with
  | sched e =>
      simp only [step, schedstep, bind_eq_bind] at h
      split at h
      · cases h
      · obtain ⟨sched, hstep, h⟩ := bind_eq_some_iff.mp h
        cases h
        exact Sched.stopped_step hstep hs
      · obtain ⟨sched, hstep, h⟩ := bind_eq_some_iff.mp h
        cases h
        exact Sched.stopped_step hstep hs
  | post u signo =>
      simp only [step] at h
      split at h
      · exact stopped_post h hs
      · cases h
  | call c =>
      simp only [step, bind_eq_bind] at h
      split at h
      · obtain ⟨x, -, h⟩ := bind_eq_some_iff.mp h
        cases h
        exact hs
      · cases h
  | checksignal frameok r q =>
      simp only [step] at h
      split at h
      · next hrun => exact stopped_checksignal h (Sched.stopped_ne_curr hrun.1 hs) hs
      · cases h

end Stop

/-- **A stopped task is stopped for ever.** -/
theorem stopped_always {m : Machine} {t : Nat} (hs : m.sched.Stopped t) (es : List Event) :
    Always step (fun m => m.sched.Stopped t) m es :=
  always_of_step (fun _ _ _ hs h => stopped_step h hs) es hs

/-- `neworphaned`, of a group with these members; `perm` says for which of them
`task_t::kill` gets to `post`.  A stopped member stays so while the loop runs, so
the test of its state can be made at the start. -/
def neworphaned (m : Machine) (perm : Nat → Bool) (taskq : List Nat) : List Event :=
  (taskq.filter fun t => m.state t == .stop).flatMap fun _ =>
    (taskq.filter perm).map (.post · SIGHUP) ++ (taskq.filter perm).map (.post · SIGCONT)

/-- The SIGHUP and SIGCONT of `neworphaned` release nobody. -/
theorem neworphaned_stopped {m m' : Machine} {perm : Nat → Bool} {taskq : List Nat} {t : Nat}
    (h : exec step m (neworphaned m perm taskq) = some m') (hs : m.sched.Stopped t) :
    m'.sched.Stopped t :=
  (always_iff_exec m _).mp (stopped_always hs _) _ [] m' (List.append_nil _).symm h

/-! ## Continuing -/

/-- The event posts SIGCONT or SIGKILL to `t`. -/
def continues : Event → Nat → Bool
  | .post u signo, t => u == t && contsignals.contains signo
  | _, _ => false

/-- Since `t` stopped, SIGCONT or SIGKILL has been posted to it. -/
def continued (m : Machine) (e : Event) (_ : Machine) (g : Nat → Bool) (t : Nat) : Bool :=
  decide (m.sched.Stopped t) && (g t || continues e t)

/-- A task is stopped only as long as nobody has continued it. -/
def Waiting (x : Machine × (Nat → Bool)) : Prop :=
  ∀ t, x.1.sched.Stopped t → x.2 t = false

/-- SIGCONT and SIGKILL put a stopped task on its run queue. -/
def Released (m : Machine) (e : Event) : Prop :=
  ∀ t signo m', e = .post t signo → signo ∈ contsignals → m.sched.Stopped t →
    step m e = some m' →
      m'.state t = .run ∧ t ∈ m'.sched.queue (.run (m'.sched.task t).counter.toNat)

/-- SIGCONT and SIGKILL are posted to no task that has stopped. -/
def NotStopped (m : Machine) (e : Event) : Prop :=
  ∀ t signo, e = .post t signo → signo ∈ contsignals → ¬ m.sched.Stopped t

theorem validsig_of_mem_contsignals {a : Nat} (h : a ∈ contsignals) : validsig a = true := by
  simp only [contsignals, List.mem_cons, List.not_mem_nil, or_false] at h
  rcases h with rfl | rfl <;> decide

theorem waiting_step {x y : Machine × (Nat → Bool)} {e : Event} (hx : Waiting x)
    (hok : NotStopped x.1 e) (h : ghost step continued x e = some y) : Waiting y := by
  obtain ⟨hstep, hghost⟩ := ghost_eq_some.mp h
  intro t ht
  rw [hghost]
  by_cases hs : x.1.sched.Stopped t
  · have hnot : continues e t = false := by
      rw [Bool.eq_false_iff]
      intro hcont
      cases e with
      | post u signo =>
          simp only [continues, Bool.and_eq_true, beq_iff_eq, List.contains_iff_mem] at hcont
          obtain ⟨rfl, hmem⟩ := hcont
          exact hok u signo rfl hmem hs
      | _ => cases hcont
    simp [continued, hx t hs, hnot]
  · simp [continued, hs]

theorem notStopped_of_waiting {x : Machine × (Nat → Bool)} {e : Event}
    (h : ∀ y, ghost step continued x e = some y → Waiting y) : NotStopped x.1 e := by
  rintro t signo rfl hcont hs
  have hstep : step x.1 (.post t signo) =
      some (x.1.setSig t ((x.1.view t).post signo)) := by
    rw [step, if_pos ⟨hs.1, validsig_of_mem_contsignals hcont⟩, post_to_stopped hs]
  have hwait := h (x.1.setSig t ((x.1.view t).post signo), continued x.1 (.post t signo) x.1 x.2)
    (ghost_eq_some.mpr ⟨hstep, rfl⟩) t (stopped_step hstep hs)
  simp [continued, continues, hs, hcont] at hwait

/-- **Stopped tasks can be continued** exactly in the runs in which nobody tries:
SIGCONT and SIGKILL are posted to no stopped task. -/
theorem continued_iff (m : Machine) (es : List Event) :
    (Always (ghost step continued) Waiting (m, fun _ => false) es ∧ Each step Released m es) ↔
      Each step NotStopped m es := by
  have hiff : Always (ghost step continued) Waiting (m, fun _ => false) es ↔
      Each (ghost step continued) (fun x e => NotStopped x.1 e) (m, fun _ => false) es :=
    always_iff_each (fun _ h => h) (fun _ _ _ hx hok h => waiting_step hx hok h)
      (fun _ _ _ h => notStopped_of_waiting h) fun _ _ => rfl
  rw [hiff, each_ghost]
  constructor
  · exact fun h => h.1
  · intro h
    refine ⟨h, Each.of_always (P := fun _ => True) ?_ (always_of_step (fun _ _ _ _ _ => trivial) es
      trivial) h⟩
    intro m e _ hok t signo m' he hcont hs _
    exact absurd hs (hok t signo he hcont)

/-- What `launchidletask` leaves, with nothing pending and default actions; every
task is a child of `inittask`. -/
def boot : Option Machine :=
  (Sched.launchidletask (fun _ => ⟨.run, 16, 1⟩) fun _ => false).map fun sched =>
    { sched := sched, sig := fun _ => bootTask false false, parent := fun _ => inittask }

/-- Two tasks are made; the second one gets the processor and SIGTSTP, and stops. -/
def suspends : List Event :=
  [.sched (.clone 1), .sched (.install 1), .sched (.clone 2), .sched (.install 2),
    .sched (.setcounter 2 5), .sched .sched, .post 2 SIGTSTP, .checksignal true userframe 0,
    .sched .sched]

/-- SIGCONT and SIGKILL come, and the task is where it was. -/
theorem continued_stopped :
    ((boot.bind fun m => exec step m suspends).bind fun m =>
      (exec step m [.post 2 SIGCONT, .post 2 SIGKILL]).map fun m' =>
        (m.state 2, m'.state 2, m'.sched.queue (.wait 0))) = some (.stop, .stop, [2]) := by
  decide +kernel

theorem neworphaned_stopped_two : ∃ m m',
    exec step m (neworphaned m (fun _ => true) [2]) = some m' ∧ m'.sched.Stopped 2 := by
  have hrun : ((boot.bind fun m => exec step m suspends).bind fun m =>
      (exec step m (neworphaned m (fun _ => true) [2])).map fun _ =>
        decide (m.sched.Stopped 2)) = some true := by
    decide +kernel
  obtain ⟨m, -, hm⟩ := bind_eq_some_iff.mp hrun
  obtain ⟨m', hexec, hs⟩ := map_eq_some_iff.mp hm
  exact ⟨m, m', hexec, neworphaned_stopped hexec (of_decide_eq_true hs)⟩

end Unixlite.Kern.Stopped
