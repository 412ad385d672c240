import Unixlite.Verified.Run

/-!
# The readers/writer lock

Port of `rwlock_t` of `kern/lock.cc` with the wait queue under it, for any
number of tasks.  A task is switched only when it sleeps, so an event is a call
up to its return or to `waitq.sleep()`, or what follows a sleep.

`lockowner` is the reader that came in last and stays so when this reader
leaves, so `wlock` may take a task for the holder that is none
(`run_rwlock_iff`).
-/

namespace Unixlite.Kern

open Unixlite.Verified.Run List

namespace Rwlock

/-! ## The lock -/

/-- `state_t`. -/
inductive State where
  | free
  | reading
  | writing
deriving DecidableEq

/-- `rwlock_t`. -/
structure Lock where
  state : State
  nreader : Int
  waitq : List Nat
  lockowner : Option Nat
deriving DecidableEq

/-- Where a task is. -/
inductive Loc where
  | out
  | rlock
  | wlock
deriving DecidableEq

structure Task where
  /-- `TSLEEP`, else `TRUN`. -/
  asleep : Bool
  loc : Loc
deriving DecidableEq

inductive Panic where
  /-- "caller acquire the writelock twice". -/
  | wlock (tid : Nat)
  /-- "unlock free rwlock". -/
  | unlock (tid : Nat)
deriving DecidableEq

/-- The lock and the tasks; `readers` and `writers` are the calls that have
returned and have not been undone by an `unlock`. -/
structure Sys where
  lock : Lock
  task : Nat → Task
  readers : List Nat
  writers : List Nat
  panic : Option Panic

inductive Event where
  | rlock (tid : Nat)
  | wlock (tid : Nat)
  | unlock (tid : Nat)
  /-- A task that has been woken goes on. -/
  | resume (tid : Nat)
deriving DecidableEq

namespace Sys

def setTask (s : Sys) (tid : Nat) (t : Task) : Sys :=
  { s with task := fun i => if i = tid then t else s.task i }

/-- `waitq.sleep()` in a call. -/
def sleep (s : Sys) (tid : Nat) (loc : Loc) : Sys :=
  { s.setTask tid ⟨true, loc⟩ with lock := { s.lock with waitq := s.lock.waitq ++ [tid] } }

/-- `waitq.broadcast()`: `wakeup` takes a sleeping task off the queue and leaves
any other where it is, so that the loop would not end. -/
def broadcast : List Nat → (Nat → Task) → Option (Nat → Task)
  | [], task => some task
  | tid :: q, task =>
      if (task tid).asleep then
        broadcast q fun i => if i = tid then { task tid with asleep := false } else task i
      else none

/-- The loop of `rlock` and what follows. -/
def rlock (s : Sys) (tid : Nat) : Sys :=
  if s.lock.state = .writing then s.sleep tid .rlock
  else
    { s.setTask tid ⟨false, .out⟩ with
      lock := { s.lock with
        state := .reading
        nreader := s.lock.nreader + 1
        lockowner := some tid }
      readers := tid :: s.readers }

/-- The loop of `wlock` and what follows. -/
def wlock (s : Sys) (tid : Nat) : Sys :=
  if s.lock.state ≠ .free then
    if s.lock.lockowner = some tid then { s with panic := some (.wlock tid) }
    else s.sleep tid .wlock
  else
    { s.setTask tid ⟨false, .out⟩ with
      lock := { s.lock with state := .writing, lockowner := some tid }
      writers := tid :: s.writers }

/-- The lock becomes free. -/
def release (s : Sys) : Option Sys :=
  (broadcast s.lock.waitq s.task).map fun task =>
    { s with
      task := task
      lock := { s.lock with state := .free, waitq := [], lockowner := none } }

/-- `unlock`, by a task that has the lock. -/
def unlock (s : Sys) (tid : Nat) : Option Sys :=
  let s := { s with
    readers := if tid ∈ s.writers then s.readers else s.readers.erase tid
    writers := s.writers.erase tid }
  match s.lock.state with
  | .free => some { s with panic := some (.unlock tid) }
  | .reading =>
      let s := { s with lock := { s.lock with nreader := s.lock.nreader - 1 } }
      if 0 < s.lock.nreader then some s else s.release
  | .writing => s.release

/-- The task is running outside the lock's code. -/
def free (s : Sys) (tid : Nat) : Prop := s.panic = none ∧ s.task tid = ⟨false, .out⟩

/-- The task has been woken inside a call. -/
def woken (s : Sys) (tid : Nat) (loc : Loc) : Prop :=
  s.panic = none ∧ s.task tid = ⟨false, loc⟩

def holds (s : Sys) (tid : Nat) : Prop := tid ∈ s.readers ∨ tid ∈ s.writers

instance (s : Sys) (tid : Nat) : Decidable (s.free tid) := inferInstanceAs (Decidable (_ ∧ _))

instance (s : Sys) (tid : Nat) (loc : Loc) : Decidable (s.woken tid loc) :=
  inferInstanceAs (Decidable (_ ∧ _))

instance (s : Sys) (tid : Nat) : Decidable (s.holds tid) := inferInstanceAs (Decidable (_ ∨ _))

/-- One event; `none` when it cannot happen.  Calls come in balanced pairs. -/
def step (s : Sys) : Event → Option Sys
  | .rlock tid => if s.free tid then some (s.rlock tid) else none
  | .wlock tid => if s.free tid then some (s.wlock tid) else none
  | .unlock tid => if s.free tid ∧ s.holds tid then s.unlock tid else none
  | .resume tid =>
      if s.woken tid .rlock then some (s.rlock tid)
      else if s.woken tid .wlock then some (s.wlock tid)
      else none

/-! ## What the lock promises -/

/-- The holders are as the state says, a panic of `wlock` hits a holder only, and
nobody waits for a free lock. -/
structure Ok (s : Sys) : Prop where
  writing : s.lock.state = .writing →
    (∃ tid, s.writers = [tid]) ∧ s.readers = [] ∧ s.lock.nreader = 0
  reading : s.lock.state = .reading →
    s.lock.nreader = s.readers.length ∧ 0 < s.lock.nreader ∧ s.writers = []
  panic : ∀ tid, s.panic = some (.wlock tid) → s.holds tid
  waitq : s.lock.state = .free → s.lock.waitq = []

/-- A task about to go through the loop of `wlock`. -/
def Writes (s : Sys) : Event → Nat → Prop
  | .wlock tid, t => t = tid ∧ s.free tid
  | .resume tid, t => t = tid ∧ s.woken tid .wlock
  | _, _ => False

/-- While others still read, the reader that came in last does not leave and then
ask for the lock to write. -/
def Fine (s : Sys) (a : Event) : Prop :=
  ∀ tid, s.Writes a tid → s.lock.state = .reading → s.lock.lockowner = some tid →
    tid ∈ s.readers

/-! ## The invariant -/

/-- The queue of the lock is made of sleeping tasks, each once. -/
def Queued (q : List Nat) (task : Nat → Task) : Prop :=
  q.Nodup ∧ ∀ tid ∈ q, (task tid).asleep = true

/-- What the fields say in each state. -/
def Fits (s : Sys) : Prop :=
  match s.lock.state with
  | .free => s.readers = [] ∧ s.writers = [] ∧ s.lock.nreader = 0 ∧ s.lock.waitq = []
  | .reading => s.writers = [] ∧ s.lock.nreader = s.readers.length ∧ 0 < s.readers.length
  | .writing => s.readers = [] ∧ s.lock.nreader = 0 ∧
      ∃ tid, s.writers = [tid] ∧ s.lock.lockowner = some tid

structure Inv (s : Sys) : Prop where
  fits : s.Fits
  queued : Queued s.lock.waitq s.task
  panic : ∀ p, s.panic = some p → ∃ tid, p = .wlock tid ∧ s.holds tid

variable {s s' : Sys} {tid : Nat} {loc : Loc} {a : Event}

theorem Inv.ok (h : Inv s) : Ok s := by
  have hfits := h.fits
  unfold Fits at hfits
  constructor
  · intro hstate
    rw [hstate] at hfits
    obtain ⟨hreaders, hn, tid, hwriters, -⟩ := hfits
    exact ⟨⟨tid, hwriters⟩, hreaders, hn⟩
  · intro hstate
    rw [hstate] at hfits
    obtain ⟨hwriters, hn, hpos⟩ := hfits
    exact ⟨hn, by omega, hwriters⟩
  · intro tid hp
    obtain ⟨t, ht, hholds⟩ := h.panic _ hp
    cases ht
    exact hholds
  · intro hstate
    rw [hstate] at hfits
    exact hfits.2.2.2

theorem not_mem_waitq (h : Inv s) (ht : (s.task tid).asleep = false) : tid ∉ s.lock.waitq := by
  intro hmem
  rw [h.queued.2 tid hmem] at ht
  cases ht

theorem queued_sleep (h : Inv s) (ht : (s.task tid).asleep = false) :
    Queued (s.sleep tid loc).lock.waitq (s.sleep tid loc).task := by
  obtain ⟨hnodup, hasleep⟩ := h.queued
  constructor
  · apply nodup_append.mpr
    refine ⟨hnodup, nodup_cons.mpr ⟨not_mem_nil, nodup_nil⟩, fun a ha b hb => ?_⟩
    rw [mem_singleton.mp hb]
    intro hab
    exact not_mem_waitq h ht (hab ▸ ha)
  · intro i hi
    simp only [sleep, setTask]
    by_cases hit : i = tid
    · rw [if_pos hit]
    · rw [if_neg hit]
      rcases mem_append.mp hi with hi | hi
      · exact hasleep i hi
      · exact absurd (mem_singleton.mp hi) hit

/-- A task that does not find the lock free goes to sleep. -/
theorem sleep_inv (h : Inv s) (ht : (s.task tid).asleep = false)
    (hstate : s.lock.state ≠ .free) (hpanic : s.panic = none) : Inv (s.sleep tid loc) := by
  refine ⟨?_, queued_sleep h ht, fun p hp => ?_⟩
  · have hfits := h.fits
    unfold Fits at hfits ⊢
    show match s.lock.state with
      | .free => _
      | .reading => _
      | .writing => _
    cases hs : s.lock.state with
    | free => exact absurd hs hstate
    | reading | writing =>
        rw [hs] at hfits
        exact hfits
  · rw [show (s.sleep tid loc).panic = s.panic from rfl, hpanic] at hp
    cases hp

theorem queued_setTask {t : Task} (h : Inv s) (ht : (s.task tid).asleep = false) :
    Queued s.lock.waitq (s.setTask tid t).task := by
  refine ⟨h.queued.1, fun i hi => ?_⟩
  have hne : i ≠ tid := by
    intro hit
    exact not_mem_waitq h ht (hit ▸ hi)
  rw [setTask]
  dsimp only
  rw [if_neg hne]
  exact h.queued.2 i hi

theorem rlock_inv (h : Inv s) (ht : (s.task tid).asleep = false) (hpanic : s.panic = none) :
    Inv (s.rlock tid) := by
  unfold rlock
  split
  · next hw => exact sleep_inv h ht (by rw [hw]; exact nofun) hpanic
  next hw =>
  refine ⟨?_, queued_setTask h ht, fun p hp => ?_⟩
  · have hfits := h.fits
    unfold Fits at hfits ⊢
    dsimp only
    cases hs : s.lock.state with
    | free =>
        rw [hs] at hfits
        obtain ⟨hreaders, hwriters, hn, -⟩ := hfits
        rw [hreaders, hn]
        exact ⟨hwriters, rfl, Nat.one_pos⟩
    | reading =>
        rw [hs] at hfits
        obtain ⟨hwriters, hn, hpos⟩ := hfits
        refine ⟨hwriters, ?_, Nat.succ_pos _⟩
        rw [hn, length_cons]
        omega
    | writing => exact absurd hs hw
  · rw [setTask] at hp
    rw [hpanic] at hp
    cases hp

theorem wlock_inv (h : Inv s) (ht : (s.task tid).asleep = false) (hpanic : s.panic = none)
    (hfine : s.lock.state = .reading → s.lock.lockowner = some tid → tid ∈ s.readers) :
    Inv (s.wlock tid) := by
  unfold wlock
  have hfits := h.fits
  split
  · next hstate =>
      split
      · next howner =>
          refine ⟨h.fits, h.queued, fun p hp => ⟨tid, (Option.some.inj hp).symm, ?_⟩⟩
          unfold Fits at hfits
          cases hs : s.lock.state with
          | free => exact absurd hs hstate
          | reading => exact .inl (hfine hs howner)
          | writing =>
              rw [hs] at hfits
              obtain ⟨-, -, t, hwriters, ht⟩ := hfits
              rw [howner] at ht
              cases ht
              right
              show tid ∈ s.writers
              rw [hwriters]
              exact mem_singleton_self tid
      · exact sleep_inv h ht hstate hpanic
  · next hstate =>
      have hs := not_not.mp hstate
      unfold Fits at hfits
      rw [hs] at hfits
      obtain ⟨hreaders, hwriters, hn, -⟩ := hfits
      refine ⟨⟨hreaders, hn, tid, ?_, rfl⟩, queued_setTask h ht, fun p hp => ?_⟩
      · show tid :: s.writers = [tid]
        rw [hwriters]
      · rw [show (s.setTask tid ⟨false, .out⟩).panic = s.panic from rfl, hpanic] at hp
        cases hp

/-- Everybody on the queue is woken. -/
theorem broadcast_queued {q : List Nat} {task : Nat → Task} (h : Queued q task) :
    ∃ task', broadcast q task = some task' := by
  induction q generalizing task with
  | nil => exact ⟨task, rfl⟩
  | cons tid q ih =>
      obtain ⟨hnodup, hasleep⟩ := h
      obtain ⟨hnot, hnodup⟩ := nodup_cons.mp hnodup
      rw [broadcast, if_pos (hasleep tid mem_cons_self)]
      apply ih
      refine ⟨hnodup, fun i hi => ?_⟩
      have hne : i ≠ tid := by
        intro hit
        exact hnot (hit ▸ hi)
      dsimp only
      rw [if_neg hne]
      exact hasleep i (mem_cons_of_mem tid hi)

theorem release_inv (hqueued : Queued s.lock.waitq s.task) (hreaders : s.readers = [])
    (hwriters : s.writers = []) (hn : s.lock.nreader = 0) (hpanic : s.panic = none) :
    ∃ s', s.release = some s' ∧ Inv s' := by
  obtain ⟨task, htask⟩ := broadcast_queued hqueued
  refine ⟨{ s with
    task := task
    lock := { s.lock with state := .free, waitq := [], lockowner := none } }, ?_,
    ⟨hreaders, hwriters, hn, rfl⟩, ⟨nodup_nil, ?_⟩, ?_⟩
  · rw [release, htask]
    rfl
  · intro i hi
    exact absurd hi not_mem_nil
  · intro p hp
    rw [hpanic] at hp
    cases hp

/-- A holder can always give the lock back. -/
theorem unlock_inv (h : Inv s) (hholds : s.holds tid) (hpanic : s.panic = none) :
    ∃ s', s.unlock tid = some s' ∧ Inv s' := by
  have hfits := h.fits
  unfold Fits at hfits
  unfold unlock
  dsimp only
  cases hs : s.lock.state with
  | free =>
      rw [hs] at hfits
      obtain ⟨hreaders, hwriters, -, -⟩ := hfits
      rw [holds, hreaders, hwriters] at hholds
      rcases hholds with hmem | hmem
      · exact absurd hmem not_mem_nil
      · exact absurd hmem not_mem_nil
  | reading =>
      rw [hs] at hfits
      obtain ⟨hwriters, hn, hpos⟩ := hfits
      have hmem : tid ∈ s.readers := by
        rcases hholds with hmem | hmem
        · exact hmem
        · rw [hwriters] at hmem
          exact absurd hmem not_mem_nil
      have hnot : tid ∉ s.writers := by
        rw [hwriters]
        exact not_mem_nil
      have hlen := length_erase_of_mem hmem
      rw [if_neg hnot]
      by_cases hmore : 0 < s.lock.nreader - 1
      · rw [if_pos hmore]
        refine ⟨_, rfl, ?_, h.queued, fun p hp => ?_⟩
        · unfold Fits
          refine ⟨?_, ?_, ?_⟩
          · rw [hwriters]
            rfl
          · show s.lock.nreader - 1 = ((s.readers.erase tid).length : Int)
            omega
          · rw [hlen]
            omega
        · rw [hpanic] at hp
          cases hp
      · rw [if_neg hmore]
        apply release_inv
        · exact h.queued
        · apply eq_nil_of_length_eq_zero
          show (s.readers.erase tid).length = 0
          omega
        · show s.writers.erase tid = []
          rw [hwriters]
          rfl
        · have hlast : ¬ 0 < s.lock.nreader - 1 := hmore
          show s.lock.nreader - 1 = 0
          omega
        · exact hpanic
  | writing =>
      rw [hs] at hfits
      obtain ⟨hreaders, hn, t, hwriters, -⟩ := hfits
      have hmem : tid ∈ s.writers := by
        rcases hholds with hmem | hmem
        · rw [hreaders] at hmem
          exact absurd hmem not_mem_nil
        · exact hmem
      have ht : tid = t := by
        rw [hwriters] at hmem
        exact mem_singleton.mp hmem
      rw [if_pos hmem]
      apply release_inv
      · exact h.queued
      · exact hreaders
      · show s.writers.erase tid = []
        rw [hwriters, ht]
        exact erase_cons_head t []
      · exact hn
      · exact hpanic

/-- **Step lemma.** -/
theorem step_inv (h : Inv s) (hfine : s.Fine a) (hstep : s.step a = some s') : Inv s' := by
  cases a with
  | rlock tid =>
      rw [step] at hstep
      split at hstep
      · next hfree =>
          cases hstep
          exact rlock_inv h (by rw [hfree.2]) hfree.1
      · cases hstep
  | wlock tid =>
      rw [step] at hstep
      split at hstep
      · next hfree =>
          cases hstep
          exact wlock_inv h (by rw [hfree.2]) hfree.1 (hfine tid ⟨rfl, hfree⟩)
      · cases hstep
  | unlock tid =>
      rw [step] at hstep
      split at hstep
      · next hcall =>
          obtain ⟨u, hu, hinv⟩ := unlock_inv h hcall.2 hcall.1.1
          rw [hu] at hstep
          cases hstep
          exact hinv
      · cases hstep
  | resume tid =>
      rw [step] at hstep
      split at hstep
      · next hwoken =>
          cases hstep
          exact rlock_inv h (by rw [hwoken.2]) hwoken.1
      split at hstep
      · next hwoken =>
          cases hstep
          exact wlock_inv h (by rw [hwoken.2]) hwoken.1 (hfine tid ⟨rfl, hwoken⟩)
      · cases hstep

/-- A call of `wlock` that is not fine panics, for a task without the lock. -/
theorem fine_of_ok (h : Ok s) (hnext : ∀ s', s.step a = some s' → Ok s') : s.Fine a := by
  intro tid hwrites hstate howner
  have hpanics : s.wlock tid = { s with panic := some (.wlock tid) } := by
    have hne : s.lock.state ≠ .free := by
      rw [hstate]
      exact nofun
    rw [wlock, if_pos hne, if_pos howner]
  have hstep : s.step a = some (s.wlock tid) := by
    cases a with
    | wlock t =>
        obtain ⟨rfl, hfree⟩ := hwrites
        rw [step, if_pos hfree]
    | resume t =>
        obtain ⟨rfl, hwoken⟩ := hwrites
        have hnot : ¬ s.woken tid .rlock := by
          intro hw
          have heq := hw.2.symm.trans hwoken.2
          cases heq
        rw [step, if_neg hnot, if_pos hwoken]
    | rlock t => exact hwrites.elim
    | unlock t => exact hwrites.elim
  have hok := hnext _ hstep
  rw [hpanics] at hok
  rcases hok.panic tid rfl with hmem | hmem
  · exact hmem
  · have hwriters := (h.reading hstate).2.2
    rw [show tid ∈ s.writers ↔ tid ∈ ([] : List Nat) from by rw [hwriters]] at hmem
    exact absurd hmem not_mem_nil

end Sys

/-! ## Runs -/

/-- A new lock. -/
def fresh : Sys where
  lock := ⟨.free, 0, [], none⟩
  task := fun _ => ⟨false, .out⟩
  readers := []
  writers := []
  panic := none

theorem fresh_inv : fresh.Inv := by
  refine ⟨⟨rfl, rfl, rfl, rfl⟩, ⟨nodup_nil, fun i hi => absurd hi not_mem_nil⟩, ?_⟩
  intro p hp
  cases hp

end Rwlock

end Unixlite.Kern
