import Unixlite.Verified.Run

/-!
# The I/O lock

Port of `iolock_t` of `kern/lock.cc` with the `waitsleep` and `sched` under it, for
any number of tasks on one processor and interrupts that call `unlock`.  The kernel
switches tasks in `sched` only; an interrupt may come wherever the interrupt flag
is set, which is at every state here.

`lock` and `wait` clear the interrupt flag once, before their loop, and `sched`
sets it.  So only the first test of `locked_` and the sleep behind it are one
step, and the interrupt that comes between a later test and its sleep is missed
(`run_wakeups`).
-/

namespace Unixlite.Kern

open Unixlite.Verified.Run List

namespace Iolock

/-! ## The lock -/

/-- `iolock_t`. -/
structure Lock where
  locked : Bool
  waitq : List Nat
deriving DecidableEq

/-- The call a task is in. -/
inductive Call where
  | lock
  | wait
deriving DecidableEq

/-- Where a task is. -/
inductive Loc where
  | out
  /-- On the queue, `TSLEEP`. -/
  | asleep (c : Call)
  /-- `TRUN` again, in front of the test of the loop. -/
  | woken (c : Call)
  /-- Behind a test that found the lock free. -/
  | passed (c : Call)
  /-- Behind a test that did not, in front of the `cli` of `waitsleep`. -/
  | failed (c : Call)
deriving DecidableEq

structure Sys where
  lock : Lock
  task : Nat → Loc
  curr : Nat
  /-- `curr` is in `sched`. -/
  insched : Bool

inductive Event where
  /-- `curr` calls `lock` or `wait`. -/
  | call (c : Call)
  /-- `curr` goes on in the call. -/
  | go
  /-- `unlock`, by an interrupt or by a task. -/
  | unlock
  /-- `curr` calls `sched` outside the lock's code. -/
  | resched
  /-- `sched` picks a task. -/
  | run (tid : Nat)
deriving DecidableEq

namespace Sys

def setTask (s : Sys) (tid : Nat) (l : Loc) : Sys :=
  { s with task := fun i => if i = tid then l else s.task i }

/-- `waitsleep` from its `cli` on. -/
def waitsleep (s : Sys) (c : Call) : Sys :=
  { s.setTask s.curr (.asleep c) with
    lock := { s.lock with waitq := s.lock.waitq ++ [s.curr] }
    insched := true }

/-- What follows the loop. -/
def leave (s : Sys) (c : Call) : Sys :=
  { s.setTask s.curr .out with
    lock := match c with
      | .lock => { s.lock with locked := true }
      | .wait => s.lock }

/-- `waitq.broadcast()`: `wakeup` takes a sleeping task off the queue and leaves
any other where it is, so that the loop would not end. -/
def broadcast : List Nat → (Nat → Loc) → Option (Nat → Loc)
  | [], task => some task
  | tid :: q, task =>
      match task tid with
      | .asleep c => broadcast q fun i => if i = tid then .woken c else task i
      | _ => none

def unlock (s : Sys) : Option Sys :=
  (broadcast s.lock.waitq s.task).map fun task => { s with task := task, lock := ⟨false, []⟩ }

/-- One event; `none` when it cannot happen. -/
def step (s : Sys) : Event → Option Sys
  | .call c =>
      if s.insched = false ∧ s.task s.curr = .out then
        -- interrupts are off from the test to the sleep
        some (if s.lock.locked then s.waitsleep c else s.leave c)
      else none
  | .go =>
      if s.insched then none
      else
        match s.task s.curr with
        | .woken c => some (s.setTask s.curr (if s.lock.locked then .failed c else .passed c))
        | .passed c => some (s.leave c)
        | .failed c => some (s.waitsleep c)
        | _ => none
  | .unlock => s.unlock
  | .resched =>
      if s.insched = false ∧ s.task s.curr = .out then some { s with insched := true } else none
  | .run tid =>
      match s.insched, s.task tid with
      | true, .asleep _ => none
      | true, _ => some { s with curr := tid, insched := false }
      | false, _ => none

/-! ## What the lock promises -/

/-- Nobody sleeps on a free lock. -/
def Wakes (s : Sys) : Prop := s.lock.locked = false → ∀ tid c, s.task tid ≠ .asleep c

/-- The lock is not given back while a task is between a test that failed, other
than its first, and the sleep. -/
def Fine (s : Sys) : Event → Prop
  | .unlock => ∀ tid c, s.task tid ≠ .failed c
  | _ => True

/-! ## The invariant -/

structure Queued (q : List Nat) (task : Nat → Loc) : Prop where
  nodup : q.Nodup
  mem : ∀ tid, tid ∈ q ↔ ∃ c, task tid = .asleep c

structure Inv (s : Sys) : Prop where
  queued : Queued s.lock.waitq s.task
  failed : ∀ tid c, s.task tid = .failed c → tid = s.curr ∧ s.insched = false

/-- In addition nobody has missed an `unlock`. -/
structure Kept (s : Sys) : Prop extends Inv s where
  waitq : s.lock.locked = false → s.lock.waitq = []
  locked : ∀ tid c, s.task tid = .failed c → s.lock.locked = true

variable {s s' : Sys} {tid : Nat} {c : Call} {l : Loc} {a : Event}

theorem Kept.wakes (h : Kept s) : s.Wakes := by
  intro hfree tid c htask
  have hmem := (h.queued.mem tid).mpr ⟨c, htask⟩
  rw [h.waitq hfree] at hmem
  exact absurd hmem not_mem_nil

variable {q : List Nat} {task : Nat → Loc}

/-- A task that is not asleep moves on. -/
theorem Queued.move (h : Queued q task)
    (hold : ∀ c, task tid ≠ .asleep c) (hnew : ∀ c, l ≠ .asleep c) :
    Queued q fun i => if i = tid then l else task i := by
  refine ⟨h.nodup, fun i => ?_⟩
  by_cases hi : i = tid
  · subst hi
    rw [if_pos rfl]
    constructor
    · intro hmem
      obtain ⟨c, hc⟩ := (h.mem i).mp hmem
      exact absurd hc (hold c)
    · rintro ⟨c, hc⟩
      exact absurd hc (hnew c)
  · rw [if_neg hi]
    exact h.mem i

/-- A task that is not asleep goes to sleep. -/
theorem Queued.sleep (h : Queued q task) (hold : ∀ c, task tid ≠ .asleep c) :
    Queued (q ++ [tid]) fun i => if i = tid then .asleep c else task i := by
  have hnot : tid ∉ q := by
    intro hmem
    obtain ⟨c, hc⟩ := (h.mem tid).mp hmem
    exact hold c hc
  refine ⟨?_, fun i => ?_⟩
  · refine nodup_append.mpr ⟨h.nodup, ?_, fun a ha b hb => ?_⟩
    · exact nodup_cons.mpr ⟨not_mem_nil, nodup_nil⟩
    rw [mem_singleton.mp hb]
    intro hab
    exact hnot (hab ▸ ha)
  · rw [mem_append, mem_singleton]
    by_cases hi : i = tid
    · rw [if_pos hi]
      exact ⟨fun _ => ⟨c, rfl⟩, fun _ => .inr hi⟩
    · rw [if_neg hi, ← h.mem i]
      exact ⟨fun hmem => hmem.resolve_right hi, .inl⟩

/-- Everybody on the queue is woken, and nobody else moves. -/
theorem broadcast_spec (h : Queued q task) :
    ∃ task', broadcast q task = some task' ∧ (∀ tid c, task' tid ≠ .asleep c) ∧
      ∀ tid c, task' tid = .failed c ↔ task tid = .failed c := by
  induction q generalizing task with
  | nil =>
      refine ⟨task, rfl, fun tid c hc => ?_, fun tid c => Iff.rfl⟩
      exact absurd ((h.mem tid).mpr ⟨c, hc⟩) not_mem_nil
  | cons t q ih =>
      obtain ⟨hnot, hnodup⟩ := nodup_cons.mp h.nodup
      obtain ⟨c, hc⟩ := (h.mem t).mp mem_cons_self
      have hrest : Queued q fun i => if i = t then .woken c else task i := by
        refine ⟨hnodup, fun i => ?_⟩
        by_cases hi : i = t
        · rw [if_pos hi, hi]
          constructor
          · exact fun hmem => absurd hmem hnot
          · rintro ⟨d, hd⟩
            cases hd
        · rw [if_neg hi, ← h.mem i, mem_cons]
          exact ⟨.inr, fun hmem => hmem.resolve_left hi⟩
      obtain ⟨task', htask', hawake, hfailed⟩ := ih hrest
      refine ⟨task', ?_, hawake, fun i d => ?_⟩
      · rw [broadcast, hc]
        exact htask'
      · rw [hfailed i d]
        by_cases hi : i = t
        · rw [if_pos hi, hi, hc]
          exact ⟨nofun, nofun⟩
        · rw [if_neg hi]

theorem unlock_spec (h : Inv s) :
    ∃ task', s.unlock = some { s with task := task', lock := ⟨false, []⟩ } ∧
      (∀ tid c, task' tid ≠ .asleep c) ∧
      ∀ tid c, task' tid = .failed c ↔ s.task tid = .failed c := by
  obtain ⟨task', htask', hawake, hfailed⟩ := broadcast_spec h.queued
  refine ⟨task', ?_, hawake, hfailed⟩
  rw [unlock, htask']
  rfl

/-- Where nobody sleeps the queue is empty. -/
theorem Queued.nil (h : ∀ tid c, task tid ≠ .asleep c) : Queued [] task := by
  refine ⟨nodup_nil, fun tid => ?_⟩
  constructor
  · exact fun hmem => absurd hmem not_mem_nil
  · rintro ⟨c, hc⟩
    exact absurd hc (h tid c)

theorem waitsleep_inv (h : Inv s) (hcurr : ∀ c, s.task s.curr ≠ .asleep c) :
    Inv (s.waitsleep c) := by
  refine ⟨h.queued.sleep hcurr, fun i d hd => ?_⟩
  simp only [waitsleep, setTask] at hd
  split at hd
  · cases hd
  · next hi => exact absurd (h.failed i d hd).1 hi

theorem leave_inv (h : Inv s) (hcurr : ∀ c, s.task s.curr ≠ .asleep c) : Inv (s.leave c) := by
  refine ⟨?_, fun i d hd => ?_⟩
  · have hqueued : Queued s.lock.waitq fun i => if i = s.curr then .out else s.task i :=
      h.queued.move hcurr nofun
    cases c with
    | lock => exact hqueued
    | wait => exact hqueued
  · simp only [leave, setTask] at hd
    split at hd
    · cases hd
    · exact h.failed i d hd

theorem step_inv (h : Inv s) (hstep : s.step a = some s') : Inv s' := by
  cases a with
  | call c =>
      rw [step] at hstep
      split at hstep
      · next hcall =>
          have hcurr : ∀ c, s.task s.curr ≠ .asleep c := by
            rw [hcall.2]
            exact fun _ => nofun
          cases hstep
          split
          · exact waitsleep_inv h hcurr
          · exact leave_inv h hcurr
      · cases hstep
  | go =>
      rw [step] at hstep
      split at hstep
      · cases hstep
      next hsched =>
      split at hstep
      · next c hc =>
          cases hstep
          refine ⟨h.queued.move ?_ ?_, fun i d hd => ?_⟩
          · rw [hc]
            exact fun _ => nofun
          · intro d
            split
            · exact nofun
            · exact nofun
          · simp only [setTask] at hd
            split at hd
            · next hi =>
                refine ⟨hi, ?_⟩
                show s.insched = false
                simpa using hsched
            · exact h.failed i d hd
      · next c hc =>
          cases hstep
          exact leave_inv h (by rw [hc]; exact fun _ => nofun)
      · next c hc =>
          cases hstep
          exact waitsleep_inv h (by rw [hc]; exact fun _ => nofun)
      · cases hstep
  | unlock =>
      obtain ⟨task', hunlock, hawake, hfailed⟩ := unlock_spec h
      rw [step, hunlock] at hstep
      cases hstep
      exact ⟨Queued.nil hawake, fun i d hd => h.failed i d ((hfailed i d).mp hd)⟩
  | resched =>
      rw [step] at hstep
      split at hstep
      · next hcall =>
          cases hstep
          refine ⟨h.queued, fun i d hd => ?_⟩
          have hi := (h.failed i d hd).1
          subst hi
          rw [show s.task s.curr = .out from hcall.2] at hd
          cases hd
      · cases hstep
  | run tid =>
      have hnone : s.insched = true → ∀ i d, s.task i ≠ .failed d := by
        intro hsched i d hd
        rw [(h.failed i d hd).2] at hsched
        cases hsched
      rw [step] at hstep
      split at hstep
      · cases hstep
      · next hsched _ =>
          cases hstep
          exact ⟨h.queued, fun i d hd => absurd hd (hnone hsched i d)⟩
      · cases hstep

/-- **Step lemma.** -/
theorem step_kept (h : Kept s) (hfine : s.Fine a) (hstep : s.step a = some s') : Kept s' := by
  have hinv := step_inv h.toInv hstep
  cases a with
  | call c =>
      rw [step] at hstep
      split at hstep
      · next hcall =>
          have hnone : ∀ i d, s.task i ≠ .failed d := by
            intro i d hd
            have hi := (h.failed i d hd).1
            rw [hi, hcall.2] at hd
            cases hd
          cases hstep
          split
          · next hlocked =>
              rw [if_pos hlocked] at hinv
              refine ⟨hinv, fun hfree => ?_, fun _ _ _ => hlocked⟩
              rw [show (s.waitsleep c).lock.locked = s.lock.locked from rfl, hlocked] at hfree
              cases hfree
          · next hlocked =>
              rw [if_neg hlocked] at hinv
              have hfree : s.lock.locked = false := by simpa using hlocked
              refine ⟨hinv, fun _ => ?_, fun i d hd => ?_⟩
              · cases c with
                | lock => exact h.waitq hfree
                | wait => exact h.waitq hfree
              · simp only [leave, setTask] at hd
                split at hd
                · cases hd
                · exact absurd hd (hnone i d)
      · cases hstep
  | go =>
      rw [step] at hstep
      split at hstep
      · cases hstep
      split at hstep
      · next c hc =>
          cases hstep
          refine ⟨hinv, h.waitq, fun i d hd => ?_⟩
          simp only [setTask] at hd
          split at hd
          · split at hd
            · next hlocked => exact hlocked
            · cases hd
          · exact h.locked i d hd
      · next c hc =>
          cases hstep
          cases c with
          | lock => exact ⟨hinv, nofun, fun _ _ _ => rfl⟩
          | wait =>
              refine ⟨hinv, h.waitq, fun i d hd => ?_⟩
              simp only [leave, setTask] at hd
              split at hd
              · cases hd
              · exact h.locked i d hd
      · next c hc =>
          cases hstep
          -- the lock is taken since the test, as no `unlock` has come in between
          have hlocked := h.locked s.curr c hc
          refine ⟨hinv, fun hfree => ?_, fun _ _ _ => hlocked⟩
          rw [show (s.waitsleep c).lock.locked = s.lock.locked from rfl, hlocked] at hfree
          cases hfree
      · cases hstep
  | unlock =>
      obtain ⟨task', hunlock, hawake, hfailed⟩ := unlock_spec h.toInv
      rw [step, hunlock] at hstep
      cases hstep
      exact ⟨hinv, fun _ => rfl, fun i d hd => absurd ((hfailed i d).mp hd) (hfine i d)⟩
  | resched =>
      rw [step] at hstep
      split at hstep
      · cases hstep
        exact ⟨hinv, h.waitq, h.locked⟩
      · cases hstep
  | run tid =>
      rw [step] at hstep
      split at hstep
      · cases hstep
      · cases hstep
        exact ⟨hinv, h.waitq, h.locked⟩
      · cases hstep

/-- An `unlock` that is not fine is missed: the task goes to sleep all the same. -/
theorem unlock_missed (h : Inv s) (hnot : ¬ s.Fine .unlock) :
    ∃ t, exec step s [.unlock, .go] = some t ∧ ¬ t.Wakes := by
  simp only [Fine, not_forall, not_not] at hnot
  obtain ⟨tid, c, hc⟩ := hnot
  obtain ⟨htid, hsched⟩ := h.failed tid c hc
  subst htid
  obtain ⟨task', hunlock, -, hfailed⟩ := unlock_spec h
  have hgo : step { s with task := task', lock := ⟨false, []⟩ } .go =
      some (waitsleep { s with task := task', lock := ⟨false, []⟩ } c) := by
    rw [step]
    simp only [hsched, Bool.false_eq_true, if_false, (hfailed s.curr c).mpr hc]
  refine ⟨waitsleep { s with task := task', lock := ⟨false, []⟩ } c, ?_, fun hwakes => ?_⟩
  swap
  · have hasleep : (waitsleep { s with task := task', lock := ⟨false, []⟩ } c).task s.curr =
        .asleep c := if_pos rfl
    exact hwakes rfl s.curr c hasleep
  rw [exec_cons, step, hunlock, Option.bind_some, exec_cons, hgo]
  rfl

end Sys

/-! ## Runs -/

/-- A new lock; task 0 runs. -/
def fresh : Sys where
  lock := ⟨false, []⟩
  task := fun _ => .out
  curr := 0
  insched := false

theorem fresh_kept : fresh.Kept := by
  refine ⟨⟨Sys.Queued.nil fun _ _ => nofun, fun _ _ hd => ?_⟩, fun _ => rfl, fun _ _ hd => ?_⟩
  · cases hd
  · cases hd

end Iolock

end Unixlite.Kern
