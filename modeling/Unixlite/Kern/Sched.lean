import Unixlite.Kern.Signal
import Unixlite.Verified.Bitmap

/-!
# The scheduler

Port of `kern/sched.cc`, with `waitsleep`, `signal` and `broadcast` of
`kern/lock.cc` and what `fork` and the task database do to the run queues.  A
task is a number, 0 is the idle task.  A queue is the list of its tasks;
`linked` says that `nextrun` and `prevrun` of a task are not null.  A failed
assertion is `none`.

What runs between `cli` and `sti` is one step, and so is `install`.
-/

namespace Unixlite.Kern.Sched

open Unixlite.Verified.Bitmap

def NRUNTASKQ : Nat := 32

def idletask : Nat := 0

structure Task where
  state : Tstate
  priority : Int
  counter : Int

/-- The queues that the link `run` serves. -/
inductive Queue where
  | run (i : Nat)
  | wait (q : Nat)
deriving DecidableEq

structure Machine where
  task : Nat → Task
  alltaskq : List Nat
  /-- The tasks that `clone` has made and that are not installed. -/
  cloned : List Nat
  queue : Queue → List Nat
  linked : Nat → Bool
  mask : BitVec 32
  curr : Nat
  needresched : Bool

def between (a b c : Int) : Bool := a ≤ b && b < c

namespace Machine

def setTask (m : Machine) (t : Nat) (x : Task) : Machine :=
  { m with task := fun i => if i = t then x else m.task i }

def enqtail (m : Machine) (q : Queue) (t : Nat) : Option Machine :=
  if m.linked t then none
  else some { m with
    queue := fun q' => if q' = q then m.queue q ++ [t] else m.queue q'
    linked := fun i => if i = t then true else m.linked i }

/-- `unlinkrun`, from whatever queue the task is on. -/
def unlinkrun (m : Machine) (t : Nat) : Option Machine :=
  if m.linked t then
    some { m with
      queue := fun q => (m.queue q).erase t
      linked := fun i => if i = t then false else m.linked i }
  else none

def enqrun (m : Machine) (t : Nat) : Option Machine := do
  let counter := (m.task t).counter
  if between 0 counter NRUNTASKQ then
    let m ← m.enqtail (.run counter.toNat) t
    return { m with mask := m.mask ||| bit 32 counter.toNat }
  else none

def deqrun (m : Machine) (t : Nat) : Option Machine := do
  let counter := (m.task t).counter
  if between 0 counter NRUNTASKQ then
    let m ← m.unlinkrun t
    if m.queue (.run counter.toNat) = [] then
      return { m with mask := m.mask &&& ~~~bit 32 counter.toNat }
    else return m
  else none

def setcounter (m : Machine) (t : Nat) (newval : Int) : Option Machine :=
  let x : Task := { m.task t with counter := newval }
  if (m.task t).state ≠ .run then some (m.setTask t x)
  else do
    let m ← m.deqrun t
    (m.setTask t x).enqrun t

/-- `timerisr`, but for the clock and the softirq. -/
def timerisr (m : Machine) : Option Machine := do
  let x := m.task m.curr
  if x.state ≠ .run then return m
  else if x.counter = 0 then return { m with needresched := true }
  else
    let m ← m.setcounter m.curr (x.counter - 1)
    return { m with needresched := true }

/-- `checkmask` passes. -/
def checkmask (m : Machine) : Bool :=
  m.mask != 0 &&
    (List.range NRUNTASKQ).all fun i => m.mask.getLsbD i == !(m.queue (.run i)).isEmpty

/-- What `find` gives a task when no task has time left. -/
def quota (m : Machine) (t : Nat) : Int :=
  let x := m.task t
  let newval := x.priority + x.counter * 2
  let newval := if newval ≥ NRUNTASKQ then (NRUNTASKQ : Int) - 1 else newval
  if t = idletask then 1 else newval

/-- The loop of `find` over all tasks. -/
def refill : List Nat → Machine → Option Machine
  | [], m => some m
  | t :: ts, m => do
    let m ← m.setcounter t (m.quota t)
    refill ts m

/-- `find`, from the label `repeat`, with at most `fuel` refills.  `bsrl` of 0
gives no index. -/
def findRepeat : Nat → Machine → Option (Nat × Machine)
  | fuel, m => do
    let idx ← bsr m.mask
    if idx = 0 then
      match fuel with
      | 0 => none
      | fuel + 1 =>
        let m ← refill m.alltaskq m
        findRepeat fuel m
    else
      let t ← (m.queue (.run idx)).head?
      if (m.task t).state = .run then return (t, m) else none

def find (m : Machine) : Option (Nat × Machine) :=
  if m.checkmask then findRepeat NRUNTASKQ m else none

/-- `sched`, up to and with the switch. -/
def sched (m : Machine) : Option Machine := do
  let (target, m) ← m.find
  let m : Machine := { m with needresched := false }
  if (m.task m.curr).state = .run ∧ (m.task m.curr).counter = (m.task target).counter then
    return m
  else return { m with curr := target }

def prempt (m : Machine) : Option Machine := if m.needresched then m.sched else some m

def wakeup (m : Machine) (t : Nat) : Option Machine :=
  if (m.task t).state ≠ .sleep ∧ (m.task t).state ≠ .wait then some m
  else do
    let m ← m.unlinkrun t
    let m ← (m.setTask t { m.task t with state := .run }).enqrun t
    if (m.task t).counter ≥ (m.task m.curr).counter + 2 then return { m with needresched := true }
    else return m

/-- `waitsleep` on queue `q`, up to its `sched()`. -/
def waitsleep (m : Machine) (q : Nat) (state : Tstate) : Option Machine := do
  let m ← m.deqrun m.curr
  let m := m.setTask m.curr { m.task m.curr with state := state }
  m.enqtail (.wait q) m.curr

def signal (m : Machine) (q : Nat) : Option Machine :=
  match (m.queue (.wait q)).head? with
  | none => some m
  | some t => m.wakeup t

/-- `while (!empty()) signal();`, at most `fuel` times. -/
def broadcastLoop : Nat → Machine → Nat → Option Machine
  | fuel, m, q =>
    if m.queue (.wait q) = [] then some m
    else
      match fuel with
      | 0 => none
      | fuel + 1 => do
        let m ← m.signal q
        broadcastLoop fuel m q

/-- `broadcast`; each `signal` takes a task off the queue, or the loop does not
end. -/
def broadcast (m : Machine) (q : Nat) : Option Machine :=
  broadcastLoop (m.queue (.wait q)).length m q

/-- `task_t::clone` by `curr`. -/
def clone (m : Machine) (t : Nat) : Machine :=
  { m.setTask t { m.task m.curr with state := .run } with cloned := t :: m.cloned }

def install (m : Machine) (t : Nat) : Option Machine :=
  ({ m with
    alltaskq := m.alltaskq ++ [t]
    cloned := m.cloned.erase t
    linked := fun i => if i = t then false else m.linked i } : Machine).enqrun t

/-- `uninstall`, which takes the task off `zombietaskq`. -/
def uninstall (m : Machine) (t : Nat) : Option Machine :=
  if (m.task t).state = .zombie then
    ({ m with alltaskq := m.alltaskq.erase t } : Machine).unlinkrun t
  else none

/-- `sysnice`; the arithmetic is that of an `int`. -/
def sysnice (m : Machine) (inc : Int) (suser : Bool) : Option Machine :=
  if inc < 0 ∧ !suser then some m
  else
    let x := m.task m.curr
    let priority := Int.bmod (x.priority - inc) (2 ^ 32)
    let x := if between 0 priority NRUNTASKQ then { x with priority := priority } else x
    (m.setTask m.curr x).setcounter m.curr 0

end Machine

/-- `launchidletask` and `installidletask`; `task` is what the memory of other
tasks has. -/
def launchidletask (task : Nat → Task) (linked : Nat → Bool) : Option Machine :=
  ({
    task := fun i => if i = idletask then ⟨.run, 16, 1⟩ else task i
    alltaskq := [idletask]
    cloned := []
    queue := fun _ => []
    linked := fun i => if i = idletask then false else linked i
    mask := 0
    curr := idletask
    needresched := false } : Machine).enqrun idletask

inductive Event where
  | clone (t : Nat)
  | install (t : Nat)
  | timerisr
  /-- `setcounter` to a value that has a queue. -/
  | setcounter (t : Nat) (newval : Int)
  | nice (inc : Int) (suser : Bool)
  | waitsleep (q : Nat) (state : Tstate)
  | wakeup (t : Nat)
  | signal (q : Nat)
  | broadcast (q : Nat)
  | sched
  | prempt
  | uninstall (t : Nat)

/-- The current task runs. -/
def Machine.running (m : Machine) : Bool := (m.task m.curr).state == .run

/-- One event.  The idle task does not sleep, and a task is not freed by
itself. -/
def step (m : Machine) : Event → Option Machine
  | .clone t =>
      if m.running ∧ t ∉ m.alltaskq ∧ t ∉ m.cloned then some (m.clone t) else none
  | .install t => if m.running ∧ t ∈ m.cloned then m.install t else none
  | .timerisr => m.timerisr
  | .setcounter t newval =>
      if t ∈ m.alltaskq ∧ between 0 newval NRUNTASKQ then m.setcounter t newval else none
  | .nice inc suser => if m.running then m.sysnice inc suser else none
  | .waitsleep q state =>
      if m.running ∧ m.curr ≠ idletask ∧ state ≠ .run then m.waitsleep q state else none
  | .wakeup t => if t ∈ m.alltaskq then m.wakeup t else none
  | .signal q => m.signal q
  | .broadcast q => m.broadcast q
  | .sched => m.sched
  | .prempt => m.prempt
  | .uninstall t =>
      if m.running ∧ t ∈ m.alltaskq ∧ t ≠ m.curr then m.uninstall t else none

end Unixlite.Kern.Sched
