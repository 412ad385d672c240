import Unixlite.Kern.TimerLeft
import Unixlite.Kern.WaitRun
import Unixlite.Lib.Fifoq

/-!
# Timed waits and the reader of a terminal

Port of `waitq_t::waitsleep(state, ntick)` of `kern/lock.cc` and of `tty_t::readchar` and
`tty_t::waitchar` of `dev/chr/tty.cc`, over the timer wheel and the tasks with their
signals.  The timer of a timed wait lies on the stack of the task: it is known by the
number of the task.

A task gives up the processor only in `waitsleep`, but interrupts put characters into
`cookedq` at any time, so that each test of the reader is a step.  They come between
`timer.start()` and the `cli()` after it as well, and then the timer may fire before the
task sleeps.
-/

namespace Unixlite.Dev.Tty

open Unixlite.Verified.Run Unixlite.Kern Unixlite.Lib

def CLKFREQ : Nat := 100

/-- `time1totick`, of tenths of a second. -/
def time1totick (time1 : Nat) : Nat := time1 * (CLKFREQ / 10)

/-- The timer on the stack of a task; the others have odd numbers. -/
def timer (tid : Nat) : Nat := 2 * tid

/-- The queue that the readers of the terminal wait in. -/
def readerq : Nat := 0

/-! ## Machine -/

/-- The local variables of `readchar`: what is in the buffer, the room that is left there,
and `left`. -/
structure Reading where
  b : List Byte
  len : Nat
  left : Int

/-- What `waitsleep` makes the state of a task. -/
def Asleep : Type := { state : Tstate // state ≠ .run }

def TSLEEP : Asleep := ⟨.sleep, by decide⟩

def TWAIT : Asleep := ⟨.wait, by decide⟩

/-- Where a task stands: outside of what is modelled here, in a timed wait of some other
code, at the head of the loop of `readchar`, or in one of the two `waitchar`, at the test
of its loop or in its wait.  In a timed wait it has started its timer, and then sleeps. -/
inductive Frame where
  | out
  | started (q : Nat) (state : Asleep) (ntick : Int)
  | sleep (ntick : Int)
  | loop (r : Reading)
  | char (r : Reading)
  | charwait (r : Reading)
  | timed (r : Reading)
  | timedstarted (r : Reading)
  | timedwait (r : Reading)

/-- The period of the timer that the task has started, if it is in a timed wait. -/
def Frame.ntick : Frame → Option Int
  | .started _ _ ntick | .sleep ntick => some ntick
  | .timedstarted r | .timedwait r => some r.left
  | _ => none

def Frame.isOut : Frame → Bool
  | .out => true
  | _ => false

/-- A return from a timed wait. -/
structure Ret where
  tid : Nat
  ntick : Int
  value : Int
deriving DecidableEq

structure Machine where
  wheel : Timer.Wheel
  tasks : Nat → Task
  waitq : Nat → List Nat
  frame : Nat → Frame
  cookedq : List Byte
  vmin : BitVec 8
  vtime : BitVec 8
  /-- The assertion of `timer_t::start` has failed. -/
  panic : Bool
  /-- The timed wait that the last step has returned from. -/
  ret : Option Ret
  /-- The task whose `read` the last step has returned from, and what it returned. -/
  result : Option (Nat × Int)

namespace Machine

def goto (m : Machine) (tid : Nat) (f : Frame) : Machine :=
  { m with frame := fun i => if i = tid then f else m.frame i }

/-- The task becomes `t`.  One that is woken leaves its wait queue. -/
def become (m : Machine) (tid : Nat) (t : Task) : Machine :=
  { m with
    tasks := fun i => if i = tid then t else m.tasks i
    waitq := fun q =>
      if t.state = .run then (m.waitq q).filter (· ≠ tid) else m.waitq q }

def wakeup (m : Machine) (tid : Nat) : Machine := m.become tid (Wait.wakeup (m.tasks tid))

def signal (m : Machine) (q : Nat) : Machine :=
  match m.waitq q with
  | [] => m
  | tid :: _ => m.wakeup tid

/-- `broadcast`; each `signal` takes a task off the queue. -/
def broadcast (m : Machine) (q : Nat) : Machine := (m.waitq q).foldl wakeup m

/-- The task sleeps in queue `q`, and stands at `f`. -/
def enqtail (m : Machine) (tid q : Nat) (state : Asleep) (f : Frame) : Machine :=
  { m.goto tid f with
    tasks := fun i => if i = tid then { m.tasks tid with state := state.val } else m.tasks i
    waitq := fun i => if i = q then m.waitq q ++ [tid] else m.waitq i }

/-- `waitsleep(state, ntick)`, up to its `cli()`; `f` is where the task stands then. -/
def waitsleep (m : Machine) (tid : Nat) (ntick : Int) (f : Frame) : Machine :=
  match m.wheel.startPeriod (timer tid) ntick with
  | none => { m with panic := true }
  | some wheel => { m with wheel := wheel }.goto tid f

/-- `waitsleep(state, ntick)`, from its `sched()` on. -/
def woken (m : Machine) (tid : Nat) (ntick : Int) : Machine :=
  let wheel := m.wheel.stop (timer tid)
  { m with wheel := wheel, ret := some ⟨tid, ntick, wheel.lefttick (timer tid)⟩ }

/-- `read` returns. -/
def leave (m : Machine) (tid : Nat) (result : Int) : Machine :=
  { m.goto tid .out with result := some (tid, result) }

/-- A character has been stored. -/
def store (m : Machine) (tid : Nat) (r : Reading) (c : Byte) (left : Int) : Machine :=
  m.goto tid (.loop ⟨r.b ++ [c], r.len - 1, left⟩)

/-! ## The reader -/

/-- A test of `readchar` or of a `waitchar`, or `waitsleep` from its `cli()` on to its
`sched()`. -/
def go (m : Machine) (tid : Nat) : Option Machine :=
  match m.frame tid, m.cookedq with
  | .loop r, cookedq =>
      if r.len = 0 then some (m.leave tid r.b.length)
      else
        match cookedq with
        | c :: cookedq => some ({ m with cookedq := cookedq }.store tid r c r.left)
        | [] =>
            if m.vmin.toNat ≤ r.b.length then some (m.leave tid r.b.length)
            else if m.vtime = 0 ∨ m.vmin ≠ 0 ∧ r.b = [] then some (m.goto tid (.char r))
            else some (m.goto tid (.timed r))
  | .char r, c :: cookedq => some ({ m with cookedq := cookedq }.store tid r c r.left)
  | .char r, [] =>
      if (m.tasks tid).hassig then some (m.leave tid EINTR)
      else some (m.enqtail tid readerq TWAIT (.charwait r))
  | .timed r, c :: cookedq =>
      let m : Machine := { m with cookedq := cookedq }
      if r.left = 0 then some (m.leave tid r.b.length)
      else if m.vmin ≠ 0 then some (m.store tid r c (time1totick m.vtime.toNat))
      else some (m.store tid r c r.left)
  | .timed r, [] =>
      -- `readerq.wait(*left)` of a task with a signal returns 0 at once
      if (m.tasks tid).hassig then
        some { m.leave tid EINTR with ret := some ⟨tid, r.left, 0⟩ }
      else some (m.waitsleep tid r.left (.timedstarted r))
  | .timedstarted r, _ => some (m.enqtail tid readerq TWAIT (.timedwait r))
  | .started q state ntick, _ => some (m.enqtail tid q state (.sleep ntick))
  | _, _ => none

/-- A task that has been woken goes on. -/
def resume (m : Machine) (tid : Nat) : Option Machine :=
  match m.frame tid with
  | .sleep ntick => some ((m.woken tid ntick).goto tid .out)
  | .charwait r =>
      if (m.tasks tid).hassig then some (m.leave tid EINTR) else some (m.goto tid (.char r))
  | .timedwait r =>
      let left := m.wheel.lefttick (timer tid)
      let m := m.woken tid r.left
      if (m.tasks tid).hassig then some (m.leave tid EINTR)
      else some (m.goto tid (.timed { r with left := left }))
  | _ => none

/-- The task runs, and not in `timersoftisr`. -/
def running (m : Machine) (tid : Nat) : Prop :=
  (m.tasks tid).state = .run ∧ m.wheel.phase = .out

instance (m : Machine) (tid : Nat) : Decidable (m.running tid) :=
  inferInstanceAs (Decidable (_ ∧ _))

/-- The callback that is about to be called wakes a task when its timer is one on a
stack. -/
def alarm (m : Machine) : Option Nat :=
  (m.wheel.queue (.below m.wheel.cur)).head?.bind fun t =>
    if t % 2 = 0 then some (t / 2) else none

end Machine

/-! ## Steps -/

inductive Event where
  /-- A call of `sleep(ntick)` or `wait(ntick)` of queue `q`. -/
  | sleep (tid q ntick : Nat)
  | wait (tid q ntick : Nat)
  /-- `tty_t::read` in noncanonical mode, into a buffer of `len` bytes. -/
  | read (tid len : Nat)
  | go (tid : Nat)
  /-- `sched()` switches to a task that waits. -/
  | resume (tid : Nat)
  /-- A piece of `timersoftisr`, or the start or the stop of some other timer. -/
  | wheel (e : Timer.Event)
  | wakeup (tid : Nat)
  | signal (q : Nat)
  | broadcast (q : Nat)
  | post (tid signo : Nat)
  /-- The rest of the terminal code changes `cookedq`. -/
  | cook (cookedq : List Byte)
  | settermios (vmin vtime : BitVec 8)
  /-- Whatever else a task does. -/
  | other (tid : Nat) (t : Task)

/-- The timers of the tasks are left alone. -/
def spares : Timer.Event → Bool
  | .start t _ | .stop t => t % 2 == 1
  | _ => true

/-- The event in a machine whose last returns have been forgotten. -/
def next (m : Machine) : Event → Option Machine
  | .sleep tid q ntick =>
      if m.running tid ∧ (m.frame tid).isOut ∧ 1 ≤ ntick then
        some (m.waitsleep tid ntick (.started q TSLEEP ntick))
      else none
  | .wait tid q ntick =>
      if m.running tid ∧ (m.frame tid).isOut ∧ 1 ≤ ntick then
        if (m.tasks tid).hassig then some { m with ret := some ⟨tid, ntick, 0⟩ }
        else some (m.waitsleep tid ntick (.started q TWAIT ntick))
      else none
  | .read tid len =>
      if m.running tid ∧ (m.frame tid).isOut then
        some (m.goto tid (.loop ⟨[], len, time1totick m.vtime.toNat⟩))
      else none
  | .go tid => if m.running tid then m.go tid else none
  | .resume tid => if m.running tid then m.resume tid else none
  | .wheel e =>
      if spares e then
        (Timer.step m.wheel e).map fun wheel =>
          let m' := { m with wheel := wheel }
          match e, m.alarm with
          | .fire, some tid => m'.wakeup tid
          | _, _ => m'
      else none
  | .wakeup tid => some (m.wakeup tid)
  | .signal q => some (m.signal q)
  | .broadcast q => some (m.broadcast q)
  | .post tid signo => some (m.become tid ((m.tasks tid).post signo))
  | .cook cookedq => some { m with cookedq := cookedq }
  | .settermios vmin vtime => some { m with vmin := vmin, vtime := vtime }
  | .other tid t => if (m.frame tid).isOut then some (m.become tid t) else none

/-- One event.  Nothing happens after a failed assertion. -/
def step (m : Machine) (e : Event) : Option Machine :=
  if m.panic then none else next { m with ret := none, result := none } e

/-- A terminal that nobody reads. -/
def start (tasks : Nat → Task) (vmin vtime : BitVec 8) : Machine where
  wheel := Timer.init
  tasks := tasks
  waitq := fun _ => []
  frame := fun _ => .out
  cookedq := []
  vmin := vmin
  vtime := vtime
  panic := false
  ret := none
  result := none

end Unixlite.Dev.Tty
