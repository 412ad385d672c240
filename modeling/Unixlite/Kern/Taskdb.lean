import Mathlib.Data.BitVec
import Mathlib.Data.List.Basic

/-!
# The task table

Port of `kern/taskdb.cc` and of `mychild` from `kern/pgrp.cc`: the process tree
and the queues that tasks are found by.  Tasks are numbered in the order in which
they are made.  A queue is the list of its members; every task has a link of its
own for each of them.
-/

namespace Unixlite.Kern

/-- Why a step does not return. -/
inductive Fault where
  /-- Nobody is there to take the step. -/
  | disabled
  /-- A panic, a failed assertion or a null pointer. -/
  | panic
  /-- A process group or session is used that has been deleted. -/
  | deleted
  /-- A signal vector is used that `doexit` has disposed of. -/
  | disposed
deriving DecidableEq

/-- Follow a pointer. -/
def deref (p : Option Nat) : Except Fault Nat :=
  match p with
  | some x => .ok x
  | none => .error .panic

/-- `&idletask`, and the task that it forks. -/
def idle : Nat := 0
def init : Nat := 1

structure Taskdb where
  hmask : BitVec 32
  pid : Nat → BitVec 32
  parent : Nat → Option Nat
  childq : Nat → List Nat
  /-- The tasks that are not deleted. -/
  live : Nat → Bool
  ntask : Nat
  alltaskq : List Nat
  hashtab : BitVec 32 → List Nat
  zombietaskq : List Nat
  lastpid : BitVec 32
  inittask : Option Nat

namespace Taskdb

/-- The index of the chain that `hashfunc` gives. -/
def hashfunc (s : Taskdb) (pid : BitVec 32) : BitVec 32 := pid &&& s.hmask

def findtask (s : Taskdb) (pid : BitVec 32) : Option Nat :=
  (s.hashtab (s.hashfunc pid)).find? fun t => s.pid t == pid

/-- `newpid`: one of one number more than there are tasks is free. -/
def newpid (s : Taskdb) : Option (BitVec 32) := go (s.alltaskq.length + 1) s.lastpid
where
  go : Nat → BitVec 32 → Option (BitVec 32)
    | 0, _ => none
    | n + 1, lastpid =>
        if (s.findtask (lastpid + 1)).isNone then some (lastpid + 1) else go n (lastpid + 1)

/-- What `installidletask` leaves. -/
def installidletask (hmask : BitVec 32) : Taskdb where
  hmask := hmask
  pid := fun _ => 0
  parent := fun _ => none
  childq := fun _ => []
  live := fun t => t == idle
  ntask := 1
  alltaskq := [idle]
  hashtab := fun b => if b = 0 then [idle] else []
  zombietaskq := []
  lastpid := 0
  inittask := none

/-- The new task of `task_t::clone`, and what `task_t::install` does to the table. -/
def install (s : Taskdb) (curr : Nat) (pid : BitVec 32) : Taskdb :=
  let t := s.ntask
  { s with
    pid := fun u => if u = t then pid else s.pid u
    parent := fun u => if u = t then some curr else s.parent u
    childq := fun u =>
      if u = t then [] else if u = curr then s.childq u ++ [t] else s.childq u
    live := fun u => if u = t then true else s.live u
    ntask := s.ntask + 1
    alltaskq := s.alltaskq ++ [t]
    hashtab := fun b =>
      if b = s.hashfunc pid then s.hashtab b ++ [t] else s.hashtab b
    lastpid := pid }

/-- What `task_t::uninstall` does to the table, and the end of the task. -/
def uninstall (s : Taskdb) (t : Nat) : Except Fault Taskdb := do
  let s := { s with
    alltaskq := s.alltaskq.erase t
    hashtab := fun b => if b = s.hashfunc (s.pid t) then (s.hashtab b).erase t else s.hashtab b
    zombietaskq := s.zombietaskq.erase t }
  if s.childq t ≠ [] then .error .panic
  else
    let parent ← deref (s.parent t)
    .ok { s with
      childq := fun u => if u = parent then (s.childq u).erase t else s.childq u
      parent := fun u => if u = t then none else s.parent u
      live := fun u => if u = t then false else s.live u }

/-- The body of the loop of `doexit` over the children: one of them goes to
`inittask`. -/
def reparent (s : Taskdb) (curr c : Nat) : Except Fault (Nat × Taskdb) := do
  let i ← deref s.inittask
  let s := { s with
    childq := fun u => if u = curr then (s.childq u).erase c else s.childq u }
  .ok (i, { s with
    childq := fun u => if u = i then s.childq u ++ [c] else s.childq u
    parent := fun u => if u = c then some i else s.parent u })

/-- `mychild`; a task has at most as many ancestors as there were tasks before it. -/
def mychild (s : Taskdb) (curr t : Nat) : Option Bool := go (t + 1) t
where
  go : Nat → Nat → Option Bool
    | 0, _ => none
    | n + 1, t =>
        if t = idle then some false
        else
          match s.parent t with
          | none => none
          | some p => if p = curr then some true else go n p

end Taskdb

end Unixlite.Kern
