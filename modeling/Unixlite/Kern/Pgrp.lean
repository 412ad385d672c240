import Unixlite.Kern.Taskdb
import Unixlite.Lib.Errno

/-!
# Process groups and sessions

Port of `kern/pgrp.cc`, without its signals.  Groups and sessions are numbered in
the order of their creation; an object that is deleted is gone from the heap, and
its number is not given again.
-/

namespace Unixlite.Kern

structure Pgrp where
  pgid : BitVec 32
  taskq : List Nat
  session : Option Nat

structure Session where
  sid : BitVec 32
  leader : Option Nat
  fg : Option Nat
  tty : Option Nat
  pgrpq : List Nat

structure Groups where
  hmask : BitVec 32
  /-- `task_t::pgrp`. -/
  pgrpof : Nat → Option Nat
  pgrp : Nat → Option Pgrp
  session : Nat → Option Session
  hashtab : BitVec 32 → List Nat
  npgrp : Nat
  nsession : Nat
  /-- `tty_t::session`. -/
  ttysession : Nat → Option Nat

namespace Groups

/-! ## The heap -/

def getPgrp (s : Groups) (g : Nat) : Except Fault Pgrp :=
  match s.pgrp g with
  | some p => .ok p
  | none => .error .deleted

def getSession (s : Groups) (i : Nat) : Except Fault Session :=
  match s.session i with
  | some x => .ok x
  | none => .error .deleted

def setPgrp (s : Groups) (g : Nat) (p : Option Pgrp) : Groups :=
  { s with pgrp := fun h => if h = g then p else s.pgrp h }

def setSession (s : Groups) (i : Nat) (x : Option Session) : Groups :=
  { s with session := fun j => if j = i then x else s.session j }

def setPgrpof (s : Groups) (t : Nat) (g : Option Nat) : Groups :=
  { s with pgrpof := fun u => if u = t then g else s.pgrpof u }

def hashfunc (s : Groups) (pgid : BitVec 32) : BitVec 32 := pgid &&& s.hmask

/-- `unlinkhash`: the group leaves the chain that it is on. -/
def unlinkhash (s : Groups) (g : Nat) : Groups :=
  { s with hashtab := fun b => (s.hashtab b).erase g }

/-- `task->pgrp`, and the group there. -/
def pgrpAt (s : Groups) (t : Nat) : Except Fault (Nat × Pgrp) := do
  let g ← deref (s.pgrpof t)
  .ok (g, ← s.getPgrp g)

/-- `task->pgrp->session`. -/
def sessionAt (s : Groups) (t : Nat) : Except Fault Nat := do
  let (_, p) ← s.pgrpAt t
  deref p.session

def findpgrp (s : Groups) (pgid : BitVec 32) : Except Fault (Option Nat) :=
  go (s.hashtab (s.hashfunc pgid))
where
  go : List Nat → Except Fault (Option Nat)
    | [] => .ok none
    | g :: l => do
        let p ← s.getPgrp g
        if p.pgid = pgid then .ok (some g) else go l

/-! ## Creation and deletion -/

/-- `pgrp_t::pgrp_t`: the group is put on the chain of what is in `pgid` before it
is set.  `mem` is the word that `operator new` has left there. -/
def newPgrp (s : Groups) (i t : Nat) (pid mem : BitVec 32) : Except Fault Groups := do
  let x ← s.getSession i
  let g := s.npgrp
  let s := { s.setSession i (some { x with pgrpq := x.pgrpq ++ [g] }) with npgrp := g + 1 }
  let s := { s with
    hashtab := fun b => if b = s.hashfunc mem then s.hashtab b ++ [g] else s.hashtab b }
  .ok ((s.setPgrpof t (some g)).setPgrp g (some ⟨pid, [t], some i⟩))

/-- `session_t::session_t`. -/
def newSession (s : Groups) (t : Nat) (pid mem : BitVec 32) : Except Fault Groups := do
  if s.pgrpof t ≠ none then .error .panic
  else
    let i := s.nsession
    let s := { s.setSession i (some ⟨pid, some t, none, none, []⟩) with nsession := i + 1 }
    s.newPgrp i t pid mem

/-- `session_t::~session_t`. -/
def delSession (s : Groups) (i : Nat) (x : Session) : Except Fault Groups :=
  if x.leader ≠ none ∨ x.fg ≠ none then .error .panic
  else
    .ok { s.setSession i none with
      ttysession := fun y => if x.tty = some y then none else s.ttysession y }

/-- `task_t::enter`. -/
def enter (s : Groups) (t g : Nat) : Except Fault Groups := do
  if s.pgrpof t ≠ none then .error .panic
  else
    let p ← s.getPgrp g
    .ok ((s.setPgrpof t (some g)).setPgrp g (some { p with taskq := p.taskq ++ [t] }))

/-- `task_t::leave`. -/
def leave (s : Groups) (t : Nat) : Except Fault Groups := do
  let (g, p) ← s.pgrpAt t
  let i ← deref p.session
  let s := s.setPgrpof t none
  let x ← s.getSession i
  let x := { x with leader := if x.leader = some t then none else x.leader }
  let p := { p with taskq := p.taskq.erase t }
  if p.taskq ≠ [] then .ok ((s.setSession i (some x)).setPgrp g (some p))
  else
    let x := { x with
      fg := if x.fg = some g then none else x.fg
      pgrpq := x.pgrpq.erase g }
    let s := (s.setPgrp g none).unlinkhash g
    if x.pgrpq ≠ [] then .ok (s.setSession i (some x))
    else s.delSession i x

/-! ## System calls -/

/-- `syssetsid`; `low` is what `lowfreepage` says. -/
def syssetsid (s : Groups) (db : Taskdb) (curr : Nat) (low : Bool) (mem : BitVec 32) :
    Except Fault (Int × Groups) := do
  if low then .ok (ENOMEM, s)
  else
    let (_, p) ← s.pgrpAt curr
    if p.pgid = db.pid curr then .ok (EPERM, s)
    else
      let s ← s.leave curr
      let s ← s.newSession curr (db.pid curr) mem
      .ok ((db.pid curr).toInt, s)

/-- The task that `syssetpgid` is about, or its error. -/
def setpgidTask (s : Groups) (db : Taskdb) (curr : Nat) (pid : BitVec 32) :
    Except Fault (Except Int Nat) := do
  if pid = 0 ∨ pid = db.pid curr then .ok (.ok curr)
  else
    match db.findtask pid with
    | none => .ok (.error ESRCH)
    | some task =>
        match db.mychild curr task with
        | none => .error .panic
        | some false => .ok (.error EPERM)
        | some true =>
            if (← s.sessionAt task) ≠ (← s.sessionAt curr) then .ok (.error EPERM)
            else .ok (.ok task)

/-- `syssetpgid` of that task, whose `pid` is `pid`. -/
def setpgid (s : Groups) (task : Nat) (pid pgid mem : BitVec 32) :
    Except Fault (Int × Groups) := do
  let i ← s.sessionAt task
  let x ← s.getSession i
  if x.leader = some task then .ok (EPERM, s)
  else
    let pgid := if pgid = 0 then pid else pgid
    match ← s.findpgrp pgid with
    | some g =>
        if pid = pgid then .ok (EPERM, s)
        else if s.pgrpof task = some g then .ok (0, s)
        else
          let s ← s.leave task
          .ok (0, ← s.enter task g)
    | none =>
        if pid = pgid then
          let s ← s.leave task
          .ok (0, ← s.newPgrp i task pid mem)
        else .ok (ESRCH, s)

def syssetpgid (s : Groups) (db : Taskdb) (curr : Nat) (low : Bool) (pid pgid mem : BitVec 32) :
    Except Fault (Int × Groups) := do
  if low then .ok (ENOMEM, s)
  else
    match ← s.setpgidTask db curr pid with
    | .error e => .ok (e, s)
    | .ok task => s.setpgid task (if pid = 0 then db.pid curr else pid) pgid mem

/-! ## The terminal -/

/-- `condev_t::open`. -/
def condevOpen (s : Groups) (curr tty : Nat) : Except Fault Groups := do
  let (g, p) ← s.pgrpAt curr
  let i ← deref p.session
  let x ← s.getSession i
  if x.tty ≠ none then .ok s
  else
    .ok { s.setSession i (some { x with tty := some tty, fg := some g }) with
      ttysession := fun y => if y = tty then some i else s.ttysession y }

/-- `session && session->fg`, and the two. -/
def ttyfg (s : Groups) (tty : Nat) : Except Fault (Option (Nat × Session × Nat)) :=
  match s.ttysession tty with
  | none => .ok none
  | some i => do
      let x ← s.getSession i
      match x.fg with
      | none => .ok none
      | some g => .ok (some (i, x, g))

/-- `TIOCGPGRP`, with `session_t::getfg`. -/
def tiocgpgrp (s : Groups) (tty : Nat) : Except Fault (Int × Option (BitVec 32)) := do
  match ← s.ttyfg tty with
  | none => .ok (EINVAL, none)
  | some (_, _, g) =>
      let p ← s.getPgrp g
      .ok (0, some p.pgid)

/-- `TIOCSPGRP`, with `session_t::setfg`. -/
def tiocspgrp (s : Groups) (tty : Nat) (pgid : BitVec 32) : Except Fault (Int × Groups) := do
  match ← s.ttyfg tty with
  | none => .ok (EINVAL, s)
  | some (i, x, _) =>
      match ← s.findpgrp pgid with
      | none => .ok (ESRCH, s)
      | some g => .ok (0, s.setSession i (some { x with fg := some g }))

end Groups

/-- What `installidletask` leaves: the idle task has a session and a group. -/
def Groups.installidletask (hmask mem : BitVec 32) : Groups where
  hmask := hmask
  pgrpof := fun t => if t = idle then some 0 else none
  pgrp := fun g => if g = 0 then some ⟨0, [idle], some 0⟩ else none
  session := fun i => if i = 0 then some ⟨0, some idle, none, none, [0]⟩ else none
  hashtab := fun b => if b = mem &&& hmask then [0] else []
  npgrp := 1
  nsession := 1
  ttysession := fun _ => none

end Unixlite.Kern
