import Unixlite.Kern.Pgrp
import Unixlite.Kern.Signal

/-!
# Processes

Port of `kern/kill.cc`, of `stop` from `kern/signal.cc` and of the parts of
`kern/fork.cc` and `kern/taskdb.cc` that make a process and take it away, over the
task table, the process groups and the signals of each task.  The kernel switches
tasks only where one sleeps: a step of the system is what runs between two sleeps.
-/

namespace Unixlite.Kern

def SIGHUP : Nat := 1
def SIGALRM : Nat := 14
def SANOCLDSTOP : BitVec 32 := 1
def WNOHANG : BitVec 32 := 1
def WUNTRACED : BitVec 32 := 2

/-- Where a task is in the code it may sleep in. -/
inductive Phase where
  | user
  /-- `syswaitpid` waits. -/
  | waitpid (pid option : BitVec 32)
  /-- `doexit` closes the descriptors. -/
  | closing
  /-- `doexit` has disposed of the descriptor table and of the signal vector, and
  gives back the directories. -/
  | losing
  /-- `doexit` has disposed of the file system record as well. -/
  | done
deriving DecidableEq

/-- The signal vector is gone. -/
def Phase.disposed : Phase → Bool
  | .losing => true
  | .done => true
  | _ => false

structure Proc where
  db : Taskdb
  groups : Groups
  /-- What the signal code knows of a task. -/
  sig : Nat → Task
  phase : Nat → Phase
  exitcode : Nat → BitVec 32
  /-- `TFWAITCHLDEXIT`. -/
  waitchldexit : Nat → Bool
  /-- The exit statuses that have been returned: of which task, to which one. -/
  reaped : List (Nat × Nat × BitVec 32)

namespace Proc

def setSig (s : Proc) (t : Nat) (x : Task) : Proc :=
  { s with sig := fun u => if u = t then x else s.sig u }

def setState (s : Proc) (t : Nat) (st : Tstate) : Proc :=
  s.setSig t { s.sig t with state := st }

def setPhase (s : Proc) (t : Nat) (ph : Phase) : Proc :=
  { s with phase := fun u => if u = t then ph else s.phase u }

def setExitcode (s : Proc) (t : Nat) (e : BitVec 32) : Proc :=
  { s with exitcode := fun u => if u = t then e else s.exitcode u }

def setWaitchldexit (s : Proc) (t : Nat) (f : Bool) : Proc :=
  { s with waitchldexit := fun u => if u = t then f else s.waitchldexit u }

/-! ## Signals -/

/-- `post` reads the signal vector. -/
def takes (s : Proc) (t signo : Nat) : Bool :=
  !((s.sig t).isidle || (s.sig t).state == .zombie) && !((s.sig t).isinit && signo != SIGCHLD)

/-- `task_t::post`. -/
def post (s : Proc) (t signo : Nat) : Except Fault Proc :=
  if !s.takes t signo then .ok s
  else if !validsig signo then .error .panic
  else if (s.phase t).disposed then .error .disposed
  else .ok (s.setSig t ((s.sig t).post signo))

/-- `pgrp_t::post`, of the members of the group. -/
def postAll (s : Proc) (signo : Nat) : List Nat → Except Fault Proc
  | [] => .ok s
  | t :: l => do (← s.post t signo).postAll signo l

/-- `session_t::post`, of the groups of the session. -/
def postSession (s : Proc) (signo : Nat) : List Nat → Except Fault Proc
  | [] => .ok s
  | g :: l => do
      let p ← s.groups.getPgrp g
      (← s.postAll signo p.taskq).postSession signo l

/-- `task_t::kill`.  `perm` says for which tasks the user ids let `curr` through. -/
def kill (s : Proc) (curr : Nat) (perm : Nat → Bool) (t signo : Nat) :
    Except Fault (Int × Proc) := do
  if !validsig signo then .ok (EINVAL, s)
  else if perm t then .ok (0, ← s.post t signo)
  else if signo ≠ SIGCONT then .ok (EPERM, s)
  else if (← s.groups.sessionAt curr) ≠ (← s.groups.sessionAt t) then .ok (EPERM, s)
  else .ok (0, ← s.post t signo)

/-- `pgrp_t::kill`, of the members of the group; `e` is the first error so far. -/
def killAll (s : Proc) (curr : Nat) (perm : Nat → Bool) (signo : Nat) :
    List Nat → Int → Except Fault (Int × Proc)
  | [], e => .ok (e, s)
  | t :: l, e => do
      let (e', s) ← s.kill curr perm t signo
      s.killAll curr perm signo l (if e ≠ 0 then e else e')

/-- Whom `syskill` kills; `none` is `ESRCH`. -/
def targets (s : Proc) (curr : Nat) (pid : BitVec 32) : Except Fault (Option (List Nat)) := do
  if (0 : BitVec 32).slt pid then .ok ((s.db.findtask pid).map fun t => [t])
  else if pid = -1 then .ok (some s.db.alltaskq)
  else if pid = 0 then
    let (_, p) ← s.groups.pgrpAt curr
    .ok (some p.taskq)
  else
    match ← s.groups.findpgrp (-pid) with
    | none => .ok none
    | some g =>
        let p ← s.groups.getPgrp g
        .ok (some p.taskq)

def syskill (s : Proc) (curr : Nat) (perm : Nat → Bool) (pid : BitVec 32) (signo : Nat) :
    Except Fault (Int × Proc) := do
  match ← s.targets curr pid with
  | none => .ok (ESRCH, s)
  | some l => s.killAll curr perm signo l 0

/-- `task_t::wakeup`. -/
def wakeup (s : Proc) (t : Nat) : Proc :=
  if (s.sig t).state ≠ .sleep ∧ (s.sig t).state ≠ .wait then s else s.setState t .run

def notify (s : Proc) (parent : Nat) : Except Fault Proc := do
  let s ← s.post parent SIGCHLD
  if s.waitchldexit parent then .ok ((s.wakeup parent).setWaitchldexit parent false)
  else .ok s

def stop (s : Proc) (curr signo : Nat) : Except Fault Proc := do
  let parent ← deref (s.db.parent curr)
  if (s.phase parent).disposed then .error .disposed
  else
    let told : Except Fault Proc :=
      if ((s.sig parent).sigvec SIGCHLD).flags &&& SANOCLDSTOP = 0 then s.post parent SIGCHLD
      else .ok s
    let s ← told
    .ok ((s.setExitcode curr (BitVec.ofNat 32 signo <<< 8 ||| 0xff)).setState curr .stop)

def notifyfg (s : Proc) (tty signo : Nat) : Except Fault Proc := do
  match ← s.groups.ttyfg tty with
  | none => .ok s
  | some (_, _, g) =>
      let p ← s.groups.getPgrp g
      s.postAll signo p.taskq

/-! ## Fork -/

/-- `dofork`; `ok` says whether `mm_t::clone` finds memory.  If it does not, the new
task is lost, with its number. -/
def dofork (s : Proc) (curr : Nat) (ok : Bool) : Except Fault Proc := do
  match s.db.newpid with
  | none => .error .disabled
  | some pid =>
      if !ok then .ok { s with db := { s.db with lastpid := pid } }
      else
        let (g, _) ← s.groups.pgrpAt curr
        let t := s.db.ntask
        let groups ← (s.groups.setPgrpof t none).enter t g
        .ok ((({ s with db := s.db.install curr pid, groups := groups }.setSig t
          (s.sig curr).clone).setPhase t .user).setExitcode t 0 |>.setWaitchldexit t false)

/-! ## Exit -/

/-- The loop of `doexit` over the children. -/
def reparent (s : Proc) (curr : Nat) : List Nat → Except Fault Proc
  | [] => .ok s
  | c :: l => do
      let (i, db) ← s.db.reparent curr c
      let s := { s with db := db }
      let told : Except Fault Proc :=
        if (s.sig c).state = .zombie ∨ (s.sig c).state = .stop then s.notify i else .ok s
      (← told).reparent curr l

/-- The end of `doexit`, from `dispose(&curr->fs)` on. -/
def endexit (s : Proc) (curr : Nat) : Except Fault Proc := do
  let s := s.setPhase curr .done
  let parent ← deref (s.db.parent curr)
  let s ← s.notify parent
  -- what goes to the end of the queue that the loop is in, the loop finds again
  if s.db.inittask = some curr ∧ 2 ≤ (s.db.childq curr).length then .error .panic
  else
    let s ← s.reparent curr (s.db.childq curr)
    let i ← s.groups.sessionAt curr
    let x ← s.groups.getSession i
    let told : Except Fault Proc :=
      if x.leader = some curr then s.postSession SIGHUP x.pgrpq else .ok s
    let s := (← told).setState curr .zombie
    .ok { s with db := { s.db with zombietaskq := s.db.zombietaskq ++ [curr] } }

/-- `delete` of a task: `task_t::~task_t`. -/
def delete (s : Proc) (t : Nat) : Except Fault Proc := do
  if (s.sig t).state ≠ .zombie then .error .panic
  else
    let groups ← s.groups.leave t
    let db ← s.db.uninstall t
    .ok { s with db := db, groups := groups }

/-! ## Wait -/

/-- Does `syswaitpid` wait for this child? -/
def waitsfor (s : Proc) (curr : Nat) (pid : BitVec 32) (c : Nat) : Except Fault Bool := do
  if (0 : BitVec 32).slt pid then .ok (s.db.pid c == pid)
  else if pid = 0 then .ok (s.groups.pgrpof c == s.groups.pgrpof curr)
  else if pid.slt (-1) then
    let (_, p) ← s.groups.pgrpAt c
    .ok (p.pgid == -pid)
  else .ok true

/-- What the loop of `syswaitpid` finds. -/
inductive Scan where
  | stopped (c : Nat)
  | zombie (c : Nat)
  | none (found : Bool)

/-- The loop of `syswaitpid`. -/
def scan (s : Proc) (curr : Nat) (pid option : BitVec 32) :
    List Nat → Bool → Except Fault Scan
  | [], found => .ok (.none found)
  | c :: l, found => do
      if !(← s.waitsfor curr pid c) then s.scan curr pid option l found
      else
        match (s.sig c).state with
        | .stop =>
            if option &&& WUNTRACED = 0 then s.scan curr pid option l true
            else if s.exitcode c = 0 then s.scan curr pid option l true
            else .ok (.stopped c)
        | .zombie => .ok (.zombie c)
        | _ => s.scan curr pid option l true

/-- `syswaitpid` from `repeat` on, until it returns or sleeps. -/
def waitrepeat (s : Proc) (curr : Nat) (pid option : BitVec 32) (found : Bool) :
    Except Fault Proc := do
  match ← s.scan curr pid option (s.db.childq curr) found with
  | .stopped c => .ok ((s.setExitcode c 0).setPhase curr .user)
  | .zombie c =>
      let s ← { s with reaped := (c, curr, s.exitcode c) :: s.reaped }.delete c
      .ok (s.setPhase curr .user)
  | .none found =>
      if !found then .ok (s.setPhase curr .user)
      else if option &&& WNOHANG ≠ 0 then .ok (s.setPhase curr .user)
      else
        let s := s.setWaitchldexit curr true
        let s := if (s.sig curr).hassig then s else s.setState curr .wait
        .ok (s.setPhase curr (.waitpid pid option))

/-- `syswaitpid`, when `waitq.wait()` is over. -/
def waitwoken (s : Proc) (curr : Nat) (pid option : BitVec 32) : Except Fault Proc :=
  if s.waitchldexit curr then .ok ((s.setWaitchldexit curr false).setPhase curr .user)
  else s.waitrepeat curr pid option true

end Proc

/-! ## The system -/

inductive ProcEvent where
  /-- `syssetup`. -/
  | setup (t : Nat)
  | fork (t : Nat) (ok : Bool)
  | setsid (t : Nat) (low : Bool) (mem : BitVec 32)
  | setpgid (t : Nat) (low : Bool) (pid pgid mem : BitVec 32)
  | condevOpen (t tty : Nat)
  | tiocgpgrp (t tty : Nat)
  | tiocspgrp (t tty : Nat) (pgid : BitVec 32)
  /-- A key that the terminal makes a signal of. -/
  | key (tty signo : Nat)
  | kill (t : Nat) (perm : Nat → Bool) (pid : BitVec 32) (signo : Nat)
  /-- The timer of `sysalarm`. -/
  | alarm (t : Nat)
  /-- The task changes its actions and its mask, or takes signals. -/
  | signals (t : Nat) (sigset sigmask : Sigset) (sigvec : Sigvec)
  | stop (t signo : Nat)
  | waitpid (t : Nat) (pid option : BitVec 32)
  | waitwoken (t : Nat)
  | sleep (t : Nat)
  | wait (t : Nat)
  | wake (t : Nat)
  /-- `doexit`, until `closeall` is over. -/
  | exit (t : Nat) (exitcode : BitVec 32)
  | closed (t : Nat)
  | lost (t : Nat)

namespace Proc

/-- The task runs, in this phase. -/
def runs (s : Proc) (t : Nat) (ph : Phase) : Bool :=
  s.db.alltaskq.contains t && (s.sig t).state == .run && s.phase t == ph

/-- The task runs and may make a system call.  The code of the idle task forks once,
and then makes no call but `nice`. -/
def calls (s : Proc) (t : Nat) : Bool := s.runs t .user && t != idle

def forks (s : Proc) (t : Nat) : Bool := s.runs t .user && (t != idle || s.db.lastpid == 0)

/-- Only if the task is there to do it. -/
def guard (c : Bool) (s : Except Fault Proc) : Except Fault Proc :=
  if c then s else .error .disabled

/-- One step of the system. -/
def outcome (s : Proc) : ProcEvent → Except Fault Proc
  | .setup t => guard (s.calls t) <|
      if s.db.pid t ≠ 1 then .error .panic
      else
        .ok ({ s with db := { s.db with inittask := some t } }.setSig t
          { s.sig t with isinit := true })
  | .fork t ok => guard (s.forks t) (s.dofork t ok)
  | .setsid t low mem => guard (s.calls t) do
      let (_, groups) ← s.groups.syssetsid s.db t low mem
      .ok { s with groups := groups }
  | .setpgid t low pid pgid mem => guard (s.calls t) do
      let (_, groups) ← s.groups.syssetpgid s.db t low pid pgid mem
      .ok { s with groups := groups }
  | .condevOpen t tty => guard (s.calls t) do
      .ok { s with groups := ← s.groups.condevOpen t tty }
  | .tiocgpgrp t tty => guard (s.calls t) do
      let _ ← s.groups.tiocgpgrp tty
      .ok s
  | .tiocspgrp t tty pgid => guard (s.calls t) do
      let (_, groups) ← s.groups.tiocspgrp tty pgid
      .ok { s with groups := groups }
  | .key tty signo => s.notifyfg tty signo
  | .kill t perm pid signo => guard (s.calls t) do
      let (_, s) ← s.syskill t perm pid signo
      .ok s
  | .alarm t =>
      guard (s.db.alltaskq.contains t && (s.phase t matches .user | .waitpid _ _))
        (s.post t SIGALRM)
  | .signals t sigset sigmask sigvec => guard (s.calls t) <|
      .ok (s.setSig t { s.sig t with sigset := sigset, sigmask := sigmask, sigvec := sigvec })
  | .stop t signo => guard (s.calls t) (s.stop t signo)
  | .waitpid t pid option => guard (s.calls t) (s.waitrepeat t pid option false)
  | .waitwoken t =>
      match s.phase t with
      | .waitpid pid option =>
          guard (s.runs t (.waitpid pid option)) (s.waitwoken t pid option)
      | _ => .error .disabled
  | .sleep t => guard (s.runs t (s.phase t) && !(s.phase t matches .waitpid _ _))
      (.ok (s.setState t .sleep))
  | .wait t => guard (s.runs t (s.phase t) && !(s.phase t matches .waitpid _ _))
      (if (s.sig t).hassig then .ok s else .ok (s.setState t .wait))
  | .wake t => guard (s.db.alltaskq.contains t) (.ok (s.wakeup t))
  | .exit t exitcode => guard (s.calls t) <|
      .ok ((s.setExitcode t exitcode).setPhase t .closing)
  | .closed t => guard (s.runs t .closing) (.ok (s.setPhase t .losing))
  | .lost t => guard (s.runs t .losing) (s.endexit t)

/-- One step of the system, if it returns. -/
def step (s : Proc) (a : ProcEvent) : Option Proc := (s.outcome a).toOption

/-- What `launchidletask` leaves.  `hmask` and `ghmask` are the sizes of the two hash
tables, less one; `mem` is the word where the first group gets its `pgid`. -/
def boot (hmask ghmask mem : BitVec 32) : Proc where
  db := .installidletask hmask
  groups := .installidletask ghmask mem
  sig := fun t => ⟨t == idle, false, .run, Sigset.clear, Sigset.clear, fun _ => Sigact.zero, .none⟩
  phase := fun _ => .user
  exitcode := fun _ => 0
  waitchldexit := fun _ => false
  reaped := []

end Proc

end Unixlite.Kern
