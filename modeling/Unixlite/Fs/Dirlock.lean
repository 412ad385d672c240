import Mathlib.Logic.Relation
import Unixlite.Kern.Rwlock

/-!
# The locks of directories

Port of the locking in `lookup`, `unlink`, `mkdir` and `rename` of `fs/dir.cc` and in
`getdents` of `fs/dirent.cc`, for any number of tasks and directories, over `rwlock_t`
of `kern/lock.cc`.  A task is switched only where it sleeps; it may sleep anywhere
behind its last lock, for blocks of the disk.  `panic` stops the system.

`rename` takes its two locks in the order of its arguments, and so does `..` of a
mounted root.  Two calls whose orders go against each other may end up asleep on each
other's first lock (`run_no_cycle`).
-/

namespace Unixlite.Fs

open Unixlite.Kern.Rwlock (Lock)
open Unixlite.Verified.Run
open Relation (TransGen)
open Option

namespace Dirlock

/-! ## The calls -/

inductive Mode where
  | rlock
  | wlock
deriving DecidableEq

/-- What a call locks: one inode, and then maybe another one. -/
structure Locks where
  mode : Mode
  fst : Nat
  snd : Option Nat
deriving DecidableEq

inductive Call where
  | lookup (dir : Nat)
  /-- `lookup` of `..` in a mounted root. -/
  | lookupPeer (root peer : Nat)
  | getdents (dir : Nat)
  | unlink (dir : Nat)
  | mkdir (dir : Nat)
  | rename (olddir newdir : Nat)
deriving DecidableEq

def Call.locks : Call → Locks
  | .lookup dir => ⟨.rlock, dir, none⟩
  | .lookupPeer root peer => ⟨.rlock, root, some peer⟩
  | .getdents dir => ⟨.rlock, dir, none⟩
  | .unlink dir => ⟨.wlock, dir, none⟩
  | .mkdir dir => ⟨.wlock, dir, none⟩
  | .rename olddir newdir => ⟨.wlock, olddir, if olddir ≠ newdir then some newdir else none⟩

/-- Where a task is. -/
inductive Loc where
  | out
  /-- In the first `rlock` or `wlock`. -/
  | first (c : Locks)
  /-- In the second one. -/
  | second (c : Locks)
  /-- Behind them; `file` is deleted by the call, and `truncate` has locked it. -/
  | body (c : Locks) (file : Option Nat)
deriving DecidableEq

structure Task where
  /-- `TSLEEP`, else `TRUN`. -/
  asleep : Bool
  loc : Loc
deriving DecidableEq

structure Sys where
  lock : Nat → Lock
  task : Nat → Task

inductive Event where
  | call (tid : Nat) (c : Call)
  /-- A task that has been woken goes on. -/
  | resume (tid : Nat)
  /-- The last reference to a file without links is lost. -/
  | truncate (tid file : Nat)
  | truncated (tid : Nat)
  /-- The call unlocks and returns. -/
  | finish (tid : Nat)

namespace Sys

def setTask (s : Sys) (tid : Nat) (t : Task) : Sys :=
  { s with task := fun i => if i = tid then t else s.task i }

def setLock (s : Sys) (i : Nat) (l : Lock) : Sys :=
  { s with lock := fun j => if j = i then l else s.lock j }

/-- `waitq.sleep()`. -/
def sleep (s : Sys) (tid i : Nat) (loc : Loc) : Sys :=
  (s.setLock i { s.lock i with waitq := (s.lock i).waitq ++ [tid] }).setTask tid ⟨true, loc⟩

/-- One turn of the loop of `rlock` or `wlock`, by `tid`. -/
inductive Turn where
  | got (l : Lock)
  | sleeps
  | panics

def turn (mode : Mode) (l : Lock) (tid : Nat) : Turn :=
  match mode with
  | .rlock =>
      if l.state = .writing then .sleeps
      else .got { l with state := .reading, nreader := l.nreader + 1, lockowner := some tid }
  | .wlock =>
      if l.state = .free then .got { l with state := .writing, lockowner := some tid }
      else if l.lockowner = some tid then .panics
      else .sleeps

/-- From the second lock on. -/
def second (s : Sys) (tid : Nat) (c : Locks) (i : Nat) : Option Sys :=
  match turn c.mode (s.lock i) tid with
  | .panics => none
  | .sleeps => some (s.sleep tid i (.second c))
  | .got l => some ((s.setLock i l).setTask tid ⟨false, .body c none⟩)

/-- From the first lock on. -/
def first (s : Sys) (tid : Nat) (c : Locks) : Option Sys :=
  match turn c.mode (s.lock c.fst) tid with
  | .panics => none
  | .sleeps => some (s.sleep tid c.fst (.first c))
  | .got l =>
      match c.snd with
      | some i => (s.setLock c.fst l).second tid c i
      | none => some ((s.setLock c.fst l).setTask tid ⟨false, .body c none⟩)

/-- `waitq.broadcast()`; the loop does not end at a task that is not asleep. -/
def broadcast : List Nat → (Nat → Task) → Option (Nat → Task)
  | [], task => some task
  | tid :: q, task =>
      if (task tid).asleep then
        broadcast q fun i => if i = tid then { task tid with asleep := false } else task i
      else none

def release (s : Sys) (i : Nat) : Option Sys :=
  (broadcast (s.lock i).waitq s.task).map fun task =>
    { s with task := task }.setLock i
      { s.lock i with state := .free, waitq := [], lockowner := none }

def unlock (s : Sys) (i : Nat) : Option Sys :=
  match (s.lock i).state with
  | .free => none
  | .reading =>
      let s := s.setLock i { s.lock i with nreader := (s.lock i).nreader - 1 }
      if 0 < (s.lock i).nreader then some s else s.release i
  | .writing => s.release i

/-- The end of a call: the second lock is given back first. -/
def finish (s : Sys) (tid : Nat) (c : Locks) : Option Sys :=
  let peer := match c.snd with
    | some i => s.unlock i
    | none => some s
  (peer.bind fun s => s.unlock c.fst).map fun s => s.setTask tid ⟨false, .out⟩

/-- One event; `none` when it cannot happen, or panics. -/
def step (s : Sys) : Event → Option Sys
  | .call tid c => if s.task tid = ⟨false, .out⟩ then s.first tid c.locks else none
  | .resume tid =>
      match s.task tid with
      | ⟨false, .first c⟩ => s.first tid c
      | ⟨false, .second c⟩ => c.snd.bind fun i => s.second tid c i
      | _ => none
  | .truncate tid file =>
      match s.task tid, turn .wlock (s.lock file) tid with
      | ⟨false, .body c none⟩, .got l =>
          some ((s.setLock file l).setTask tid ⟨false, .body c (some file)⟩)
      | _, _ => none
  | .truncated tid =>
      match s.task tid with
      | ⟨false, .body c (some file)⟩ =>
          (s.unlock file).map fun s => s.setTask tid ⟨false, .body c none⟩
      | _ => none
  | .finish tid =>
      match s.task tid with
      | ⟨false, .body c none⟩ => s.finish tid c
      | _ => none

/-! ## Who waits for whom -/

/-- The task is asleep on the lock of `i`. -/
def AsleepOn (s : Sys) (tid i : Nat) : Prop :=
  (s.task tid).asleep = true ∧
    ((∃ c, (s.task tid).loc = .first c ∧ c.fst = i) ∨
      ∃ c, (s.task tid).loc = .second c ∧ c.snd = some i)

/-- A `rlock` or `wlock` of `i` by the task has returned, and it has not unlocked it. -/
def Holds (s : Sys) (tid i : Nat) : Prop :=
  match (s.task tid).loc with
  | .out => False
  | .first _ => False
  | .second c => c.fst = i
  | .body c file => c.fst = i ∨ c.snd = some i ∨ file = some i

def Waits (s : Sys) (tid tid' : Nat) : Prop := ∃ i, s.AsleepOn tid i ∧ s.Holds tid' i

def NoCycle (s : Sys) : Prop := ∀ tid, ¬ TransGen s.Waits tid tid

/-- A call in progress that has not got its second lock, `b`; the first one is `a`. -/
def Pending (s : Sys) (a b : Nat) : Prop :=
  ∃ tid c, ((s.task tid).loc = .first c ∨ (s.task tid).loc = .second c) ∧
    c.fst = a ∧ c.snd = some b

/-- The orders of the two locks of a call that begins, and of the calls that still wait
for their second one, do not make up a circle. -/
def Fine (s : Sys) : Event → Prop
  | .call _ c => ∀ b, c.locks.snd = some b →
      ∀ i, ¬ TransGen (fun x y => s.Pending x y ∨ x = c.locks.fst ∧ y = b) i i
  | _ => True

def fresh : Sys where
  lock _ := ⟨.free, 0, [], none⟩
  task _ := ⟨false, .out⟩

/-! ## A circle of tasks is a circle of orders -/

variable {s t : Sys} {tid u v i : Nat} {c : Locks} {e : Event}

/-- The first lock of a task that waits for its second one. -/
def held (s : Sys) (tid : Nat) : Nat :=
  match (s.task tid).loc with
  | .second c => c.fst
  | _ => 0

/-- A task that has a lock and is asleep on another one. -/
theorem AsleepOn.second {j : Nat} (h : s.AsleepOn tid i) (hholds : s.Holds tid j) :
    ∃ c, (s.task tid).loc = .second c ∧ c.snd = some i ∧ c.fst = j := by
  obtain ⟨-, ⟨c, hloc, -⟩ | ⟨c, hloc, hsnd⟩⟩ := h
  · unfold Holds at hholds
    rw [hloc] at hholds
    cases hholds
  · unfold Holds at hholds
    rw [hloc] at hholds
    exact ⟨c, hloc, hsnd, hholds⟩

/-- What a task of a circle waits for is the first lock of the next one. -/
theorem pending_of_waits {i j k : Nat} (hu : s.AsleepOn u i) (hu' : s.Holds u j)
    (hv : s.Holds v i) (hv' : s.AsleepOn v k) : s.Pending (s.held u) (s.held v) := by
  obtain ⟨c, hloc, hsnd, -⟩ := hu.second hu'
  obtain ⟨c', hloc', -, hfst⟩ := hv'.second hv
  refine ⟨u, c, .inr hloc, ?_, ?_⟩
  · unfold held
    rw [hloc]
  · unfold held
    rw [hloc', hsnd]
    exact congrArg some hfst.symm

theorem pending_of_chain (h : TransGen s.Waits u v) (hu : ∃ i, s.Holds u i)
    (hv : ∃ i, s.AsleepOn v i) : TransGen s.Pending (s.held u) (s.held v) := by
  obtain ⟨j, hj⟩ := hu
  induction h with
  | single hwait =>
      obtain ⟨i, hasleep, hholds⟩ := hwait
      obtain ⟨k, hk⟩ := hv
      exact .single (pending_of_waits hasleep hj hholds hk)
  | tail hchain hwait ih =>
      obtain ⟨i, hasleep, hholds⟩ := hwait
      obtain ⟨k, hk⟩ := hv
      -- the one before the last is waited for as well
      obtain ⟨w, -, l, -, hl⟩ := TransGen.tail'_iff.mp hchain
      exact (ih ⟨i, hasleep⟩).tail (pending_of_waits hasleep hl hholds hk)

/-- The orders of the calls that wait for their second lock make no circle. -/
def Ordered (s : Sys) : Prop := ∀ i, ¬ TransGen s.Pending i i

theorem Ordered.noCycle (h : Ordered s) : NoCycle s := by
  intro tid hcycle
  obtain ⟨u, ⟨i, hasleep, -⟩, -⟩ := TransGen.head'_iff.mp hcycle
  obtain ⟨v, -, j, -, hholds⟩ := TransGen.tail'_iff.mp hcycle
  exact h _ (pending_of_chain hcycle ⟨j, hholds⟩ ⟨i, hasleep⟩)

/-! ## Steps -/

/-- A step of one task: the others are where they were. -/
structure Moves (s t : Sys) (tid : Nat) (l : Loc) : Prop where
  loc : (t.task tid).loc = l
  others : ∀ u, u ≠ tid → (t.task u).loc = (s.task u).loc

theorem setTask_moves (s : Sys) (tid : Nat) (t : Task) : Moves s (s.setTask tid t) tid t.loc := by
  constructor
  · unfold setTask
    dsimp only
    rw [if_pos rfl]
  · intro u hu
    unfold setTask
    dsimp only
    rw [if_neg hu]

/-- The locks do not matter for where the tasks are. -/
theorem Moves.of_task {s' : Sys} {l : Loc} (h : Moves s' t tid l)
    (htask : ∀ u, (s'.task u).loc = (s.task u).loc) : Moves s t tid l :=
  ⟨h.loc, fun u hu => (h.others u hu).trans (htask u)⟩

theorem second_moves (h : s.second tid c i = some t) :
    Moves s t tid (.second c) ∨ Moves s t tid (.body c none) := by
  unfold second at h
  split at h
  · cases h
  · cases h
    exact .inl ((setTask_moves _ tid _).of_task fun _ => rfl)
  · cases h
    exact .inr ((setTask_moves _ tid _).of_task fun _ => rfl)

theorem first_moves (h : s.first tid c = some t) :
    Moves s t tid (.first c) ∨ Moves s t tid (.second c) ∨ Moves s t tid (.body c none) := by
  unfold first at h
  split at h
  · cases h
  · cases h
    exact .inl ((setTask_moves _ tid _).of_task fun _ => rfl)
  · split at h
    · rcases second_moves h with hm | hm
      · exact .inr (.inl (hm.of_task fun _ => rfl))
      · exact .inr (.inr (hm.of_task fun _ => rfl))
    · cases h
      exact .inr (.inr ((setTask_moves _ tid _).of_task fun _ => rfl))

theorem broadcast_loc {q : List Nat} {task task' : Nat → Task}
    (h : broadcast q task = some task') (u : Nat) : (task' u).loc = (task u).loc := by
  induction q generalizing task with
  | nil =>
      cases h
      rfl
  | cons tid q ih =>
      unfold broadcast at h
      split at h
      · refine (ih h).trans ?_
        split
        · next hu => rw [hu]
        · rfl
      · cases h

theorem release_loc (h : s.release i = some t) (u : Nat) : (t.task u).loc = (s.task u).loc := by
  obtain ⟨task, htask, rfl⟩ := map_eq_some_iff.mp h
  exact broadcast_loc htask u

theorem unlock_loc (h : s.unlock i = some t) (u : Nat) : (t.task u).loc = (s.task u).loc := by
  unfold unlock at h
  split at h
  · cases h
  · dsimp only at h
    split at h
    · cases h
      rfl
    · exact release_loc h u
  · exact release_loc h u

theorem finish_moves (h : s.finish tid c = some t) : Moves s t tid .out := by
  obtain ⟨s₂, hs₂, rfl⟩ := map_eq_some_iff.mp h
  obtain ⟨s₁, hs₁, hfst⟩ := bind_eq_some_iff.mp hs₂
  refine (setTask_moves s₂ tid _).of_task fun u => (unlock_loc hfst u).trans ?_
  split at hs₁
  · exact unlock_loc hs₁ u
  · cases hs₁
    rfl

/-- A task that has moved to where no call is pending. -/
theorem Moves.pending {l : Loc} (h : Moves s t tid l) (hl : ∀ c, l = .first c ∨ l = .second c →
      (s.task tid).loc = .first c ∨ (s.task tid).loc = .second c) {a b : Nat}
    (hp : t.Pending a b) : s.Pending a b := by
  obtain ⟨u, c, hloc, hfst, hsnd⟩ := hp
  by_cases hu : u = tid
  · subst hu
    rw [h.loc] at hloc
    exact ⟨u, c, hl c hloc, hfst, hsnd⟩
  · rw [h.others u hu] at hloc
    exact ⟨u, c, hloc, hfst, hsnd⟩

/-- A call that begins may be pending; nothing else gets to be. -/
theorem call_pending {l : Loc} (h : Moves s t tid l)
    (hl : ∀ d, l = .first d ∨ l = .second d → d = c) {a b : Nat} (hp : t.Pending a b) :
    s.Pending a b ∨ a = c.fst ∧ c.snd = some b := by
  obtain ⟨u, d, hloc, hfst, hsnd⟩ := hp
  by_cases hu : u = tid
  · subst hu
    rw [h.loc] at hloc
    cases hl d hloc
    exact .inr ⟨hfst.symm, hsnd⟩
  · rw [h.others u hu] at hloc
    exact .inl ⟨u, d, hloc, hfst, hsnd⟩

theorem Ordered.of_pending (h : Ordered s) (hp : ∀ a b, t.Pending a b → s.Pending a b) :
    Ordered t :=
  fun i hi => h i (TransGen.mono hp _ _ hi)

theorem call_ordered (h : Ordered s) {op : Call} (hfine : Fine s (.call tid op))
    {l : Loc} (hm : Moves s t tid l)
    (hl : ∀ d, l = .first d ∨ l = .second d → d = op.locks) : Ordered t := by
  cases hsnd : op.locks.snd with
  | none =>
      refine h.of_pending fun a b hp => (call_pending hm hl hp).resolve_right ?_
      rintro ⟨-, hb⟩
      rw [hsnd] at hb
      cases hb
  | some b =>
      intro i hi
      refine hfine b hsnd i (TransGen.mono (fun x y hp => ?_) _ _ hi)
      refine (call_pending hm hl hp).imp_right fun ⟨hx, hy⟩ => ⟨hx, ?_⟩
      exact some.inj (hy.symm.trans hsnd)

theorem step_ordered (h : Ordered s) (hfine : Fine s e) (hstep : s.step e = some t) :
    Ordered t := by
  cases e with
  | call tid op =>
      obtain ⟨-, hstep⟩ := ite_none_right_eq_some.mp hstep
      rcases first_moves hstep with hm | hm | hm
      · exact call_ordered h hfine hm (by rintro d (hd | hd) <;> cases hd; rfl)
      · exact call_ordered h hfine hm (by rintro d (hd | hd) <;> cases hd; rfl)
      · exact call_ordered h hfine hm (by rintro d (hd | hd) <;> cases hd)
  | resume tid =>
      unfold step at hstep
      dsimp only at hstep
      split at hstep
      · next c htask =>
        have hloc : (s.task tid).loc = .first c := congrArg Task.loc htask
        refine h.of_pending fun a b hp => ?_
        rcases first_moves hstep with hm | hm | hm
        · exact hm.pending (by rintro d (hd | hd) <;> cases hd; exact .inl hloc) hp
        · exact hm.pending (by rintro d (hd | hd) <;> cases hd; exact .inl hloc) hp
        · exact hm.pending (by rintro d (hd | hd) <;> cases hd) hp
      · next c htask =>
        have hloc : (s.task tid).loc = .second c := congrArg Task.loc htask
        obtain ⟨i, -, hstep⟩ := bind_eq_some_iff.mp hstep
        refine h.of_pending fun a b hp => ?_
        rcases second_moves hstep with hm | hm
        · exact hm.pending (by rintro d (hd | hd) <;> cases hd; exact .inr hloc) hp
        · exact hm.pending (by rintro d (hd | hd) <;> cases hd) hp
      · cases hstep
  | truncate tid file =>
      unfold step at hstep
      dsimp only at hstep
      split at hstep
      · next c l _ _ =>
        cases hstep
        have hm : Moves s _ tid (.body c (some file)) :=
          (setTask_moves (s.setLock file l) tid ⟨false, .body c (some file)⟩).of_task fun _ => rfl
        exact h.of_pending fun a b hp => hm.pending (by rintro d (hd | hd) <;> cases hd) hp
      · cases hstep
  | truncated tid =>
      unfold step at hstep
      dsimp only at hstep
      split at hstep
      · next c file _ =>
        obtain ⟨u, hu, rfl⟩ := map_eq_some_iff.mp hstep
        have hm : Moves s _ tid (.body c none) :=
          (setTask_moves u tid ⟨false, .body c none⟩).of_task (unlock_loc hu)
        exact h.of_pending fun a b hp => hm.pending (by rintro d (hd | hd) <;> cases hd) hp
      · cases hstep
  | finish tid =>
      unfold step at hstep
      dsimp only at hstep
      split at hstep
      · exact h.of_pending fun a b hp =>
          (finish_moves hstep).pending (by rintro d (hd | hd) <;> cases hd) hp
      · cases hstep

theorem fresh_ordered : Ordered fresh := by
  intro i hi
  obtain ⟨j, ⟨tid, c, hloc, -⟩, -⟩ := TransGen.head'_iff.mp hi
  rcases hloc with hloc | hloc
  · cases hloc
  · cases hloc

/-- **Rename locking.**  No tasks are asleep on each other's locks, however many they
are and in whatever order they run, as long as no call with two locks begins whose order
makes a circle with those of the calls that wait for their second lock. -/
theorem run_no_cycle (es : List Event) (hfine : Each step Fine fresh es) :
    Always step NoCycle fresh es := by
  refine Always.mono (fun s hs => Ordered.noCycle hs) ?_
  exact always_of_each (fun s e t hs hf ht => step_ordered hs hf ht) fresh_ordered hfine

/-- A rename, with nobody else about. -/
theorem rename_alone :
    Always step NoCycle fresh [.call 0 (.rename 0 1), .finish 0] := by
  refine run_no_cycle _ ⟨?_, fun t _ => ⟨trivial, fun _ _ => trivial⟩⟩
  intro b hb i hi
  cases hb
  have hone : ∀ x y, (fresh.Pending x y ∨ x = 0 ∧ y = 1) → x = 0 ∧ y = 1 := by
    rintro x y (⟨tid, c, hloc, -⟩ | hxy)
    · rcases hloc with hloc | hloc
      · cases hloc
      · cases hloc
    · exact hxy
  obtain ⟨x, hx, -⟩ := TransGen.head'_iff.mp hi
  obtain ⟨y, -, hy⟩ := TransGen.tail'_iff.mp hi
  have hzero := (hone _ _ hx).1
  have hsucc := (hone _ _ hy).2
  omega

/-- Task 0 reads a directory that tasks 1 and 2 rename from and to. -/
def crossing : List Event :=
  [.call 0 (.lookup 1), .call 1 (.rename 0 1), .call 2 (.rename 1 0), .finish 0, .resume 2,
    .resume 1]

/-- Each of the two renames has the directory that the other one is asleep on. -/
theorem crossing_cycle : ¬ Always step NoCycle fresh crossing := by
  intro h
  have hlocs : (exec step fresh crossing).map (fun t => (t.task 1, t.task 2)) =
      some (⟨true, .second ⟨.wlock, 0, some 1⟩⟩, ⟨true, .second ⟨.wlock, 1, some 0⟩⟩) := by
    decide
  obtain ⟨t, ht, htasks⟩ := Option.map_eq_some_iff.mp hlocs
  obtain ⟨h1, h2⟩ := Prod.mk.inj htasks
  have hasleep1 : t.AsleepOn 1 1 := ⟨by rw [h1], .inr ⟨_, by rw [h1], rfl⟩⟩
  have hasleep2 : t.AsleepOn 2 0 := ⟨by rw [h2], .inr ⟨_, by rw [h2], rfl⟩⟩
  have hholds1 : t.Holds 1 0 := by
    unfold Holds
    rw [h1]
  have hholds2 : t.Holds 2 1 := by
    unfold Holds
    rw [h2]
  have hno := (always_iff_exec _ _).mp h crossing [] t (List.append_nil _).symm ht
  exact hno 1 (.tail (.single ⟨1, hasleep1, hholds2⟩) ⟨0, hasleep2, hholds1⟩)

end Sys

end Dirlock

end Unixlite.Fs
