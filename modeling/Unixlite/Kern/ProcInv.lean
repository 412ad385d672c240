import Unixlite.Kern.Proc
import Unixlite.Kern.PgrpInv
import Unixlite.Kern.TaskInv
import Unixlite.Verified.Run

/-!
# What processes keep

The task table, the groups and the states of the tasks stay in order along every
run (`Proc.Inv`).  Most steps are quiet: they change signals, states and phases, and
leave the tree and the groups alone (`Quiet`).
-/

namespace Unixlite.Kern

open Unixlite.Verified.Partial Unixlite.Verified.Run
open Groups
open List

theorem guard_ok {c : Bool} {x : Except Fault Proc} {s : Proc}
    (h : Proc.guard c x = .ok s) : c = true ∧ x = .ok s := by
  unfold Proc.guard at h
  split at h
  · next hc => exact ⟨hc, h⟩
  · cases h

/-! ## Signals -/

/-- `post` changes the pending signals, and the state of a task that waits. -/
theorem Task.post_task (x : Task) (signo : Nat) :
    (x.post signo).isidle = x.isidle ∧ (x.post signo).isinit = x.isinit ∧
      ((x.post signo).state = x.state ∨ x.state = .wait ∧ (x.post signo).state = .run) := by
  unfold Task.post
  dsimp only
  split
  · exact ⟨rfl, rfl, .inl rfl⟩
  split
  · exact ⟨rfl, rfl, .inl rfl⟩
  split
  · exact ⟨rfl, rfl, .inl rfl⟩
  split
  · exact ⟨rfl, rfl, .inl rfl⟩
  split
  · next hwait =>
      simp only [Bool.and_eq_true, beq_iff_eq] at hwait
      exact ⟨rfl, rfl, .inr ⟨hwait.2, rfl⟩⟩
  · exact ⟨rfl, rfl, .inl rfl⟩

theorem Proc.step_eq_some {s s' : Proc} {a : ProcEvent} :
    s.step a = some s' ↔ s.outcome a = .ok s' := by
  unfold step
  cases s.outcome a with
  | error e => exact iff_of_false (fun h => by cases h) (fun h => by cases h)
  | ok u =>
      constructor
      · intro h
        cases h
        rfl
      · intro h
        cases h
        rfl

/-- The task that the step may give a child's exit status to. -/
def ProcEvent.waiter : ProcEvent → Option Nat
  | .waitpid t _ _ => some t
  | .waitwoken t => some t
  | _ => none

/-- The task is in `doexit`, or has been. -/
def Phase.exits : Phase → Bool
  | .closing => true
  | .losing => true
  | .done => true
  | _ => false

/-- These steps post signals, or put a task to sleep. -/
def ProcEvent.posts : ProcEvent → Bool
  | .key .. | .kill .. | .alarm _ | .signals .. | .stop .. | .sleep _ | .wait _ | .wake _ => true
  | _ => false

namespace Proc

variable {s s' s'' : Proc} {t u c curr signo : Nat} {perm : Nat → Bool}

/-- Signals come, and tasks that wait run: groups and phases stay, nobody dies, and who
is not in user mode does not stop and keeps his exit status, unless he had stopped. -/
structure Calm (s s' : Proc) : Prop where
  groups : s'.groups = s.groups
  reaped : s'.reaped = s.reaped
  phase : s'.phase = s.phase
  isidle : ∀ t, (s'.sig t).isidle = (s.sig t).isidle
  isinit : ∀ t, (s'.sig t).isinit = (s.sig t).isinit
  zombie : ∀ t, (s'.sig t).state = .zombie ↔ (s.sig t).state = .zombie
  stop : ∀ t, (s'.sig t).state = .stop → (s.sig t).state = .stop ∨ s.phase t = .user
  exitcode : ∀ t, s'.exitcode t = s.exitcode t ∨ (s.sig t).state = .stop ∨ s.phase t = .user

/-- `s'` is `s` after signals have been posted. -/
structure Posted (s s' : Proc) : Prop extends Calm s s' where
  db : s'.db = s.db

theorem Calm.refl (s : Proc) : Calm s s :=
  ⟨rfl, rfl, rfl, fun _ => rfl, fun _ => rfl, fun _ => Iff.rfl, fun _ => .inl, fun _ => .inl rfl⟩

theorem Calm.trans (h : Calm s s') (h' : Calm s' s'') : Calm s s'' := by
  refine ⟨h'.groups.trans h.groups, h'.reaped.trans h.reaped, h'.phase.trans h.phase,
    fun t => (h'.isidle t).trans (h.isidle t), fun t => (h'.isinit t).trans (h.isinit t),
    fun t => (h'.zombie t).trans (h.zombie t), fun t hs => ?_, fun t => ?_⟩
  · rcases h'.stop t hs with hs | hu
    · exact h.stop t hs
    · exact .inr (h.phase ▸ hu)
  · rcases h'.exitcode t with he | hs | hu
    · rw [he]
      exact h.exitcode t
    · exact .inr (h.stop t hs)
    · exact .inr (.inr (h.phase ▸ hu))

theorem Calm.takes (h : Calm s s') : s'.takes t signo = s.takes t signo := by
  have hz : ((s'.sig t).state == .zombie) = ((s.sig t).state == .zombie) := by
    rw [Bool.eq_iff_iff, beq_iff_eq, beq_iff_eq]
    exact h.zombie t
  rw [Proc.takes, Proc.takes, h.isidle, h.isinit, hz]

theorem Posted.refl (s : Proc) : Posted s s := ⟨.refl s, rfl⟩

theorem Posted.trans (h : Posted s s') (h' : Posted s' s'') : Posted s s'' :=
  ⟨h.toCalm.trans h'.toCalm, h'.db.trans h.db⟩

/-- The signals of one task change. -/
theorem posted_setSig {x : Task} (hidle : x.isidle = (s.sig t).isidle)
    (hinit : x.isinit = (s.sig t).isinit) (hzombie : x.state = .zombie ↔ (s.sig t).state = .zombie)
    (hstop : x.state = .stop → (s.sig t).state = .stop ∨ s.phase t = .user) :
    Posted s (s.setSig t x) := by
  refine ⟨⟨rfl, rfl, rfl, fun u => ?_, fun u => ?_, fun u => ?_, fun u hs => ?_,
    fun _ => .inl rfl⟩, rfl⟩
  · simp only [setSig]
    by_cases hu : u = t <;> simp [hu, hidle]
  · simp only [setSig]
    by_cases hu : u = t <;> simp [hu, hinit]
  · simp only [setSig]
    by_cases hu : u = t <;> simp [hu, hzombie]
  · simp only [setSig] at hs
    by_cases hu : u = t
    · rw [if_pos hu] at hs
      rw [hu]
      exact hstop hs
    · rw [if_neg hu] at hs
      exact .inl hs

theorem posted_setState {st : Tstate} (hs : (s.sig t).state ≠ .zombie) (hst : st ≠ .zombie)
    (hstop : st = .stop → s.phase t = .user) : Posted s (s.setState t st) :=
  posted_setSig rfl rfl (iff_of_false hst hs) fun h => .inr (hstop h)

theorem posted_post (h : s.post t signo = .ok s') : Posted s s' := by
  unfold post at h
  split at h
  · cases h
    exact .refl s
  split at h
  · cases h
  split at h
  · cases h
  cases h
  obtain ⟨hidle, hinit, hstate⟩ := Task.post_task (s.sig t) signo
  rcases hstate with hsame | ⟨hwait, hrun⟩
  · apply posted_setSig hidle hinit
    · rw [hsame]
    · rw [hsame]
      exact .inl
  · apply posted_setSig hidle hinit
    · rw [hwait, hrun]
      exact iff_of_false (fun h => by cases h) (fun h => by cases h)
    · rw [hrun]
      exact fun h => by cases h

/-- If a post returns, the vector that it reads is there. -/
theorem post_disposed (h : s.post t signo = .ok s') (htakes : s.takes t signo = true) :
    (s.phase t).disposed = false := by
  unfold post at h
  rw [htakes] at h
  split at h
  · next hc => cases hc
  split at h
  · cases h
  split at h
  · cases h
  next hd => exact Bool.eq_false_iff.mpr hd

variable {l : List Nat} {r : Int × Proc} {option pid : BitVec 32} {ph : Phase} {groups : Groups}
  {found : Bool}

theorem posted_postAll (h : s.postAll signo l = .ok s') :
    Posted s s' ∧ ∀ t ∈ l, s.takes t signo = true → (s.phase t).disposed = false := by
  induction l generalizing s with
  | nil =>
      cases h
      exact ⟨.refl _, (fun _ h => by cases h)⟩
  | cons t l ih =>
      obtain ⟨u, hu, hrest⟩ := bind_ok h
      have hpost := posted_post hu
      obtain ⟨hposted, hall⟩ := ih hrest
      refine ⟨hpost.trans hposted, fun v hv htakes => ?_⟩
      rcases mem_cons.mp hv with rfl | hv
      · exact post_disposed hu htakes
      · rw [← hpost.phase]
        exact hall v hv (hpost.takes.trans htakes)

theorem posted_postSession (h : s.postSession signo l = .ok s') :
    Posted s s' ∧ ∀ g ∈ l, ∀ p, s.groups.pgrp g = some p → ∀ t ∈ p.taskq,
      s.takes t signo = true → (s.phase t).disposed = false := by
  induction l generalizing s with
  | nil =>
      cases h
      exact ⟨.refl _, (fun _ h => by cases h)⟩
  | cons g l ih =>
      obtain ⟨p, hp, hrest⟩ := bind_ok h
      obtain ⟨u, hu, hrest⟩ := bind_ok hrest
      obtain ⟨hpost, hhere⟩ := posted_postAll hu
      obtain ⟨hposted, hall⟩ := ih hrest
      refine ⟨hpost.trans hposted, fun g' hg' q hq t ht htakes => ?_⟩
      rcases mem_cons.mp hg' with rfl | hg'
      · rw [getPgrp, hq] at hp
        cases hp
        exact hhere t ht htakes
      · rw [← hpost.phase]
        refine hall g' hg' q ?_ t ht (hpost.takes.trans htakes)
        rw [hpost.groups]
        exact hq

theorem posted_kill (h : s.kill curr perm t signo = .ok r) : Posted s r.2 := by
  unfold kill at h
  split at h
  · cases h
    exact .refl s
  split at h
  · obtain ⟨s', hs', hr⟩ := bind_ok h
    cases hr
    exact posted_post hs'
  split at h
  · cases h
    exact .refl s
  obtain ⟨i, -, h⟩ := bind_ok h
  obtain ⟨j, -, h⟩ := bind_ok h
  split at h
  · cases h
    exact .refl s
  obtain ⟨s', hs', hr⟩ := bind_ok h
  cases hr
  exact posted_post hs'

theorem posted_killAll {e : Int} (h : s.killAll curr perm signo l e = .ok r) : Posted s r.2 := by
  induction l generalizing s e with
  | nil =>
      cases h
      exact .refl s
  | cons t l ih =>
      obtain ⟨q, hq, hrest⟩ := bind_ok h
      exact (posted_kill hq).trans (ih hrest)

theorem posted_syskill (h : s.syskill curr perm pid signo = .ok r) : Posted s r.2 := by
  obtain ⟨l, -, h⟩ := bind_ok h
  cases l with
  | none =>
      cases h
      exact .refl s
  | some l => exact posted_killAll h

theorem posted_wakeup (s : Proc) (t : Nat) : Posted s (s.wakeup t) := by
  unfold wakeup
  split
  · exact .refl s
  next hs =>
  refine posted_setState (fun hz => hs ?_) (fun h => by cases h) (fun h => by cases h)
  rw [hz]
  exact ⟨(fun h => by cases h), (fun h => by cases h)⟩

theorem posted_setWaitchldexit (s : Proc) (t : Nat) (f : Bool) : Posted s (s.setWaitchldexit t f) :=
  ⟨⟨rfl, rfl, rfl, fun _ => rfl, fun _ => rfl, fun _ => Iff.rfl, fun _ => .inl,
    fun _ => .inl rfl⟩, rfl⟩

theorem posted_setExitcode (e : BitVec 32) (h : (s.sig t).state = .stop ∨ s.phase t = .user) :
    Posted s (s.setExitcode t e) := by
  refine ⟨⟨rfl, rfl, rfl, fun _ => rfl, fun _ => rfl, fun _ => Iff.rfl, fun _ => .inl,
    fun u => ?_⟩, rfl⟩
  by_cases hu : u = t
  · exact .inr (hu ▸ h)
  · exact .inl (if_neg hu)

theorem posted_notify (h : s.notify t = .ok s') : Posted s s' := by
  obtain ⟨u, hu, h⟩ := bind_ok h
  have hpost := posted_post hu
  split at h
  · cases h
    exact hpost.trans ((posted_wakeup u t).trans (posted_setWaitchldexit _ t false))
  · cases h
    exact hpost

theorem posted_notifyfg {tty : Nat} (h : s.notifyfg tty signo = .ok s') : Posted s s' := by
  obtain ⟨r, -, h⟩ := bind_ok h
  split at h
  · cases h
    exact .refl s
  · obtain ⟨p, -, h⟩ := bind_ok h
    exact (posted_postAll h).1

theorem posted_stop (h : s.stop t signo = .ok s') (hrun : (s.sig t).state = .run)
    (huser : s.phase t = .user) : Posted s s' := by
  obtain ⟨p, -, h⟩ := bind_ok h
  split at h
  · cases h
  obtain ⟨u, hu, h⟩ := bind_ok h
  have hpost : Posted s u := by
    split at hu
    · exact posted_post hu
    · cases hu
      exact .refl s
  cases h
  have huser' : u.phase t = .user := hpost.phase ▸ huser
  refine hpost.trans ((posted_setExitcode _ (.inr huser')).trans
    (posted_setState ?_ (fun h => by cases h) fun _ => huser'))
  show (u.sig t).state ≠ .zombie
  intro hz
  have hzs := (hpost.zombie t).mp hz
  rw [hrun] at hzs
  cases hzs

/-! ## The invariant -/

structure Inv (s : Proc) : Prop where
  db : s.db.Inv
  groups : s.groups.Inv (fun t => t ∈ s.db.alltaskq) fun _ => False
  led : s.groups.Led s.db.pid
  isidle : ∀ t, (s.sig t).isidle = true ↔ t = idle
  isinit : ∀ t ∈ s.db.alltaskq, (s.sig t).isinit = true → t = init
  idlePhase : s.phase idle = .user
  idleState : (s.sig idle).state ≠ .zombie
  /-- A task that has exited has no children, and leads no session. -/
  leaf : ∀ t ∈ s.db.alltaskq, (s.sig t).state = .zombie → t ≠ init → s.db.childq t = []
  unled : ∀ i x t, s.groups.session i = some x → x.leader = some t →
    (s.sig t).state = .zombie → t = init
  zombieq : ∀ t, t ∈ s.db.zombietaskq ↔ t ∈ s.db.alltaskq ∧ (s.sig t).state = .zombie
  zombieNodup : s.db.zombietaskq.Nodup
  reaped : ∀ r ∈ s.reaped, r.1 < s.db.ntask ∧ r.1 ∉ s.db.alltaskq
  once : (s.reaped.map fun r => r.1).Nodup

theorem inv_boot (hmask ghmask mem : BitVec 32) : (boot hmask ghmask mem).Inv := by
  have hpgrp : ∀ g p, (boot hmask ghmask mem).groups.pgrp g = some p →
      g = 0 ∧ p = ⟨0, [idle], some 0⟩ := by
    intro g p hp
    simp only [boot, installidletask] at hp
    grind
  have hsess : ∀ i x, (boot hmask ghmask mem).groups.session i = some x →
      i = 0 ∧ x = ⟨0, some idle, none, none, [0]⟩ := by
    intro i x hx
    simp only [boot, installidletask] at hx
    grind
  refine ⟨Taskdb.inv_installidletask hmask, ?_, ?_, fun t => beq_iff_eq,
    (fun _ _ h => by cases h), rfl, (fun h => by cases h), (fun _ _ h => by cases h),
    (fun _ _ _ _ _ h => by cases h), fun t => ?_, nodup_nil, (fun _ h => by cases h),
    nodup_nil⟩
  · refine ⟨fun t => ?_, fun t g hg => ?_, fun g p hp => ?_, fun g p hp => ?_, fun i x hx => ?_,
      fun b g hg => ?_, fun b => ?_, fun g hg => ?_, fun i hi => ?_⟩
    · simp only [boot, installidletask, Taskdb.installidletask]
      grind
    · simp only [boot, installidletask] at hg ⊢
      grind
    · obtain ⟨rfl, rfl⟩ := hpgrp g p hp
      refine ⟨(fun h => by cases h), nodup_singleton idle, fun t => ?_⟩
      simp only [boot, installidletask]
      grind
    · obtain ⟨rfl, rfl⟩ := hpgrp g p hp
      exact ⟨0, rfl, (fun h => by cases h)⟩
    · obtain ⟨rfl, rfl⟩ := hsess i x hx
      refine ⟨fun _ => (fun h => by cases h), nodup_singleton 0, fun g => ?_⟩
      simp only [sessionof, boot, installidletask]
      by_cases hg : g = 0 <;> simp [hg]
    · simp only [boot, installidletask] at hg ⊢
      grind
    · simp only [boot, installidletask]
      split
      · exact nodup_singleton 0
      · exact nodup_nil
    · simp only [boot, installidletask] at hg ⊢
      grind
    · simp only [boot, installidletask] at hi ⊢
      grind
  · intro i x hx
    obtain ⟨rfl, rfl⟩ := hsess i x hx
    exact ⟨idle, 0, _, rfl, rfl, rfl, rfl, rfl⟩
  · exact iff_of_false (fun h => by cases h) fun h => by cases h.2

/-- Posting signals keeps everything in order. -/
theorem Inv.posted (h : s.Inv) (hp : Posted s s') : s'.Inv := by
  obtain ⟨⟨hgroups, hreaped, hphase, hidle, hinit, hzombie, -, -⟩, hdb⟩ := hp
  refine ⟨hdb ▸ h.db, ?_, ?_, fun t => ?_, fun t ht hi => ?_, ?_, ?_, fun t ht hz => ?_,
    fun i x t hx hl hz => ?_, fun t => ?_, ?_, ?_, ?_⟩
  · rw [hdb, hgroups]
    exact h.groups
  · rw [hdb, hgroups]
    exact h.led
  · rw [hidle]
    exact h.isidle t
  · exact h.isinit t (hdb ▸ ht) ((hinit t).symm.trans hi)
  · rw [hphase]
    exact h.idlePhase
  · exact fun hz => h.idleState ((hzombie idle).mp hz)
  · rw [hdb]
    exact h.leaf t (hdb ▸ ht) ((hzombie t).mp hz)
  · exact h.unled i x t (hgroups ▸ hx) hl ((hzombie t).mp hz)
  · rw [hdb, hzombie]
    exact h.zombieq t
  · rw [hdb]
    exact h.zombieNodup
  · rw [hdb, hreaped]
    exact h.reaped
  · rw [hreaped]
    exact h.once

/-- So does a change of the phase of another task than the idle one. -/
theorem Inv.setPhase (h : s.Inv) (ht : t ≠ idle) : (s.setPhase t ph).Inv :=
  ⟨h.db, h.groups, h.led, h.isidle, h.isinit, (if_neg ht.symm).trans h.idlePhase, h.idleState,
    h.leaf, h.unled, h.zombieq, h.zombieNodup, h.reaped, h.once⟩

/-- A change of the groups that keeps their members and leaders. -/
theorem Inv.setGroups (h : s.Inv)
    (hinv : groups.Inv (fun t => t ∈ s.db.alltaskq) fun _ => False) (hled : groups.Led s.db.pid)
    (hleader : ∀ i x t, groups.session i = some x → x.leader = some t →
      (∃ j y, s.groups.session j = some y ∧ y.leader = some t) ∨ (s.sig t).state ≠ .zombie) :
    ({ s with groups := groups } : Proc).Inv := by
  refine ⟨h.db, hinv, hled, h.isidle, h.isinit, h.idlePhase, h.idleState, h.leaf,
    fun i x t hx hl hz => ?_, h.zombieq, h.zombieNodup, h.reaped, h.once⟩
  rcases hleader i x t hx hl with ⟨j, y, hy, hyl⟩ | hnot
  · exact h.unled j y t hy hyl hz
  · exact absurd hz hnot

/-! ## Who runs -/

theorem runs_iff :
    s.runs t ph = true ↔ t ∈ s.db.alltaskq ∧ (s.sig t).state = .run ∧ s.phase t = ph := by
  simp [runs, and_assoc]

theorem calls_iff : s.calls t = true ↔
    t ∈ s.db.alltaskq ∧ (s.sig t).state = .run ∧ s.phase t = .user ∧ t ≠ idle := by
  simp [calls, runs, and_assoc]

/-! ## Fork -/

/-- The process table with a new task. -/
def forked (s : Proc) (curr : Nat) (pid : BitVec 32) (g : Nat) (p : Pgrp) : Proc :=
  ((({ s with
    db := s.db.install curr pid
    groups := s.groups.grown s.db.ntask g p }.setSig s.db.ntask
      (s.sig curr).clone).setPhase s.db.ntask .user).setExitcode s.db.ntask 0).setWaitchldexit
        s.db.ntask false

theorem Inv.pgrpof_new (h : s.Inv) : s.groups.pgrpof s.db.ntask = none := by
  by_contra hne
  exact Nat.lt_irrefl _ (h.db.fresh _ ((h.groups.task _).mpr hne))

/-- What `dofork` comes to. -/
theorem Inv.dofork_cases (h : s.Inv) (hcurr : curr ∈ s.db.alltaskq) (ok : Bool) :
    s.db.newpid = none ∧ s.dofork curr ok = .error .disabled ∨
    ∃ pid, s.db.newpid = some pid ∧
      (ok = false ∧ s.dofork curr ok = .ok { s with db := { s.db with lastpid := pid } } ∨
        ∃ g p, ok = true ∧ s.groups.pgrpof curr = some g ∧ s.groups.pgrp g = some p ∧
          s.dofork curr ok = .ok (s.forked curr pid g p)) := by
  obtain ⟨g, p, i, x, hg, hp, -⟩ := h.groups.at hcurr
  unfold dofork
  cases hn : s.db.newpid with
  | none => exact .inl ⟨rfl, rfl⟩
  | some pid =>
      refine .inr ⟨pid, rfl, ?_⟩
      cases ok with
      | false => exact .inl ⟨rfl, rfl⟩
      | true =>
          refine .inr ⟨g, p, rfl, hg, hp, ?_⟩
          have hself : s.groups.setPgrpof s.db.ntask none = s.groups := by
            have hsame : (fun u => if u = s.db.ntask then none else s.groups.pgrpof u) =
                s.groups.pgrpof := by
              funext u
              by_cases hu : u = s.db.ntask
              · rw [if_pos hu, hu, h.pgrpof_new]
              · rw [if_neg hu]
            rw [setPgrpof, hsame]
          show (s.groups.pgrpAt curr).bind _ = _
          rw [pgrpAt_eq hg hp]
          show ((s.groups.setPgrpof s.db.ntask none).enter s.db.ntask g).bind _ = _
          rw [hself, enter_eq h.pgrpof_new hp]
          rfl

theorem Inv.forked {g : Nat} {p : Pgrp} (h : s.Inv) (hruns : s.forks curr = true)
    (hpid : s.db.newpid = some pid) (hp : s.groups.pgrp g = some p) :
    (s.forked curr pid g p).Inv := by
  have hforks : s.runs curr .user = true ∧ (curr ≠ idle ∨ s.db.lastpid = 0) := by
    simpa [forks] using hruns
  obtain ⟨hcurr, hrun, hphase⟩ := runs_iff.mp hforks.1
  have hlt := h.db.fresh curr hcurr
  have hidlelt := h.db.fresh idle h.db.idle_mem
  have hnew : s.db.ntask ∉ s.db.alltaskq := fun hin => Nat.lt_irrefl _ (h.db.fresh _ hin)
  have hidle : idle ≠ s.db.ntask := Nat.ne_of_lt hidlelt
  have hfirst : s.db.ntask = 1 → curr = idle ∧ pid = 1 := by
    intro hone
    have hci : curr = idle := by
      omega
    exact ⟨hci, h.db.newpid_first hone (hforks.2.resolve_left (not_not.mpr hci)) hpid⟩
  have hclone : (s.sig curr).clone.state = .run := rfl
  have hmem : ∀ t, t ∈ s.db.alltaskq ++ [s.db.ntask] ↔ t ∈ s.db.alltaskq ∨ t = s.db.ntask := by
    intro t
    rw [mem_append, mem_singleton]
  refine ⟨h.db.install hcurr hpid hfirst, ?_, ?_, fun t => ?_, fun t ht hi => ?_, ?_, ?_,
    fun t ht hz hne => ?_, fun i x t hx hl hz => ?_, fun t => ?_, h.zombieNodup,
    fun r hr => ?_, h.once⟩
  · exact (h.groups.grown h.pgrpof_new hp).mono hmem fun _ => id
  · have hled : s.groups.Led (s.db.install curr pid).pid := by
      apply h.led.congr
      intro t ht
      have hne : t ≠ s.db.ntask := fun heq => hnew (heq ▸ (h.groups.task t).mpr ht)
      exact if_neg hne
    exact hled.grown h.pgrpof_new hp
  · show (if t = s.db.ntask then _ else s.sig t : Task).isidle = true ↔ _
    by_cases ht : t = s.db.ntask
    · rw [if_pos ht]
      exact iff_of_false (fun h => by cases h) fun heq => hidle (heq ▸ ht)
    · rw [if_neg ht]
      exact h.isidle t
  · have hi' : (if t = s.db.ntask then (s.sig curr).clone else s.sig t : Task).isinit = true := hi
    by_cases htn : t = s.db.ntask
    · rw [if_pos htn] at hi'
      cases hi'
    · rw [if_neg htn] at hi'
      exact h.isinit t (((hmem t).mp ht).resolve_right htn) hi'
  · exact (if_neg hidle).trans h.idlePhase
  · show (if idle = s.db.ntask then _ else s.sig idle : Task).state ≠ .zombie
    rw [if_neg hidle]
    exact h.idleState
  · have hz' : (if t = s.db.ntask then (s.sig curr).clone else s.sig t : Task).state = .zombie := hz
    by_cases htn : t = s.db.ntask
    · rw [if_pos htn] at hz'
      cases hz'
    · rw [if_neg htn] at hz'
      show (if t = s.db.ntask then [] else if t = curr then _ else s.db.childq t : List Nat) = []
      have htc : t ≠ curr := by
        intro heq
        rw [heq, hrun] at hz'
        cases hz'
      rw [if_neg htn, if_neg htc]
      exact h.leaf t (((hmem t).mp ht).resolve_right htn) hz' hne
  · have hz' : (if t = s.db.ntask then (s.sig curr).clone else s.sig t : Task).state = .zombie := hz
    by_cases htn : t = s.db.ntask
    · rw [if_pos htn] at hz'
      cases hz'
    · rw [if_neg htn] at hz'
      exact h.unled i x t hx hl hz'
  · show t ∈ s.db.zombietaskq ↔ t ∈ s.db.alltaskq ++ [s.db.ntask] ∧
      (if t = s.db.ntask then _ else s.sig t : Task).state = .zombie
    rw [h.zombieq t, hmem t]
    by_cases htn : t = s.db.ntask
    · rw [if_pos htn, hclone, htn]
      exact iff_of_false (fun hc => hnew hc.1) fun hc => by cases hc.2
    · rw [if_neg htn]
      simp [htn]
  · obtain ⟨hr1, hr2⟩ := h.reaped r hr
    refine ⟨Nat.lt_succ_of_lt hr1, fun hin => ?_⟩
    exact ((hmem r.1).mp hin).elim hr2 (Nat.ne_of_lt hr1)

/-! ## Wait -/

theorem scan_zombie
    (h : s.scan curr pid option l found = .ok (.zombie c)) :
    c ∈ l ∧ (s.sig c).state = .zombie := by
  induction l generalizing found with
  | nil => cases h
  | cons d l ih =>
      have hlater : ∀ {f}, s.scan curr pid option l f = .ok (.zombie c) →
          c ∈ d :: l ∧ (s.sig c).state = .zombie := fun hl =>
        ⟨mem_cons_of_mem d (ih hl).1, (ih hl).2⟩
      obtain ⟨b, -, h⟩ := bind_ok h
      split at h
      · exact hlater h
      split at h
      · split at h
        · exact hlater h
        split at h
        · exact hlater h
        · cases h
      · next hz =>
          cases h
          exact ⟨mem_cons_self, hz⟩
      · exact hlater h

theorem scan_stopped
    (h : s.scan curr pid option l found = .ok (.stopped c)) : (s.sig c).state = .stop := by
  induction l generalizing found with
  | nil => cases h
  | cons d l ih =>
      obtain ⟨b, -, h⟩ := bind_ok h
      split at h
      · exact ih h
      split at h
      · next hst =>
          split at h
          · exact ih h
          split at h
          · exact ih h
          · cases h
            exact hst
      · cases h
      · exact ih h

/-- The process table without a task. -/
def deleted (s : Proc) (c p : Nat) (groups : Groups) : Proc :=
  { s with db := s.db.uninstalled c p, groups := groups }

/-- A zombie child of another task than the idle one is deleted. -/
theorem Inv.delete (h : s.Inv) (hc : c ∈ s.db.childq curr) (hz : (s.sig c).state = .zombie)
    (hcurr : curr ≠ idle) :
    ∃ groups, (∀ log, { s with reaped := log }.delete c =
        .ok ({ s with reaped := log }.deleted c curr groups)) ∧
      s.groups.Quits groups (fun t => t ∈ s.db.alltaskq) s.db.pid c ∧
      c ∈ s.db.alltaskq ∧ c ≠ init ∧ s.db.parent c = some curr := by
  obtain ⟨hpar, hmem⟩ := (h.db.child curr c).mp hc
  have hinit : c ≠ init := by
    intro heq
    rcases h.db.first with hone | ⟨-, -, hip⟩
    · have hlt := h.db.fresh c hmem
      rw [hone, heq] at hlt
      exact Nat.lt_irrefl 1 hlt
    · rw [heq, hip] at hpar
      exact hcurr (Option.some.inj hpar).symm
  obtain ⟨g, p, i, x, hg, hp, hi, hx, -, -⟩ := h.groups.at hmem
  have hleader : x.leader ≠ some c := fun hl => hinit (h.unled i x c hx hl hz)
  obtain ⟨groups, hleave, hinv, hled, hleft⟩ := h.groups.leave h.led hg hp hi hx hleader
  obtain ⟨huninstall, -, -⟩ := h.db.uninstall hmem hpar (h.leaf c hmem hz hinit) hinit
  refine ⟨groups, fun log => ?_, ⟨hinv, hled, hleft⟩, hmem, hinit, hpar⟩
  unfold Proc.delete
  rw [if_neg (not_not.mpr hz), hleave]
  show (s.db.uninstall c).bind _ = _
  rw [huninstall]
  rfl

theorem Inv.deleted (h : s.Inv) (hz : (s.sig c).state = .zombie)
    (hmem : c ∈ s.db.alltaskq) (hinit : c ≠ init) (hpar : s.db.parent c = some curr)
    (hquit : s.groups.Quits groups (fun t => t ∈ s.db.alltaskq) s.db.pid c) :
    (s.deleted c curr groups).Inv := by
  obtain ⟨-, hdb, hall⟩ := h.db.uninstall hmem hpar (h.leaf c hmem hz hinit) hinit
  refine ⟨hdb, hquit.inv.mono hall fun _ => id, hquit.led, h.isidle,
    fun t ht hi => h.isinit t ((hall t).mp ht).1 hi, h.idlePhase, h.idleState,
    fun t ht hzt hne => ?_, fun i y t hy hl hzt => ?_, fun t => ?_, h.zombieNodup.erase c,
    fun r hr => ⟨(h.reaped r hr).1, fun hin => (h.reaped r hr).2 ((hall r.1).mp hin).1⟩, h.once⟩
  · have hleaf := h.leaf t ((hall t).mp ht).1 hzt hne
    show (if t = curr then (s.db.childq t).erase c else s.db.childq t) = []
    rw [hleaf]
    split
    · rfl
    · rfl
  · obtain ⟨x, hx, hyl, -⟩ := (hquit.left.session i).2 y hy
    exact h.unled i x t hx (hyl ▸ hl) hzt
  · show t ∈ s.db.zombietaskq.erase c ↔ t ∈ s.db.alltaskq.erase c ∧ (s.sig t).state = .zombie
    rw [h.zombieNodup.mem_erase_iff, hall t, h.zombieq t]
    grind

/-- What one pass of `syswaitpid` comes to. -/
theorem Inv.waitrepeat_cases (h : s.Inv) (hcurr : curr ≠ idle) (hrun : (s.sig curr).state = .run)
    (hs : s.waitrepeat curr pid option found = .ok s') :
    (∃ u ph, Posted s u ∧ ph.exits = false ∧ s' = u.setPhase curr ph) ∨
    ∃ c groups, c ∈ s.db.childq curr ∧ (s.sig c).state = .zombie ∧
      s.groups.Quits groups (fun t => t ∈ s.db.alltaskq) s.db.pid c ∧
      c ∈ s.db.alltaskq ∧ c ≠ init ∧ s.db.parent c = some curr ∧
      s' = ({ s with reaped := (c, curr, s.exitcode c) :: s.reaped }.deleted c curr groups).setPhase
        curr .user := by
  obtain ⟨r, hscan, hs⟩ := bind_ok hs
  cases r with
  | stopped c =>
      cases hs
      exact .inl ⟨_, _, posted_setExitcode 0 (.inl (scan_stopped hscan)), rfl, rfl⟩
  | zombie c =>
      right
      obtain ⟨hc, hz⟩ := scan_zombie hscan
      obtain ⟨groups, hdel, hquit, hmem, hinit, hpar⟩ := h.delete hc hz hcurr
      obtain ⟨u, hu, hs⟩ := bind_ok hs
      refine ⟨c, groups, hc, hz, hquit, hmem, hinit, hpar, ?_⟩
      rw [hdel] at hu
      cases hu
      cases hs
      rfl
  | none found =>
      left
      dsimp only at hs
      split at hs
      · cases hs
        exact ⟨_, _, .refl s, rfl, rfl⟩
      split at hs
      · cases hs
        exact ⟨_, _, .refl s, rfl, rfl⟩
      cases hs
      refine ⟨_, _, ?_, rfl, rfl⟩
      split
      · exact posted_setWaitchldexit s curr true
      · refine (posted_setWaitchldexit s curr true).trans
          (posted_setState ?_ (fun h => by cases h) (fun h => by cases h))
        show (s.sig curr).state ≠ .zombie
        rw [hrun]
        exact fun h => by cases h

theorem Inv.reap {e : BitVec 32} (h : s.Inv) (hz : (s.sig c).state = .zombie)
    (hmem : c ∈ s.db.alltaskq) (hinit : c ≠ init) (hpar : s.db.parent c = some curr)
    (hcurr : curr ≠ idle) (hquit : s.groups.Quits groups (fun t => t ∈ s.db.alltaskq) s.db.pid c) :
    (({ s with reaped := (c, curr, e) :: s.reaped }.deleted c curr groups).setPhase curr
      .user).Inv := by
  obtain ⟨-, -, hall⟩ := h.db.uninstall hmem hpar (h.leaf c hmem hz hinit) hinit
  have hd := h.deleted hz hmem hinit hpar hquit
  apply Inv.setPhase _ hcurr
  refine ⟨hd.db, hd.groups, hd.led, hd.isidle, hd.isinit, hd.idlePhase, hd.idleState, hd.leaf,
    hd.unled, hd.zombieq, hd.zombieNodup, fun r hr => ?_, ?_⟩
  · rcases mem_cons.mp hr with rfl | hr
    · exact ⟨h.db.fresh c hmem, fun hin => ((hall c).mp hin).2 rfl⟩
    · exact hd.reaped r hr
  · apply nodup_cons.mpr
    refine ⟨fun hin => ?_, h.once⟩
    obtain ⟨r, hr, hrc⟩ := mem_map.mp hin
    exact (h.reaped r hr).2 (hrc ▸ hmem)

/-! ## Exit -/

/-- `s'` is `s` after children have gone to `inittask`. -/
structure Handed (s s' : Proc) (curr : Nat) : Prop extends Calm s s' where
  alltaskq : s'.db.alltaskq = s.db.alltaskq
  zombietaskq : s'.db.zombietaskq = s.db.zombietaskq
  parent : ∀ u, s'.db.parent u = s.db.parent u ∨ s'.db.parent u = s.db.inittask
  inittask : s'.db.inittask = s.db.inittask
  childq : s.db.inittask ≠ some curr → s'.db.childq curr = []

/-- One child goes to `inittask`. -/
theorem Inv.reparentOne {i : Nat} (h : s.Inv) (hi : s.db.inittask = some i)
    (hc : c ∈ s.db.childq curr) (hcurr : curr ≠ idle) :
    ({ s with db := s.db.reparented curr c i } : Proc).Inv := by
  obtain ⟨-, hdb⟩ := h.db.reparent hi hc hcurr
  obtain ⟨hii, -⟩ := h.db.inittask i hi
  refine ⟨hdb, h.groups, h.led, h.isidle, h.isinit, h.idlePhase, h.idleState,
    fun t ht hz hne => ?_, h.unled, h.zombieq, h.zombieNodup, h.reaped, h.once⟩
  have hleaf := h.leaf t ht hz hne
  have hti : t ≠ i := fun heq => hne (heq.trans hii)
  show (if t = i then _ else if t = curr then (s.db.childq t).erase c else s.db.childq t) = []
  rw [if_neg hti, hleaf]
  split
  · rfl
  · rfl

theorem Inv.reparent (h : s.Inv) (hcurr : curr ≠ idle)
    (hl : s.db.childq curr = l) (hself : s.db.inittask = some curr → l.length ≤ 1)
    (hs : s.reparent curr l = .ok s') : s'.Inv ∧ Handed s s' curr := by
  induction l generalizing s with
  | nil =>
      cases hs
      exact ⟨h, .refl _, rfl, rfl, fun _ => .inl rfl, rfl, fun _ => hl⟩
  | cons c l ih =>
      have hc : c ∈ s.db.childq curr := by
        rw [hl]
        exact mem_cons_self
      obtain ⟨⟨i, db⟩, hdb, hmore⟩ := bind_ok hs
      obtain ⟨u, hu, hlast⟩ := bind_ok hmore
      have hi : s.db.inittask = some i := by
        obtain ⟨i', hi', hrest⟩ := bind_ok hdb
        cases hrest
        exact deref_ok hi'
      have hone := h.reparentOne hi hc hcurr
      obtain ⟨heq, -⟩ := h.db.reparent hi hc hcurr
      rw [heq] at hdb
      cases hdb
      have hpost : Posted { s with db := s.db.reparented curr c i } u := by
        split at hu
        · exact posted_notify hu
        · cases hu
          exact .refl _
      have hinv := hone.posted hpost
      have hcalm : Calm s u := by
        obtain ⟨hc, -⟩ := hpost
        exact ⟨hc.groups, hc.reaped, hc.phase, hc.isidle, hc.isinit, hc.zombie, hc.stop,
          hc.exitcode⟩
      have hpar : ∀ v, u.db.parent v = s.db.parent v ∨ u.db.parent v = s.db.inittask := by
        intro v
        rw [hpost.db]
        show (if v = c then some i else s.db.parent v) = _ ∨
          (if v = c then some i else s.db.parent v) = _
        by_cases hv : v = c
        · exact .inr ((if_pos hv).trans hi.symm)
        · exact .inl (if_neg hv)
      have hinit : u.db.inittask = s.db.inittask := by
        rw [hpost.db]
        rfl
      by_cases hic : i = curr
      · -- `inittask` itself exits, with one child, which it keeps
        have hlen := hself (hic ▸ hi)
        obtain rfl : l = [] := by
          rw [length_cons] at hlen
          exact length_eq_zero_iff.mp (by omega)
        cases hlast
        refine ⟨hinv, hcalm, ?_, ?_, hpar, hinit, fun hne => absurd (hic ▸ hi) hne⟩
        · rw [hpost.db]
          rfl
        · rw [hpost.db]
          rfl
      · have hrest : u.db.childq curr = l := by
          rw [hpost.db]
          show (if curr = i then _ else if curr = curr then (s.db.childq curr).erase c
            else s.db.childq curr) = l
          rw [if_neg (Ne.symm hic), if_pos rfl, hl, erase_cons_head]
        obtain ⟨hinv', hh⟩ := ih hinv hrest
          (fun hself' => absurd (Option.some.inj (hi.symm.trans (hinit ▸ hself'))) hic) hlast
        refine ⟨hinv', hcalm.trans hh.toCalm, ?_, ?_, fun v => ?_, hh.inittask.trans hinit,
          fun hne => hh.childq (hinit ▸ hne)⟩
        · rw [hh.alltaskq, hpost.db]
          rfl
        · rw [hh.zombietaskq, hpost.db]
          rfl
        · rcases hh.parent v with hsame | hnew
          · rw [hsame]
            exact hpar v
          · exact .inr (hnew.trans hinit)

/-- The process table with one more zombie. -/
def exited (s : Proc) (curr : Nat) : Proc :=
  let s := s.setState curr .zombie
  { s with db := { s.db with zombietaskq := s.db.zombietaskq ++ [curr] } }

/-- What the end of `doexit` comes to. -/
theorem Inv.endexit_cases (h : s.Inv) (hcurr : curr ∈ s.db.alltaskq) (hidle : curr ≠ idle)
    (hrun : (s.sig curr).state = .run) (hs : s.endexit curr = .ok s') :
    ∃ u v w, u.Inv ∧ Posted (s.setPhase curr .done) u ∧ Handed u v curr ∧ v.Inv ∧ Posted v w ∧
      s' = w.exited curr ∧
      ∀ i x, s.groups.session i = some x → x.leader = some curr → curr = init := by
  have h0 : (s.setPhase curr .done).Inv := h.setPhase hidle
  obtain ⟨p, -, hs⟩ := bind_ok hs
  obtain ⟨u, hu, hs⟩ := bind_ok hs
  have hpost := posted_notify hu
  have hinv := h0.posted hpost
  split at hs
  · cases hs
  next hloop =>
  obtain ⟨v, hv, hs⟩ := bind_ok hs
  have hself : u.db.inittask = some curr → (u.db.childq curr).length ≤ 1 := by
    intro hi
    by_contra hlen
    exact hloop ⟨hi, by omega⟩
  obtain ⟨hinv', hh⟩ := hinv.reparent hidle rfl hself hv
  have hcurrv : curr ∈ v.db.alltaskq := by
    rw [hh.alltaskq, hpost.db]
    exact hcurr
  obtain ⟨g, q, i, x, hg, hq, hi, hx, htq, hgq⟩ := hinv'.groups.at hcurrv
  obtain ⟨i', hi', hs⟩ := bind_ok hs
  rw [sessionAt_eq hg hq hi] at hi'
  cases hi'
  obtain ⟨x', hx', hs⟩ := bind_ok hs
  rw [getSession_eq hx] at hx'
  cases hx'
  obtain ⟨w, hw, hs⟩ := bind_ok hs
  have hsame : v.groups = s.groups := hh.groups.trans hpost.groups
  have hpw : Posted v w := by
    split at hw
    · exact (posted_postSession hw).1
    · cases hw
      exact .refl _
  cases hs
  refine ⟨u, v, w, hinv, hpost, hh, hinv', hpw, rfl, fun j y hy hl => ?_⟩
  -- the leader is among those who get SIGHUP, and has no signal vector any more
  obtain ⟨l, g', q', hl', hg', hq', hj, -⟩ := h.led j y hy
  rw [hl] at hl'
  cases hl'
  rw [← hsame] at hg' hq' hy
  rw [hg] at hg'
  cases hg'
  rw [hq] at hq'
  cases hq'
  rw [hi] at hj
  cases hj
  rw [hx] at hy
  cases hy
  rw [if_pos hl] at hw
  have hdone : (v.phase curr).disposed = true := by
    rw [hh.phase, hpost.phase]
    show (if curr = curr then Phase.done else _).disposed = true
    rw [if_pos rfl]
    rfl
  have htakes : v.takes curr SIGHUP = false := by
    by_contra htakes
    rw [Bool.not_eq_false] at htakes
    have hfine := (posted_postSession hw).2 g hgq q hq curr htq htakes
    rw [hdone] at hfine
    cases hfine
  have hnotidle : (v.sig curr).isidle = false := by
    rw [Bool.eq_false_iff]
    exact fun hid => hidle ((hinv'.isidle curr).mp hid)
  have hnotzombie : ((v.sig curr).state == .zombie) = false := by
    rw [Bool.eq_false_iff]
    intro hz
    have hzs := (hpost.zombie curr).mp ((hh.zombie curr).mp (eq_of_beq hz))
    have hzr : (s.sig curr).state = .zombie := hzs
    rw [hrun] at hzr
    cases hzr
  rw [takes, hnotidle, hnotzombie] at htakes
  apply hinv'.isinit curr hcurrv
  by_contra hi
  rw [Bool.not_eq_true] at hi
  rw [hi] at htakes
  cases htakes

theorem Inv.exited (h : s.Inv) (hcurr : curr ∈ s.db.alltaskq) (hidle : curr ≠ idle)
    (hz : (s.sig curr).state ≠ .zombie) (hleaf : curr ≠ init → s.db.childq curr = [])
    (hunled : ∀ i x, s.groups.session i = some x → x.leader = some curr → curr = init) :
    (s.exited curr).Inv := by
  have hstate : ∀ t, ((s.exited curr).sig t).state = .zombie ↔
      t = curr ∨ (s.sig t).state = .zombie := by
    intro t
    show (if t = curr then _ else s.sig t : Task).state = .zombie ↔ _
    by_cases ht : t = curr
    · rw [if_pos ht]
      exact iff_of_true rfl (.inl ht)
    · rw [if_neg ht]
      exact ⟨.inr, fun hor => hor.resolve_left ht⟩
  refine ⟨?_, h.groups, h.led, fun t => ?_, fun t ht hi => ?_, h.idlePhase, fun hid => ?_,
    fun t ht hzt hne => ?_, fun i x t hx hl hzt => ?_, fun t => ?_, ?_, h.reaped, h.once⟩
  · exact ⟨h.db.idle_mem, h.db.nodup, h.db.fresh, h.db.live, h.db.hash, h.db.hashNodup, h.db.pids,
      h.db.child, h.db.childNodup, h.db.parent, h.db.idleParent, h.db.first, h.db.inittask,
      h.db.idlePid⟩
  · show (if t = curr then _ else s.sig t : Task).isidle = true ↔ _
    by_cases ht : t = curr
    · rw [if_pos ht, ht]
      exact h.isidle curr
    · rw [if_neg ht]
      exact h.isidle t
  · apply h.isinit t ht
    have hi' : (if t = curr then { s.sig curr with state := .zombie } else s.sig t : Task).isinit =
        true := hi
    by_cases htc : t = curr
    · rw [if_pos htc] at hi'
      rw [htc]
      exact hi'
    · rw [if_neg htc] at hi'
      exact hi'
  · rcases (hstate idle).mp hid with heq | hzi
    · exact hidle heq.symm
    · exact h.idleState hzi
  · rcases (hstate t).mp hzt with heq | hzt
    · exact heq ▸ hleaf (heq ▸ hne)
    · exact h.leaf t ht hzt hne
  · rcases (hstate t).mp hzt with heq | hzt
    · rw [heq]
      exact hunled i x hx (heq ▸ hl)
    · exact h.unled i x t hx hl hzt
  · rw [hstate]
    show t ∈ s.db.zombietaskq ++ [curr] ↔ t ∈ s.db.alltaskq ∧ _
    rw [mem_append, h.zombieq t, mem_singleton]
    by_cases ht : t = curr
    · rw [ht]
      exact iff_of_true (.inr rfl) ⟨hcurr, .inl rfl⟩
    · simp [ht]
  · refine nodup_append.mpr ⟨h.zombieNodup, nodup_singleton curr, ?_⟩
    intro a ha b hb hab
    rw [hab, mem_singleton.mp hb] at ha
    exact hz ((h.zombieq curr).mp ha).2

theorem Inv.endexit (h : s.Inv) (hcurr : curr ∈ s.db.alltaskq) (hidle : curr ≠ idle)
    (hrun : (s.sig curr).state = .run) (hs : s.endexit curr = .ok s') : s'.Inv := by
  obtain ⟨u, v, w, hu, hpost, hh, hv, hpw, rfl, hunled⟩ :=
    h.endexit_cases hcurr hidle hrun hs
  have hall : w.db.alltaskq = s.db.alltaskq := by
    rw [hpw.db, hh.alltaskq, hpost.db]
    rfl
  apply (hv.posted hpw).exited (hall ▸ hcurr) hidle
  · intro hz
    have hzs : (s.sig curr).state = .zombie :=
      (hpost.zombie curr).mp ((hh.zombie curr).mp ((hpw.zombie curr).mp hz))
    rw [hrun] at hzs
    cases hzs
  · intro hne
    rw [hpw.db]
    apply hh.childq
    intro hi
    exact hne (hu.db.inittask curr hi).1
  · intro i x hx hl
    rw [hpw.groups, hh.groups, hpost.groups] at hx
    exact hunled i x hx hl

/-! ## Every step -/

theorem Inv.setup (h : s.Inv) (ht : t ∈ s.db.alltaskq) (hpid : s.db.pid t = 1) :
    ({ s with db := { s.db with inittask := some t } }.setSig t
      { s.sig t with isinit := true } : Proc).Inv := by
  obtain ⟨hinit, hmem⟩ := h.db.pid_one ht hpid
  refine ⟨⟨h.db.idle_mem, h.db.nodup, h.db.fresh, h.db.live, h.db.hash, h.db.hashNodup, h.db.pids,
      h.db.child, h.db.childNodup, h.db.parent, h.db.idleParent, h.db.first,
      fun i hi => ⟨(Option.some.inj hi).symm.trans hinit, hmem⟩, h.db.idlePid⟩,
    h.groups, h.led, fun u => ?_, fun u hu hi => ?_, h.idlePhase, ?_, fun u hu hz hne => ?_,
    fun i x u hx hl hz => ?_, fun u => ?_, h.zombieNodup, h.reaped, h.once⟩
  · have hidle := h.isidle u
    simp only [setSig]
    grind
  · have hinit' := h.isinit u hu
    simp only [setSig] at hi
    grind
  · have hidle := h.idleState
    simp only [setSig]
    grind
  · apply h.leaf u hu _ hne
    simp only [setSig] at hz
    grind
  · apply h.unled i x u hx hl
    simp only [setSig] at hz
    grind
  · have hz := h.zombieq u
    simp only [setSig]
    grind

theorem Inv.ne_idle (h : s.Inv) (ht : s.phase t = ph) (hph : ph ≠ .user) : t ≠ idle := by
  intro heq
  rw [heq, h.idlePhase] at ht
  exact hph ht.symm

/-- A change of the foreground group leaves the leaders alone. -/
theorem leader_setFg {gs : Groups} {i j : Nat} {x y : Session} {fg tty : Option Nat}
    (hx : gs.session i = some x)
    (hy : (gs.setSession i (some { x with fg := fg, tty := tty })).session j = some y)
    (hl : y.leader = some t) : ∃ k z, gs.session k = some z ∧ z.leader = some t := by
  simp only [setSession] at hy
  by_cases hj : j = i
  · rw [if_pos hj] at hy
    cases hy
    exact ⟨i, x, hx, hl⟩
  · rw [if_neg hj] at hy
    exact ⟨j, y, hy, hl⟩

theorem Inv.setpgid {low : Bool} {n pgid mem : BitVec 32} {r : Int × Groups} (h : s.Inv)
    (hcurr : curr ∈ s.db.alltaskq) (hr : s.groups.syssetpgid s.db curr low n pgid mem = .ok r) :
    ({ s with groups := r.2 } : Proc).Inv := by
  rcases h.groups.syssetpgid_cases h.db hcurr low n pgid mem with
    ⟨-, e, heq⟩ | ⟨t, ht, -, -, heq⟩
  · rw [heq] at hr
    cases hr
    exact h
  rw [heq] at hr
  rcases h.groups.setpgid_cases h.led ht pgid mem with
    ⟨-, -, e, heq⟩ | ⟨gs, g, q, -, hquit, hq, heq⟩ | ⟨gs, g, p, i, x, -, -, -, -, hquit, hx, heq⟩
  · rw [heq] at hr
    cases hr
    exact h
  · rw [heq] at hr
    cases hr
    obtain ⟨hinv, hled⟩ := hquit.grown ht hq
    exact h.setGroups hinv hled fun i x u hx hl => .inl ⟨i, hquit.leader hx hl⟩
  · rw [heq] at hr
    cases hr
    obtain ⟨hinv, hled⟩ := hquit.founded ht hx mem
    apply h.setGroups hinv hled
    intro j y u hy hl
    simp only [founded] at hy
    by_cases hj : j = i
    · rw [if_pos hj] at hy
      cases hy
      exact .inl ⟨i, hquit.leader hx hl⟩
    · rw [if_neg hj] at hy
      exact .inl ⟨j, hquit.leader hy hl⟩

theorem Inv.waitrepeat (h : s.Inv) (hcurr : curr ≠ idle) (hrun : (s.sig curr).state = .run)
    (hs : s.waitrepeat curr pid option found = .ok s') : s'.Inv := by
  rcases h.waitrepeat_cases hcurr hrun hs with
    ⟨u, ph, hpost, -, rfl⟩ | ⟨c, groups, -, hz, hquit, hmem, hinit, hpar, rfl⟩
  · exact (h.posted hpost).setPhase hcurr
  · exact h.reap hz hmem hinit hpar hcurr hquit

theorem posted_of {a : ProcEvent} (hs : s.outcome a = .ok s') (ha : a.posts = true) :
    Posted s s' := by
  cases a with
  | key tty signo => exact posted_notifyfg hs
  | kill t perm pid signo =>
      obtain ⟨-, hs⟩ := guard_ok hs
      obtain ⟨r, hr, hs⟩ := bind_ok hs
      cases hs
      exact posted_syskill hr
  | alarm t => exact posted_post (guard_ok hs).2
  | signals t sigset sigmask sigvec =>
      obtain ⟨-, hs⟩ := guard_ok hs
      cases hs
      exact posted_setSig rfl rfl Iff.rfl .inl
  | stop t signo =>
      obtain ⟨hc, hs⟩ := guard_ok hs
      obtain ⟨-, hrun, huser, -⟩ := calls_iff.mp hc
      exact posted_stop hs hrun huser
  | sleep t =>
      obtain ⟨hc, hs⟩ := guard_ok hs
      cases hs
      simp only [Bool.and_eq_true] at hc
      exact posted_setState (by simp [(runs_iff.mp hc.1).2.1]) nofun nofun
  | wait t =>
      obtain ⟨hc, hs⟩ := guard_ok hs
      simp only [Bool.and_eq_true] at hc
      split at hs
      · cases hs
        exact .refl s
      · cases hs
        exact posted_setState (by simp [(runs_iff.mp hc.1).2.1]) nofun nofun
  | wake t =>
      obtain ⟨-, hs⟩ := guard_ok hs
      cases hs
      exact posted_wakeup s t
  | setup | fork | setsid | setpgid | condevOpen | tiocgpgrp | tiocspgrp | waitpid | waitwoken
  | exit | closed | lost => cases ha

/-- A step leaves things in order. -/
theorem step_inv {a : ProcEvent} (h : s.Inv) (hs : s.outcome a = .ok s') : s'.Inv := by
  cases a with
  | setup t =>
      obtain ⟨hc, hs⟩ := guard_ok hs
      split at hs
      · cases hs
      next hpid =>
      cases hs
      exact h.setup (calls_iff.mp hc).1 (not_not.mp hpid)
  | fork t ok =>
      obtain ⟨hc, hs⟩ := guard_ok hs
      have hmem : t ∈ s.db.alltaskq := by
        simp only [forks, Bool.and_eq_true] at hc
        exact (runs_iff.mp hc.1).1
      rcases h.dofork_cases hmem ok with ⟨-, herr⟩ | ⟨pid, hpid, ⟨-, heq⟩ | ⟨g, p, -, hg, hp, heq⟩⟩
      · rw [herr] at hs
        cases hs
      · rw [heq] at hs
        cases hs
        exact ⟨⟨h.db.idle_mem, h.db.nodup, h.db.fresh, h.db.live, h.db.hash, h.db.hashNodup,
          h.db.pids, h.db.child, h.db.childNodup, h.db.parent, h.db.idleParent, h.db.first,
          h.db.inittask, h.db.idlePid⟩, h.groups, h.led, h.isidle, h.isinit, h.idlePhase,
          h.idleState, h.leaf, h.unled, h.zombieq, h.zombieNodup, h.reaped, h.once⟩
      · rw [heq] at hs
        cases hs
        exact h.forked hc hpid hp
  | setsid t low mem =>
      obtain ⟨hc, hs⟩ := guard_ok hs
      obtain ⟨r, hr, hs⟩ := bind_ok hs
      cases hs
      obtain ⟨ht, hrun, -, -⟩ := calls_iff.mp hc
      rcases h.groups.setsid_cases h.led ht low mem with
        ⟨-, e, heq⟩ | ⟨gs, -, -, hquit, heq⟩
      · rw [heq] at hr
        cases hr
        exact h
      · rw [heq] at hr
        cases hr
        obtain ⟨hinv, hled⟩ := hquit.setsid ht mem
        apply h.setGroups hinv hled
        intro i x u hx hl
        by_cases hi : i = gs.nsession
        · right
          simp only [founded, opened] at hx
          rw [if_pos hi] at hx
          cases hx
          cases hl
          rw [hrun]
          exact fun h => by cases h
        · left
          simp only [founded, opened] at hx
          rw [if_neg hi, if_neg hi] at hx
          obtain ⟨y, hy, hyl, -⟩ := (hquit.left.session i).2 x hx
          exact ⟨i, y, hy, hyl ▸ hl⟩
  | setpgid t low n pgid mem =>
      obtain ⟨hc, hs⟩ := guard_ok hs
      obtain ⟨r, hr, hs⟩ := bind_ok hs
      cases hs
      exact h.setpgid (calls_iff.mp hc).1 hr
  | condevOpen t tty =>
      obtain ⟨hc, hs⟩ := guard_ok hs
      obtain ⟨gs, hgs, hs⟩ := bind_ok hs
      cases hs
      rcases h.groups.condevOpen_cases (calls_iff.mp hc).1 tty with
        heq | ⟨g, i, x, -, -, hx, -, heq⟩
      · rw [heq] at hgs
        cases hgs
        exact h
      · rw [heq] at hgs
        cases hgs
        exact h.setGroups ((h.groups.setFg hx _ _).setTty _) (h.led.setFg hx _ _)
          fun j y u hy hl => .inl (leader_setFg hx hy hl)
  | tiocgpgrp t tty =>
      obtain ⟨hc, hs⟩ := guard_ok hs
      obtain ⟨r, -, hs⟩ := bind_ok hs
      cases hs
      exact h
  | tiocspgrp t tty pgid =>
      obtain ⟨hc, hs⟩ := guard_ok hs
      obtain ⟨r, hr, hs⟩ := bind_ok hs
      cases hs
      rcases tiocspgrp_cases hr with heq | ⟨i, x, -, g, -, hx, -, heq⟩
      · rw [heq]
        exact h
      · rw [heq]
        exact h.setGroups (h.groups.setFg hx (some g) x.tty) (h.led.setFg hx (some g) x.tty)
          fun j y u hy hl => .inl (leader_setFg hx hy hl)
  | key | kill | alarm | signals | stop | sleep | wait | wake => exact h.posted (posted_of hs rfl)
  | waitpid t pid option =>
      obtain ⟨hc, hs⟩ := guard_ok hs
      obtain ⟨-, hrun, -, hidle⟩ := calls_iff.mp hc
      exact h.waitrepeat hidle hrun hs
  | waitwoken t =>
      dsimp only [outcome] at hs
      split at hs
      · next pid option hphase =>
          obtain ⟨hc, hs⟩ := guard_ok hs
          obtain ⟨-, hrun, -⟩ := runs_iff.mp hc
          have hidle : t ≠ idle := by
            intro heq
            rw [heq, h.idlePhase] at hphase
            cases hphase
          unfold Proc.waitwoken at hs
          split at hs
          · cases hs
            exact (h.posted (posted_setWaitchldexit s t false)).setPhase hidle
          · exact h.waitrepeat hidle hrun hs
      · cases hs
  | exit t exitcode =>
      obtain ⟨hc, hs⟩ := guard_ok hs
      cases hs
      obtain ⟨-, -, huser, hidle⟩ := calls_iff.mp hc
      exact (h.posted (posted_setExitcode exitcode (.inr huser))).setPhase hidle
  | closed t =>
      obtain ⟨hc, hs⟩ := guard_ok hs
      cases hs
      exact h.setPhase (h.ne_idle (runs_iff.mp hc).2.2 (fun h => by cases h))
  | lost t =>
      obtain ⟨hc, hs⟩ := guard_ok hs
      obtain ⟨hmem, hrun, hphase⟩ := runs_iff.mp hc
      exact h.endexit hmem (h.ne_idle hphase (fun h => by cases h)) hrun hs

/-- Things are in order along every run. -/
theorem inv_along (hmask ghmask mem : BitVec 32) (as : List ProcEvent) :
    Always step Inv (boot hmask ghmask mem) as :=
  always_of_step (fun _ _ _ h hs => step_inv h (step_eq_some.mp hs)) as
    (inv_boot hmask ghmask mem)

end Proc

end Unixlite.Kern
