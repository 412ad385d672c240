import Unixlite.Kern.ProcInv

/-!
# Process groups over a run

What a step does to the groups is one of a few things (`Regroup`).  From this follows
when `findpgrp` finds the groups (`run_findable_iff`) and when they keep to their
sessions (`run_confined_iff`).
-/

namespace Unixlite.Kern

open Unixlite.Verified.Partial Unixlite.Verified.Run Option

namespace Groups

variable {s s' : Groups} {A E : Nat → Prop} {pid : Nat → BitVec 32} {t u g h i : Nat}
  {p q : Pgrp} {x : Session}

/-! ## Groups and sessions -/

def pgidof (s : Groups) (g : Nat) : Option (BitVec 32) := (s.pgrp g).map Pgrp.pgid

/-- The session of a task. -/
def tasksession (s : Groups) (t : Nat) : Option Nat := (s.pgrpof t).bind s.sessionof

theorem pgidof_eq (hp : s.pgrp g = some p) : s.pgidof g = some p.pgid := by
  rw [pgidof, hp]
  rfl

variable {mem n : BitVec 32}

theorem live_of_pgidof (hg : s.pgidof g = some n) : s.pgrp g ≠ none := by
  intro hnone
  rw [pgidof, hnone] at hg
  cases hg

theorem pgidof_grown (hp : s.pgrp g = some p) : (s.grown t g p).pgidof h = s.pgidof h := by
  simp only [pgidof, grown, setPgrp, setPgrpof]
  by_cases hh : h = g
  · rw [if_pos hh, hh, hp]
    rfl
  · rw [if_neg hh]

theorem sessionof_grown (hp : s.pgrp g = some p) : (s.grown t g p).sessionof h = s.sessionof h := by
  simp only [sessionof, grown, setPgrp, setPgrpof]
  by_cases hh : h = g
  · rw [if_pos hh, hh, hp]
    rfl
  · rw [if_neg hh]

theorem pgidof_founded : (s.founded i t n mem x).pgidof h =
    if h = s.npgrp then some n else s.pgidof h := by
  simp only [pgidof, founded]
  by_cases hh : h = s.npgrp
  · rw [if_pos hh, if_pos hh]
    rfl
  · rw [if_neg hh, if_neg hh]

theorem sessionof_founded : (s.founded i t n mem x).sessionof h =
    if h = s.npgrp then some i else s.sessionof h := by
  simp only [sessionof, founded]
  by_cases hh : h = s.npgrp
  · rw [if_pos hh, if_pos hh]
    rfl
  · rw [if_neg hh, if_neg hh]

/-- A group that somebody else is in outlives the leaving. -/
theorem Quits.stays (h : Quits s s' A pid t) (hinv : s.Inv A E) (hp : s.pgrp g = some p)
    (hg : s.pgrpof t ≠ some g) : s'.pgrp g ≠ none := by
  obtain ⟨hfull, -, hmem⟩ := hinv.taskq g p hp
  obtain ⟨u, hu⟩ := List.exists_mem_of_ne_nil _ hfull
  have hug := (hmem u).mp hu
  have hut : u ≠ t := fun hut => hg (hut ▸ hug)
  exact h.inv.group u g ((h.left.pgrpof u).trans ((if_neg hut).trans hug))

/-- The groups that are left keep their numbers and their sessions. -/
theorem Quits.pgidof (h : Quits s s' A pid t) (hq : s'.pgrp g ≠ none) :
    s'.pgidof g = s.pgidof g := by
  obtain ⟨q, hq⟩ := ne_none_iff_exists'.mp hq
  obtain ⟨p, hp, hpgid, -⟩ := h.left.pgrp g q hq
  rw [pgidof_eq hq, pgidof_eq hp, hpgid]

theorem Quits.sessionof (h : Quits s s' A pid t) (hq : s'.pgrp g ≠ none) :
    s'.sessionof g = s.sessionof g := by
  obtain ⟨q, hq⟩ := ne_none_iff_exists'.mp hq
  obtain ⟨p, hp, -, hses⟩ := h.left.pgrp g q hq
  rw [sessionof_eq hq, sessionof_eq hp, hses]

theorem tasksession_grown (hp : s.pgrp g = some p) : (s.grown t g p).tasksession u =
    if u = t then s.sessionof g else s.tasksession u := by
  have hof : (s.grown t g p).sessionof = s.sessionof := funext fun _ => sessionof_grown hp
  simp only [tasksession, hof]
  simp only [grown, setPgrp, setPgrpof]
  by_cases hu : u = t
  · rw [if_pos hu, if_pos hu]
    rfl
  · rw [if_neg hu, if_neg hu]

theorem tasksession_founded (hinv : s.Inv A E) :
    (s.founded i t n mem x).tasksession u = if u = t then some i else s.tasksession u := by
  simp only [tasksession]
  show (if u = t then some s.npgrp else s.pgrpof u).bind _ = _
  by_cases hu : u = t
  · rw [if_pos hu, if_pos hu]
    show (s.founded i t n mem x).sessionof s.npgrp = _
    rw [sessionof_founded, if_pos rfl]
  · rw [if_neg hu, if_neg hu]
    cases hg : s.pgrpof u with
    | none => rfl
    | some g =>
        show (s.founded i t n mem x).sessionof g = s.sessionof g
        rw [sessionof_founded, if_neg]
        intro hgn
        exact hinv.group u g hg (hgn ▸ hinv.freshPgrp _ (Nat.le_refl _))

/-- The others stay in their sessions. -/
theorem Quits.tasksession (h : Quits s s' A pid t) (hut : u ≠ t) :
    s'.tasksession u = s.tasksession u := by
  have hof : s'.pgrpof u = s.pgrpof u := (h.left.pgrpof u).trans (if_neg hut)
  rw [Groups.tasksession, Groups.tasksession, ← hof]
  cases hg : s'.pgrpof u with
  | none => rfl
  | some g => exact h.sessionof (h.inv.group u g hg)

end Groups

namespace Proc

variable {s s' : Proc} {t u g : Nat}

/-- What a step may do to the groups. -/
inductive Regroup (s : Proc) : ProcEvent → Groups → Prop where
  | same (a : ProcEvent) : Regroup s a s.groups
  | forked {t g : Nat} {p : Pgrp} : s.groups.pgrpof t = some g → s.groups.pgrp g = some p →
      Regroup s (.fork t true) (s.groups.grown s.db.ntask g p)
  | reaped {c p : Nat} {gs : Groups} {a : ProcEvent} : a.waiter = some p →
      s.groups.Quits gs (fun t => t ∈ s.db.alltaskq) s.db.pid c → Regroup s a gs
  | detached {t : Nat} {mem : BitVec 32} {gs : Groups} : s.calls t = true →
      s.groups.detaches t (s.db.pid t) →
      s.groups.Quits gs (fun t => t ∈ s.db.alltaskq) s.db.pid t →
      Regroup s (.setsid t false mem) ((gs.opened t (s.db.pid t)).founded gs.nsession t
        (s.db.pid t) mem ⟨s.db.pid t, some t, none, none, []⟩)
  | joined {curr t g : Nat} {n pgid mem : BitVec 32} {gs : Groups} {q : Pgrp} :
      s.calls curr = true → s.groups.setpgidTask s.db curr n = .ok (.ok t) →
      s.groups.joins t (s.db.pid t) pgid g →
      s.groups.Quits gs (fun t => t ∈ s.db.alltaskq) s.db.pid t → gs.pgrp g = some q →
      Regroup s (.setpgid curr false n pgid mem) (gs.grown t g q)
  | founded {curr t i : Nat} {n pgid mem : BitVec 32} {gs : Groups} {x : Session} :
      s.calls curr = true → s.groups.setpgidTask s.db curr n = .ok (.ok t) →
      s.groups.founds t (s.db.pid t) pgid → s.groups.tasksession t = some i →
      s.groups.Quits gs (fun t => t ∈ s.db.alltaskq) s.db.pid t → gs.session i = some x →
      Regroup s (.setpgid curr false n pgid mem) (gs.founded i t (s.db.pid t) mem x)
  | opened {t tty g i : Nat} {x : Session} : s.groups.pgrpof t = some g →
      s.groups.sessionof g = some i → s.groups.session i = some x →
      Regroup s (.condevOpen t tty) (s.groups.ttyOpened tty g i x)
  | setfg {t tty fg g i : Nat} {pgid : BitVec 32} {x : Session} : s.calls t = true →
      s.groups.ttyfg tty = .ok (some (i, x, fg)) → s.groups.session i = some x →
      s.groups.findpgrp pgid = .ok (some g) →
      Regroup s (.tiocspgrp t tty pgid) (s.groups.setSession i (some { x with fg := some g }))

theorem Posted.regroup (h : Posted s s') (a : ProcEvent) : Regroup s a s'.groups := by
  rw [h.groups]
  exact .same a

theorem Inv.regroup_waitrepeat {curr : Nat} {pid option : BitVec 32} {found : Bool} (h : s.Inv)
    (hcurr : curr ≠ idle) (hrun : (s.sig curr).state = .run)
    (hs : s.waitrepeat curr pid option found = .ok s') {a : ProcEvent}
    (ha : a.waiter = some curr) : Regroup s a s'.groups := by
  rcases h.waitrepeat_cases hcurr hrun hs with
    ⟨u, ph, hpost, -, rfl⟩ | ⟨c, groups, -, -, hquit, -, -, -, rfl⟩
  · exact hpost.regroup a
  · exact .reaped ha hquit

theorem Inv.regroup_setpgid {curr : Nat} {low : Bool} {n pgid mem : BitVec 32}
    {r : Int × Groups} (h : s.Inv) (hc : s.calls curr = true)
    (hr : s.groups.syssetpgid s.db curr low n pgid mem = .ok r) :
    Regroup s (.setpgid curr low n pgid mem) r.2 := by
  have hcurr := (calls_iff.mp hc).1
  rcases h.groups.syssetpgid_cases h.db hcurr low n pgid mem with
    ⟨-, e, heq⟩ | ⟨t, ht, rfl, htask, heq⟩
  · rw [heq] at hr
    cases hr
    exact .same _
  rw [heq] at hr
  rcases h.groups.setpgid_cases h.led ht pgid mem with ⟨-, -, e, heq⟩ |
    ⟨gs, g, q, hjoin, hquit, hq, heq⟩ | ⟨gs, g, p, i, x, hfound, hg, hp, hi, hquit, hx, heq⟩
  · rw [heq] at hr
    cases hr
    exact .same _
  · rw [heq] at hr
    cases hr
    exact .joined hc htask hjoin hquit hq
  · rw [heq] at hr
    cases hr
    refine .founded hc htask hfound ?_ hquit hx
    rw [Groups.tasksession, hg]
    exact (Groups.sessionof_eq hp).trans hi

/-- Every step does one of these to the groups. -/
theorem Inv.regroup {a : ProcEvent} (h : s.Inv) (hs : s.outcome a = .ok s') :
    Regroup s a s'.groups := by
  cases a with
  | setup t =>
      obtain ⟨-, hs⟩ := guard_ok hs
      split at hs
      · cases hs
      cases hs
      exact .same _
  | fork t ok =>
      obtain ⟨hc, hs⟩ := guard_ok hs
      have hmem : t ∈ s.db.alltaskq := by
        simp only [forks, Bool.and_eq_true] at hc
        exact (runs_iff.mp hc.1).1
      rcases h.dofork_cases hmem ok with
        ⟨-, herr⟩ | ⟨pid, -, ⟨-, heq⟩ | ⟨g, p, rfl, hg, hp, heq⟩⟩
      · rw [herr] at hs
        cases hs
      · rw [heq] at hs
        cases hs
        exact .same _
      · rw [heq] at hs
        cases hs
        exact .forked hg hp
  | setsid t low mem =>
      obtain ⟨hc, hs⟩ := guard_ok hs
      obtain ⟨r, hr, hs⟩ := bind_ok hs
      cases hs
      rcases h.groups.setsid_cases h.led (calls_iff.mp hc).1 low mem with
        ⟨-, e, heq⟩ | ⟨gs, rfl, hdet, hquit, heq⟩
      · rw [heq] at hr
        cases hr
        exact .same _
      · rw [heq] at hr
        cases hr
        exact .detached hc hdet hquit
  | setpgid t low n pgid mem =>
      obtain ⟨hc, hs⟩ := guard_ok hs
      obtain ⟨r, hr, hs⟩ := bind_ok hs
      cases hs
      exact h.regroup_setpgid hc hr
  | condevOpen t tty =>
      obtain ⟨hc, hs⟩ := guard_ok hs
      obtain ⟨gs, hgs, hs⟩ := bind_ok hs
      cases hs
      rcases h.groups.condevOpen_cases (calls_iff.mp hc).1 tty with
        heq | ⟨g, i, x, hg, hi, hx, -, heq⟩
      · rw [heq] at hgs
        cases hgs
        exact .same _
      · rw [heq] at hgs
        cases hgs
        exact .opened hg hi hx
  | tiocgpgrp t tty =>
      obtain ⟨-, hs⟩ := guard_ok hs
      obtain ⟨r, -, hs⟩ := bind_ok hs
      cases hs
      exact .same _
  | tiocspgrp t tty pgid =>
      obtain ⟨hc, hs⟩ := guard_ok hs
      obtain ⟨r, hr, hs⟩ := bind_ok hs
      cases hs
      rcases Groups.tiocspgrp_cases hr with heq | ⟨i, x, fg, g, hfg, hx, hfind, heq⟩
      · rw [show ({ s with groups := r.2 } : Proc).groups = r.2 from rfl, heq]
        exact .same _
      · rw [show ({ s with groups := r.2 } : Proc).groups = r.2 from rfl, heq]
        exact .setfg hc hfg hx hfind
  | key | kill | alarm | signals | stop | sleep | wait | wake => exact (posted_of hs rfl).regroup _
  | waitpid t pid option =>
      obtain ⟨hc, hs⟩ := guard_ok hs
      obtain ⟨-, hrun, -, hidle⟩ := calls_iff.mp hc
      exact h.regroup_waitrepeat hidle hrun hs rfl
  | waitwoken t =>
      dsimp only [outcome] at hs
      split at hs
      · next pid option hphase =>
          obtain ⟨hc, hs⟩ := guard_ok hs
          obtain ⟨-, hrun, -⟩ := runs_iff.mp hc
          unfold Proc.waitwoken at hs
          split at hs
          · cases hs
            exact .same _
          · exact h.regroup_waitrepeat (h.ne_idle hphase (fun h => by cases h)) hrun hs rfl
      · cases hs
  | exit | closed =>
      obtain ⟨-, hs⟩ := guard_ok hs
      cases hs
      exact .same _
  | lost t =>
      obtain ⟨hc, hs⟩ := guard_ok hs
      obtain ⟨hmem, hrun, hphase⟩ := runs_iff.mp hc
      obtain ⟨u, v, w, -, hpost, hh, -, hpw, rfl, -⟩ :=
        h.endexit_cases hmem (h.ne_idle hphase (fun h => by cases h)) hrun hs
      have hsame : (w.exited t).groups = s.groups :=
        hpw.groups.trans (hh.groups.trans hpost.groups)
      rw [hsame]
      exact .same _

end Proc

/-! ## Groups are found -/

namespace Groups

variable {s s' : Groups} {A E : Nat → Prop} {pid : Nat → BitVec 32} {t g h i : Nat}
  {p : Pgrp} {x : Session}

/-- `findpgrp` finds the groups that there are. -/
structure Findable (s : Groups) : Prop where
  chain : ∀ g n, s.pgidof g = some n → g ∈ s.hashtab (s.hashfunc n)
  unique : ∀ g h n, s.pgidof g = some n → s.pgidof h = some n → g = h
  found : ∀ g n, s.findpgrp n = .ok (some g) ↔ s.pgidof g = some n
  notfound : ∀ n, s.findpgrp n = .ok none ↔ ∀ g, s.pgidof g ≠ some n

theorem Inv.findable (hinv : s.Inv A E)
    (hchain : ∀ g n, s.pgidof g = some n → g ∈ s.hashtab (s.hashfunc n))
    (hunique : ∀ g h n, s.pgidof g = some n → s.pgidof h = some n → g = h) : s.Findable := by
  have hlive : ∀ {g n}, s.pgidof g = some n → ∃ p, s.pgrp g = some p ∧ p.pgid = n :=
    fun hg => map_eq_some_iff.mp hg
  refine ⟨hchain, hunique, fun g n => ?_, fun n => ?_⟩
  · rcases hinv.findpgrp_cases n with ⟨hfind, hall⟩ | ⟨g', p, hfind, -, hp, hpgid⟩
    · rw [hfind]
      refine iff_of_false (fun h => by cases h) fun hg => ?_
      obtain ⟨p, hp, hpgid⟩ := hlive hg
      exact hall g p (hchain g n hg) hp hpgid
    · have hg' : s.pgidof g' = some n := by rw [pgidof_eq hp, hpgid]
      rw [hfind]
      constructor
      · intro heq
        cases heq
        exact hg'
      · intro hg
        rw [hunique g' g n hg' hg]
  · rcases hinv.findpgrp_cases n with ⟨hfind, hall⟩ | ⟨g', p, hfind, -, hp, hpgid⟩
    · rw [hfind]
      refine iff_of_true rfl fun g hg => ?_
      obtain ⟨p, hp, hpgid⟩ := hlive hg
      exact hall g p (hchain g n hg) hp hpgid
    · rw [hfind]
      refine iff_of_false (fun h => by cases h) fun hnone => hnone g' ?_
      rw [pgidof_eq hp, hpgid]

/-- What `findpgrp` does depends on the numbers and on the chains. -/
theorem Findable.congr (hf : s.Findable) (hinv : s'.Inv A E) (hmask : s'.hmask = s.hmask)
    (hhash : s'.hashtab = s.hashtab) (hpgid : ∀ g, s'.pgidof g = s.pgidof g) : s'.Findable := by
  apply hinv.findable
  · intro g n hg
    rw [hashfunc, hmask, hhash]
    exact hf.chain g n ((hpgid g).symm.trans hg)
  · intro g h n hg hh
    exact hf.unique g h n ((hpgid g).symm.trans hg) ((hpgid h).symm.trans hh)

theorem Quits.findable (hq : Quits s s' A pid t) (hf : s.Findable) : s'.Findable := by
  have hold : ∀ {g n}, s'.pgidof g = some n → s.pgidof g = some n := fun hg =>
    (hq.pgidof (live_of_pgidof hg)).symm.trans hg
  apply hq.inv.findable
  · intro g n hg
    rw [hashfunc, hq.left.hmask]
    exact (hq.left.hashtab _ g).mpr ⟨hf.chain g n (hold hg), live_of_pgidof hg⟩
  · intro g h n hg hh
    exact hf.unique g h n (hold hg) (hold hh)

/-- A new group is found if it is on the chain of its number, and no other group has
this number. -/
theorem Findable.founded {n mem : BitVec 32} (hf : s.Findable)
    (hinv : (s.founded i t n mem x).Inv A E) (hmem : s.hashfunc mem = s.hashfunc n)
    (hnew : ∀ g, s.pgidof g ≠ some n) : (s.founded i t n mem x).Findable := by
  apply hinv.findable
  · intro g k hg
    rw [pgidof_founded] at hg
    show g ∈ if s.hashfunc k = s.hashfunc mem then _ else _
    by_cases hgn : g = s.npgrp
    · rw [if_pos hgn] at hg
      cases hg
      rw [if_pos hmem.symm, hgn]
      exact List.mem_append_right _ List.mem_cons_self
    · rw [if_neg hgn] at hg
      have hin := hf.chain g k hg
      split
      · exact List.mem_append_left _ hin
      · exact hin
  · intro g h k hg hh
    rw [pgidof_founded] at hg hh
    by_cases hgn : g = s.npgrp
    · rw [if_pos hgn] at hg
      cases hg
      by_cases hhn : h = s.npgrp
      · rw [hgn, hhn]
      · rw [if_neg hhn] at hh
        exact absurd hh (hnew h)
    · rw [if_neg hgn] at hg
      by_cases hhn : h = s.npgrp
      · rw [if_pos hhn] at hh
        cases hh
        exact absurd hg (hnew g)
      · rw [if_neg hhn] at hh
        exact hf.unique g h k hg hh

/-- Only then. -/
theorem Findable.of_founded {n mem : BitVec 32} (hinv : s.Inv A E)
    (hf : (s.founded i t n mem x).Findable) :
    s.hashfunc mem = s.hashfunc n ∧ ∀ g, s.pgidof g ≠ some n := by
  have hnew : s.pgrp s.npgrp = none := hinv.freshPgrp _ (Nat.le_refl _)
  have hpgid : (s.founded i t n mem x).pgidof s.npgrp = some n := by
    rw [pgidof_founded, if_pos rfl]
  constructor
  · have hin := hf.chain s.npgrp n hpgid
    change s.npgrp ∈ if s.hashfunc n = s.hashfunc mem then _ else s.hashtab (s.hashfunc n) at hin
    split at hin
    · next heq => exact heq.symm
    · exact absurd hnew (hinv.chain _ _ hin)
  · intro g hg
    have hlive := live_of_pgidof hg
    have hne : g ≠ s.npgrp := fun heq => hlive (heq ▸ hnew)
    apply hne
    apply hf.unique g s.npgrp n _ hpgid
    rw [pgidof_founded, if_neg hne]
    exact hg

end Groups

namespace Proc

variable {s s' : Proc} {t u g : Nat}

/-- A new group gets a number that hashes to the chain of what was in `pgid` before,
and that no other group has. -/
def Creates (s : Proc) : ProcEvent → Prop
  | .setsid t low mem => s.calls t = true → low = false →
      s.groups.detaches t (s.db.pid t) →
      s.groups.hashfunc mem = s.groups.hashfunc (s.db.pid t) ∧
        ∀ g, s.groups.pgidof g ≠ some (s.db.pid t)
  | .setpgid curr low n pgid mem => ∀ t, s.calls curr = true → low = false →
      s.groups.setpgidTask s.db curr n = .ok (.ok t) → s.groups.founds t (s.db.pid t) pgid →
      s.groups.hashfunc mem = s.groups.hashfunc (s.db.pid t)
  | _ => True

theorem Inv.findable_step {a : ProcEvent} (h : s.Inv) (hf : s.groups.Findable)
    (hc : s.Creates a) (hs : s.outcome a = .ok s') : s'.groups.Findable := by
  have hinv := (step_inv h hs).groups
  have hre := h.regroup hs
  generalize s'.groups = gs' at hre hinv
  cases hre with
  | same => exact hf
  | forked hg hp => exact hf.congr hinv rfl rfl fun g => Groups.pgidof_grown hp
  | reaped _ hquit => exact hquit.findable hf
  | @detached t mem gs hcalls hdet hquit =>
      obtain ⟨hmem, hnew⟩ := hc hcalls rfl hdet
      have hopen : (gs.opened t (s.db.pid t)).Findable :=
        (hquit.findable hf).congr (hquit.inv.opened t (s.db.pid t)) rfl rfl fun g => rfl
      apply hopen.founded hinv
      · show mem &&& gs.hmask = s.db.pid t &&& gs.hmask
        rw [hquit.left.hmask]
        exact hmem
      · intro g hg
        have hg' : gs.pgidof g = some (s.db.pid t) := hg
        exact hnew g ((hquit.pgidof (Groups.live_of_pgidof hg')).symm.trans hg')
  | joined _ _ _ hquit hq =>
      exact (hquit.findable hf).congr hinv rfl rfl fun g => Groups.pgidof_grown hq
  | @founded curr t i n pgid mem gs x hcalls htask hfound _ hquit hx =>
      apply (hquit.findable hf).founded hinv
      · show mem &&& gs.hmask = s.db.pid t &&& gs.hmask
        rw [hquit.left.hmask]
        exact hc t hcalls rfl htask hfound
      · intro g hg
        exact (hf.notfound _).mp hfound.2.2 g
          ((hquit.pgidof (Groups.live_of_pgidof hg)).symm.trans hg)
  | opened | setfg => exact hf.congr hinv rfl rfl fun g => rfl

/-- What `syssetsid` comes to, for a task that is to have a session of its own. -/
theorem Inv.setsid_detached (mem : BitVec 32) (h : s.Inv) (hc : s.calls t = true)
    (hdet : s.groups.detaches t (s.db.pid t)) :
    ∃ gs, s.groups.Quits gs (fun t => t ∈ s.db.alltaskq) s.db.pid t ∧
      s.outcome (.setsid t false mem) = .ok { s with
        groups := (gs.opened t (s.db.pid t)).founded gs.nsession t (s.db.pid t) mem
          ⟨s.db.pid t, some t, none, none, []⟩ } := by
  rcases h.groups.setsid_cases h.led (calls_iff.mp hc).1 false mem with
    ⟨hnot, -⟩ | ⟨gs, -, -, hquit, heq⟩
  · exact absurd ⟨rfl, hdet⟩ hnot
  · refine ⟨gs, hquit, ?_⟩
    simp only [outcome, guard, hc, heq]
    rfl

/-- What `syssetpgid` comes to, for a task that is to have a group of its own. -/
theorem Inv.setpgid_founded {curr : Nat} {n pgid : BitVec 32} (mem : BitVec 32) (h : s.Inv)
    (hc : s.calls curr = true) (htask : s.groups.setpgidTask s.db curr n = .ok (.ok t))
    (hfound : s.groups.founds t (s.db.pid t) pgid) :
    ∃ gs i x, s.groups.Quits gs (fun t => t ∈ s.db.alltaskq) s.db.pid t ∧
      s.outcome (.setpgid curr false n pgid mem) = .ok { s with
        groups := gs.founded i t (s.db.pid t) mem x } := by
  rcases h.groups.syssetpgid_cases h.db (calls_iff.mp hc).1 false n pgid mem with
    ⟨hnot, -⟩ | ⟨t', ht, -, htask', hcall⟩
  · exact absurd ⟨rfl, htask⟩ (hnot t)
  have htt : t' = t := Except.ok.inj (Except.ok.inj (htask'.symm.trans htask))
  rw [htt] at hcall ht
  rcases h.groups.setpgid_cases h.led ht pgid mem with
    ⟨hnot, -⟩ | ⟨gs, g, q, hjoin, -⟩ | ⟨gs, g, p, i, x, -, -, -, -, hquit, -, heq⟩
  · exact absurd hfound hnot
  · exact absurd hfound.2.1 (not_or.mpr ⟨hjoin.2.1, hjoin.2.2.1⟩)
  · refine ⟨gs, i, x, hquit, ?_⟩
    simp only [outcome, guard, hc, hcall, heq]
    rfl

/-- A step that leaves the groups findable meets the condition. -/
theorem Inv.creates {a : ProcEvent} (h : s.Inv)
    (hnext : ∀ s', s.outcome a = .ok s' → s'.groups.Findable) : s.Creates a := by
  cases a with
  | setsid t low mem =>
      intro hc hlow hdet
      subst hlow
      obtain ⟨gs, hquit, heq⟩ := h.setsid_detached mem hc hdet
      obtain ⟨hmem, hnew⟩ := Groups.Findable.of_founded
        (hquit.inv.opened t (s.db.pid t)) (hnext _ heq)
      refine ⟨?_, fun g hg => ?_⟩
      · change mem &&& gs.hmask = s.db.pid t &&& gs.hmask at hmem
        rw [hquit.left.hmask] at hmem
        exact hmem
      -- the group that the task is in has another number
      · obtain ⟨g0, p0, hg0, hp0, hne⟩ := hdet
        obtain ⟨p, hp, hpgid⟩ := map_eq_some_iff.mp hg
        have hgg : s.groups.pgrpof t ≠ some g := by
          intro hsame
          rw [hg0] at hsame
          cases hsame
          rw [hp0] at hp
          cases hp
          exact hne hpgid
        exact hnew g ((hquit.pgidof (hquit.stays h.groups hp hgg)).trans hg)
  | setpgid curr low n pgid mem =>
      intro t hc hlow htask hfound
      subst hlow
      obtain ⟨gs, i, x, hquit, heq⟩ := h.setpgid_founded mem hc htask hfound
      obtain ⟨hmem, -⟩ := Groups.Findable.of_founded hquit.inv (hnext _ heq)
      change mem &&& gs.hmask = s.db.pid t &&& gs.hmask at hmem
      rw [hquit.left.hmask] at hmem
      exact hmem
  | _ => trivial

theorem findable_boot_iff (hmask ghmask mem : BitVec 32) :
    (boot hmask ghmask mem).groups.Findable ↔ mem &&& ghmask = 0 := by
  have hpgid : ∀ g n, (boot hmask ghmask mem).groups.pgidof g = some n ↔ g = 0 ∧ n = 0 := by
    intro g n
    simp only [Groups.pgidof, boot, Groups.installidletask]
    by_cases hg : g = 0
    · rw [if_pos hg, map_some, some.injEq]
      exact ⟨fun hn => ⟨hg, hn.symm⟩, fun hn => hn.2.symm⟩
    · rw [if_neg hg]
      exact iff_of_false (fun h => by cases h) fun hn => hg hn.1
  have hchain : ∀ g n, g ∈ (boot hmask ghmask mem).groups.hashtab n ↔
      n = mem &&& ghmask ∧ g = 0 := by
    intro g n
    simp only [boot, Groups.installidletask]
    by_cases hn : n = mem &&& ghmask
    · simp [hn]
    · simp [hn]
  have hzero : (boot hmask ghmask mem).groups.hashfunc 0 = 0 := BitVec.zero_and
  constructor
  · intro hf
    have hin := hf.chain 0 0 ((hpgid 0 0).mpr ⟨rfl, rfl⟩)
    rw [hzero] at hin
    exact ((hchain 0 0).mp hin).1.symm
  · intro hmem
    apply (inv_boot hmask ghmask mem).groups.findable
    · intro g n hg
      obtain ⟨rfl, rfl⟩ := (hpgid g n).mp hg
      rw [hzero]
      exact (hchain 0 0).mpr ⟨hmem.symm, rfl⟩
    · intro g h n hg hh
      rw [((hpgid g n).mp hg).1, ((hpgid h n).mp hh).1]

end Proc

/-! ## Groups keep to their sessions -/

namespace Groups

variable {s s' : Groups} {A E : Nat → Prop} {pid : Nat → BitVec 32} {t u g h i j : Nat}
  {p : Pgrp} {x y : Session}

/-- The foreground group of a session is there, and belongs to this session. -/
def FgOk (s : Groups) : Prop :=
  ∀ i x g, s.session i = some x → x.fg = some g → s.sessionof g = some i

theorem FgOk.congr (h : s.FgOk) (hsession : s'.session = s.session)
    (hof : ∀ g, s'.sessionof g = s.sessionof g) : s'.FgOk := by
  intro i x g hx hg
  rw [hof]
  exact h i x g (hsession ▸ hx) hg

theorem Quits.fgOk (hq : Quits s s' A pid t) (h : s.FgOk) : s'.FgOk := by
  intro i y g hy hg
  obtain ⟨x, hx, -, hfg⟩ := (hq.left.session i).2 y hy
  obtain ⟨hxg, hor⟩ := (hfg g).mp hg
  exact hor.resolve_right fun hne => hne (h i x g hx hxg)

/-- The sessions of `s'` are those of `s`, and some that have no foreground group. -/
theorem FgOk.founded {n mem : BitVec 32} (h : s.FgOk) (hinv : s.Inv A E)
    (hx : s.session i = some x) : (s.founded i t n mem x).FgOk := by
  have hnew : s.pgrp s.npgrp = none := hinv.freshPgrp _ (Nat.le_refl _)
  intro j y g hy hg
  have hold : ∃ z, s.session j = some z ∧ z.fg = some g := by
    simp only [Groups.founded] at hy
    by_cases hj : j = i
    · rw [if_pos hj] at hy
      cases hy
      exact ⟨x, hj ▸ hx, hg⟩
    · rw [if_neg hj] at hy
      exact ⟨y, hy, hg⟩
  obtain ⟨z, hz, hzg⟩ := hold
  have hof := h j z g hz hzg
  rw [sessionof_founded, if_neg]
  · exact hof
  · intro hgn
    rw [hgn, sessionof, hnew] at hof
    cases hof

theorem FgOk.opened {n : BitVec 32} (h : s.FgOk) : (s.opened t n).FgOk := by
  intro j y g hy hg
  simp only [Groups.opened] at hy
  by_cases hj : j = s.nsession
  · rw [if_pos hj] at hy
    cases hy
    cases hg
  · rw [if_neg hj] at hy
    exact h j y g hy hg

theorem FgOk.setFg {tty : Option Nat} (h : s.FgOk) (hg : s.sessionof g = some i) :
    (s.setSession i (some { x with fg := some g, tty := tty })).FgOk := by
  intro j y g' hy hg'
  simp only [setSession] at hy
  by_cases hj : j = i
  · rw [if_pos hj] at hy
    cases hy
    cases hg'
    rw [hj]
    exact hg
  · rw [if_neg hj] at hy
    exact h j y g' hy hg'

end Groups

namespace Proc

variable {s s' : Proc} {t u g : Nat}

/-- `syssetpgid` leaves every task in its session. -/
def Keeps (s : Proc) : ProcEvent → Prop
  | .setpgid curr low n pgid mem => ∀ s', s.outcome (.setpgid curr low n pgid mem) = .ok s' →
      ∀ t, s'.groups.tasksession t = s.groups.tasksession t
  | _ => True

/-- The group to join, and the group to put into the foreground, belong to the session
of the task and of the terminal. -/
def Confined (s : Proc) : ProcEvent → Prop
  | .setpgid curr low n pgid _ => ∀ t g, s.calls curr = true → low = false →
      s.groups.setpgidTask s.db curr n = .ok (.ok t) → s.groups.joins t (s.db.pid t) pgid g →
      s.groups.sessionof g = s.groups.tasksession t
  | .tiocspgrp t tty pgid => ∀ i x fg g, s.calls t = true →
      s.groups.ttyfg tty = .ok (some (i, x, fg)) → s.groups.findpgrp pgid = .ok (some g) →
      s.groups.sessionof g = some i
  | _ => True

variable {a : ProcEvent}

theorem Inv.fgOk_step (h : s.Inv) (hf : s.groups.FgOk) (hc : s.Confined a)
    (hs : s.outcome a = .ok s') : s'.groups.FgOk := by
  have hre := h.regroup hs
  generalize s'.groups = gs' at hre
  cases hre with
  | same => exact hf
  | forked hg hp => exact hf.congr rfl fun g => Groups.sessionof_grown hp
  | reaped _ hquit => exact hquit.fgOk hf
  | @detached t mem gs hcalls hdet hquit =>
      apply (hquit.fgOk hf).opened.founded (hquit.inv.opened t (s.db.pid t))
      exact if_pos rfl
  | joined _ _ _ hquit hq =>
      exact (hquit.fgOk hf).congr rfl fun g => Groups.sessionof_grown hq
  | founded _ _ _ _ hquit hx => exact (hquit.fgOk hf).founded hquit.inv hx
  | opened _ hi _ => exact hf.setFg hi
  | setfg hcalls hfg _ hfind => exact hf.setFg (hc _ _ _ _ hcalls hfg hfind)

/-- What `syssetpgid` comes to, for a task that is to join a group. -/
theorem Inv.setpgid_joined {curr : Nat} {n pgid : BitVec 32} (mem : BitVec 32) (h : s.Inv)
    (hc : s.calls curr = true) (htask : s.groups.setpgidTask s.db curr n = .ok (.ok t))
    (hjoin : s.groups.joins t (s.db.pid t) pgid g) :
    ∃ gs q, s.groups.Quits gs (fun t => t ∈ s.db.alltaskq) s.db.pid t ∧ gs.pgrp g = some q ∧
      s.outcome (.setpgid curr false n pgid mem) = .ok { s with groups := gs.grown t g q } := by
  rcases h.groups.syssetpgid_cases h.db (calls_iff.mp hc).1 false n pgid mem with
    ⟨hnot, -⟩ | ⟨t', ht, -, htask', hcall⟩
  · exact absurd ⟨rfl, htask⟩ (hnot t)
  have htt : t' = t := Except.ok.inj (Except.ok.inj (htask'.symm.trans htask))
  rw [htt] at hcall ht
  rcases h.groups.setpgid_cases h.led ht pgid mem with
    ⟨-, hnot, -⟩ | ⟨gs, g', q, hjoin', hquit, hq, heq⟩ | ⟨gs, g', p, i, x, hfound, -⟩
  · exact absurd hjoin (hnot g)
  · have hgg : g' = g :=
      some.inj (Except.ok.inj (hjoin'.2.2.2.1.symm.trans hjoin.2.2.2.1))
    rw [hgg] at hq heq
    refine ⟨gs, q, hquit, hq, ?_⟩
    simp only [outcome, guard, hc, hcall, heq]
    rfl
  · exact absurd hfound.2.1 (not_or.mpr ⟨hjoin.2.1, hjoin.2.2.1⟩)

theorem Inv.keeps (h : s.Inv) (hc : s.Confined a) : s.Keeps a := by
  cases a with
  | setpgid curr low n pgid mem =>
      intro s' hs u
      have hre := h.regroup hs
      generalize s'.groups = gs' at hre
      cases hre with
      | same => rfl
      | reaped hwait => cases hwait
      | @joined _ t g _ _ _ gs q hcalls htask hjoin hquit hq =>
          rw [Groups.tasksession_grown hq]
          by_cases hut : u = t
          · rw [if_pos hut, hut, hquit.sessionof (by rw [hq]; exact fun h => by cases h)]
            exact hc t g hcalls rfl htask hjoin
          · rw [if_neg hut]
            exact hquit.tasksession hut
      | @founded _ t i _ _ _ gs x hcalls htask hfound hi hquit hx =>
          rw [Groups.tasksession_founded hquit.inv]
          by_cases hut : u = t
          · rw [if_pos hut, hut, hi]
          · rw [if_neg hut]
            exact hquit.tasksession hut
  | _ => trivial

/-- A step that leaves the foreground groups in order, and every task in its session if
it is `syssetpgid`, meets the condition. -/
theorem Inv.confined (h : s.Inv) (hkeeps : s.Keeps a)
    (hnext : ∀ s', s.outcome a = .ok s' → s'.groups.FgOk) : s.Confined a := by
  cases a with
  | setpgid curr low n pgid mem =>
      intro t g hc hlow htask hjoin
      subst hlow
      obtain ⟨gs, q, hquit, hq, heq⟩ := h.setpgid_joined mem hc htask hjoin
      have hsame := hkeeps _ heq t
      change (gs.grown t g q).tasksession t = s.groups.tasksession t at hsame
      rw [Groups.tasksession_grown hq, if_pos rfl,
        hquit.sessionof (by rw [hq]; exact fun h => by cases h)] at hsame
      exact hsame
  | tiocspgrp t tty pgid =>
      intro i x fg g hc hfg hfind
      have heq : s.outcome (.tiocspgrp t tty pgid) = .ok { s with
          groups := s.groups.setSession i (some { x with fg := some g }) } := by
        simp only [outcome, guard, hc, Groups.tiocspgrp, hfg]
        show (((s.groups.findpgrp pgid).bind _).bind _ : Except Fault Proc) = _
        rw [hfind]
        rfl
      exact hnext _ heq i _ g (if_pos rfl) rfl
  | _ => trivial

end Proc

end Unixlite.Kern
