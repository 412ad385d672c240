import Unixlite.Kern.PgrpRun

/-!
# No group is used after its end

The groups and sessions are in order along every run in which nobody opens a terminal,
and no step uses one that has been deleted (`run_grouped`): each function of the
kernel finds the objects that it follows its pointers to.
-/

namespace Unixlite.Kern

open Unixlite.Verified.Partial Unixlite.Verified.Run List Option

/-- The step neither posts a signal nor asks the terminal for its session. -/
def ProcEvent.plain : ProcEvent → Bool
  | .tiocgpgrp _ _ => false
  | .tiocspgrp _ _ _ => false
  | .key _ _ => false
  | .kill _ _ _ _ => false
  | .alarm _ => false
  | .stop _ _ => false
  | .lost _ => false
  | _ => true

/-- The step opens a terminal. -/
def ProcEvent.opens : ProcEvent → Bool
  | .condevOpen _ _ => true
  | _ => false

namespace Proc

variable {s s' : Proc} {t u g : Nat}

/-! ## Each function -/

variable {α : Type} {e : Fault} {l : List Nat} {a : ProcEvent}

theorem bind_ne {β : Type} {x : Except Fault α} {f : α → Except Fault β}
    (hx : x ≠ .error e) (hf : ∀ a, x = .ok a → f a ≠ .error e) : (x >>= f) ≠ .error e := by
  intro h
  rcases bind_error.mp h with h | ⟨a, ha, h⟩
  · exact hx h
  · exact hf a ha h

theorem ok_ne {a : α} : (.ok a : Except Fault α) ≠ .error e :=
  fun h => by cases h

theorem guard_ne {c : Bool} {x : Except Fault Proc} (he : e ≠ .disabled)
    (hx : c = true → x ≠ .error e) : guard c x ≠ .error e := by
  unfold guard
  split
  · next hc => exact hx hc
  · intro h
    cases h
    exact he rfl

theorem deref_live {p : Option Nat} : deref p ≠ .error .deleted := by
  cases p with
  | none => exact fun h => by cases h
  | some x => exact ok_ne

variable {curr signo : Nat} {perm : Nat → Bool}

theorem post_live : s.post t signo ≠ .error .deleted := by
  unfold post
  split
  · exact ok_ne
  split
  · exact fun h => by cases h
  split
  · exact fun h => by cases h
  · exact ok_ne

theorem notify_live : s.notify t ≠ .error .deleted := by
  refine bind_ne post_live fun u _ => ?_
  split
  · exact ok_ne
  · exact ok_ne

theorem postAll_live : s.postAll signo l ≠ .error .deleted := by
  induction l generalizing s with
  | nil => exact ok_ne
  | cons t l ih => exact bind_ne post_live fun u _ => ih

theorem postSession_live (hl : ∀ g ∈ l, s.groups.pgrp g ≠ none) :
    s.postSession signo l ≠ .error .deleted := by
  induction l generalizing s with
  | nil => exact ok_ne
  | cons g l ih =>
      obtain ⟨p, hp⟩ := ne_none_iff_exists'.mp (hl g mem_cons_self)
      refine bind_ne (by rw [Groups.getPgrp_eq hp]; exact ok_ne) fun q _ => ?_
      refine bind_ne postAll_live fun u hu => ih fun g' hg' => ?_
      rw [(posted_postAll hu).1.groups]
      exact hl g' (mem_cons_of_mem g hg')

theorem Inv.sessionAt_live (h : s.Inv) (ht : t ∈ s.db.alltaskq) :
    s.groups.sessionAt t ≠ .error .deleted := by
  obtain ⟨g, p, i, x, hg, hp, hi, -⟩ := h.groups.at ht
  rw [Groups.sessionAt_eq hg hp hi]
  exact ok_ne

theorem Inv.kill_live (h : s.Inv) (hcurr : curr ∈ s.db.alltaskq) (ht : t ∈ s.db.alltaskq) :
    s.kill curr perm t signo ≠ .error .deleted := by
  unfold kill
  split
  · exact ok_ne
  split
  · exact bind_ne post_live fun _ _ => ok_ne
  split
  · exact ok_ne
  refine bind_ne (h.sessionAt_live hcurr) fun i _ => bind_ne (h.sessionAt_live ht) fun j _ => ?_
  split
  · exact ok_ne
  · exact bind_ne post_live fun _ _ => ok_ne

theorem Inv.killAll_live {e : Int} (h : s.Inv) (hcurr : curr ∈ s.db.alltaskq)
    (hl : ∀ t ∈ l, t ∈ s.db.alltaskq) : s.killAll curr perm signo l e ≠ .error .deleted := by
  induction l generalizing s e with
  | nil => exact ok_ne
  | cons t l ih =>
      refine bind_ne (h.kill_live hcurr (hl t mem_cons_self)) fun r hr => ?_
      have hpost := posted_kill hr
      apply ih (h.posted hpost)
      · rw [hpost.db]
        exact hcurr
      · rw [hpost.db]
        exact fun u hu => hl u (mem_cons_of_mem t hu)

/-- Whom `syskill` kills is in the task table. -/
theorem Inv.targets_cases (h : s.Inv) (hcurr : curr ∈ s.db.alltaskq) (pid : BitVec 32) :
    s.targets curr pid = .ok none ∨
      ∃ l, s.targets curr pid = .ok (some l) ∧ ∀ t ∈ l, t ∈ s.db.alltaskq := by
  obtain ⟨g, p, i, x, hg, hp, hi, hx, -⟩ := h.groups.at hcurr
  have hmember : ∀ {g p}, s.groups.pgrp g = some p → ∀ t ∈ p.taskq, t ∈ s.db.alltaskq := by
    intro g p hp t ht
    apply (h.groups.task t).mpr
    rw [((h.groups.taskq g p hp).2.2 t).mp ht]
    exact fun h => by cases h
  unfold targets
  split
  · cases hfind : s.db.findtask pid with
    | none => exact .inl rfl
    | some t =>
        refine .inr ⟨[t], rfl, fun u hu => ?_⟩
        rw [mem_singleton.mp hu]
        exact (h.db.findtask_some hfind).1
  split
  · exact .inr ⟨_, rfl, fun _ ht => ht⟩
  split
  · refine .inr ⟨p.taskq, ?_, hmember hp⟩
    rw [Groups.pgrpAt_eq hg hp]
    rfl
  · rcases h.groups.findpgrp_cases (-pid) with ⟨hfind, -⟩ | ⟨g', p', hfind, -, hp', -⟩
    · rw [hfind]
      exact .inl rfl
    · refine .inr ⟨p'.taskq, ?_, hmember hp'⟩
      rw [hfind]
      show (s.groups.getPgrp g').bind _ = _
      rw [Groups.getPgrp_eq hp']
      rfl

theorem Inv.syskill_live {pid : BitVec 32} (h : s.Inv) (hcurr : curr ∈ s.db.alltaskq) :
    s.syskill curr perm pid signo ≠ .error .deleted := by
  rcases h.targets_cases hcurr pid with hnone | ⟨l, hl, hmem⟩
  · rw [syskill, hnone]
    exact ok_ne
  · rw [syskill, hl]
    exact h.killAll_live hcurr hmem

theorem stop_live : s.stop t signo ≠ .error .deleted := by
  refine bind_ne deref_live fun parent _ => ?_
  split
  · exact fun h => by cases h
  refine bind_ne ?_ fun _ _ => ok_ne
  split
  · exact post_live
  · exact ok_ne

theorem reparent_live : s.reparent curr l ≠ .error .deleted := by
  induction l generalizing s with
  | nil => exact ok_ne
  | cons c l ih =>
      refine bind_ne (bind_ne deref_live fun _ _ => ok_ne) fun r _ => bind_ne ?_ fun u _ => ih
      split
      · exact notify_live
      · exact ok_ne

theorem Inv.endexit_live (h : s.Inv) (hcurr : curr ∈ s.db.alltaskq) (hidle : curr ≠ idle) :
    s.endexit curr ≠ .error .deleted := by
  have h0 : (s.setPhase curr .done).Inv := h.setPhase hidle
  refine bind_ne deref_live fun parent _ => bind_ne notify_live fun u hu => ?_
  have hpost := posted_notify hu
  have hinv := h0.posted hpost
  split
  · exact fun h => by cases h
  next hloop =>
  refine bind_ne reparent_live fun v hv => ?_
  have hself : u.db.inittask = some curr → (u.db.childq curr).length ≤ 1 := by
    intro hi
    by_contra hlen
    exact hloop ⟨hi, by omega⟩
  obtain ⟨hinv', hh⟩ := hinv.reparent hidle rfl hself hv
  have hcurrv : curr ∈ v.db.alltaskq := by
    rw [hh.alltaskq, hpost.db]
    exact hcurr
  obtain ⟨g, q, i, x, hg, hq, hi, hx, -⟩ := hinv'.groups.at hcurrv
  refine bind_ne (hinv'.sessionAt_live hcurrv) fun j hj => ?_
  rw [Groups.sessionAt_eq hg hq hi] at hj
  cases hj
  refine bind_ne (by rw [Groups.getSession_eq hx]; exact ok_ne) fun y hy => ?_
  rw [Groups.getSession_eq hx] at hy
  cases hy
  refine bind_ne ?_ fun _ _ => ok_ne
  split
  · apply postSession_live
    intro g' hg' hnone
    have hof := ((hinv'.groups.pgrpq i x hx).2.2 g').mp hg'
    rw [Groups.sessionof, hnone] at hof
    cases hof
  · exact ok_ne

theorem Inv.scan_returns {pid option : BitVec 32} {found : Bool} (h : s.Inv)
    (hl : ∀ c ∈ l, c ∈ s.db.alltaskq) : ∃ r, s.scan curr pid option l found = .ok r := by
  induction l generalizing found with
  | nil => exact ⟨_, rfl⟩
  | cons c l ih =>
      have hrest : ∀ f, ∃ r, s.scan curr pid option l f = .ok r := fun f =>
        ih fun d hd => hl d (mem_cons_of_mem c hd)
      have hfor : ∃ b, s.waitsfor curr pid c = .ok b := by
        obtain ⟨g, p, i, x, hg, hp, -⟩ := h.groups.at (hl c mem_cons_self)
        unfold waitsfor
        split
        · exact ⟨_, rfl⟩
        split
        · exact ⟨_, rfl⟩
        split
        · rw [Groups.pgrpAt_eq hg hp]
          exact ⟨_, rfl⟩
        · exact ⟨_, rfl⟩
      obtain ⟨b, hb⟩ := hfor
      unfold scan
      rw [hb]
      show ∃ r, (if !b then _ else _) = _
      split
      · exact hrest _
      split
      · split
        · exact hrest _
        split
        · exact hrest _
        · exact ⟨_, rfl⟩
      · exact ⟨_, rfl⟩
      · exact hrest _

/-- One pass of `syswaitpid` always returns. -/
theorem Inv.waitrepeat_returns {pid option : BitVec 32} {found : Bool} (h : s.Inv)
    (hcurr : curr ≠ idle) : ∃ u, s.waitrepeat curr pid option found = .ok u := by
  have hchild : ∀ c ∈ s.db.childq curr, c ∈ s.db.alltaskq := fun c hc =>
    ((h.db.child curr c).mp hc).2
  obtain ⟨r, hr⟩ := h.scan_returns hchild
  unfold Proc.waitrepeat
  rw [hr]
  cases r with
  | stopped c => exact ⟨_, rfl⟩
  | zombie c =>
      obtain ⟨hc, hz⟩ := scan_zombie hr
      obtain ⟨groups, hdel, -⟩ := h.delete hc hz hcurr
      show ∃ u, (({ s with reaped := (c, curr, s.exitcode c) :: s.reaped } : Proc).delete c >>=
        fun s => .ok (s.setPhase curr .user)) = .ok u
      rw [hdel]
      exact ⟨_, rfl⟩
  | none found =>
      show ∃ u, (if !found then _ else
        if option &&& WNOHANG ≠ 0 then Except.ok (s.setPhase curr .user) else _) = .ok u
      split
      · exact ⟨_, rfl⟩
      split
      · exact ⟨_, rfl⟩
      · exact ⟨_, rfl⟩

theorem Inv.setsid_returns {low : Bool} {mem : BitVec 32} (h : s.Inv)
    (hcurr : curr ∈ s.db.alltaskq) : ∃ r, s.groups.syssetsid s.db curr low mem = .ok r := by
  rcases h.groups.setsid_cases h.led hcurr low mem with ⟨-, e, heq⟩ | ⟨gs, -, -, -, heq⟩
  · exact ⟨_, heq⟩
  · exact ⟨_, heq⟩

theorem Inv.setpgid_returns {low : Bool} {n pgid mem : BitVec 32} (h : s.Inv)
    (hcurr : curr ∈ s.db.alltaskq) :
    ∃ r, s.groups.syssetpgid s.db curr low n pgid mem = .ok r := by
  rcases h.groups.syssetpgid_cases h.db hcurr low n pgid mem with
    ⟨-, e, heq⟩ | ⟨u, hu, -, -, heq⟩
  · exact ⟨_, heq⟩
  rw [heq]
  rcases h.groups.setpgid_cases h.led hu pgid mem with
    ⟨-, -, e, heq⟩ | ⟨gs, g, q, -, -, -, heq⟩ | ⟨gs, g, p, i, x, -, -, -, -, -, -, heq⟩
  · exact ⟨_, heq⟩
  · exact ⟨_, heq⟩
  · exact ⟨_, heq⟩

theorem Inv.condevOpen_returns {tty : Nat} (h : s.Inv) (hcurr : curr ∈ s.db.alltaskq) :
    ∃ r, s.groups.condevOpen curr tty = .ok r := by
  rcases h.groups.condevOpen_cases hcurr tty with heq | ⟨g, i, x, -, -, -, -, heq⟩
  · exact ⟨_, heq⟩
  · exact ⟨_, heq⟩

theorem Inv.findpgrp_returns (h : s.Inv) (n : BitVec 32) : ∃ r, s.groups.findpgrp n = .ok r := by
  rcases h.groups.findpgrp_cases n with ⟨hfind, -⟩ | ⟨g, p, hfind, -⟩
  · exact ⟨_, hfind⟩
  · exact ⟨_, hfind⟩

/-- What returns does not fail. -/
theorem ne_of_returns {x : Except Fault α} (h : ∃ r, x = .ok r) : x ≠ .error e := by
  obtain ⟨r, hr⟩ := h
  rw [hr]
  exact ok_ne

/-- A step that neither uses the terminal nor posts a signal fails only if it cannot be
taken, or because the process table is not set up. -/
theorem Inv.plain_ne (h : s.Inv) (hdisabled : e ≠ .disabled)
    (hpanic : e ≠ .panic) (hplain : a.plain = true) : s.outcome a ≠ .error e := by
  cases a with
  | setup t =>
      refine guard_ne hdisabled fun _ => ?_
      split
      · intro heq
        cases heq
        exact hpanic rfl
      · exact ok_ne
  | fork t ok =>
      refine guard_ne hdisabled fun hc => ?_
      have hmem : t ∈ s.db.alltaskq := by
        simp only [forks, Bool.and_eq_true] at hc
        exact (runs_iff.mp hc.1).1
      rcases h.dofork_cases hmem ok with
        ⟨-, heq⟩ | ⟨pid, -, ⟨-, heq⟩ | ⟨g, p, -, -, -, heq⟩⟩
      · rw [heq]
        intro heq
        cases heq
        exact hdisabled rfl
      · rw [heq]
        exact ok_ne
      · rw [heq]
        exact ok_ne
  | setsid t low mem =>
      exact guard_ne hdisabled fun hc =>
        bind_ne (ne_of_returns (h.setsid_returns (calls_iff.mp hc).1)) fun _ _ => ok_ne
  | setpgid t low n pgid mem =>
      exact guard_ne hdisabled fun hc =>
        bind_ne (ne_of_returns (h.setpgid_returns (calls_iff.mp hc).1)) fun _ _ => ok_ne
  | condevOpen t tty =>
      exact guard_ne hdisabled fun hc =>
        bind_ne (ne_of_returns (h.condevOpen_returns (calls_iff.mp hc).1)) fun _ _ => ok_ne
  | signals | sleep | wake | exit | closed => exact guard_ne hdisabled fun _ => ok_ne
  | waitpid t pid option =>
      exact guard_ne hdisabled fun hc =>
        ne_of_returns (h.waitrepeat_returns (calls_iff.mp hc).2.2.2)
  | waitwoken t =>
      dsimp only [outcome]
      split
      · next pid option hphase =>
          refine guard_ne hdisabled fun _ => ?_
          unfold Proc.waitwoken
          split
          · exact ok_ne
          · exact ne_of_returns (h.waitrepeat_returns (h.ne_idle hphase (fun h => by cases h)))
      · intro heq
        cases heq
        exact hdisabled rfl
  | wait t =>
      refine guard_ne hdisabled fun _ => ?_
      split
      · exact ok_ne
      · exact ok_ne
  | _ => cases hplain

/-! ## Every step -/

theorem ttyfg_none {tty : Nat} (htty : ∀ y, s.groups.ttysession y = none) :
    s.groups.ttyfg tty = .ok none := by
  rw [Groups.ttyfg, htty]

/-- As long as no session has a terminal, no step uses a group or a session that has
been deleted. -/
theorem Inv.step_live (h : s.Inv)
    (htty : ∀ y, s.groups.ttysession y = none) : s.outcome a ≠ .error .deleted := by
  cases a with
  | tiocgpgrp t tty =>
      refine guard_ne (fun h => by cases h) fun _ => bind_ne ?_ fun _ _ => ok_ne
      rw [Groups.tiocgpgrp, ttyfg_none htty]
      exact ok_ne
  | tiocspgrp t tty pgid =>
      refine guard_ne (fun h => by cases h) fun _ => bind_ne ?_ fun _ _ => ok_ne
      rw [Groups.tiocspgrp, ttyfg_none htty]
      exact ok_ne
  | key tty signo =>
      show s.notifyfg tty signo ≠ _
      rw [notifyfg, ttyfg_none htty]
      exact ok_ne
  | kill t perm pid signo =>
      exact guard_ne (fun h => by cases h) fun hc =>
        bind_ne (h.syskill_live (calls_iff.mp hc).1) fun _ _ => ok_ne
  | alarm t => exact guard_ne (fun h => by cases h) fun _ => post_live
  | stop t signo => exact guard_ne (fun h => by cases h) fun _ => stop_live
  | lost t =>
      refine guard_ne (fun h => by cases h) fun hc => ?_
      obtain ⟨hmem, -, hphase⟩ := runs_iff.mp hc
      exact h.endexit_live hmem (h.ne_idle hphase (fun h => by cases h))
  | _ => exact h.plain_ne (fun h => by cases h) (fun h => by cases h) rfl

/-- Only `condev_t::open` gives a session to a terminal. -/
theorem Inv.noTty_step (h : s.Inv) (ha : a.opens = false)
    (htty : ∀ y, s.groups.ttysession y = none) (hs : s.outcome a = .ok s') :
    ∀ y, s'.groups.ttysession y = none := by
  have hre := h.regroup hs
  generalize s'.groups = gs' at hre
  cases hre with
  | same => exact htty
  | forked => exact htty
  | reaped _ hquit => exact hquit.left.ttysession ▸ htty
  | detached _ _ hquit => exact hquit.left.ttysession ▸ htty
  | joined _ _ _ hquit _ => exact hquit.left.ttysession ▸ htty
  | founded _ _ _ _ hquit _ => exact hquit.left.ttysession ▸ htty
  | opened => cases ha
  | setfg => exact htty

/-- Every task is in one group, no group is empty, and every group is in one session. -/
structure Grouped (s : Proc) : Prop where
  task : ∀ t ∈ s.db.alltaskq, ∃ g p, s.groups.pgrpof t = some g ∧ s.groups.pgrp g = some p ∧
    t ∈ p.taskq ∧ ∀ h q, s.groups.pgrp h = some q → t ∈ q.taskq → h = g
  taskq : ∀ g p, s.groups.pgrp g = some p → p.taskq ≠ [] ∧ p.taskq.Nodup ∧
    ∀ t ∈ p.taskq, t ∈ s.db.alltaskq
  group : ∀ g p, s.groups.pgrp g = some p → ∃ i x, p.session = some i ∧
    s.groups.session i = some x ∧ g ∈ x.pgrpq ∧
    ∀ j y, s.groups.session j = some y → g ∈ y.pgrpq → j = i
  pgrpq : ∀ i x, s.groups.session i = some x → x.pgrpq ≠ [] ∧ x.pgrpq.Nodup ∧
    ∀ g ∈ x.pgrpq, s.groups.pgrp g ≠ none

theorem Inv.grouped (h : s.Inv) : s.Grouped := by
  refine ⟨fun t ht => ?_, fun g p hp => ?_, fun g p hp => ?_, fun i x hx => ?_⟩
  · obtain ⟨g, p, i, x, hg, hp, -, -, htp, -⟩ := h.groups.at ht
    refine ⟨g, p, hg, hp, htp, fun g' q hq htq => ?_⟩
    have hg' := ((h.groups.taskq g' q hq).2.2 t).mp htq
    rw [hg] at hg'
    exact (some.inj hg').symm
  · obtain ⟨hfull, hnodup, hmem⟩ := h.groups.taskq g p hp
    refine ⟨hfull, hnodup, fun t ht => (h.groups.task t).mpr ?_⟩
    rw [(hmem t).mp ht]
    exact fun h => by cases h
  · obtain ⟨i, hi, hne⟩ := h.groups.owner g p hp
    obtain ⟨x, hx⟩ := ne_none_iff_exists'.mp hne
    have hof : s.groups.sessionof g = some i := by rw [Groups.sessionof_eq hp, hi]
    refine ⟨i, x, hi, hx, ((h.groups.pgrpq i x hx).2.2 g).mpr hof, fun j y hy hgy => ?_⟩
    have hof' := ((h.groups.pgrpq j y hy).2.2 g).mp hgy
    rw [hof] at hof'
    exact (some.inj hof').symm
  · obtain ⟨hfull, hnodup, hmem⟩ := h.groups.pgrpq i x hx
    refine ⟨hfull id, hnodup, fun g hg hnone => ?_⟩
    have hof := (hmem g).mp hg
    rw [Groups.sessionof, hnone] at hof
    cases hof

end Proc

end Unixlite.Kern
