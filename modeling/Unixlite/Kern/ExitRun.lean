import Unixlite.Kern.PgrpLive
import Unixlite.Kern.ProcRun

/-!
# Signals and the end of a task

`doexit` disposes of the signal vector before it tells the parent, the children's new
parent and the session, and may sleep in between.  A step reads a vector that is gone
if and only if a signal reaches a task in this state (`run_spares_iff`).
-/

namespace Unixlite.Kern

open Unixlite.Verified.Partial Unixlite.Verified.Run
open List Bool

theorem Phase.disposed_of_exits {ph : Phase} (h : ph.exits = false) : ph.disposed = false := by
  cases ph with
  | user => rfl
  | waitpid pid option => rfl
  | closing => rfl
  | losing => cases h
  | done => cases h

namespace Proc

variable {s s' u : Proc} {t c p curr signo : Nat} {perm : Nat → Bool}

/-! ## Each function -/

/-- A signal reaches a task that has no signal vector any more. -/
def Hit (s : Proc) (t signo : Nat) : Prop := s.takes t signo = true ∧ (s.phase t).disposed = true

theorem Calm.hit (h : Calm s s') : s'.Hit t signo ↔ s.Hit t signo := by
  rw [Hit, Hit, h.takes, h.phase]

theorem post_error_iff :
    s.post t signo = .error .disposed ↔ validsig signo = true ∧ s.Hit t signo := by
  unfold post Hit
  split
  · next hnot =>
      rw [not_eq_true'] at hnot
      refine iff_of_false (fun h => by cases h) fun h => ?_
      rw [hnot] at h
      cases h.2.1
  next htakes =>
  rw [not_eq_true', not_eq_false] at htakes
  split
  · next hnot =>
      rw [not_eq_true'] at hnot
      refine iff_of_false (fun h => by cases h) fun h => ?_
      rw [hnot] at h
      cases h.1
  next hvalid =>
  rw [not_eq_true', not_eq_false] at hvalid
  split
  · next hd => exact iff_of_true rfl ⟨hvalid, htakes, hd⟩
  · next hd => exact iff_of_false (fun h => by cases h) fun h => hd h.2.2

/-- A valid signal that reaches no such task is posted. -/
theorem post_returns (hvalid : validsig signo = true) (hhit : ¬ s.Hit t signo) :
    ∃ u, s.post t signo = .ok u := by
  unfold post
  split
  · exact ⟨_, rfl⟩
  next htakes =>
  rw [not_eq_true', not_eq_false] at htakes
  split
  · next hnot =>
      rw [hvalid] at hnot
      cases hnot
  split
  · next hd => exact absurd ⟨htakes, hd⟩ hhit
  · exact ⟨_, rfl⟩

theorem postAll_error_iff {l : List Nat} :
    s.postAll signo l = .error .disposed ↔ validsig signo = true ∧ ∃ t ∈ l, s.Hit t signo := by
  induction l generalizing s with
  | nil => exact iff_of_false (fun h => by cases h) fun ⟨_, t, ht, _⟩ => nomatch ht
  | cons t l ih =>
      show (s.post t signo >>= fun u => u.postAll signo l) = _ ↔ _
      rw [bind_error, post_error_iff]
      constructor
      · rintro (⟨hvalid, hhit⟩ | ⟨u, hu, herr⟩)
        · exact ⟨hvalid, t, mem_cons_self, hhit⟩
        · obtain ⟨hvalid, v, hv, hhit⟩ := ih.mp herr
          exact ⟨hvalid, v, mem_cons_of_mem t hv, (posted_post hu).toCalm.hit.mp hhit⟩
      · intro ⟨hvalid, v, hv, hhit⟩
        by_cases ht : s.Hit t signo
        · exact .inl ⟨hvalid, ht⟩
        · obtain ⟨u, hu⟩ := post_returns hvalid ht
          refine .inr ⟨u, hu, ih.mpr ⟨hvalid, v, ?_, (posted_post hu).toCalm.hit.mpr hhit⟩⟩
          rcases mem_cons.mp hv with rfl | hv
          · exact absurd hhit ht
          · exact hv

theorem postAll_returns {l : List Nat} (hvalid : validsig signo = true)
    (hhit : ∀ t ∈ l, ¬ s.Hit t signo) : ∃ u, s.postAll signo l = .ok u := by
  induction l generalizing s with
  | nil => exact ⟨s, rfl⟩
  | cons t l ih =>
      obtain ⟨v, hv⟩ := post_returns hvalid (hhit t mem_cons_self)
      obtain ⟨u, hu⟩ := ih fun c hc hit => hhit c (mem_cons_of_mem t hc)
        ((posted_post hv).toCalm.hit.mp hit)
      refine ⟨u, ?_⟩
      show (s.post t signo >>= fun v => v.postAll signo l) = _
      rw [hv]
      exact hu

theorem postSession_error {l : List Nat} {g : Nat} {q : Pgrp} (hvalid : validsig signo = true)
    (hl : ∀ g ∈ l, s.groups.pgrp g ≠ none) (hg : g ∈ l) (hq : s.groups.pgrp g = some q)
    (ht : t ∈ q.taskq) (hhit : s.Hit t signo) : s.postSession signo l = .error .disposed := by
  induction l generalizing s with
  | nil => cases hg
  | cons h l ih =>
      obtain ⟨r, hr⟩ := Option.ne_none_iff_exists'.mp (hl h mem_cons_self)
      show (s.groups.getPgrp h >>= fun r => s.postAll signo r.taskq >>= fun u =>
        u.postSession signo l) = _
      rw [Groups.getPgrp_eq hr]
      apply bind_error.mpr
      right
      refine ⟨r, rfl, bind_error.mpr ?_⟩
      by_cases hhere : ∃ t ∈ r.taskq, s.Hit t signo
      · exact .inl (postAll_error_iff.mpr ⟨hvalid, hhere⟩)
      · right
        obtain ⟨u, hu⟩ := postAll_returns hvalid fun t ht hit => hhere ⟨t, ht, hit⟩
        have hpost := (posted_postAll hu).1
        refine ⟨u, hu, ih ?_ ?_ ?_ (hpost.toCalm.hit.mpr hhit)⟩
        · rw [hpost.groups]
          exact fun g hg => hl g (mem_cons_of_mem h hg)
        · rcases mem_cons.mp hg with rfl | hg
          · rw [hq] at hr
            cases hr
            exact absurd ⟨t, ht, hhit⟩ hhere
          · exact hg
        · rw [hpost.groups]
          exact hq

theorem notify_error_iff : s.notify p = .error .disposed ↔ s.Hit p SIGCHLD := by
  show (s.post p SIGCHLD >>= fun u => if u.waitchldexit p then _ else _) = _ ↔ _
  rw [bind_error, post_error_iff]
  constructor
  · rintro (⟨-, hhit⟩ | ⟨u, hu, herr⟩)
    · exact hhit
    · split at herr
      · cases herr
      · cases herr
  · intro hhit
    exact .inl ⟨by decide, hhit⟩

theorem notify_returns (hhit : ¬ s.Hit p SIGCHLD) : ∃ u, s.notify p = .ok u := by
  obtain ⟨u, hu⟩ := post_returns (by decide) hhit
  show ∃ v, (s.post p SIGCHLD >>= fun u => if u.waitchldexit p then _ else _) = .ok v
  rw [hu]
  by_cases hw : u.waitchldexit p = true
  · exact ⟨_, if_pos hw⟩
  · exact ⟨_, if_neg hw⟩

theorem stop_error_iff : s.stop t signo = .error .disposed ↔
    ∃ p, s.db.parent t = some p ∧ (s.phase p).disposed = true := by
  unfold stop
  cases hp : s.db.parent t with
  | none => exact iff_of_false (fun h => by cases h) fun ⟨_, h, _⟩ => nomatch h
  | some p =>
      show (if (s.phase p).disposed then _ else _) = _ ↔ _
      by_cases hd : (s.phase p).disposed = true
      · rw [if_pos hd]
        exact iff_of_true rfl ⟨p, rfl, hd⟩
      · rw [if_neg hd]
        refine iff_of_false (fun h => ?_) fun ⟨q, hq, hqd⟩ => ?_
        · rcases bind_error.mp h with h | ⟨u, -, h⟩
          · split at h
            · exact hd (post_error_iff.mp h).2.2
            · cases h
          · cases h
        · cases hq
          exact hd hqd

/-- The user ids, or the session, let the signal through. -/
def Allowed (s : Proc) (curr : Nat) (perm : Nat → Bool) (t signo : Nat) : Prop :=
  perm t = true ∨ signo = SIGCONT ∧ s.groups.tasksession curr = s.groups.tasksession t

theorem Inv.sessionAt_eq (h : s.Inv) (ht : t ∈ s.db.alltaskq) :
    ∃ i, s.groups.sessionAt t = .ok i ∧ s.groups.tasksession t = some i := by
  obtain ⟨g, q, i, x, hg, hq, hi, -⟩ := h.groups.at ht
  refine ⟨i, Groups.sessionAt_eq hg hq hi, ?_⟩
  rw [Groups.tasksession, hg]
  exact (Groups.sessionof_eq hq).trans hi

/-- What `kill` comes to. -/
theorem Inv.kill_cases (h : s.Inv) (perm : Nat → Bool) (hcurr : curr ∈ s.db.alltaskq)
    (ht : t ∈ s.db.alltaskq) (hvalid : validsig signo = true) :
    (¬ s.Allowed curr perm t signo ∧ ∃ e, s.kill curr perm t signo = .ok (e, s)) ∨
    s.Allowed curr perm t signo ∧
      s.kill curr perm t signo = (s.post t signo >>= fun u => .ok (0, u)) := by
  unfold kill Allowed
  rw [hvalid]
  show (_ ∧ ∃ e, (if perm t = true then _ else _) = _) ∨ _ ∧ (if perm t = true then _ else _) = _
  by_cases hperm : perm t = true
  · rw [if_pos hperm]
    exact .inr ⟨.inl hperm, rfl⟩
  rw [if_neg hperm]
  by_cases hcont : signo = SIGCONT
  · rw [if_neg (not_not.mpr hcont)]
    obtain ⟨i, hi, hti⟩ := h.sessionAt_eq hcurr
    obtain ⟨j, hj, htj⟩ := h.sessionAt_eq ht
    rw [hi, hj, hti, htj]
    show (_ ∧ ∃ e, (if i ≠ j then _ else _) = _) ∨ _ ∧ (if i ≠ j then _ else _) = _
    by_cases hij : i = j
    · rw [if_neg (not_not.mpr hij), hij]
      exact .inr ⟨.inr ⟨hcont, rfl⟩, rfl⟩
    · rw [if_pos hij]
      refine .inl ⟨fun hor => ?_, _, rfl⟩
      rcases hor with hp | ⟨-, heq⟩
      · exact hperm hp
      · exact hij (Option.some.inj heq)
  · rw [if_pos hcont]
    exact .inl ⟨fun hor => hor.elim hperm fun hc => hcont hc.1, _, rfl⟩

theorem Calm.allowed (h : Calm s s') :
    s'.Allowed curr perm t signo ↔ s.Allowed curr perm t signo := by
  rw [Allowed, Allowed, h.groups]

theorem Inv.killAll_error_iff {l : List Nat} {e : Int} (h : s.Inv) (hcurr : curr ∈ s.db.alltaskq)
    (hl : ∀ t ∈ l, t ∈ s.db.alltaskq) : s.killAll curr perm signo l e = .error .disposed ↔
      validsig signo = true ∧ ∃ t ∈ l, s.Allowed curr perm t signo ∧ s.Hit t signo := by
  induction l generalizing s e with
  | nil => exact iff_of_false (fun h => by cases h) fun ⟨_, t, ht, _⟩ => nomatch ht
  | cons t l ih =>
      show (s.kill curr perm t signo >>= fun r =>
        r.2.killAll curr perm signo l (if e ≠ 0 then e else r.1)) = _ ↔ _
      have ht := hl t mem_cons_self
      have hrest : ∀ {u : Proc} {f : Int}, Posted s u →
          (u.killAll curr perm signo l f = .error .disposed ↔
            validsig signo = true ∧ ∃ t ∈ l, s.Allowed curr perm t signo ∧ s.Hit t signo) := by
        intro u f hpost
        have hdb := hpost.db
        rw [ih (h.posted hpost) (hdb ▸ hcurr) fun c hc => hdb ▸ hl c (mem_cons_of_mem t hc)]
        simp only [hpost.toCalm.allowed, hpost.toCalm.hit]
      by_cases hvalid : validsig signo = true
      · rcases h.kill_cases perm hcurr ht hvalid with ⟨hnot, f, heq⟩ | ⟨hall, heq⟩
        · rw [heq]
          show s.killAll curr perm signo l _ = _ ↔ _
          rw [hrest (.refl s)]
          constructor
          · intro ⟨hv, c, hc, hac, hhit⟩
            exact ⟨hv, c, mem_cons_of_mem t hc, hac, hhit⟩
          · intro ⟨hv, c, hc, hac, hhit⟩
            rcases mem_cons.mp hc with rfl | hc
            · exact absurd hac hnot
            · exact ⟨hv, c, hc, hac, hhit⟩
        · by_cases hhit : s.Hit t signo
          · rw [heq, post_error_iff.mpr ⟨hvalid, hhit⟩]
            exact iff_of_true rfl ⟨hvalid, t, mem_cons_self, hall, hhit⟩
          · obtain ⟨u, hu⟩ := post_returns hvalid hhit
            rw [heq, hu]
            show u.killAll curr perm signo l _ = _ ↔ _
            rw [hrest (posted_post hu)]
            constructor
            · intro ⟨hv, c, hc, hac, hch⟩
              exact ⟨hv, c, mem_cons_of_mem t hc, hac, hch⟩
            · intro ⟨hv, c, hc, hac, hch⟩
              rcases mem_cons.mp hc with rfl | hc
              · exact absurd hch hhit
              · exact ⟨hv, c, hc, hac, hch⟩
      · have heq : s.kill curr perm t signo = .ok (EINVAL, s) := by
          unfold kill
          rw [not_eq_true] at hvalid
          rw [hvalid]
          rfl
        rw [heq]
        show s.killAll curr perm signo l _ = _ ↔ _
        rw [hrest (.refl s)]
        exact iff_of_false (fun hv => hvalid hv.1) fun hv => hvalid hv.1

theorem Inv.syskill_error_iff {pid : BitVec 32} (h : s.Inv) (hcurr : curr ∈ s.db.alltaskq) :
    s.syskill curr perm pid signo = .error .disposed ↔ validsig signo = true ∧
      ∃ l, s.targets curr pid = .ok (some l) ∧
        ∃ t ∈ l, s.Allowed curr perm t signo ∧ s.Hit t signo := by
  unfold syskill
  rcases h.targets_cases hcurr pid with hnone | ⟨l, hl, hmem⟩
  · rw [hnone]
    exact iff_of_false (fun h => by cases h) fun ⟨_, l, hl, _⟩ => nomatch hl
  · rw [hl]
    show s.killAll curr perm signo l 0 = _ ↔ _
    rw [h.killAll_error_iff hcurr hmem]
    constructor
    · intro ⟨hv, hex⟩
      exact ⟨hv, l, rfl, hex⟩
    · intro ⟨hv, l', hl', hex⟩
      cases hl'
      exact ⟨hv, hex⟩

theorem getPgrp_ne {g : Nat} : s.groups.getPgrp g ≠ .error .disposed := by
  unfold Groups.getPgrp
  split
  · exact fun h => by cases h
  · exact fun h => by cases h

theorem ttyfg_ne {tty : Nat} : s.groups.ttyfg tty ≠ .error .disposed := by
  unfold Groups.ttyfg
  split
  · exact fun h => by cases h
  next i _ =>
  refine bind_ne ?_ fun x _ => ?_
  · unfold Groups.getSession
    split
    · exact fun h => by cases h
    · exact fun h => by cases h
  · split
    · exact fun h => by cases h
    · exact fun h => by cases h

/-- The members of the foreground group get the signals of the terminal. -/
theorem notifyfg_error_iff {tty : Nat} : s.notifyfg tty signo = .error .disposed ↔
    validsig signo = true ∧ ∃ i x g q, s.groups.ttyfg tty = .ok (some (i, x, g)) ∧
      s.groups.pgrp g = some q ∧ ∃ t ∈ q.taskq, s.Hit t signo := by
  unfold notifyfg
  cases hfg : s.groups.ttyfg tty with
  | error e =>
      refine iff_of_false (fun herr => ?_) fun ⟨_, i, x, g, q, h, _⟩ => nomatch h
      cases herr
      exact ttyfg_ne hfg
  | ok r =>
      match r with
      | none => exact iff_of_false (fun h => by cases h) fun ⟨_, i, x, g, q, h, _⟩ => nomatch h
      | some (i, x, g) =>
          show (s.groups.getPgrp g >>= fun q => s.postAll signo q.taskq) = _ ↔ _
          rw [bind_error]
          constructor
          · rintro (hbad | ⟨q, hq, herr⟩)
            · exact absurd hbad getPgrp_ne
            · obtain ⟨hv, hex⟩ := postAll_error_iff.mp herr
              refine ⟨hv, i, x, g, q, rfl, ?_, hex⟩
              unfold Groups.getPgrp at hq
              split at hq
              · next hp =>
                  cases hq
                  exact hp
              · cases hq
          · intro ⟨hv, i', x', g', q, heq, hq, hex⟩
            cases heq
            exact .inr ⟨q, Groups.getPgrp_eq hq, postAll_error_iff.mpr ⟨hv, hex⟩⟩

/-! ## The end of `doexit` -/

/-- The loop over the children returns as long as `inittask` stays. -/
theorem reparent_returns {l : List Nat} {i : Nat} (hi : s.db.inittask = some i)
    (hstay : (s.phase i).disposed = false) : ∃ v, s.reparent curr l = .ok v := by
  induction l generalizing s with
  | nil => exact ⟨s, rfl⟩
  | cons c l ih =>
      have hstep : ∃ r, s.db.reparent curr c = .ok (i, r) ∧ r.inittask = some i := by
        unfold Taskdb.reparent
        rw [hi]
        exact ⟨_, rfl, rfl⟩
      obtain ⟨db, hdb, hdbi⟩ := hstep
      have hnext : ∀ u : Proc, Posted { s with db := db } u →
          ∃ v, u.reparent curr l = .ok v := by
        intro u hpost
        apply ih
        · rw [hpost.db]
          exact hdbi
        · rw [hpost.phase]
          exact hstay
      show ∃ v, (s.db.reparent curr c >>= fun r => (if (s.sig c).state = .zombie ∨
        (s.sig c).state = .stop then ({ s with db := r.2 } : Proc).notify r.1
        else .ok { s with db := r.2 }) >>= fun u => u.reparent curr l) = .ok v
      rw [hdb]
      show ∃ v, ((if (s.sig c).state = .zombie ∨ (s.sig c).state = .stop then
        ({ s with db := db } : Proc).notify i else .ok { s with db := db }) >>=
          fun u => u.reparent curr l) = .ok v
      split
      · have hhit : ¬ ({ s with db := db } : Proc).Hit i SIGCHLD := by
          intro hhit
          have hd : (s.phase i).disposed = true := hhit.2
          rw [hstay] at hd
          cases hd
        obtain ⟨u, hu⟩ := notify_returns hhit
        rw [hu]
        exact hnext u (posted_notify hu)
      · exact hnext _ (.refl _)

/-- The loop over the children needs `inittask`. -/
theorem reparent_panics {c : Nat} {l : List Nat} (hi : s.db.inittask = none) :
    s.reparent curr (c :: l) = .error .panic := by
  show (s.db.reparent curr c >>= fun r => _) = _
  unfold Taskdb.reparent
  rw [hi]
  rfl

/-- The exit of a session leader. -/
theorem Inv.hangup_error_iff (h : s.Inv) (hcurr : curr ∈ s.db.alltaskq) (hidle : curr ≠ idle)
    (hinit : curr ≠ init) (hz : (s.sig curr).state ≠ .zombie) (hphase : s.phase curr = .done) :
    (s.groups.sessionAt curr >>= fun i => s.groups.getSession i >>= fun x =>
      (if x.leader = some curr then s.postSession SIGHUP x.pgrpq else .ok s) >>= fun w =>
        .ok (w.exited curr)) = .error .disposed ↔ s.groups.leads curr := by
  obtain ⟨g, q, i, x, hg, hq, hi, hx, htq, hgq⟩ := h.groups.at hcurr
  rw [Groups.sessionAt_eq hg hq hi, Groups.leads_iff hg hq hi hx]
  show (s.groups.getSession i >>= fun x => _) = _ ↔ _
  rw [Groups.getSession_eq hx]
  show ((if x.leader = some curr then s.postSession SIGHUP x.pgrpq else .ok s) >>= fun w =>
    .ok (w.exited curr)) = _ ↔ _
  by_cases hl : x.leader = some curr
  · have hnotidle : (s.sig curr).isidle = false :=
      eq_false_iff.mpr fun hid => hidle ((h.isidle curr).mp hid)
    have hnotinit : (s.sig curr).isinit = false :=
      eq_false_iff.mpr fun hin => hinit (h.isinit curr hcurr hin)
    have hnotzombie : ((s.sig curr).state == .zombie) = false :=
      eq_false_iff.mpr fun hzt => hz (eq_of_beq hzt)
    have hhit : s.Hit curr SIGHUP := by
      rw [Hit, takes, hnotidle, hnotinit, hnotzombie, hphase]
      exact ⟨rfl, rfl⟩
    have hlive : ∀ g ∈ x.pgrpq, s.groups.pgrp g ≠ none := by
      intro g' hg' hnone
      have hof := ((h.groups.pgrpq i x hx).2.2 g').mp hg'
      rw [Groups.sessionof, hnone] at hof
      cases hof
    rw [if_pos hl, postSession_error (by decide) hlive hgq hq htq hhit]
    exact iff_of_true rfl hl
  · rw [if_neg hl]
    exact iff_of_false (fun h => by cases h) hl

/-- What the end of `doexit` does to a task with a signal vector. -/
theorem Inv.endexit_error_iff (h : s.Inv) (hcurr : curr ∈ s.db.alltaskq) (hidle : curr ≠ idle)
    (hinit : curr ≠ init) (hrun : (s.sig curr).state = .run)
    (hstay : (s.phase init).exits = false) : s.endexit curr = .error .disposed ↔
      (∃ p, s.db.parent curr = some p ∧ s.Hit p SIGCHLD) ∨
      s.groups.leads curr ∧ ¬ (s.db.inittask = none ∧ s.db.childq curr ≠ []) := by
  obtain ⟨p, -, hpar, hlt⟩ := h.db.parent curr hcurr hidle
  have hpc : p ≠ curr := Nat.ne_of_lt hlt
  have hgone : (s.setPhase curr .done).Hit p SIGCHLD ↔ s.Hit p SIGCHLD := by
    show _ ∧ (if p = curr then Phase.done else s.phase p).disposed = true ↔ _
    rw [if_neg hpc]
    exact Iff.rfl
  have hdone : (s.setPhase curr .done).Inv := h.setPhase hidle
  have hcall : s.endexit curr = ((s.setPhase curr .done).notify p >>= fun u =>
      if u.db.inittask = some curr ∧ 2 ≤ (u.db.childq curr).length then .error .panic
      else u.reparent curr (u.db.childq curr) >>= fun v => v.groups.sessionAt curr >>= fun i =>
        v.groups.getSession i >>= fun x =>
          (if x.leader = some curr then v.postSession SIGHUP x.pgrpq else .ok v) >>= fun w =>
            .ok (w.exited curr)) := by
    show (deref (s.db.parent curr) >>= fun p => _) = _
    rw [hpar]
    rfl
  rw [hcall]
  by_cases hhit : s.Hit p SIGCHLD
  · rw [notify_error_iff.mpr (hgone.mpr hhit)]
    exact iff_of_true rfl (.inl ⟨p, hpar, hhit⟩)
  obtain ⟨u, hu⟩ := notify_returns (mt hgone.mp hhit)
  have hpost := posted_notify hu
  have hinv := hdone.posted hpost
  have hnot : ¬ ∃ p, s.db.parent curr = some p ∧ s.Hit p SIGCHLD := by
    intro ⟨q, hq, hqh⟩
    rw [hpar] at hq
    cases hq
    exact hhit hqh
  have hself : u.db.inittask ≠ some curr := fun hi => hinit (hinv.db.inittask curr hi).1
  have hchildq : u.db.childq curr = s.db.childq curr := by rw [hpost.db]; rfl
  have hinittask : u.db.inittask = s.db.inittask := by rw [hpost.db]; rfl
  rw [hu]
  show (if u.db.inittask = some curr ∧ _ then _ else _) = _ ↔ _
  rw [if_neg fun hc => hself hc.1, hchildq]
  -- the task itself has no signal vector any more, and is no zombie yet
  have htail : ∀ v, u.reparent curr (s.db.childq curr) = .ok v →
      ((v.groups.sessionAt curr >>= fun i => v.groups.getSession i >>= fun x =>
        (if x.leader = some curr then v.postSession SIGHUP x.pgrpq else .ok v) >>= fun w =>
          .ok (w.exited curr)) = .error .disposed ↔ s.groups.leads curr) := by
    intro v hv
    obtain ⟨hinv', hh⟩ := hinv.reparent hidle hchildq (fun hi => absurd hi hself) hv
    have hcalm := hpost.toCalm.trans hh.toCalm
    have hall : v.db.alltaskq = s.db.alltaskq := by
      rw [hh.alltaskq, hpost.db]
      rfl
    have hz : (v.sig curr).state ≠ .zombie := by
      intro hz
      have hzs : (s.sig curr).state = .zombie := (hcalm.zombie curr).mp hz
      rw [hrun] at hzs
      cases hzs
    have hphase : v.phase curr = .done := by
      rw [hcalm.phase]
      exact if_pos rfl
    rw [hinv'.hangup_error_iff (hall ▸ hcurr) hidle hinit hz hphase, hcalm.groups]
    rfl
  cases hi : s.db.inittask with
  | none =>
      cases hchildren : s.db.childq curr with
      | nil =>
          rw [hchildren] at htail
          show (u.groups.sessionAt curr >>= fun i => _) = _ ↔ _
          rw [htail u rfl]
          constructor
          · intro hl
            exact .inr ⟨hl, fun hc => hc.2 rfl⟩
          · intro hor
            exact (hor.resolve_left (hpar ▸ hnot)).1
      | cons c l =>
          rw [reparent_panics (hinittask.trans hi)]
          refine iff_of_false (fun h => by cases h) fun hor => ?_
          exact (hor.resolve_left hnot).2 ⟨rfl, (fun h => by cases h)⟩
  | some i =>
      have hii := (h.db.inittask i hi).1
      have hne : i ≠ curr := fun heq => hinit (heq ▸ hii)
      have hkeeps : (u.phase i).disposed = false := by
        rw [hpost.phase]
        show (if i = curr then Phase.done else s.phase i).disposed = false
        rw [if_neg hne, hii]
        exact Phase.disposed_of_exits hstay
      obtain ⟨v, hv⟩ := reparent_returns (hinittask.trans hi) hkeeps
      rw [hv]
      show (v.groups.sessionAt curr >>= fun i => _) = _ ↔ _
      rw [htail v hv]
      constructor
      · intro hl
        exact .inr ⟨hl, fun hc => nomatch hc.1⟩
      · intro hor
        exact (hor.resolve_left hnot).1

/-! ## Runs -/

/-- No signal is for a task that has disposed of its signal vector, nobody stops under a
parent that has, and no session leader comes to the end of `doexit`. -/
def Spares (s : Proc) : ProcEvent → Prop
  | .key tty signo => validsig signo = true → ∀ i x g q,
      s.groups.ttyfg tty = .ok (some (i, x, g)) → s.groups.pgrp g = some q →
      ∀ t ∈ q.taskq, ¬ s.Hit t signo
  | .kill curr perm pid signo => s.calls curr = true → validsig signo = true → ∀ l,
      s.targets curr pid = .ok (some l) → ∀ t ∈ l, s.Allowed curr perm t signo → ¬ s.Hit t signo
  | .stop curr _ => s.calls curr = true →
      ∀ p, s.db.parent curr = some p → (s.phase p).disposed = false
  | .lost curr => s.runs curr .losing = true →
      (∀ p, s.db.parent curr = some p → ¬ s.Hit p SIGCHLD) ∧
      (s.groups.leads curr → s.db.inittask = none ∧ s.db.childq curr ≠ [])
  | _ => True

theorem guard_error_iff {c : Bool} {x : Except Fault Proc} :
    guard c x = .error .disposed ↔ c = true ∧ x = .error .disposed := by
  unfold guard
  split
  · next hc => exact ⟨fun h => ⟨hc, h⟩, fun h => h.2⟩
  · next hc => exact iff_of_false (fun h => by cases h) fun h => hc h.1

theorem bind_pure_error_iff {α β : Type} {x : Except Fault α} {f : α → β} {e : Fault} :
    (x >>= fun a => .ok (f a)) = .error e ↔ x = .error e := by
  rw [bind_error]
  constructor
  · rintro (h | ⟨a, -, h⟩)
    · exact h
    · cases h
  · exact .inl

theorem Inv.step_spares_iff {a : ProcEvent} (h : s.Inv)
    (hinit : (s.phase init).exits = false) : s.outcome a ≠ .error .disposed ↔ s.Spares a := by
  cases a with
  | key tty signo =>
      show s.notifyfg tty signo ≠ _ ↔ _
      rw [Ne, notifyfg_error_iff]
      constructor
      · intro hnot hv i x g q hfg hq t ht hhit
        exact hnot ⟨hv, i, x, g, q, hfg, hq, t, ht, hhit⟩
      · intro hall ⟨hv, i, x, g, q, hfg, hq, t, ht, hhit⟩
        exact hall hv i x g q hfg hq t ht hhit
  | kill curr perm pid signo =>
      show guard _ (s.syskill curr perm pid signo >>= fun r => .ok r.2) ≠ _ ↔ _
      rw [Ne, guard_error_iff, bind_pure_error_iff]
      constructor
      · intro hnot hc hv l hl t ht hall hhit
        exact hnot ⟨hc, (h.syskill_error_iff (calls_iff.mp hc).1).mpr
          ⟨hv, l, hl, t, ht, hall, hhit⟩⟩
      · intro hspares ⟨hc, herr⟩
        obtain ⟨hv, l, hl, t, ht, hall, hhit⟩ :=
          (h.syskill_error_iff (calls_iff.mp hc).1).mp herr
        exact hspares hc hv l hl t ht hall hhit
  | stop curr signo =>
      show guard _ (s.stop curr signo) ≠ _ ↔ _
      rw [Ne, guard_error_iff, stop_error_iff]
      constructor
      · intro hnot hc p hp
        exact eq_false_iff.mpr fun hd => hnot ⟨hc, p, hp, hd⟩
      · intro hall ⟨hc, p, hp, hd⟩
        exact eq_false_iff.mp (hall hc p hp) hd
  | lost curr =>
      show guard _ (s.endexit curr) ≠ _ ↔ _
      rw [Ne, guard_error_iff]
      have hiff : s.runs curr .losing = true → (s.endexit curr = .error .disposed ↔
          (∃ p, s.db.parent curr = some p ∧ s.Hit p SIGCHLD) ∨
          s.groups.leads curr ∧ ¬ (s.db.inittask = none ∧ s.db.childq curr ≠ [])) := by
        intro hc
        obtain ⟨hmem, hrun, hphase⟩ := runs_iff.mp hc
        apply h.endexit_error_iff hmem (h.ne_idle hphase (fun h => by cases h)) _ hrun hinit
        intro heq
        rw [heq] at hphase
        rw [hphase] at hinit
        cases hinit
      constructor
      · intro hnot hc
        refine ⟨fun p hp hhit => hnot ⟨hc, (hiff hc).mpr (.inl ⟨p, hp, hhit⟩)⟩, fun hl => ?_⟩
        by_contra hno
        exact hnot ⟨hc, (hiff hc).mpr (.inr ⟨hl, hno⟩)⟩
      · intro hspares ⟨hc, herr⟩
        obtain ⟨hparent, hleader⟩ := hspares hc
        rcases (hiff hc).mp herr with ⟨p, hp, hhit⟩ | ⟨hl, hno⟩
        · exact hparent p hp hhit
        · exact hno (hleader hl)
  | alarm t =>
      refine iff_of_true (guard_ne (fun h => by cases h) fun hc herr => ?_) trivial
      obtain ⟨-, -, hd⟩ := post_error_iff.mp herr
      rw [and_eq_true] at hc
      cases hph : s.phase t with
      | user | waitpid | closing => rw [hph] at hd; cases hd
      | losing => rw [hph] at hc; cases hc.2
      | done => rw [hph] at hc; cases hc.2
  | tiocgpgrp t tty =>
      refine iff_of_true (guard_ne (fun h => by cases h) fun _ => bind_ne
        (bind_ne ttyfg_ne fun o _ => ?_) fun _ _ h => by cases h) trivial
      split
      · exact fun h => by cases h
      · exact bind_ne getPgrp_ne fun _ _ h => by cases h
  | tiocspgrp t tty pgid =>
      refine iff_of_true (guard_ne (fun h => by cases h) fun _ => bind_ne
        (bind_ne ttyfg_ne fun o _ => ?_) fun _ _ h => by cases h) trivial
      split
      · exact fun h => by cases h
      · refine bind_ne (ne_of_returns (h.findpgrp_returns pgid)) fun g _ => ?_
        split
        · exact fun h => by cases h
        · exact fun h => by cases h
  | _ => exact iff_of_true (h.plain_ne (fun h => by cases h) (fun h => by cases h) rfl) trivial

end Proc

end Unixlite.Kern
