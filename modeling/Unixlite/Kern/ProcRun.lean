import Unixlite.Kern.ProcInv
import Unixlite.Verified.ParentTree

/-!
# The process tree over a run

As long as the first process stays, no task has a zombie for a parent, every chain of
parents ends at the idle task, and a parent gets the exit status of a child once
(`run_tree`).
-/

namespace Unixlite.Kern

open Unixlite.Verified.ParentTree Unixlite.Verified.Partial Unixlite.Verified.Run

namespace Proc

variable {s s' u : Proc} {t c p curr : Nat}

/-! ## The way out -/

/-- The step takes away a zombie, and returns its exit status to its parent. -/
def Reaps (s s' : Proc) (a : ProcEvent) : Prop :=
  ∃ c p, a.waiter = some p ∧ s.db.live c = true ∧ s.db.parent c = some p ∧
    (s.sig c).state = .zombie ∧ s'.db.live c = false ∧
    s'.reaped = (c, p, s.exitcode c) :: s.reaped

/-- Who exits stays on the way out, and keeps its exit status. -/
structure Advance (s s' : Proc) (a : ProcEvent) : Prop where
  phase : ∀ t, (s'.phase t).exits = true → (s.phase t).exits = true ∨ ∃ e, a = .exit t e
  zombie : ∀ t, (s'.sig t).state = .zombie →
    (s.sig t).state = .zombie ∧ s'.phase t = s.phase t ∨ s'.phase t = .done
  stop : ∀ t, (s'.phase t).exits = true → (s'.sig t).state = .stop → (s.sig t).state = .stop ∧
    (s.phase t).exits = true
  exitcode : ∀ t ∈ s.db.alltaskq, (s.phase t).exits = true → (s.sig t).state ≠ .stop →
    s'.exitcode t = s.exitcode t
  reaped : s'.reaped = s.reaped ∨ s.Reaps s' a

theorem Calm.advance (h : Calm s s') (a : ProcEvent) : Advance s s' a := by
  have huser : ∀ t, s.phase t = .user → (s.phase t).exits = true → False := by
    intro t hu he
    rw [hu] at he
    cases he
  refine ⟨fun t he => .inl (h.phase ▸ he), fun t hz => .inl ⟨(h.zombie t).mp hz, by rw [h.phase]⟩,
    fun t he hs => ?_, fun t _ he hns => ?_, .inl h.reaped⟩
  · rw [h.phase] at he
    rcases h.stop t hs with hs | hu
    · exact ⟨hs, he⟩
    · exact (huser t hu he).elim
  · rcases h.exitcode t with hsame | hs | hu
    · exact hsame
    · exact absurd hs hns
    · exact (huser t hu he).elim

/-- Neither states nor phases nor exit statuses change. -/
theorem advance_of_eq {a : ProcEvent} (hphase : s'.phase = s.phase)
    (hexit : s'.exitcode = s.exitcode) (hstate : ∀ t, (s'.sig t).state = (s.sig t).state)
    (hreaped : s'.reaped = s.reaped ∨ s.Reaps s' a) : Advance s s' a := by
  refine ⟨fun t he => .inl (hphase ▸ he), fun t hz => .inl ⟨(hstate t).symm.trans hz, by rw [hphase]⟩,
    fun t he hs => ⟨(hstate t).symm.trans hs, hphase ▸ he⟩, fun t _ _ _ => by rw [hexit],
    hreaped⟩

/-- A task goes to another phase. -/
theorem Advance.setPhase {a : ProcEvent} {ph : Phase} (h : Advance s s' a)
    (hph : ph.exits = true → (s.phase t).exits = true ∨ ∃ e, a = .exit t e)
    (hzombie : (s'.sig t).state ≠ .zombie) (hstop : ph.exits = true → (s'.sig t).state ≠ .stop) :
    Advance s (s'.setPhase t ph) a := by
  have hself : (s'.setPhase t ph).phase t = ph := if_pos rfl
  have hphase : ∀ u, u ≠ t → (s'.setPhase t ph).phase u = s'.phase u := fun u hu => if_neg hu
  refine ⟨fun u he => ?_, fun u hz => ?_, fun u he hs => ?_, h.exitcode, h.reaped⟩
  · by_cases hu : u = t
    · rw [hu, hself] at he
      rw [hu]
      exact hph he
    · rw [hphase u hu] at he
      exact h.phase u he
  · by_cases hu : u = t
    · exact absurd (hu ▸ hz) hzombie
    · rw [hphase u hu]
      exact h.zombie u hz
  · by_cases hu : u = t
    · rw [hu, hself] at he
      exact absurd (hu ▸ hs) (hstop he)
    · rw [hphase u hu] at he
      exact h.stop u he hs

theorem Inv.advance_forked {pid : BitVec 32} {g : Nat} {p : Pgrp} (h : s.Inv) (a : ProcEvent) :
    Advance s (s.forked curr pid g p) a := by
  have hphase : ∀ t, (s.forked curr pid g p).phase t =
      if t = s.db.ntask then .user else s.phase t := fun _ => rfl
  have hsig : ∀ t, (s.forked curr pid g p).sig t =
      if t = s.db.ntask then (s.sig curr).clone else s.sig t := fun _ => rfl
  refine ⟨fun t he => ?_, fun t hz => ?_, fun t he hs => ?_, fun t ht _ _ => ?_, .inl rfl⟩
  · rw [hphase] at he
    split at he
    · cases he
    · exact .inl he
  · rw [hsig] at hz
    rw [hphase]
    split at hz
    · cases hz
    · next ht =>
        rw [if_neg ht]
        exact .inl ⟨hz, rfl⟩
  · rw [hsig] at hs
    rw [hphase] at he
    split at hs
    · cases hs
    · next ht =>
        rw [if_neg ht] at he
        exact ⟨hs, he⟩
  · exact if_neg (Nat.ne_of_lt (h.db.fresh t ht))

theorem Inv.advance_waitrepeat {pid option : BitVec 32} {found : Bool} (h : s.Inv)
    (hcurr : curr ≠ idle) (hrun : (s.sig curr).state = .run)
    (hs : s.waitrepeat curr pid option found = .ok s') {a : ProcEvent}
    (ha : a.waiter = some curr) : Advance s s' a := by
  have hnot : (s.sig curr).state ≠ .zombie := by
    rw [hrun]
    exact fun h => by cases h
  rcases h.waitrepeat_cases hcurr hrun hs with
    ⟨u, ph, hpost, hph, rfl⟩ | ⟨c, groups, -, hz, -, hmem, -, hpar, rfl⟩
  · have hfalse : ph.exits ≠ true := Bool.eq_false_iff.mp hph
    exact (hpost.toCalm.advance a).setPhase (fun he => absurd he hfalse)
      (fun hz => hnot ((hpost.zombie curr).mp hz)) fun he => absurd he hfalse
  · have hsame : Advance s ({ s with reaped := (c, curr, s.exitcode c) :: s.reaped }.deleted c curr
        groups) a :=
      advance_of_eq rfl rfl (fun _ => rfl)
        (.inr ⟨c, curr, ha, (h.db.live c).mpr hmem, hpar, hz, if_pos rfl, rfl⟩)
    exact hsame.setPhase (fun h => by cases h) hnot (fun h => by cases h)

/-- The last step of `doexit`. -/
theorem Calm.advance_exited {w : Proc} (h : Calm (s.setPhase curr .done) w)
    (hexits : (s.phase curr).exits = true) (a : ProcEvent) : Advance s (w.exited curr) a := by
  have hphase : ∀ t, (w.exited curr).phase t = if t = curr then .done else s.phase t := by
    intro t
    show w.phase t = _
    rw [h.phase]
    rfl
  have hsig : ∀ t, t ≠ curr → (w.exited curr).sig t = w.sig t := fun t ht => if_neg ht
  have hself : ((w.exited curr).sig curr).state = .zombie := by
    show (if curr = curr then _ else w.sig curr : Task).state = _
    rw [if_pos rfl]
  -- nobody on the way out is in user mode
  have huser : ∀ t, (s.phase t).exits = true → (s.setPhase curr .done).phase t ≠ .user := by
    intro t he hu
    by_cases ht : t = curr
    · rw [ht] at hu
      cases (if_pos rfl).symm.trans hu
    · rw [(if_neg ht).symm.trans hu] at he
      cases he
  refine ⟨fun t he => ?_, fun t hz => ?_, fun t he hws => ?_, fun t _ he hns => ?_,
    .inl h.reaped⟩
  · rw [hphase] at he
    split at he
    · next ht => exact .inl (ht ▸ hexits)
    · exact .inl he
  · by_cases ht : t = curr
    · exact .inr ((hphase t).trans (if_pos ht))
    · rw [hsig t ht] at hz
      exact .inl ⟨(h.zombie t).mp hz, (hphase t).trans (if_neg ht)⟩
  · by_cases ht : t = curr
    · rw [ht, hself] at hws
      cases hws
    · rw [hsig t ht] at hws
      rw [hphase, if_neg ht] at he
      exact ⟨(h.stop t hws).resolve_right (huser t he), he⟩
  · exact (h.exitcode t).resolve_right fun hor => hor.elim hns (huser t he)

theorem Inv.advance_endexit (h : s.Inv) (hcurr : curr ∈ s.db.alltaskq) (hidle : curr ≠ idle)
    (hrun : (s.sig curr).state = .run) (hphase : s.phase curr = .losing)
    (hs : s.endexit curr = .ok s') (a : ProcEvent) : Advance s s' a := by
  obtain ⟨u, v, w, -, hpost, hh, -, hpw, rfl, -⟩ := h.endexit_cases hcurr hidle hrun hs
  apply ((hpost.toCalm.trans hh.toCalm).trans hpw.toCalm).advance_exited
  rw [hphase]
  rfl

/-- So does every step. -/
theorem Inv.advance {a : ProcEvent} (h : s.Inv) (hs : s.outcome a = .ok s') : Advance s s' a := by
  cases a with
  | setup t =>
      obtain ⟨-, hs⟩ := guard_ok hs
      split at hs
      · cases hs
      cases hs
      refine advance_of_eq rfl rfl (fun u => ?_) (.inl rfl)
      show (if u = t then _ else s.sig u : Task).state = _
      by_cases hu : u = t
      · rw [if_pos hu, hu]
      · rw [if_neg hu]
  | fork t ok =>
      obtain ⟨hc, hs⟩ := guard_ok hs
      have hmem : t ∈ s.db.alltaskq := by
        simp only [forks, Bool.and_eq_true] at hc
        exact (runs_iff.mp hc.1).1
      rcases h.dofork_cases hmem ok with
        ⟨-, heq⟩ | ⟨pid, -, ⟨-, heq⟩ | ⟨g, p, -, -, -, heq⟩⟩
      · rw [heq] at hs
        cases hs
      · rw [heq] at hs
        cases hs
        exact advance_of_eq rfl rfl (fun _ => rfl) (.inl rfl)
      · rw [heq] at hs
        cases hs
        exact h.advance_forked _
  | setsid | setpgid | condevOpen | tiocgpgrp | tiocspgrp =>
      obtain ⟨-, hs⟩ := guard_ok hs
      obtain ⟨r, -, hs⟩ := bind_ok hs
      cases hs
      exact advance_of_eq rfl rfl (fun _ => rfl) (.inl rfl)
  | key | kill | alarm | signals | stop | sleep | wait | wake =>
      exact (posted_of hs rfl).toCalm.advance _
  | waitpid t pid option =>
      obtain ⟨hc, hs⟩ := guard_ok hs
      obtain ⟨-, hrun, -, hidle⟩ := calls_iff.mp hc
      exact h.advance_waitrepeat hidle hrun hs rfl
  | waitwoken t =>
      dsimp only [outcome] at hs
      split at hs
      · next pid option hphase =>
          obtain ⟨hc, hs⟩ := guard_ok hs
          obtain ⟨-, hrun, -⟩ := runs_iff.mp hc
          unfold Proc.waitwoken at hs
          split at hs
          · cases hs
            refine ((posted_setWaitchldexit s t false).toCalm.advance _).setPhase
              (fun h => by cases h) ?_ (fun h => by cases h)
            show (s.sig t).state ≠ .zombie
            rw [hrun]
            exact fun h => by cases h
          · exact h.advance_waitrepeat (h.ne_idle hphase (fun h => by cases h)) hrun hs rfl
      · cases hs
  | exit t exitcode =>
      obtain ⟨hc, hs⟩ := guard_ok hs
      cases hs
      obtain ⟨-, hrun, huser, -⟩ := calls_iff.mp hc
      apply ((posted_setExitcode exitcode (.inr huser)).toCalm.advance _).setPhase
        fun _ => .inr ⟨exitcode, rfl⟩
      · show (s.sig t).state ≠ .zombie
        rw [hrun]
        exact fun h => by cases h
      · intro _
        show (s.sig t).state ≠ .stop
        rw [hrun]
        exact fun h => by cases h
  | closed t =>
      obtain ⟨hc, hs⟩ := guard_ok hs
      cases hs
      obtain ⟨-, hrun, hphase⟩ := runs_iff.mp hc
      have hsame : Advance s s (.closed t) := advance_of_eq rfl rfl (fun _ => rfl) (.inl rfl)
      apply hsame.setPhase fun _ => .inl (by rw [hphase]; rfl)
      · rw [hrun]
        exact fun h => by cases h
      · rw [hrun]
        exact fun _ h => by cases h
  | lost t =>
      obtain ⟨hc, hs⟩ := guard_ok hs
      obtain ⟨hmem, hrun, hphase⟩ := runs_iff.mp hc
      exact h.advance_endexit hmem (h.ne_idle hphase (fun h => by cases h)) hrun hphase hs _

/-! ## Runs -/

/-- Zombies are at the end of `doexit`, and who is on the way out does not stop. -/
structure Ending (s : Proc) : Prop where
  zombie : ∀ t, (s.sig t).state = .zombie → s.phase t = .done
  stop : ∀ t, (s.phase t).exits = true → (s.sig t).state ≠ .stop

theorem Ending.step {a : ProcEvent} (h : s.Ending) (hs : Advance s s' a) : s'.Ending := by
  refine ⟨fun t hz => ?_, fun t he hstop => ?_⟩
  · rcases hs.zombie t hz with ⟨hzs, hphase⟩ | hdone
    · rw [hphase]
      exact h.zombie t hzs
    · exact hdone
  · obtain ⟨hst, hes⟩ := hs.stop t he hstop
    exact h.stop t hes hst

/-- The tasks are a tree; nobody has a zombie for a parent; zombies are on their lists,
and nobody has been reaped twice. -/
structure TreeOk (s : Proc) : Prop where
  child : ∀ t, s.db.live t = true → t ≠ idle → ∃ p, s.db.parent t = some p ∧
    s.db.live p = true ∧ (s.sig p).state ≠ .zombie ∧ ∀ q, t ∈ s.db.childq q ↔ q = p
  childNodup : ∀ p, (s.db.childq p).Nodup
  tree : IsTree idle {t | s.db.live t = true} fun t => (s.db.parent t).getD idle
  mychild : ∀ curr t, s.db.live t = true → s.db.mychild curr t ≠ none
  zombie : ∀ t, s.db.live t = true → (s.sig t).state = .zombie →
    t ∈ s.db.zombietaskq ∧ t ∈ s.db.alltaskq ∧ t ∈ s.db.hashtab (s.db.hashfunc (s.db.pid t))
  once : (s.reaped.map fun r => r.1).Nodup

theorem Inv.treeOk (h : s.Inv) (hend : s.Ending) (hinit : (s.phase init).exits = false) :
    s.TreeOk := by
  have hlive := h.db.live
  refine ⟨fun t ht hne => ?_, h.db.childNodup, ?_,
    fun curr t ht => h.db.mychild ((hlive t).mp ht), fun t ht hz => ?_, h.once⟩
  · have hmem := (hlive t).mp ht
    obtain ⟨p, hp, hpar, -⟩ := h.db.parent t hmem hne
    have hc : t ∈ s.db.childq p := (h.db.child p t).mpr ⟨hpar, hmem⟩
    refine ⟨p, hpar, (hlive p).mpr hp, fun hz => ?_, fun q => ?_⟩
    · by_cases hpi : p = init
      · have hdone := hend.zombie p hz
        rw [hpi] at hdone
        rw [hdone] at hinit
        cases hinit
      · rw [h.leaf p hp hz hpi] at hc
        cases hc
    · constructor
      · intro hq
        have hpq := ((h.db.child q t).mp hq).1
        rw [hpar] at hpq
        exact (Option.some.inj hpq).symm
      · intro hq
        rw [hq]
        exact hc
  · have hroot : idle ∈ {t | s.db.live t = true} := (hlive idle).mpr h.db.idle_mem
    apply IsTree.of_lt hroot
    · rw [h.db.idleParent]
      rfl
    · intro t ht hne
      obtain ⟨p, hp, hpar, hlt⟩ := h.db.parent t ((hlive t).mp ht) hne
      rw [hpar]
      exact ⟨(hlive p).mpr hp, hlt⟩
  · have hmem := (hlive t).mp ht
    exact ⟨(h.zombieq t).mpr ⟨hmem, hz⟩, hmem, (h.db.hash _ t).mpr ⟨hmem, rfl⟩⟩

/-- A step returns at most one exit status, of a zombie child to its parent, and
changes none. -/
def Pays (s : Proc) (a : ProcEvent) : Prop :=
  ∀ s', s.outcome a = .ok s' → (s'.reaped = s.reaped ∨ s.Reaps s' a) ∧
    ∀ t, s.db.live t = true → (s.phase t).exits = true → s'.exitcode t = s.exitcode t

theorem ending_along (hmask ghmask mem : BitVec 32) (as : List ProcEvent) :
    Always step Ending (boot hmask ghmask mem) as := by
  have hinv : Always step (fun s => s.Inv ∧ s.Ending) (boot hmask ghmask mem) as :=
    always_of_step (fun s a s' h hs =>
      have hs' := step_eq_some.mp hs
      ⟨step_inv h.1 hs', h.2.step (h.1.advance hs')⟩) as
      ⟨inv_boot hmask ghmask mem, (fun _ h => by cases h), (fun _ h => by cases h)⟩
  exact hinv.mono fun s h => h.2

/-- The first process stays, if it does not exit. -/
theorem stays_along (hmask ghmask mem : BitVec 32) (as : List ProcEvent)
    (hinit : ∀ e, ProcEvent.exit init e ∉ as) :
    Always step (fun s => (s.phase init).exits = false) (boot hmask ghmask mem) as := by
  have hlabels : Each step (fun _ a => ∀ e, a ≠ .exit init e) (boot hmask ghmask mem) as :=
    each_of_forall (fun a ha e heq => hinit e (by rw [← heq]; exact ha)) _
  have hinv : Always step (fun s => s.Inv ∧ (s.phase init).exits = false)
      (boot hmask ghmask mem) as := by
    refine always_of_each (fun s a s' h ha hs => ?_) ⟨inv_boot hmask ghmask mem, rfl⟩ hlabels
    have hs' := step_eq_some.mp hs
    refine ⟨step_inv h.1 hs', Bool.eq_false_iff.mpr fun he => ?_⟩
    rcases (h.1.advance hs').phase init he with he | ⟨e, heq⟩
    · exact Bool.eq_false_iff.mp h.2 he
    · exact ha e heq
  exact hinv.mono fun s h => h.2

/-- `findtask` finds the task of a number, and `newpid` a number of no task. -/
structure Pids (s : Proc) : Prop where
  find : ∀ pid t, s.db.findtask pid = some t ↔ t ∈ s.db.alltaskq ∧ s.db.pid t = pid
  new : s.db.alltaskq.length < 2 ^ 32 →
    ∃ pid, s.db.newpid = some pid ∧ ∀ t ∈ s.db.alltaskq, s.db.pid t ≠ pid

theorem Inv.pids (h : s.Inv) : s.Pids where
  find pid t := by
    refine ⟨h.db.findtask_some, fun ⟨ht, hpid⟩ => ?_⟩
    cases hf : s.db.findtask pid with
    | none => exact absurd hpid (h.db.findtask_none hf ht)
    | some u =>
        obtain ⟨hu, hpid'⟩ := h.db.findtask_some hf
        rw [h.db.pids u hu t ht (hpid'.trans hpid.symm)]
  new hlen := by
    obtain ⟨pid, hpid⟩ := h.db.newpid_isSome hlen
    exact ⟨pid, hpid, fun t => h.db.findtask_none (Taskdb.newpid_free hpid)⟩

end Proc

end Unixlite.Kern
