import Unixlite.Dev.Tty

/-!
# What a timed wait returns

`waitsleep` returns `lefttick`, from which `timersoftisr` takes `NTICK` each time that the
wheel comes round, and nothing at all once the timer is on `below`.  So the reader of a
terminal is not told that its interval has expired, and waits again.

The history has the ticks of each wait and whether its timer has fired.  `timed_iff` says
in which runs every timed wait returns what is left of its ticks.
-/

namespace Unixlite.Dev.Tty

open Unixlite.Verified.Run Unixlite.Kern Unixlite.Lib Unixlite.Timer Option

/-! ## The history -/

/-- A timed wait: the slot of the wheel at its start, the turns of the wheel since, those
until the task was woken, and whether its timer has fired by then.  A tick has passed when
`timersoftisr` has turned the wheel. -/
structure Waited where
  cur : Nat
  turned : Nat
  passed : Nat
  fired : Bool
deriving DecidableEq

/-- The last timed wait of each task; `expired` says that an interval of its `read` is
over. -/
structure Log where
  waited : Nat → Waited
  expired : Nat → Bool

def Log.start : Log := ⟨fun _ => ⟨0, 0, 0, false⟩, fun _ => false⟩

/-- The task is about to sleep in a timed wait, or nobody has woken it. -/
def Machine.pending (m : Machine) (tid : Nat) : Bool :=
  match m.frame tid with
  | .started .. | .timedstarted _ => true
  | _ => (m.tasks tid).state != .run

namespace Log

/-- The task may start a timer. -/
def begin (g : Log) (m : Machine) (tid : Nat) : Nat → Waited :=
  fun u => if u = tid then ⟨m.wheel.cur, 0, 0, false⟩ else g.waited u

/-- What a piece of `timersoftisr` adds. -/
def wheel (g : Log) (m : Machine) : Timer.Event → Nat → Waited
  | .turn => fun u =>
      { g.waited u with
        turned := (g.waited u).turned + 1
        passed := (g.waited u).passed + if m.pending u then 1 else 0 }
  | .fire => fun u =>
      { g.waited u with
        fired := (g.waited u).fired || m.alarm == some u && m.pending u }
  | _ => g.waited

def expire (g : Log) (tid : Nat) (b : Bool) : Nat → Bool :=
  fun u => if u = tid then b else g.expired u

end Log

def log (m : Machine) (e : Event) (m' : Machine) (g : Log) : Log :=
  match e with
  | .sleep tid _ _ | .wait tid _ _ => { g with waited := g.begin m tid }
  | .read tid _ => { g with expired := g.expire tid false }
  | .go tid =>
      match (m.frame tid).ntick, m'.frame tid with
      | some _, _ => g
      -- a character that is stored starts the interval again
      | none, .loop _ => { waited := g.begin m tid, expired := g.expire tid false }
      | none, _ => { g with waited := g.begin m tid }
  | .resume tid =>
      match m.frame tid with
      | .timedwait _ => { g with expired := g.expire tid (g.expired tid || (g.waited tid).fired) }
      | _ => g
  | .wheel e => { g with waited := g.wheel m e }
  | _ => g

/-! ## The claim -/

/-- The value that a timed wait has returned is `ntick` without the ticks that passed until
the task was woken, and 0 when the timer has fired by then and only then.  The task is on
no wait queue, its timer on no timer queue. -/
structure Told (r : Ret) (m : Machine) (w : Waited) : Prop where
  value : r.value = r.ntick - w.passed
  zero : r.value = 0 ↔ w.fired = true
  waitq : ∀ q, r.tid ∉ m.waitq q
  timer : m.wheel.active (timer r.tid) = false

/-- **Timed waits return what is left**, no timer is started with the period 0, and no
reader waits on in an interval that has expired. -/
structure Right (x : Machine × Log) : Prop where
  ret : ∀ r, x.1.ret = some r → Told r x.1 (x.2.waited r.tid)
  panic : x.1.panic = false
  expired : ∀ tid r, x.1.frame tid = .timedstarted r → x.2.expired tid = false

/-- The ticks until the task was woken are those of the rounds that its timer has been aged
for; and it was woken before its time, or its timer fired after one round. -/
def InTime (w : Waited) (ntick : Int) : Prop :=
  w.passed = NTICK * aged ntick.toNat w.cur w.turned ∧
    if w.fired then ntick = NTICK else w.passed < ntick

/-- Whether a task that stands there is on a wait queue, or has been. -/
def Frame.waits : Frame → Bool
  | .sleep _ | .charwait _ | .timedwait _ => true
  | _ => false

/-- The condition on a step: no task with a signal calls `wait(ntick)`, no reader comes to
a timed wait with an interval of 0, and a task that goes on from a timed wait was woken in
time. -/
def Timely (x : Machine × Log) : Event → Prop
  | .wait tid _ ntick =>
      x.1.running tid → (x.1.frame tid).isOut = true → 1 ≤ ntick →
        (x.1.tasks tid).hassig = false
  | .go tid =>
      ∀ r, x.1.frame tid = .timed r → x.1.running tid → x.1.cookedq = [] →
        (x.1.tasks tid).hassig = false ∧ r.left ≠ 0
  | .resume tid =>
      ∀ ntick, (x.1.frame tid).ntick = some ntick → (x.1.frame tid).waits = true →
        x.1.running tid → InTime (x.2.waited tid) ntick
  | _ => True

/-! ## The invariant -/

/-- The timers of the tasks: those of the tasks in timed waits have been started, and
nobody has touched them since; the others are on no queue. -/
structure Timers (w : Wheel) (f : Nat → Frame) (g : Nat → Waited) : Prop where
  wf : WF w
  off : ∀ tid, (f tid).ntick = none → w.active (timer tid) = false
  left : ∀ tid ntick, (f tid).ntick = some ntick → 1 ≤ ntick ∧
    Left (timer tid) ntick.toNat (g tid).cur (g tid).turned w
  fired : ∀ tid ntick, (f tid).ntick = some ntick → (g tid).fired = true →
    timer tid ∉ w.queue .above

/-- A task on a wait queue waits, and does not run. -/
def Queued (m : Machine) : Prop :=
  ∀ q, ∀ tid ∈ m.waitq q, (m.tasks tid).state ≠ .run ∧ (m.frame tid).waits = true

/-- `left` is an interval of tenths of a second, without some rounds of the wheel. -/
def Interval (left : Int) : Prop :=
  ∃ v i : Nat, v < 256 ∧ left = time1totick v - NTICK * i ∧ 0 ≤ left

def Frame.left : Frame → Option Int
  | .loop r | .char r | .charwait r | .timed r | .timedstarted r | .timedwait r => some r.left
  | _ => none

structure Kept (x : Machine × Log) : Prop where
  timers : Timers x.1.wheel x.1.frame x.2.waited
  queued : Queued x.1
  interval : ∀ tid left, (x.1.frame tid).left = some left → Interval left

theorem Interval.time1totick (v : BitVec 8) : Interval (Tty.time1totick v.toNat) :=
  ⟨v.toNat, 0, v.isLt, by simp, by omega⟩

/-- An interval is not a whole round of the wheel. -/
theorem Interval.ne_round {left : Int} (h : Interval left) : left ≠ NTICK := by
  obtain ⟨v, i, hv, heq, -⟩ := h
  simp only [Tty.time1totick, CLKFREQ, NTICK] at heq ⊢
  omega

/-- What aging leaves of an interval. -/
theorem Interval.aged {left : Int} (h : Interval left) (c n : Nat) :
    Interval (left - (NTICK * aged left.toNat c n : Nat)) := by
  obtain ⟨v, i, hv, heq, hnonneg⟩ := h
  have hle := aged_le left.toNat c n
  refine ⟨v, i + Timer.aged left.toNat c n, hv, ?_, by omega⟩
  rw [heq, Int.natCast_add, Int.mul_add]
  omega

/-! ### Timers -/

theorem timer_ne {tid u : Nat} (h : u ≠ tid) : timer u ≠ timer tid := by
  unfold timer
  omega

section Timers

variable {w v : Wheel} {f f' : Nat → Frame} {g g' : Nat → Waited} {tid : Nat} {ntick : Int}

/-- The tasks in timed waits stay there. -/
theorem Timers.congr (h : Timers w f g) (hf : ∀ u, (f' u).ntick = (f u).ntick)
    (hg : ∀ u ntick, (f u).ntick = some ntick → g' u = g u) : Timers w f' g' where
  wf := h.wf
  off u hu := h.off u (hf u ▸ hu)
  left u ntick hu := by
    rw [hf u] at hu
    rw [hg u ntick hu]
    exact h.left u ntick hu
  fired u ntick hu := by
    rw [hf u] at hu
    rw [hg u ntick hu]
    exact h.fired u ntick hu

/-- A task starts its timer. -/
theorem Timers.begin (h : Timers w f g) (hoff : (f tid).ntick = none) (hntick : 1 ≤ ntick)
    (hstart : w.startPeriod (timer tid) ntick = some v) (hf : (f' tid).ntick = some ntick)
    (hf' : ∀ u, u ≠ tid → f' u = f u) (hg : g' tid = ⟨w.cur, 0, 0, false⟩)
    (hg' : ∀ u, u ≠ tid → g' u = g u) : Timers v f' g' := by
  have hwf : WF v := h.wf.startPeriod hstart
  have hsame : ∀ u, u ≠ tid → Same (timer u) w v := fun u hu =>
    same_startPeriod (timer_ne hu).symm hstart
  refine ⟨hwf, fun u hu => ?_, fun u n hu => ?_, fun u n hu hfired => ?_⟩
  · have hne : u ≠ tid := by
      rintro rfl
      rw [hf] at hu
      cases hu
    rw [hf' u hne] at hu
    exact ((hsame u hne).off hwf ⟨h.wf, h.off u hu⟩).2
  · by_cases hne : u = tid
    · subst hne
      rw [hf] at hu
      cases hu
      obtain ⟨period, rfl⟩ := Int.eq_ofNat_of_zero_le (show 0 ≤ ntick by omega)
      rw [hg]
      exact ⟨hntick, left_start h.wf (h.off u hoff) hstart⟩
    · rw [hf' u hne] at hu
      rw [hg' u hne]
      exact ⟨(h.left u n hu).1, (hsame u hne).left (h.left u n hu).2⟩
  · by_cases hne : u = tid
    · rw [hne, hg] at hfired
      cases hfired
    · rw [hf' u hne] at hu
      rw [hg' u hne] at hfired
      rw [(hsame u hne).queue .above]
      exact h.fired u n hu hfired

theorem stop_active (h : WF w) (t : Nat) : (w.stop t).active t = false := by
  rw [Bool.eq_false_iff]
  intro hact
  obtain ⟨q, hq⟩ := (active_iff (h.stop t) t).mp hact
  unfold Wheel.stop at hq
  split at hq
  · exact ((mem_unlink h).mp hq).1 rfl
  · next hoff => exact hoff ((active_iff h t).mpr ⟨q, hq⟩)

theorem stop_lefttick (w : Wheel) (t : Nat) : (w.stop t).lefttick = w.lefttick := by
  unfold Wheel.stop
  split <;> rfl

/-- A task stops its timer. -/
theorem Timers.stop (h : Timers w f g) (hf : (f' tid).ntick = none)
    (hf' : ∀ u, u ≠ tid → f' u = f u) : Timers (w.stop (timer tid)) f' g := by
  have hsame : ∀ u, u ≠ tid → Same (timer u) w (w.stop (timer tid)) := fun u hu =>
    same_stop (timer_ne hu).symm w
  refine ⟨h.wf.stop _, fun u hu => ?_, fun u n hu => ?_, fun u n hu hfired => ?_⟩
  · by_cases hne : u = tid
    · rw [hne]
      exact stop_active h.wf _
    · rw [hf' u hne] at hu
      exact ((hsame u hne).off (h.wf.stop _) ⟨h.wf, h.off u hu⟩).2
  · have hne : u ≠ tid := by
      rintro rfl
      rw [hf] at hu
      cases hu
    rw [hf' u hne] at hu
    exact ⟨(h.left u n hu).1, (hsame u hne).left (h.left u n hu).2⟩
  · have hne : u ≠ tid := by
      rintro rfl
      rw [hf] at hu
      cases hu
    rw [hf' u hne] at hu
    rw [(hsame u hne).queue .above]
    exact h.fired u n hu hfired

theorem spares_timer {e : Timer.Event} (h : spares e = true) (tid : Nat) :
    Spares (timer tid) e := by
  cases e with
  | start | stop =>
      simp only [spares, beq_iff_eq] at h
      simp only [Spares, timer]
      omega
  | _ => trivial

theorem mem_of_alarm {m : Machine} (h : m.alarm = some tid) :
    timer tid ∈ m.wheel.queue (.below m.wheel.cur) := by
  obtain ⟨t, ht, heven⟩ := bind_eq_some_iff.mp h
  rw [ite_none_right_eq_some] at heven
  obtain ⟨heven, rfl⟩ : t % 2 = 0 ∧ t / 2 = tid := ⟨heven.1, some.inj heven.2⟩
  have htimer : timer (t / 2) = t := by
    unfold timer
    omega
  rw [htimer]
  exact List.mem_of_mem_head? ht

theorem Log.wheel_turned (G : Log) (m : Machine) (e : Timer.Event) (u : Nat) :
    (G.wheel m e u).cur = (G.waited u).cur ∧
      (G.wheel m e u).turned = (G.waited u).turned + turns e := by
  cases e <;> exact ⟨rfl, rfl⟩

/-- A piece of `timersoftisr`. -/
theorem Timers.wheel {m : Machine} {G : Log} {e : Timer.Event}
    (h : Timers m.wheel f G.waited) (he : spares e = true)
    (hstep : Timer.step m.wheel e = some v) : Timers v f (G.wheel m e) := by
  have hleft : ∀ u n, (f u).ntick = some n → 1 ≤ n ∧
      Left (timer u) n.toNat (G.wheel m e u).cur (G.wheel m e u).turned v := by
    intro u n hu
    obtain ⟨hcur, hturned⟩ := G.wheel_turned m e u
    rw [hcur, hturned]
    exact ⟨(h.left u n hu).1, left_step h.wf (h.left u n hu).2 (spares_timer he u) hstep⟩
  refine ⟨step_wf h.wf hstep, fun u hu => ?_, hleft, fun u n hu hfired => ?_⟩
  · exact (off_step ⟨h.wf, h.off u hu⟩ (spares_timer he u) hstep).2.2
  · -- a timer that is off `above` does not get back there
    have hold : timer u ∉ m.wheel.queue .above := by
      have hbefore : (G.waited u).fired = true → timer u ∉ m.wheel.queue .above := h.fired u n hu
      cases e with
      | fire =>
          simp only [Log.wheel, Bool.or_eq_true, Bool.and_eq_true, beq_iff_eq] at hfired
          rcases hfired with hfired | ⟨halarm, -⟩
          · exact hbefore hfired
          · intro habove
            cases h.wf.disjoint habove (mem_of_alarm halarm)
      | _ => exact hbefore hfired
    obtain ⟨hcur, hturned⟩ := G.wheel_turned m e u
    rw [(h.left u n hu).2.above] at hold
    rw [(hleft u n hu).2.above, hcur, hturned]
    have hmono : ((G.waited u).cur + (G.waited u).turned) / NTICK ≤
        ((G.waited u).cur + ((G.waited u).turned + turns e)) / NTICK :=
      Nat.div_le_div_right (by omega)
    omega

end Timers

/-! ### Wait queues -/

section Queued

variable {m : Machine} {tid : Nat}

/-- A task that runs is on no wait queue. -/
theorem Queued.not_mem (h : Queued m) (hrun : (m.tasks tid).state = .run) (q : Nat) :
    tid ∉ m.waitq q := fun hmem => (h q tid hmem).1 hrun

theorem Queued.become (h : Queued m) (tid : Nat) (t : Task) : Queued (m.become tid t) := by
  intro q u hu
  simp only [Machine.become] at hu ⊢
  by_cases hrun : t.state = .run
  · rw [if_pos hrun, List.mem_filter, decide_eq_true_eq] at hu
    rw [if_neg hu.2]
    exact h q u hu.1
  · rw [if_neg hrun] at hu
    refine ⟨?_, (h q u hu).2⟩
    split
    · exact hrun
    · exact (h q u hu).1

theorem Queued.broadcast (h : Queued m) (q : Nat) : Queued (m.broadcast q) := by
  have hfold : ∀ (us : List Nat) (m : Machine), Queued m → Queued (us.foldl Machine.wakeup m) := by
    intro us
    induction us with
    | nil => exact fun _ h => h
    | cons u us ih => exact fun m h => ih _ (h.become u _)
  exact hfold _ m h

/-- A task that runs goes to another place. -/
theorem Queued.goto (h : Queued m) (hrun : (m.tasks tid).state = .run) (f : Frame) :
    Queued (m.goto tid f) := by
  intro q u hu
  have hne : u ≠ tid := by
    rintro rfl
    exact h.not_mem hrun q hu
  obtain ⟨hstate, hwaits⟩ := h q u hu
  exact ⟨hstate, by simpa [Machine.goto, hne] using hwaits⟩

/-- A task that runs goes to sleep. -/
theorem Queued.enqtail (h : Queued m) (tid q : Nat) (state : Asleep) {f : Frame}
    (hf : f.waits = true) : Queued (m.enqtail tid q state f) := by
  intro i u hu
  by_cases hne : u = tid
  · subst hne
    simpa [Machine.enqtail, Machine.goto, hf] using state.property
  · have hold : u ∈ m.waitq i := by
      simp only [Machine.enqtail, Machine.goto] at hu
      split at hu
      · next hi =>
        rw [List.mem_append, List.mem_singleton] at hu
        exact hi ▸ hu.resolve_right hne
      · exact hu
    simpa [Machine.enqtail, Machine.goto, hne] using h i u hold

end Queued

/-! ## One step -/

section Moves

variable {m m' : Machine} {tid : Nat}

/-- The task goes on at `f`, and not in a timed wait. -/
structure Moved (m : Machine) (tid : Nat) (f : Frame) (m' : Machine) : Prop where
  eq : ∃ cookedq result, m' = { m.goto tid f with cookedq := cookedq, result := result }
  test : ∀ r, m.frame tid = .timed r → m.cookedq ≠ []
  before : (m.frame tid).ntick = none
  after : f.ntick = none
  left : ∀ left, f.left = some left →
    (m.frame tid).left = some left ∨ left = time1totick m.vtime.toNat

/-- `broadcast` is about the tasks and their queue. -/
theorem broadcast_spec (m : Machine) (q : Nat) :
    (m.broadcast q).wheel = m.wheel ∧ (m.broadcast q).frame = m.frame ∧
      (m.broadcast q).panic = m.panic ∧ (m.broadcast q).ret = m.ret := by
  unfold Machine.broadcast
  generalize m.waitq q = us
  induction us generalizing m with
  | nil => exact ⟨rfl, rfl, rfl, rfl⟩
  | cons u us ih => exact ih (m.wakeup u)

/-- **What a test of the reader does**: it starts a timed wait, or finds a signal before
it; the task goes to sleep; or it goes on at another place. -/
theorem go_cases (h : m.go tid = some m') :
    (∃ r, m.frame tid = .timed r ∧ m.cookedq = [] ∧ (m.tasks tid).hassig = false ∧
        m' = m.waitsleep tid r.left (.timedstarted r)) ∨
      (∃ r, m.frame tid = .timed r ∧ m.cookedq = [] ∧ (m.tasks tid).hassig = true ∧
        m' = { m.leave tid EINTR with ret := some ⟨tid, r.left, 0⟩ }) ∨
      (∃ q state f, f.waits = true ∧ f.ntick = (m.frame tid).ntick ∧
        f.left = (m.frame tid).left ∧ m' = m.enqtail tid q state f) ∨
      ∃ f, Moved m tid f m' := by
  unfold Machine.go at h
  split at h
  · next cookedq r hframe =>
    have hmoved : ∀ f, f.ntick = none → (∀ left, f.left = some left → left = r.left) →
        (∃ cookedq result, m' = { m.goto tid f with cookedq := cookedq, result := result }) →
          Moved m tid f m' := by
      intro f hf hleft heq
      refine ⟨heq, by simp [hframe], by rw [hframe]; rfl, hf, fun left hl => .inl ?_⟩
      rw [hframe, hleft left hl]
      rfl
    refine .inr (.inr (.inr ?_))
    split at h
    · cases h
      exact ⟨.out, hmoved _ rfl (by simp [Frame.left]) ⟨_, _, rfl⟩⟩
    split at h
    · cases h
      exact ⟨.loop _, hmoved _ rfl (by simp [Frame.left]) ⟨_, _, rfl⟩⟩
    · split_ifs at h
      · cases h
        exact ⟨.out, hmoved _ rfl (by simp [Frame.left]) ⟨_, _, rfl⟩⟩
      · cases h
        exact ⟨.char r, hmoved _ rfl (by simp [Frame.left]) ⟨_, _, rfl⟩⟩
      · cases h
        exact ⟨.timed r, hmoved _ rfl (by simp [Frame.left]) ⟨_, _, rfl⟩⟩
  · next r c cookedq hframe hcooked =>
    cases h
    exact .inr (.inr (.inr ⟨.loop _, ⟨_, _, rfl⟩, by simp [hframe], by rw [hframe]; rfl, rfl,
      by simp [Frame.left, hframe]⟩))
  · next r hframe hcooked =>
    split at h
    · cases h
      exact .inr (.inr (.inr ⟨.out, ⟨_, _, rfl⟩, by simp [hframe], by rw [hframe]; rfl, rfl,
        by simp [Frame.left]⟩))
    · cases h
      refine .inr (.inr (.inl ⟨_, _, _, rfl, ?_, ?_, rfl⟩))
      · rw [hframe]
        rfl
      · rw [hframe]
        rfl
  · next r c cookedq hframe hcooked =>
    have hmoved : ∀ f, f.ntick = none →
        (∀ left, f.left = some left → left = r.left ∨ left = time1totick m.vtime.toNat) →
        (∃ cookedq result, m' = { m.goto tid f with cookedq := cookedq, result := result }) →
          Moved m tid f m' := by
      intro f hf hleft heq
      refine ⟨heq, by simp [hcooked], by rw [hframe]; rfl, hf, fun left hl => ?_⟩
      rw [hframe]
      exact (hleft left hl).imp_left fun heq => by rw [heq, Frame.left]
    refine .inr (.inr (.inr ?_))
    dsimp only at h
    split_ifs at h
    · cases h
      exact ⟨.out, hmoved _ rfl (by simp [Frame.left]) ⟨_, _, rfl⟩⟩
    · cases h
      exact ⟨.loop _, hmoved _ rfl (by simp [Frame.left]) ⟨_, _, rfl⟩⟩
    · cases h
      exact ⟨.loop _, hmoved _ rfl (by simp [Frame.left]) ⟨_, _, rfl⟩⟩
  · next r hframe hcooked =>
    split at h
    · next hsig =>
      cases h
      exact .inr (.inl ⟨r, hframe, hcooked, hsig, rfl⟩)
    · next hsig =>
      cases h
      exact .inl ⟨r, hframe, hcooked, by simpa using hsig, rfl⟩
  · next r hframe =>
    cases h
    refine .inr (.inr (.inl ⟨_, _, _, rfl, ?_, ?_, rfl⟩))
    · rw [hframe]
      rfl
    · rw [hframe]
      rfl
  · next q state ntick hframe =>
    cases h
    refine .inr (.inr (.inl ⟨_, _, _, rfl, ?_, ?_, rfl⟩))
    · rw [hframe]
      rfl
    · rw [hframe]
      rfl
  · cases h

/-- The test of a reader that nobody has written a character for. -/
theorem go_timed {r : Reading} (hframe : m.frame tid = .timed r) (hcooked : m.cookedq = []) :
    m.go tid =
      if (m.tasks tid).hassig then
        some { m.leave tid EINTR with ret := some ⟨tid, r.left, 0⟩ }
      else some (m.waitsleep tid r.left (.timedstarted r)) := by
  simp only [Machine.go, hframe, hcooked]

theorem resume_isSome (h : (m.frame tid).waits = true) : ∃ m', m.resume tid = some m' := by
  unfold Machine.resume
  cases hframe : m.frame tid with
  | sleep ntick => exact ⟨_, rfl⟩
  | charwait | timedwait =>
      dsimp only
      split
      · exact ⟨_, rfl⟩
      · exact ⟨_, rfl⟩
  | _ =>
      rw [hframe] at h
      cases h

/-- **What a task that goes on does**: it comes back from a timed wait, or from the other
one. -/
theorem resume_cases (h : m.resume tid = some m') :
    (∃ ntick f result, (m.frame tid).ntick = some ntick ∧ (m.frame tid).waits = true ∧
        f.ntick = none ∧ m' = { (m.woken tid ntick).goto tid f with result := result } ∧
        ∀ left, f.left = some left → (m.frame tid).left = some ntick ∧
          left = m.wheel.lefttick (timer tid)) ∨
      ∃ f result, (m.frame tid).ntick = none ∧ f.ntick = none ∧
        m' = { m.goto tid f with result := result } ∧
        ∀ left, f.left = some left → (m.frame tid).left = some left := by
  unfold Machine.resume at h
  split at h
  · next ntick hframe =>
    cases h
    exact .inl ⟨ntick, .out, _, by rw [hframe]; rfl, by rw [hframe]; rfl, rfl, rfl,
      by simp [Frame.left]⟩
  · next r hframe =>
    split at h
    · cases h
      exact .inr ⟨.out, _, by rw [hframe]; rfl, rfl, rfl, by simp [Frame.left]⟩
    · cases h
      exact .inr ⟨.char r, _, by rw [hframe]; rfl, rfl, rfl, by simp [Frame.left, hframe]⟩
  · next r hframe =>
    dsimp only at h
    split at h
    · cases h
      exact .inl ⟨r.left, .out, _, by rw [hframe]; rfl, by rw [hframe]; rfl, rfl, rfl,
        by simp [Frame.left]⟩
    · cases h
      exact .inl ⟨r.left, .timed _, _, by rw [hframe]; rfl, by rw [hframe]; rfl, rfl, rfl,
        by simp [Frame.left, hframe]⟩
  · cases h

/-- A period of 0 fails the assertion, and no other does. -/
theorem startPeriod_eq_none {w : Wheel} {t : Nat} {period : Int} (ht : w.active t = false) :
    w.startPeriod t period = none ↔ period = 0 := by
  have hact : Wheel.active { w with period := Function.update w.period t period } t = false := ht
  simp only [Wheel.startPeriod, Wheel.start, hact, Function.update_self, Bool.false_eq_true,
    if_false]
  split
  · next hzero => exact iff_of_true rfl hzero
  · next hne =>
    split
    · exact iff_of_false (by simp) hne
    · exact iff_of_false (by simp) hne

end Moves

section Kept

variable {m m' : Machine} {g g' : Log} {tid : Nat} {f : Frame}

/-- What the invariant speaks of has not changed. -/
theorem Kept.of_same (h : Kept (m, g)) (hwheel : m'.wheel = m.wheel) (htasks : m'.tasks = m.tasks)
    (hwaitq : m'.waitq = m.waitq) (hframe : m'.frame = m.frame) (hg : g'.waited = g.waited) :
    Kept (m', g') where
  timers := by
    show Timers m'.wheel m'.frame g'.waited
    rw [hwheel, hframe, hg]
    exact h.timers
  queued := by
    show ∀ q, ∀ tid ∈ m'.waitq q, _
    rw [hwaitq, htasks, hframe]
    exact h.queued
  interval := by
    show ∀ tid left, (m'.frame tid).left = some left → _
    rw [hframe]
    exact h.interval

/-- The history of a task that is not in a timed wait. -/
theorem Kept.begin (h : Kept (m, g)) (hbefore : (m.frame tid).ntick = none)
    (hg : ∀ u, u ≠ tid → g'.waited u = g.waited u) : Kept (m, g') := by
  refine ⟨h.timers.congr (fun _ => rfl) fun u n hu => hg u ?_, h.queued, h.interval⟩
  rintro rfl
  rw [hbefore] at hu
  cases hu

theorem goto_ne {u : Nat} (hu : u ≠ tid) : (m.goto tid f).frame u = m.frame u := if_neg hu

theorem goto_self : (m.goto tid f).frame tid = f := if_pos rfl

/-- A new place for the intervals. -/
theorem Kept.interval_goto (h : Kept (m, g)) (hf : ∀ left, f.left = some left → Interval left)
    (u : Nat) (left : Int) (hu : ((m.goto tid f).frame u).left = some left) : Interval left := by
  by_cases hne : u = tid
  · rw [hne, goto_self] at hu
    exact hf left hu
  · rw [goto_ne hne] at hu
    exact h.interval u left hu

/-- A task that runs goes to another place, with the timer that it has. -/
theorem Kept.goto (h : Kept (m, g)) (hrun : (m.tasks tid).state = .run)
    (hntick : f.ntick = (m.frame tid).ntick) (hleft : ∀ left, f.left = some left → Interval left)
    (hg : ∀ u ntick, (m.frame u).ntick = some ntick → g'.waited u = g.waited u) :
    Kept (m.goto tid f, g') where
  timers := by
    refine h.timers.congr (fun u => ?_) hg
    by_cases hne : u = tid
    · rw [hne, goto_self, hntick]
    · rw [goto_ne hne]
  queued := h.queued.goto hrun f
  interval := h.interval_goto hleft

/-- A task that runs goes to sleep. -/
theorem Kept.enqtail (h : Kept (m, g)) (hrun : (m.tasks tid).state = .run) (q : Nat)
    (state : Asleep) (hwaits : f.waits = true) (hntick : f.ntick = (m.frame tid).ntick)
    (hleft : ∀ left, f.left = some left → Interval left)
    (hg : ∀ u ntick, (m.frame u).ntick = some ntick → g'.waited u = g.waited u) :
    Kept (m.enqtail tid q state f, g') :=
  let h' : Kept (m.goto tid f, g') := h.goto hrun hntick hleft hg
  ⟨h'.timers, h.queued.enqtail tid q state hwaits, h'.interval⟩

/-- **A task starts the timer of a timed wait**, or the assertion fails. -/
theorem Kept.waitsleep (h : Kept (m, g)) (hrun : (m.tasks tid).state = .run) {ntick : Int}
    (hntick : 0 ≤ ntick) (hbefore : (m.frame tid).ntick = none)
    (hafter : f.ntick = some ntick) (hleft : ∀ left, f.left = some left → Interval left)
    (hself : g'.waited tid = ⟨m.wheel.cur, 0, 0, false⟩)
    (hg : ∀ u, u ≠ tid → g'.waited u = g.waited u) :
    Kept (m.waitsleep tid ntick f, g') := by
  unfold Machine.waitsleep
  split
  · exact (h.begin hbefore hg).of_same rfl rfl rfl rfl rfl
  · next wheel hwheel =>
    have hne : ntick ≠ 0 := fun hzero => by
      rw [(startPeriod_eq_none (h.timers.off tid hbefore)).mpr hzero] at hwheel
      cases hwheel
    exact ⟨h.timers.begin hbefore (by omega) hwheel (goto_self.symm ▸ hafter)
      (fun u hu => goto_ne hu) hself hg, h.queued.goto hrun f, h.interval_goto hleft⟩

/-- **A task comes back from a timed wait.** -/
theorem Kept.woken (h : Kept (m, g)) (hrun : (m.tasks tid).state = .run) {ntick : Int}
    (hafter : f.ntick = none) (hleft : ∀ left, f.left = some left → Interval left)
    (hg : g'.waited = g.waited) : Kept ((m.woken tid ntick).goto tid f, g') where
  timers := by
    show Timers _ _ g'.waited
    rw [hg]
    exact h.timers.stop (goto_self.symm ▸ hafter) fun u hu => goto_ne hu
  queued := h.queued.goto hrun f
  interval := h.interval_goto hleft

/-- What is left when a task comes back. -/
theorem Kept.lefttick (h : Kept (m, g)) {ntick : Int} (hframe : (m.frame tid).ntick = some ntick) :
    m.wheel.lefttick (timer tid) =
      ntick - (NTICK * aged ntick.toNat (g.waited tid).cur (g.waited tid).turned : Nat) := by
  obtain ⟨hone, hleft⟩ := h.timers.left tid ntick hframe
  have hnat : (ntick.toNat : Int) = ntick := Int.toNat_of_nonneg (by omega)
  rw [hleft.lefttick, hnat]

/-- **A timed wait returns what is left** exactly when its task was woken in time. -/
theorem Kept.told_iff (h : Kept (m, g)) (hrun : (m.tasks tid).state = .run) {ntick : Int}
    (hframe : (m.frame tid).ntick = some ntick) (hwheel : m'.wheel = m.wheel.stop (timer tid))
    (hwaitq : m'.waitq = m.waitq) :
    Told ⟨tid, ntick, m.wheel.lefttick (timer tid)⟩ m' (g.waited tid) ↔
      InTime (g.waited tid) ntick := by
  obtain ⟨hone, hleft⟩ := h.timers.left tid ntick hframe
  have hvalue := h.lefttick hframe
  have hle := aged_le ntick.toNat (g.waited tid).cur (g.waited tid).turned
  have hlast : (g.waited tid).fired = true →
      (NTICK * aged ntick.toNat (g.waited tid).cur (g.waited tid).turned = ntick.toNat ↔
        ntick.toNat = NTICK) := by
    intro hfired
    have hoff := h.timers.fired tid ntick hframe hfired
    rw [hleft.above] at hoff
    exact aged_last (Nat.le_of_not_lt hoff) (by omega)
  constructor
  · rintro ⟨hpassed, hzero, -, -⟩
    dsimp only at hpassed hzero
    refine ⟨by omega, ?_⟩
    split
    · next hfired =>
      have := (hlast hfired).mp (by have := hzero.mpr hfired; omega)
      omega
    · next hfired =>
      have hne := mt hzero.mp hfired
      omega
  · rintro ⟨hpassed, htime⟩
    refine ⟨?_, ?_, fun q => ?_, ?_⟩
    · dsimp only
      rw [hvalue, hpassed]
    · dsimp only
      split at htime
      · next hfired =>
        have := (hlast hfired).mpr (by omega)
        exact iff_of_true (by omega) hfired
      · next hfired => exact iff_of_false (by omega) hfired
    · rw [hwaitq]
      exact h.queued.not_mem hrun q
    · rw [hwheel]
      exact stop_active h.timers.wf _

theorem Log.begin_self : g.begin m tid tid = ⟨m.wheel.cur, 0, 0, false⟩ := if_pos rfl

theorem Log.begin_ne {u : Nat} (hu : u ≠ tid) : g.begin m tid u = g.waited u := if_neg hu

theorem log_go (hbefore : (m.frame tid).ntick = none) :
    (log m (.go tid) m' g).waited = g.begin m tid := by
  simp only [log]
  rw [hbefore]
  split
  · next heq => cases heq
  · rfl
  · rfl

/-- A test leaves the waits alone that have begun. -/
theorem log_go_begun {u : Nat} {ntick : Int} (hu : (m.frame u).ntick = some ntick) :
    (log m (.go tid) m' g).waited u = g.waited u := by
  cases hbefore : (m.frame tid).ntick with
  | none =>
      have hne : u ≠ tid := by
        rintro rfl
        rw [hbefore] at hu
        cases hu
      rw [log_go hbefore, Log.begin_ne hne]
  | some n => simp only [log, hbefore]

theorem log_resume : (log m (.resume tid) m' g).waited = g.waited := by
  simp only [log]
  split
  · rfl
  · rfl

end Kept

theorem isOut_iff {f : Frame} : f.isOut = true ↔ f = .out := by
  cases f <;> simp [Frame.isOut]

/-- **What every step keeps.** -/
theorem Kept.step {x y : Machine × Log} {e : Event} (h : Kept x)
    (hstep : ghost step log x e = some y) : Kept y := by
  obtain ⟨hm, hg⟩ := ghost_eq_some.mp hstep
  obtain ⟨m₀, g⟩ := x
  obtain ⟨m', g'⟩ := y
  dsimp only at hm hg
  subst hg
  unfold Tty.step at hm
  split at hm
  · cases hm
  have h' : Kept ({ m₀ with ret := none, result := none }, g) := h.of_same rfl rfl rfl rfl rfl
  cases e with
  | sleep tid q ntick =>
      simp only [next, ite_none_right_eq_some, some.injEq, isOut_iff] at hm
      obtain ⟨⟨hrun, hout, hone⟩, rfl⟩ := hm
      exact h'.waitsleep hrun.1 (by omega) (by rw [hout]; rfl) rfl (by simp [Frame.left])
        Log.begin_self fun u hu => Log.begin_ne hu
  | wait tid q ntick =>
      simp only [next, ite_none_right_eq_some, isOut_iff] at hm
      obtain ⟨⟨hrun, hout, hone⟩, hm⟩ := hm
      split at hm
      · cases hm
        have hbegin : Kept (_, { g with waited := g.begin m₀ tid }) :=
          h'.begin (by rw [hout]; rfl) fun u hu => Log.begin_ne hu
        exact hbegin.of_same rfl rfl rfl rfl rfl
      · cases hm
        exact h'.waitsleep hrun.1 (by omega) (by rw [hout]; rfl) rfl (by simp [Frame.left])
          Log.begin_self fun u hu => Log.begin_ne hu
  | read tid len =>
      simp only [next, ite_none_right_eq_some, some.injEq, isOut_iff] at hm
      obtain ⟨⟨hrun, hout⟩, rfl⟩ := hm
      refine h'.goto hrun.1 (by rw [hout]; rfl) (fun left hl => ?_) fun _ _ _ => rfl
      cases hl
      exact .time1totick _
  | go tid =>
      simp only [next, ite_none_right_eq_some] at hm
      obtain ⟨hrun, hm⟩ := hm
      obtain ⟨r, hframe, -, -, rfl⟩ | ⟨r, hframe, -, -, rfl⟩ |
        ⟨q, state, f, hwaits, hntick, hleft, rfl⟩ | ⟨f, hmoved⟩ := go_cases hm
      · have hbefore : (m₀.frame tid).ntick = none := by
          rw [show m₀.frame tid = .timed r from hframe]
          rfl
        have hinterval : Interval r.left := h'.interval tid r.left (by rw [hframe]; rfl)
        obtain ⟨-, -, -, -, hnonneg⟩ := id hinterval
        refine h'.waitsleep hrun.1 hnonneg hbefore rfl (fun left hl => ?_)
          (by rw [log_go hbefore, Log.begin_self]) fun u hu => by
            rw [log_go hbefore, Log.begin_ne hu]
        cases hl
        exact hinterval
      · exact (h'.goto hrun.1 (f := .out) (by rw [hframe]; rfl) (by simp [Frame.left])
          fun u n hu => log_go_begun hu).of_same rfl rfl rfl rfl rfl
      · refine h'.enqtail hrun.1 q state hwaits hntick (fun left hl => ?_)
          fun u n hu => log_go_begun hu
        exact h'.interval tid left (hleft ▸ hl)
      · obtain ⟨cookedq, result, rfl⟩ := hmoved.eq
        refine (h'.goto hrun.1 (hmoved.after.trans hmoved.before.symm) (fun left hl => ?_)
          fun u n hu => log_go_begun hu).of_same rfl rfl rfl rfl rfl
        rcases hmoved.left left hl with hold | rfl
        · exact h'.interval tid left hold
        · exact .time1totick _
  | resume tid =>
      simp only [next, ite_none_right_eq_some] at hm
      obtain ⟨hrun, hm⟩ := hm
      obtain ⟨n, f, result, hframe, hwaits, hf, rfl, hleft⟩ |
        ⟨f, result, hframe, hf, rfl, hleft⟩ := resume_cases hm
      · refine (h'.woken hrun.1 hf (fun left hl => ?_) log_resume).of_same rfl rfl rfl rfl rfl
        obtain ⟨hold, rfl⟩ := hleft left hl
        rw [h'.lefttick hframe]
        exact (h'.interval tid n hold).aged _ _
      · refine (h'.goto hrun.1 (hf.trans hframe.symm) (fun left hl => ?_)
          fun u n _ => ?_).of_same rfl rfl rfl rfl rfl
        · exact h'.interval tid left (hleft left hl)
        · rw [log_resume]
  | wheel e =>
      simp only [next, ite_none_right_eq_some] at hm
      obtain ⟨hspares, hm⟩ := hm
      obtain ⟨wheel, hwheel, hm⟩ := map_eq_some_iff.mp hm
      have hkept : Kept ({ m₀ with wheel := wheel, ret := none, result := none },
          { g with waited := g.wheel m₀ e }) :=
        ⟨h'.timers.wheel hspares hwheel, h'.queued, h'.interval⟩
      split at hm
      · rw [← hm]
        exact ⟨hkept.timers, hkept.queued.become _ _, hkept.interval⟩
      · rw [← hm]
        exact hkept
  | wakeup | post =>
      cases hm
      exact ⟨h'.timers, h'.queued.become _ _, h'.interval⟩
  | signal q =>
      cases hm
      unfold Machine.signal
      split
      · exact h'
      · exact ⟨h'.timers, h'.queued.become _ _, h'.interval⟩
  | broadcast q =>
      cases hm
      obtain ⟨hwheel, hframe, -, -⟩ :=
        broadcast_spec { m₀ with ret := none, result := none } q
      refine ⟨?_, h'.queued.broadcast q, ?_⟩
      · show Timers (Machine.broadcast _ q).wheel (Machine.broadcast _ q).frame _
        rw [hwheel, hframe]
        exact h'.timers
      · intro tid left
        rw [hframe]
        exact h'.interval tid left
  | cook | settermios =>
      cases hm
      exact h'.of_same rfl rfl rfl rfl rfl
  | other tid t =>
      simp only [next, ite_none_right_eq_some, some.injEq] at hm
      obtain ⟨-, rfl⟩ := hm
      exact ⟨h'.timers, h'.queued.become _ _, h'.interval⟩

/-! ## The condition -/

/-- An interval expires when its timer has woken the reader. -/
theorem log_expired {m m' : Machine} {g : Log} {e : Event} (hexp : ∀ u, g.expired u = false)
    (hfired : ∀ tid r, e = .resume tid → m.frame tid = .timedwait r →
      (g.waited tid).fired = false) (u : Nat) : (log m e m' g).expired u = false := by
  have hexpire : ∀ tid, g.expire tid false u = false := by
    intro tid
    unfold Log.expire
    split
    · rfl
    · exact hexp u
  cases e with
  | read tid len => exact hexpire tid
  | go tid =>
      simp only [log]
      split
      · exact hexp u
      · exact hexpire tid
      · exact hexp u
  | resume tid =>
      simp only [log]
      split
      · next r hframe =>
        rw [hexp tid, hfired tid r rfl hframe]
        exact hexpire tid
      · exact hexp u
  | _ => exact hexp u

/-- A step that returns from no timed wait. -/
theorem Right.quiet {y : Machine × Log} (hret : y.1.ret = none) (hpanic : y.1.panic = false)
    (hexp : ∀ u, y.2.expired u = false) : Right y :=
  ⟨fun r hr => (by rw [hret] at hr; cases hr), hpanic, fun tid _ _ => hexp tid⟩

theorem waitsleep_spec {m : Machine} {tid : Nat} {ntick : Int} {f : Frame}
    (hoff : m.wheel.active (timer tid) = false) (hne : ntick ≠ 0) :
    (m.waitsleep tid ntick f).ret = m.ret ∧ (m.waitsleep tid ntick f).panic = m.panic := by
  unfold Machine.waitsleep
  split
  · next hnone => exact absurd ((startPeriod_eq_none hoff).mp hnone) hne
  · exact ⟨rfl, rfl⟩

section Step

variable {x y : Machine × Log} {e : Event}

/-- **A step that meets the condition is right.** -/
theorem right_of_timely (h : Kept x) (hexp : ∀ u, x.2.expired u = false) (htimely : Timely x e)
    (hstep : ghost step log x e = some y) : Right y ∧ ∀ u, y.2.expired u = false := by
  obtain ⟨hm, hg⟩ := ghost_eq_some.mp hstep
  obtain ⟨m₀, g⟩ := x
  obtain ⟨m', g'⟩ := y
  dsimp only at hm hg hexp
  subst hg
  unfold Tty.step at hm
  split at hm
  · cases hm
  next hpanic =>
  rw [Bool.not_eq_true] at hpanic
  have h' : Kept ({ m₀ with ret := none, result := none }, g) := h.of_same rfl rfl rfl rfl rfl
  have hexp' : ∀ u, (log m₀ e m' g).expired u = false := by
    refine log_expired hexp fun tid r heq hframe => ?_
    subst heq
    simp only [next, ite_none_right_eq_some] at hm
    obtain ⟨-, hround⟩ := htimely r.left (by rw [hframe]; rfl) (by rw [hframe]; rfl) hm.1
    by_contra hfired
    rw [Bool.not_eq_false] at hfired
    rw [if_pos hfired] at hround
    exact (h.interval tid r.left (by rw [hframe]; rfl)).ne_round hround
  refine ⟨?_, hexp'⟩
  cases e with
  | sleep tid q ntick =>
      simp only [next, ite_none_right_eq_some, some.injEq, isOut_iff] at hm
      obtain ⟨⟨hrun, hout, hone⟩, rfl⟩ := hm
      have hoff := h'.timers.off tid (by rw [hout]; rfl)
      obtain ⟨hret, hpanic'⟩ := waitsleep_spec hoff (show (ntick : Int) ≠ 0 by omega)
      exact .quiet hret (hpanic'.trans hpanic) hexp'
  | wait tid q ntick =>
      simp only [next, ite_none_right_eq_some, isOut_iff] at hm
      obtain ⟨⟨hrun, hout, hone⟩, hm⟩ := hm
      rw [htimely hrun (isOut_iff.mpr hout) hone, if_neg Bool.false_ne_true] at hm
      cases hm
      have hoff := h'.timers.off tid (by rw [hout]; rfl)
      obtain ⟨hret, hpanic'⟩ := waitsleep_spec hoff (show (ntick : Int) ≠ 0 by omega)
      exact .quiet hret (hpanic'.trans hpanic) hexp'
  | read tid len =>
      simp only [next, ite_none_right_eq_some, some.injEq] at hm
      obtain ⟨-, rfl⟩ := hm
      exact .quiet rfl hpanic hexp'
  | go tid =>
      simp only [next, ite_none_right_eq_some] at hm
      obtain ⟨hrun, hm⟩ := hm
      obtain ⟨r, hframe, hcooked, hsig, rfl⟩ | ⟨r, hframe, hcooked, hsig, rfl⟩ |
        ⟨q, state, f, -, -, -, rfl⟩ | ⟨f, hmoved⟩ := go_cases hm
      · have hoff := h'.timers.off tid (by rw [hframe]; rfl)
        obtain ⟨hret, hpanic'⟩ := waitsleep_spec hoff (htimely r hframe hrun hcooked).2
        exact .quiet hret (hpanic'.trans hpanic) hexp'
      · have hnosig := (htimely r hframe hrun hcooked).1
        rw [show (m₀.tasks tid).hassig = true from hsig] at hnosig
        cases hnosig
      · exact .quiet rfl hpanic hexp'
      · obtain ⟨cookedq, result, rfl⟩ := hmoved.eq
        exact .quiet rfl hpanic hexp'
  | resume tid =>
      simp only [next, ite_none_right_eq_some] at hm
      obtain ⟨hrun, hm⟩ := hm
      obtain ⟨n, f, result, hframe, hwaits, hf, rfl, hleft⟩ |
        ⟨f, result, hframe, hf, rfl, hleft⟩ := resume_cases hm
      · refine ⟨fun r hr => ?_, hpanic, fun u _ _ => hexp' u⟩
        cases hr
        rw [log_resume]
        show Told ⟨tid, n, (m₀.wheel.stop (timer tid)).lefttick (timer tid)⟩ _ _
        rw [stop_lefttick]
        refine (h'.told_iff hrun.1 hframe ?_ ?_).mpr (htimely n hframe hwaits hrun)
        · rfl
        · rfl
      · exact .quiet rfl hpanic hexp'
  | wheel e =>
      simp only [next, ite_none_right_eq_some] at hm
      obtain ⟨-, hm⟩ := hm
      obtain ⟨wheel, -, hm⟩ := map_eq_some_iff.mp hm
      split at hm
      · rw [← hm]
        exact .quiet rfl hpanic hexp
      · rw [← hm]
        exact .quiet rfl hpanic hexp
  | signal q =>
      cases hm
      unfold Machine.signal
      split
      · exact .quiet rfl hpanic hexp
      · exact .quiet rfl hpanic hexp
  | broadcast q =>
      cases hm
      obtain ⟨-, -, hpanic', hret⟩ :=
        broadcast_spec { m₀ with ret := none, result := none } q
      exact .quiet hret (hpanic'.trans hpanic) hexp
  | other tid t =>
      simp only [next, ite_none_right_eq_some, some.injEq] at hm
      obtain ⟨-, rfl⟩ := hm
      exact .quiet rfl hpanic hexp
  | wakeup _ | post _ _ | cook _ | settermios _ _ =>
      cases hm
      exact .quiet rfl hpanic hexp

/-- **A step that does not meet the condition is wrong.** -/
theorem timely_of_right (h : Kept x) (hright : Right x)
    (hnext : ∀ y, ghost step log x e = some y → Right y) : Timely x e := by
  obtain ⟨m₀, g⟩ := x
  have h' : Kept ({ m₀ with ret := none, result := none }, g) := h.of_same rfl rfl rfl rfl rfl
  have hy : ∀ m', next { m₀ with ret := none, result := none } e = some m' →
      Right (m', log m₀ e m' g) := by
    intro m' hm
    refine hnext (m', _) (ghost_eq_some.mpr ⟨?_, rfl⟩)
    rw [Tty.step, if_neg (by rw [hright.panic]; exact Bool.false_ne_true)]
    exact hm
  -- the 0 of a task with a signal is not the end of its wait
  have hrefused : ∀ m' tid ntick, next { m₀ with ret := none, result := none } e = some m' →
      m'.ret = some ⟨tid, ntick, 0⟩ → (log m₀ e m' g).waited = g.begin m₀ tid → False := by
    intro m' tid ntick hm hret hwaited
    have hzero : ((log m₀ e m' g).waited tid).fired = true := ((hy m' hm).ret _ hret).zero.mp rfl
    rw [hwaited, Log.begin_self] at hzero
    cases hzero
  cases e with
  | wait tid q ntick =>
      intro hrun hout hone
      by_contra hsig
      rw [Bool.not_eq_false] at hsig
      refine hrefused { m₀ with ret := some ⟨tid, ntick, 0⟩, result := none } tid ntick ?_ rfl rfl
      simp only [next]
      rw [if_pos ⟨hrun, hout, hone⟩, if_pos hsig]
  | go tid =>
      intro r hframe hrun hcooked
      have hgo : next { m₀ with ret := none, result := none } (.go tid) =
          Machine.go { m₀ with ret := none, result := none } tid := if_pos hrun
      rw [go_timed (m := { m₀ with ret := none, result := none }) hframe hcooked] at hgo
      have hsig : (m₀.tasks tid).hassig = false := by
        by_contra hsig
        rw [Bool.not_eq_false] at hsig
        rw [if_pos hsig] at hgo
        refine hrefused _ tid r.left hgo rfl (log_go ?_)
        rw [show m₀.frame tid = .timed r from hframe]
        rfl
      refine ⟨hsig, fun hzero => ?_⟩
      have hoff := h'.timers.off tid (by rw [hframe]; rfl)
      rw [if_neg (by rw [hsig]; exact Bool.false_ne_true), Machine.waitsleep,
        (startPeriod_eq_none hoff).mpr hzero] at hgo
      cases (hy _ hgo).panic
  | resume tid =>
      intro ntick hframe hwaits hrun
      obtain ⟨m', hm⟩ := resume_isSome (m := { m₀ with ret := none, result := none }) hwaits
      have hnext' : next { m₀ with ret := none, result := none } (.resume tid) = some m' := by
        rw [← hm]
        exact if_pos hrun
      have hr := (hy m' hnext').ret
      obtain ⟨n, f, result, hn, -, hf, rfl, hleft⟩ | ⟨f, result, hn, hf, rfl, hleft⟩ :=
        resume_cases hm
      · rw [show (m₀.frame tid).ntick = some n from hn] at hframe
        cases hframe
        have htold := hr _ rfl
        rw [log_resume] at htold
        have hvalue : (m₀.wheel.stop (timer tid)).lefttick = m₀.wheel.lefttick := stop_lefttick _ _
        refine (h'.told_iff hrun.1 hn ?_ ?_).mp (hvalue ▸ htold)
        · rfl
        · rfl
      · rw [show (m₀.frame tid).ntick = none from hn] at hframe
        cases hframe
  | _ => trivial

end Step

/-! ## Runs -/

variable (tasks : Nat → Task) (vmin vtime : BitVec 8)

theorem kept_start : Kept (start tasks vmin vtime, .start) where
  timers := ⟨wf_init, fun _ _ => active_init _, nofun, nofun⟩
  queued := nofun
  interval := nofun

theorem right_start : Right (start tasks vmin vtime, .start) := ⟨nofun, rfl, nofun⟩

/-- Tasks that run, without signals. -/
def quiet : Nat → Task := fun _ =>
  ⟨false, false, .run, .clear, .clear, fun _ => Sigact.zero, .none⟩

/-- With VMIN 2 and VTIME 1 a reader that has one character waits 10 ticks for another. -/
def expires : List Event :=
  [.cook [65], .read 1 8, .go 1, .go 1, .go 1, .go 1] ++
    (List.replicate 10 [.wheel .enter, .wheel .turn]).flatten ++
    [.wheel .enter, .wheel .fire, .wheel .ret, .wheel .turn, .resume 1]

end Unixlite.Dev.Tty
