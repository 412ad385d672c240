import Unixlite.Kern.Timer

/-!
# When a timer goes off

A timer on `below` is met when the wheel has turned to its slot.  A timer on
`above` is aged by `NTICK` each time the wheel comes round, whatever part of
the first round had already passed when it was started, and one whose time is
a multiple of `NTICK` is taken for `NTICK` less.  `Due` says of every timer on
a queue how many calls of `timersoftisr` it still takes.
-/

namespace Unixlite.Timer

open Unixlite.Verified.Run Wheel
open Function (update update_of_ne update_self)
open Wheel (active ageOne enqtail start startPeriod unlink)
open List Option

/-! ## What is left of a timer -/

/-- The ticks `above` makes of a `lefttick`, from the start of a round. -/
def whole (lefttick : Int) : Int :=
  if lefttick % NTICK = 0 ∧ 2 * (NTICK : Int) ≤ lefttick then lefttick - NTICK else lefttick

/-- The slots the wheel has to go by to meet timer `t` on queue `q`. -/
def left (w : Wheel) (t : Nat) : Queue → Int
  | .below i => ((i : Int) - w.cur) % NTICK
  | .above => whole (w.lefttick t) - w.cur

/-- Outside `timersoftisr` the slot `cur` itself takes another call. -/
def pending (w : Wheel) : Int := if w.phase = .out then 1 else 0

/-- Timer `t` is called back after `n` more calls of `timersoftisr`. -/
def Due (t : Nat) (w : Wheel) (n : Nat) : Prop :=
  WF w ∧ ∃ q, t ∈ w.queue q ∧ (n : Int) = left w t q + pending w

/-- Timer `t` is on no queue. -/
def Off (t : Nat) (w : Wheel) : Prop := WF w ∧ w.active t = false

/-- The step calls back timer `t`. -/
def calls (t : Nat) (w : Wheel) : Event → Prop
  | .fire => w.phase = .loop ∧ (w.queue (.below w.cur)).head? = some t
  | _ => False

instance (t : Nat) (w : Wheel) : ∀ e, Decidable (calls t w e)
  | .fire => inferInstanceAs (Decidable (_ ∧ _))
  | .start _ _ | .stop _ | .enter | .ret | .turn => inferInstanceAs (Decidable False)

/-- A call of `timersoftisr` is a tick. -/
def tick : Event → Nat
  | .enter => 1
  | _ => 0

/-- The event neither starts nor stops timer `t`. -/
def Spares (t : Nat) : Event → Prop
  | .start u _ => u ≠ t
  | .stop u => u ≠ t
  | _ => True

/-! ### Timers that stay where they are -/

/-- `v` has timer `t` where `w` has it. -/
structure Same (t : Nat) (w v : Wheel) : Prop where
  cur : v.cur = w.cur
  phase : v.phase = w.phase
  queue : ∀ q, t ∈ v.queue q ↔ t ∈ w.queue q
  lefttick : v.lefttick t = w.lefttick t

theorem Same.refl (t : Nat) (w : Wheel) : Same t w w := ⟨rfl, rfl, fun _ => Iff.rfl, rfl⟩

variable {n t u : Nat} {v w : Wheel} {period : Int} {e : Event}

theorem Same.trans {u : Wheel} (h : Same t w v) (h' : Same t v u) : Same t w u :=
  ⟨h'.cur.trans h.cur, h'.phase.trans h.phase, fun q => (h'.queue q).trans (h.queue q),
    h'.lefttick.trans h.lefttick⟩

theorem Same.due (h : Same t w v) (hv : WF v) (hdue : Due t w n) : Due t v n := by
  obtain ⟨-, q, hq, hn⟩ := hdue
  refine ⟨hv, q, (h.queue q).mpr hq, ?_⟩
  cases q <;> simpa [left, pending, h.cur, h.phase, h.lefttick] using hn

theorem Same.off (h : Same t w v) (hv : WF v) (hoff : Off t w) : Off t v := by
  refine ⟨hv, ?_⟩
  rw [Bool.eq_false_iff]
  intro hact
  obtain ⟨q, hq⟩ := (active_iff hv t).mp hact
  exact not_mem_of_inactive hoff.1 hoff.2 q ((h.queue q).mp hq)

theorem same_enqtail (hu : u ≠ t) (w : Wheel) (q : Queue) : Same t w (w.enqtail q u) :=
  ⟨rfl, rfl, fun r => by simp [hu.symm], rfl⟩

theorem same_unlink (hu : u ≠ t) (w : Wheel) : Same t w (w.unlink u) :=
  ⟨rfl, rfl, fun q => by simp [unlink, mem_erase_of_ne hu.symm], rfl⟩

theorem same_lefttick (hu : u ≠ t) (w : Wheel) (x : Int) :
    Same t w { w with lefttick := update w.lefttick u x } :=
  ⟨rfl, rfl, fun _ => Iff.rfl, by simp [update_of_ne hu.symm]⟩

theorem same_period (t : Nat) (w : Wheel) (period : Nat → Int) :
    Same t w { w with period := period } :=
  ⟨rfl, rfl, fun _ => Iff.rfl, rfl⟩

theorem same_ageOne (hu : u ≠ t) (w : Wheel) : Same t w (w.ageOne u) := by
  unfold ageOne
  dsimp only
  split
  · exact same_lefttick hu w _
  · exact ((same_lefttick hu w _).trans (same_unlink hu _)).trans (same_enqtail hu _ _)

theorem same_stop (hu : u ≠ t) (w : Wheel) : Same t w (w.stop u) := by
  unfold Wheel.stop
  split
  · exact same_unlink hu w
  · exact .refl t w

/-! ### `start` -/

/-- What `start` does to a timer that is not active. -/
theorem startPeriod_inactive (h : WF w)
    (ht : w.active t = false) (hstart : w.startPeriod t period = some v) :
    WF v ∧ v.cur = w.cur ∧ v.phase = w.phase ∧ v.lefttick t = period ∧
      t ∈ v.queue (if period < NTICK then .below (slot w.cur period) else .above) := by
  have hnot := not_mem_of_inactive h ht
  have hact : active { w with period := update w.period t period } t = false := ht
  simp only [startPeriod, start, hact, update_self] at hstart
  have hset : WF { w with
      period := update w.period t period
      lefttick := update w.lefttick t period } := by
    refine h.of_eq h.cur rfl ?_
    intro u hu
    have hne : u ≠ t := by
      rintro rfl
      exact hnot _ hu
    simp [hne]
  simp only [Bool.false_eq_true, if_false] at hstart
  split at hstart
  · cases hstart
  split at hstart
  · next hlt =>
      cases hstart
      refine ⟨hset.enqtail hnot ?_ (by simp), rfl, rfl, by simp [Wheel.insert, enqtail],
        by simp [Wheel.insert, hlt]⟩
      rintro i ⟨⟩
      exact slot_lt _ _
  · next hge =>
      cases hstart
      refine ⟨hset.enqtail hnot (by simp) ?_, rfl, rfl, by simp [enqtail], by simp [hge]⟩
      intro _
      simp only [update_self]
      omega

/-- A timer that is already on a queue is left there. -/
theorem startPeriod_active
    (ht : w.active t = true) (hstart : w.startPeriod t period = some v) :
    v = { w with period := update w.period t period } := by
  have hact : active { w with period := update w.period t period } t = true := ht
  simp only [startPeriod, start, hact, if_true] at hstart
  exact (some.inj hstart).symm

theorem WF.startPeriod (h : WF w) (hstart : w.startPeriod t period = some v) : WF v := by
  cases ht : w.active t with
  | false => exact (startPeriod_inactive h ht hstart).1
  | true =>
      rw [startPeriod_active ht hstart]
      exact h.of_eq h.cur rfl fun _ _ => rfl

theorem same_startPeriod (hu : u ≠ t) (hstart : w.startPeriod u period = some v) : Same t w v := by
  have hper := same_period t w (update w.period u period)
  simp only [startPeriod, start] at hstart
  split at hstart
  · cases hstart; exact hper
  split at hstart
  · cases hstart
  split at hstart
  · cases hstart
    exact (hper.trans (same_lefttick hu _ _)).trans (same_enqtail hu _ _)
  · cases hstart
    exact (hper.trans (same_lefttick hu _ _)).trans (same_enqtail hu _ _)

/-! ### Aging -/

/-- `v` has timer `t` where aging moves it from `above` of `w`. -/
structure Aged (t : Nat) (w v : Wheel) : Prop where
  cur : v.cur = w.cur
  phase : v.phase = w.phase
  stays : (NTICK : Int) < w.lefttick t - NTICK →
    t ∈ v.queue .above ∧ v.lefttick t = w.lefttick t - NTICK
  falls : ¬ (NTICK : Int) < w.lefttick t - NTICK →
    t ∈ v.queue (.below (slot w.cur (w.lefttick t - NTICK)))

theorem Aged.before {u : Wheel} (h : Same t w v) (h' : Aged t v u) : Aged t w u := by
  obtain ⟨hcur, hphase, hstays, hfalls⟩ := h'
  rw [h.lefttick] at hstays hfalls
  rw [h.cur] at hfalls
  exact ⟨hcur.trans h.cur, hphase.trans h.phase, hstays, hfalls⟩

theorem Aged.after {u : Wheel} (h : Aged t w v) (h' : Same t v u) : Aged t w u where
  cur := h'.cur.trans h.cur
  phase := h'.phase.trans h.phase
  stays := fun hlt =>
    ⟨(h'.queue _).mpr (h.stays hlt).1, h'.lefttick.trans (h.stays hlt).2⟩
  falls := fun hge => (h'.queue _).mpr (h.falls hge)

theorem ageOne_aged (h : WF w) (ht : t ∈ w.queue .above) :
    WF (w.ageOne t) ∧ Aged t w (w.ageOne t) := by
  unfold ageOne
  simp only [update_self]
  split
  · next hlt =>
      refine ⟨⟨h.cur, h.nodup, h.disjoint, h.below, ?_⟩, rfl, rfl, ?_, ?_⟩
      · intro u hu
        by_cases hut : u = t
        · subst hut
          simp only [update_self]
          omega
        · simpa [hut] using h.above hu
      · intro _
        exact ⟨ht, by simp⟩
      · intro hge
        exact absurd hlt hge
  · next hge =>
      have hun : WF ({ w with
          lefttick := update w.lefttick t (w.lefttick t - NTICK) }.unlink t) := by
        refine (h.unlink t).of_eq h.cur rfl ?_
        intro u hu
        have hne := ((mem_unlink h).mp hu).1
        simp [unlink, hne]
      have hnot : ∀ r, t ∉ (w.unlink t).queue r := fun r hr =>
        ((mem_unlink h).mp hr).1 rfl
      refine ⟨hun.enqtail hnot ?_ (by simp), rfl, rfl, ?_, ?_⟩
      · rintro i ⟨⟩
        exact slot_lt _ _
      · intro hlt
        exact absurd hlt hge
      · intro _
        simp [Wheel.insert, unlink]

/-- The loop over `above`: each timer on it is aged once. -/
theorem foldl_ageOne {ts : List Nat} (h : WF w) (hnodup : ts.Nodup)
    (habove : ∀ u ∈ ts, u ∈ w.queue .above) :
    WF (ts.foldl ageOne w) ∧
      ∀ t, (t ∉ ts → Same t w (ts.foldl ageOne w)) ∧
        (t ∈ ts → Aged t w (ts.foldl ageOne w)) := by
  induction ts generalizing w with
  | nil => exact ⟨h, fun t => ⟨fun _ => .refl t w, by simp⟩⟩
  | cons u ts ih =>
      obtain ⟨hu, hts⟩ := nodup_cons.mp hnodup
      obtain ⟨hwf, haged⟩ := ageOne_aged h (habove u (by simp))
      have hrest : ∀ v ∈ ts, v ∈ (w.ageOne u).queue .above := by
        intro v hv
        have hne : u ≠ v := by
          rintro rfl
          exact hu hv
        exact ((same_ageOne hne w).queue _).mpr (habove v (by simp [hv]))
      obtain ⟨hwf', hall⟩ := ih hwf hts hrest
      refine ⟨hwf', fun t => ⟨?_, ?_⟩⟩
      · intro ht
        simp only [mem_cons, not_or] at ht
        exact (same_ageOne (Ne.symm ht.1) w).trans ((hall t).1 ht.2)
      · intro ht
        by_cases htu : t = u
        · subst htu
          exact haged.after ((hall t).1 hu)
        · exact ((hall t).2 ((mem_cons.mp ht).resolve_left htu)).before
            (same_ageOne (Ne.symm htu) w)

/-! ### The end of `timersoftisr` -/

/-- The wheel before the aging. -/
def turned (w : Wheel) : Wheel := { w with cur := (w.cur + 1) % NTICK, phase := .out }

theorem WF.turned (h : WF w) : WF (turned w) :=
  h.of_eq (Nat.mod_lt _ (by decide)) rfl fun _ _ => rfl

theorem turn_eq (w : Wheel) :
    w.turn = if (turned w).cur ≠ 0 then turned w
      else ((turned w).queue .above).foldl ageOne (turned w) := rfl

theorem WF.turn (h : WF w) : WF w.turn := by
  rw [turn_eq]
  split
  · exact h.turned
  · exact (foldl_ageOne h.turned (h.turned.nodup _) fun _ hu => hu).1

/-- A timer on `below`, in a slot that is not the one just emptied. -/
theorem due_turn_below (h : WF w) (hphase : w.phase = .loop) {i : Nat}
    (ht : t ∈ w.queue (.below i)) (hi : i ≠ w.cur)
    (hn : (n : Int) = left w t (.below i) + pending w) : Due t w.turn n := by
  have hilt := h.below ht
  have hcur := h.cur
  have hturned : Due t (turned w) n := by
    refine ⟨h.turned, .below i, ht, ?_⟩
    simp only [left, pending, hphase, turned, NTICK] at hn hilt hcur ⊢
    simp only [reduceCtorEq, if_false, if_true] at hn ⊢
    omega
  rw [turn_eq]
  split
  · exact hturned
  · obtain ⟨hwf, hall⟩ := foldl_ageOne h.turned (h.turned.nodup _) fun _ hu => hu
    refine ((hall t).1 ?_).due hwf hturned
    intro habove
    have := h.disjoint ht habove
    cases this

/-- A timer on `above`: the turn takes one off, and the aging changes what is
left of it by nothing. -/
theorem due_turn_above (h : WF w) (hphase : w.phase = .loop)
    (ht : t ∈ w.queue .above) (hn : (n : Int) = left w t .above + pending w) :
    Due t w.turn n := by
  have hcur := h.cur
  have habove := h.above ht
  rw [turn_eq]
  split
  · next hnowrap =>
      refine ⟨h.turned, .above, ht, ?_⟩
      simp only [left, pending, hphase, turned, NTICK] at hn hcur hnowrap ⊢
      simp only [reduceCtorEq, if_false, if_true] at hn ⊢
      omega
  · next hwrap =>
      obtain ⟨hwf, hall⟩ := foldl_ageOne h.turned (h.turned.nodup _) fun _ hu => hu
      have haged := (hall t).2 ht
      have hpend : pending w = 0 := by simp [pending, hphase]
      have hzero : (turned w).cur = 0 := by simpa using hwrap
      have hlast : w.cur = NTICK - 1 := by
        simp only [turned, NTICK] at hzero hcur ⊢
        omega
      have hpend' : pending (((turned w).queue .above).foldl ageOne (turned w)) = 1 := by
        unfold pending
        rw [haged.phase]
        rfl
      by_cases hlt : (NTICK : Int) < w.lefttick t - NTICK
      · obtain ⟨hq, hleft⟩ := haged.stays hlt
        refine ⟨hwf, .above, hq, ?_⟩
        rw [hpend']
        simp only [left, hleft, haged.cur, hzero]
        simp only [left, hpend, hlast] at hn
        change (n : Int) = whole (w.lefttick t - NTICK) - (0 : Nat) + 1
        simp only [whole, NTICK] at hn hlt ⊢
        split_ifs at hn ⊢ <;> omega
      · have hq := haged.falls hlt
        refine ⟨hwf, _, hq, ?_⟩
        rw [hpend']
        simp only [left, haged.cur, hzero]
        simp only [left, hpend, hlast] at hn
        change (n : Int) = ((slot 0 (w.lefttick t - NTICK) : Nat) - ((0 : Nat) : Int)) % NTICK + 1
        simp only [whole, slot, NTICK] at hn hlt habove ⊢
        split_ifs at hn <;> omega

/-! ## One event -/

/-- All that an event can do. -/
inductive Steps (w : Wheel) : Event → Wheel → Prop where
  | start {i p x} : w.startPeriod i p = some x → Steps w (.start i p) x
  | stop {i} : Steps w (.stop i) (w.stop i)
  | enter : w.phase = .out → Steps w .enter { w with phase := .loop }
  | fire {i is} : w.phase = .loop → w.queue (.below w.cur) = i :: is →
      Steps w .fire { w.unlink i with phase := .func }
  | ret : w.phase = .func → Steps w .ret { w with phase := .loop }
  | turn : w.phase = .loop → w.queue (.below w.cur) = [] → Steps w .turn w.turn

theorem step_cases (hstep : step w e = some v) : Steps w e v := by
  cases e with
  | start u period => exact .start (ite_none_left_eq_some.mp hstep).2
  | stop u =>
      cases (ite_none_left_eq_some.mp hstep).2
      exact .stop
  | enter =>
      obtain ⟨hphase, hv⟩ := ite_none_right_eq_some.mp hstep
      cases hv
      exact .enter hphase
  | fire =>
      simp only [step] at hstep
      split at hstep
      · next u us hphase hqueue => cases hstep; exact .fire hphase hqueue
      · cases hstep
  | ret =>
      obtain ⟨hphase, hv⟩ := ite_none_right_eq_some.mp hstep
      cases hv
      exact .ret hphase
  | turn =>
      obtain ⟨hgo, hv⟩ := ite_none_right_eq_some.mp hstep
      cases hv
      exact .turn hgo.1 hgo.2

theorem step_wf (h : WF w) (hstep : step w e = some v) : WF v := by
  cases step_cases hstep with
  | start hstart => exact h.startPeriod hstart
  | stop => exact h.stop _
  | enter | ret => exact h.of_eq h.cur rfl fun _ _ => rfl
  | fire => exact (h.unlink _).of_eq h.cur rfl fun _ _ => rfl
  | turn => exact h.turn

theorem exec_wf {es : List Event} (h : WF w) (hexec : exec step w es = some v) : WF v := by
  induction es generalizing w with
  | nil => cases hexec; exact h
  | cons e es ih =>
      obtain ⟨u, hu, hexec⟩ := bind_eq_some_iff.mp hexec
      exact ih (step_wf h hu) hexec

theorem wf_init : WF init where
  cur := by decide
  nodup := by simp [init]
  disjoint := by simp [init]
  below := by simp [init]
  above := by simp [init]

theorem active_init (t : Nat) : init.active t = false := by
  simp [active, init]

/-- An event that is not the callback of `t` takes its own time off what is
left of `t`. -/
theorem due_step (h : Due t w n) (hspares : Spares t e)
    (hstep : step w e = some v) (hcalls : ¬ calls t w e) : ∃ m, Due t v m ∧ m + tick e = n := by
  have hwf := step_wf h.1 hstep
  obtain ⟨hw, q, hq, hn⟩ := id h
  cases step_cases hstep with
  | start hstart => exact ⟨n, (same_startPeriod hspares hstart).due hwf h, rfl⟩
  | stop => exact ⟨n, (same_stop hspares w).due hwf h, rfl⟩
  | enter hphase =>
      have hcur := hw.cur
      have hnonneg : 0 ≤ left w t q := by
        cases q with
        | below i => exact Int.emod_nonneg _ (by decide)
        | above =>
            have habove := hw.above hq
            simp only [left, whole]
            split_ifs <;> omega
      have hpend : pending w = 1 := by simp [pending, hphase]
      refine ⟨n - 1, ⟨hwf, q, hq, ?_⟩, ?_⟩
      · have hleft : left { w with phase := .loop } t q = left w t q := by cases q <;> rfl
        simp only [pending, reduceCtorEq, if_false]
        omega
      · simp only [tick]
        omega
  | @fire u us hphase hqueue =>
      have hne : u ≠ t := by
        rintro rfl
        exact hcalls ⟨hphase, by simp [hqueue]⟩
      refine ⟨n, ⟨hwf, q, ((same_unlink hne w).queue q).mpr hq, ?_⟩, rfl⟩
      cases q <;> simpa [left, pending, hphase, unlink] using hn
  | ret hphase =>
      refine ⟨n, ⟨hwf, q, hq, ?_⟩, rfl⟩
      cases q <;> simpa [left, pending, hphase] using hn
  | turn hphase hempty =>
      refine ⟨n, ?_, rfl⟩
      cases q with
      | above => exact due_turn_above hw hphase hq hn
      | below i =>
          refine due_turn_below hw hphase hq ?_ hn
          rintro rfl
          simp [hempty] at hq

/-- The callback of `t` comes when nothing is left, and takes `t` off the
wheel. -/
theorem due_fire (h : Due t w n)
    (hstep : step w e = some v) (hcalls : calls t w e) : n = 0 ∧ tick e = 0 ∧ Off t v := by
  have hwf := step_wf h.1 hstep
  cases step_cases hstep with
  | @fire u us hphase hqueue =>
      obtain rfl : u = t := by simpa [hqueue] using hcalls.2
      obtain ⟨hw, q, hq, hn⟩ := h
      obtain rfl : q = .below w.cur := hw.disjoint hq (by simp [hqueue])
      refine ⟨?_, rfl, hwf, ?_⟩
      · have hpend : pending w = 0 := by simp [pending, hphase]
        simp only [left, hpend, Int.sub_self, Int.zero_emod] at hn
        omega
      · rw [Bool.eq_false_iff]
        intro hact
        obtain ⟨r, hr⟩ := (active_iff hwf u).mp hact
        exact ((mem_unlink hw).mp hr).1 rfl
  | _ => exact hcalls.elim

theorem off_step (h : Off t w) (hspares : Spares t e)
    (hstep : step w e = some v) : ¬ calls t w e ∧ Off t v := by
  have hwf := step_wf h.1 hstep
  have hnot := not_mem_of_inactive h.1 h.2
  -- no event but the start of `t` itself puts it on a queue
  have hoff : (∀ q, t ∈ v.queue q → t ∈ w.queue q) → Off t v := by
    intro hsub
    refine ⟨hwf, Bool.eq_false_iff.mpr fun hact => ?_⟩
    obtain ⟨q, hq⟩ := (active_iff hwf t).mp hact
    exact hnot q (hsub q hq)
  cases step_cases hstep with
  | start hstart => exact ⟨id, (same_startPeriod hspares hstart).off hwf h⟩
  | stop => exact ⟨id, (same_stop hspares w).off hwf h⟩
  | enter | ret => exact ⟨id, hoff fun _ hq => hq⟩
  | fire =>
      refine ⟨fun hcalls => ?_, hoff fun _ hq => ((mem_unlink h.1).mp hq).2⟩
      exact hnot _ (mem_of_mem_head? hcalls.2)
  | turn =>
      refine ⟨id, hoff fun q hq => ?_⟩
      rw [turn_eq] at hq
      split at hq
      · exact hq
      · have hfold := foldl_ageOne h.1.turned (h.1.turned.nodup _) fun _ hu => hu
        exact (((hfold.2 t).1 (hnot _)).queue q).mp hq

/-- The wheel counts every timer down. -/
theorem countdown (t : Nat) : Countdown step tick (calls t) (Spares t) (Due t) (Off t) where
  wait := due_step
  fire := due_fire
  stay := off_step
  enabled := by
    intro w e h
    cases e with
    | fire =>
        obtain ⟨hphase, hhead⟩ := h
        obtain ⟨us, hqueue⟩ := List.head?_eq_some_iff.mp hhead
        simp [step, hphase, hqueue]
    | _ => exact h.elim

/-! ## Runs -/

/-- Only the callback, the end of a call and the next call are needed for the
wheel to go on. -/
def Quiet : Event → Prop
  | .start _ _ | .stop _ => False
  | _ => True

theorem Quiet.spares (h : Quiet e) (t : Nat) : Spares t e := by
  cases e <;> first | exact h.elim | trivial

theorem foldl_ageOne_phase (w : Wheel) (ts : List Nat) : (ts.foldl ageOne w).phase = w.phase := by
  induction ts generalizing w with
  | nil => rfl
  | cons t ts ih =>
      rw [foldl_cons, ih]
      unfold ageOne
      dsimp only
      split <;> rfl

theorem turn_phase (w : Wheel) : w.turn.phase = .out := by
  rw [turn_eq]
  split
  · rfl
  · exact foldl_ageOne_phase _ _

/-- A call of `timersoftisr` that has begun can end. -/
theorem exists_out (w : Wheel) : ∃ es v, (∀ e ∈ es, Quiet e) ∧ exec step w es = some v ∧
    v.phase = .out := by
  have hloop : ∀ us v, v.phase = Phase.loop → v.queue (.below v.cur) = us →
      ∃ es u, (∀ e ∈ es, Quiet e) ∧ exec step v es = some u ∧ u.phase = .out := by
    intro us
    induction us with
    | nil =>
        intro v hphase hqueue
        exact ⟨[.turn], v.turn, by simp [Quiet], by simp [step, hphase, hqueue], turn_phase v⟩
    | cons u us ih =>
        intro v hphase hqueue
        obtain ⟨es, x, hes, hexec, hx⟩ :=
          ih { v.unlink u with phase := .loop } rfl (by simp [unlink, hqueue])
        refine ⟨.fire :: .ret :: es, x, by simpa [Quiet] using hes, ?_, hx⟩
        simpa [step, hphase, hqueue] using hexec
  cases hphase : w.phase with
  | out => exact ⟨[], w, by simp, rfl, hphase⟩
  | loop => exact hloop _ w hphase rfl
  | func =>
      obtain ⟨es, v, hes, hexec, hv⟩ := hloop _ { w with phase := .loop } rfl rfl
      exact ⟨.ret :: es, v, by simpa [Quiet] using hes, by simpa [step, hphase] using hexec, hv⟩

/-- `timersoftisr` can be called as often as one likes. -/
theorem exists_ticks (w : Wheel) (k : Nat) :
    ∃ es v, (∀ e ∈ es, Quiet e) ∧ exec step w es = some v ∧ k ≤ ticks tick es := by
  induction k generalizing w with
  | zero => exact ⟨[], w, by simp, rfl, by simp⟩
  | succ k ih =>
      obtain ⟨es, v, hes, hexec, hout⟩ := exists_out w
      obtain ⟨es', u, hes', hexec', hk⟩ := ih { v with phase := .loop }
      refine ⟨es ++ .enter :: es', u, ?_, ?_, ?_⟩
      · intro e he
        simp only [mem_append, mem_cons] at he
        rcases he with he | rfl | he
        · exact hes e he
        · trivial
        · exact hes' e he
      · rw [exec_append, hexec]
        simpa [step, hout] using hexec'
      · simp only [ticks_append, ticks_cons, tick]
        omega

/-- The calls of `timersoftisr` that timer `t` takes when it is started on
wheel `w`. -/
theorem due_start (h : WF w) (ht : w.active t = false) (hperiod : 1 ≤ period)
    (hstep : step w (.start t period) = some v)
    (hn : (n : Int) = (if period < NTICK then period else whole period - w.cur) + pending w) :
    Due t v n := by
  simp only [step] at hstep
  split at hstep
  · cases hstep
  obtain ⟨hwf, hcur, hphase, hleft, hq⟩ := startPeriod_inactive h ht hstep
  have hpend : pending v = pending w := by simp [pending, hphase]
  have hcurlt := h.cur
  refine ⟨hwf, _, hq, ?_⟩
  rw [hn, hpend]
  split
  · next hlt =>
      simp only [left, hcur, slot, NTICK] at hcurlt hlt ⊢
      omega
  · simp only [left, hleft, hcur]

/-! ## The claim -/

/-- In every run after the start of `t` in which `t` is neither stopped nor
started again, its callback runs once, and in call `period` or `period + 1` of
`timersoftisr`. -/
def OnTime (w : Wheel) (t : Nat) (period : Nat) : Prop :=
  ∀ v, step w (.start t period) = some v →
    ∀ es u, (∀ e ∈ es, Spares t e) → exec step v es = some u →
      Timely step tick (calls t) period (period + 1) v es

/-- A timer that goes on `above` is started when the wheel has just come round
(in `timersoftisr` the slot `cur` counts as gone by), and its period is not a
higher multiple of `NTICK`. -/
def InPhase (w : Wheel) (period : Nat) : Prop :=
  period < NTICK ∨
    ((w.cur = 0 ∨ w.cur = 1 ∧ w.phase = .out) ∧ (period = NTICK ∨ ¬ NTICK ∣ period))

instance (w : Wheel) (period : Nat) : Decidable (InPhase w period) :=
  inferInstanceAs (Decidable (_ ∨ _))

/-- The calls of `timersoftisr` that a timer takes. -/
def duration (w : Wheel) (period : Nat) : Int :=
  (if (period : Int) < NTICK then (period : Int) else whole period - w.cur) + pending w

theorem start_returns {period : Nat} (hphase : w.phase ≠ .loop)
    (ht : w.active t = false) (hperiod : 1 ≤ period) :
    ∃ v, step w (.start t period) = some v := by
  have hact : active { w with period := update w.period t period } t = false := ht
  have hne : (period : Int) ≠ 0 := by omega
  simp only [step, hphase, if_false, startPeriod, start, hact, update_self,
    Bool.false_eq_true, hne]
  split
  · exact ⟨_, rfl⟩
  · exact ⟨_, rfl⟩

theorem duration_nonneg (h : WF w) (period : Nat) : 0 ≤ duration w period := by
  have hcur := h.cur
  simp only [duration, whole, pending, NTICK] at hcur ⊢
  split_ifs <;> omega

/-- The duration is the period, or one more, just when the start is in
phase. -/
theorem duration_iff (h : WF w) (hphase : w.phase ≠ .loop) {period : Nat}
    (hn : duration w period = n) : (period ≤ n ∧ n ≤ period + 1) ↔ InPhase w period := by
  have hcur := h.cur
  cases hw : w.phase with
  | loop => exact absurd hw hphase
  | out =>
      simp only [duration, whole, pending, hw, InPhase, NTICK, if_true, and_true] at hn hcur ⊢
      split_ifs at hn <;> omega
  | func =>
      simp only [duration, whole, pending, hw, InPhase, NTICK, reduceCtorEq, if_false,
        and_false, or_false] at hn hcur ⊢
      split_ifs at hn <;> omega

theorem onTime_of_wf (hwf : WF w) (hphase : w.phase ≠ .loop)
    (ht : w.active t = false) {period : Nat} (hperiod : 1 ≤ period) :
    OnTime w t period ↔ InPhase w period := by
  obtain ⟨v, hstart⟩ := start_returns hphase ht hperiod
  obtain ⟨n, hn⟩ := Int.eq_ofNat_of_zero_le (duration_nonneg hwf period)
  have hdue := due_start hwf ht (by omega) hstart hn.symm
  have hlong : ∀ k, ∃ es u, (∀ e ∈ es, Spares t e) ∧ exec step v es = some u ∧
      k < ticks tick es := by
    intro k
    obtain ⟨es, u, hes, hexec, hk⟩ := exists_ticks v (k + 1)
    exact ⟨es, u, fun e he => (hes e he).spares t, hexec, by omega⟩
  have honTime : OnTime w t period ↔ period ≤ n ∧ n ≤ period + 1 := by
    rw [← (countdown t).timely_iff hdue hlong]
    constructor
    · exact fun h => h v hstart
    · intro h u hu
      obtain rfl : v = u := some.inj (hstart.symm.trans hu)
      exact h
  rw [honTime]
  exact duration_iff hwf hphase hn

end Unixlite.Timer
