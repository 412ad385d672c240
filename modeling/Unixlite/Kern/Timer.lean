import Unixlite.Verified.Countdown
import Mathlib.Logic.Function.Basic
import Mathlib.Data.List.Nodup

/-!
# The timer wheel

Port of `kern/timer.h` and `kern/timer.cc`.  A timer is known by its number;
`next != NULL` is being on one of the queues.  `timersoftisr` is cut into the
pieces between which a callback runs, and what a callback does to the timers
are further steps.
-/

namespace Unixlite.Timer

def NTICK : Nat := 512

/-- The queues a `timer_t` can be on: `below[i]` and `above`. -/
inductive Queue where
  | below (i : Nat)
  | above
deriving DecidableEq, Repr

/-- Where `timersoftisr` stands. -/
inductive Phase where
  /-- It does not run. -/
  | out
  /-- At the head of its `while`. -/
  | loop
  /-- In `t->func(t->data)`. -/
  | func
deriving DecidableEq, Repr

structure Wheel where
  cur : Nat
  queue : Queue → List Nat
  period : Nat → Int
  lefttick : Nat → Int
  phase : Phase

namespace Wheel

/-- `timer_t::active`. -/
def active (w : Wheel) (t : Nat) : Bool :=
  t ∈ w.queue .above || (List.range NTICK).any fun i => t ∈ w.queue (.below i)

def enqtail (w : Wheel) (q : Queue) (t : Nat) : Wheel :=
  { w with queue := Function.update w.queue q (w.queue q ++ [t]) }

/-- `unlink`, from the queue the timer is on. -/
def unlink (w : Wheel) (t : Nat) : Wheel :=
  { w with queue := fun q => (w.queue q).erase t }

/-- `(cur + lefttick) & (NTICK-1)`. -/
def slot (cur : Nat) (lefttick : Int) : Nat := ((cur + lefttick) % NTICK).toNat

def insert (w : Wheel) (lefttick : Int) (t : Nat) : Wheel :=
  w.enqtail (.below (slot w.cur lefttick)) t

/-- `timer_t::start()`; `assert(period)` failing is `none`. -/
def start (w : Wheel) (t : Nat) : Option Wheel :=
  if w.active t then some w
  else if w.period t = 0 then none
  else
    let w : Wheel := { w with lefttick := Function.update w.lefttick t (w.period t) }
    if w.period t < NTICK then some (w.insert (w.period t) t)
    else some (w.enqtail .above t)

/-- `timer_t::start(tick_t)`. -/
def startPeriod (w : Wheel) (t : Nat) (period : Int) : Option Wheel :=
  start { w with period := Function.update w.period t period } t

/-- `timer_t::stop`. -/
def stop (w : Wheel) (t : Nat) : Wheel :=
  if w.active t then w.unlink t else w

/-- One turn of the loop over `above`. -/
def ageOne (w : Wheel) (t : Nat) : Wheel :=
  let w : Wheel := { w with lefttick := Function.update w.lefttick t (w.lefttick t - NTICK) }
  if w.lefttick t > NTICK then w
  else (w.unlink t).insert (w.lefttick t) t

/-- The end of `timersoftisr`: the wheel turns, and when it has come round the
timers on `above` are aged. -/
def turn (w : Wheel) : Wheel :=
  let w : Wheel := { w with cur := (w.cur + 1) % NTICK, phase := .out }
  if w.cur ≠ 0 then w else (w.queue .above).foldl ageOne w

end Wheel

/-! ## The machine -/

inductive Event where
  | start (t : Nat) (period : Int)
  | stop (t : Nat)
  /-- `timersoftisr` is called. -/
  | enter
  /-- `below[cur].deqhead()` gives a timer, whose callback is called. -/
  | fire
  /-- The callback returns. -/
  | ret
  /-- The `while` has ended. -/
  | turn

/-- One event; `none` when it cannot happen.  Timers are started and stopped
by code outside `timersoftisr` or by a callback. -/
def step (w : Wheel) : Event → Option Wheel
  | .start t period => if w.phase = .loop then none else w.startPeriod t period
  | .stop t => if w.phase = .loop then none else some (w.stop t)
  | .enter => if w.phase = .out then some { w with phase := .loop } else none
  | .fire =>
      match w.phase, w.queue (.below w.cur) with
      | .loop, t :: _ => some { w.unlink t with phase := .func }
      | _, _ => none
  | .ret => if w.phase = .func then some { w with phase := .loop } else none
  | .turn =>
      if w.phase = .loop ∧ w.queue (.below w.cur) = [] then some w.turn else none

/-- The wheel as the constructor leaves it. -/
def init : Wheel where
  cur := 0
  queue := fun _ => []
  period := fun _ => 0
  lefttick := fun _ => 0
  phase := .out

/-! ## The invariant of the wheel -/

/-- What holds of the wheel between two events. -/
structure WF (w : Wheel) : Prop where
  cur : w.cur < NTICK
  nodup : ∀ q, (w.queue q).Nodup
  disjoint : ∀ {q r t}, t ∈ w.queue q → t ∈ w.queue r → q = r
  below : ∀ {i t}, t ∈ w.queue (.below i) → i < NTICK
  /-- A timer is kept on `above` as long as it has a whole round to go. -/
  above : ∀ {t}, t ∈ w.queue .above → (NTICK : Int) ≤ w.lefttick t

variable {w : Wheel} {t : Nat} {q : Queue}

theorem active_iff (h : WF w) (t : Nat) : w.active t = true ↔ ∃ q, t ∈ w.queue q := by
  simp only [Wheel.active, Bool.or_eq_true, decide_eq_true_eq, List.any_eq_true,
    List.mem_range]
  constructor
  · rintro (hq | ⟨i, -, hi⟩)
    · exact ⟨_, hq⟩
    · exact ⟨_, hi⟩
  · rintro ⟨q, hq⟩
    cases q with
    | above => exact .inl hq
    | below i => exact .inr ⟨i, h.below hq, hq⟩

theorem not_mem_of_inactive (h : WF w) (ht : w.active t = false) (q : Queue) : t ∉ w.queue q := by
  intro hq
  rw [(active_iff h t).mpr ⟨q, hq⟩] at ht
  cases ht

theorem slot_lt (cur : Nat) (lefttick : Int) : Wheel.slot cur lefttick < NTICK := by
  unfold Wheel.slot NTICK
  omega

/-! ### Queues after one operation -/

@[simp] theorem mem_enqtail {r : Queue} {u : Nat} :
    u ∈ (w.enqtail q t).queue r ↔ u ∈ w.queue r ∨ (u = t ∧ r = q) := by
  by_cases hr : r = q
  · subst hr; simp [Wheel.enqtail]
  · simp [Wheel.enqtail, hr]

theorem mem_unlink (h : WF w) {u : Nat} : u ∈ (w.unlink t).queue q ↔ u ≠ t ∧ u ∈ w.queue q := by
  simp [Wheel.unlink, (h.nodup q).mem_erase_iff]

/-- A timer that is on no queue is put on one. -/
theorem WF.enqtail (h : WF w) (ht : ∀ r, t ∉ w.queue r) (hbelow : ∀ i, q = .below i → i < NTICK)
    (habove : q = .above → (NTICK : Int) ≤ w.lefttick t) : WF (w.enqtail q t) where
  cur := h.cur
  nodup := by
    intro r
    by_cases hr : r = q
    · subst hr
      simp only [Wheel.enqtail, Function.update_self]
      rw [List.nodup_append]
      refine ⟨h.nodup r, by simp, ?_⟩
      rintro a ha b hb rfl
      exact ht r (List.mem_singleton.mp hb ▸ ha)
    · simpa [Wheel.enqtail, hr] using h.nodup r
  disjoint := by
    intro r r' u hu hu'
    rw [mem_enqtail] at hu hu'
    rcases hu with hu | ⟨hut, hr⟩ <;> rcases hu' with hu' | ⟨hut', hr'⟩
    · exact h.disjoint hu hu'
    · exact absurd (hut' ▸ hu) (ht r)
    · exact absurd (hut ▸ hu') (ht r')
    · rw [hr, hr']
  below := by
    intro i u hu
    rcases mem_enqtail.mp hu with hu | ⟨-, rfl⟩
    · exact h.below hu
    · exact hbelow i rfl
  above := by
    intro u hu
    rcases mem_enqtail.mp hu with hu | ⟨rfl, rfl⟩
    · exact h.above hu
    · exact habove rfl

theorem WF.unlink (h : WF w) (t : Nat) : WF (w.unlink t) where
  cur := h.cur
  nodup := fun q => (h.nodup q).erase t
  disjoint := fun hu hu' =>
    h.disjoint ((mem_unlink h).mp hu).2 ((mem_unlink h).mp hu').2
  below := fun hu => h.below ((mem_unlink h).mp hu).2
  above := fun hu => h.above ((mem_unlink h).mp hu).2

theorem WF.stop (h : WF w) (t : Nat) : WF (w.stop t) := by
  unfold Wheel.stop
  split
  · exact h.unlink t
  · exact h

/-- Nothing of the invariant speaks of the periods or the phase. -/
theorem WF.of_eq {v : Wheel} (h : WF w) (hcur : v.cur < NTICK) (hqueue : v.queue = w.queue)
    (hleft : ∀ t ∈ w.queue .above, v.lefttick t = w.lefttick t) : WF v where
  cur := hcur
  nodup := hqueue ▸ h.nodup
  disjoint := hqueue ▸ h.disjoint
  below := hqueue ▸ h.below
  above := by
    intro t ht
    rw [hqueue] at ht
    rw [hleft t ht]
    exact h.above ht

end Unixlite.Timer
