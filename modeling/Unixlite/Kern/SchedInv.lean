import Unixlite.Kern.Sched

/-!
# The run queues

Each task is on one queue: a running one on that of its counter, any other on a
wait queue.  The operations take a task off its queue, change it and put it on
a queue again; `InvBut` is what holds in between.
-/

namespace Unixlite.Kern.Sched

open Unixlite.Verified.Bitmap Option

/-! ## The invariant -/

/-- Where a task may be. -/
def Home (x : Task) : Queue → Prop
  | .run i => x.state = .run ∧ i = x.counter.toNat
  | .wait _ => x.state ≠ .run

/-- Priority and counter are those of a run queue. -/
structure InRange (x : Task) : Prop where
  priority : 0 ≤ x.priority ∧ x.priority < 32
  counter : 0 ≤ x.counter ∧ x.counter < 32

/-- Bit `i` of `mask` says whether run queue `i` has a task. -/
def MaskOk (m : Machine) : Prop :=
  ∀ i < NRUNTASKQ, m.mask.getLsbD i = true ↔ m.queue (.run i) ≠ []

/-- The invariant, but for the mask and the task `away`, which is on no queue. -/
structure InvBut (m : Machine) (away : Option Nat) : Prop where
  all_nodup : m.alltaskq.Nodup
  idle_mem : idletask ∈ m.alltaskq
  idle_run : (m.task idletask).state = .run
  curr_mem : m.curr ∈ m.alltaskq
  range : ∀ t, t ∈ m.alltaskq ∨ t ∈ m.cloned → InRange (m.task t)
  cloned : ∀ t ∈ m.cloned, t ∉ m.alltaskq ∧ (m.task t).state = .run
  cloned_nodup : m.cloned.Nodup
  queue_nodup : ∀ q, (m.queue q).Nodup
  queued : ∀ t q, t ∈ m.queue q → t ∈ m.alltaskq ∧ away ≠ some t
  place : ∀ t ∈ m.alltaskq, away ≠ some t →
    m.linked t = true ∧ ∃ q, Home (m.task t) q ∧ ∀ q', t ∈ m.queue q' ↔ q' = q
  unlinked : ∀ t, away = some t → m.linked t = false

structure Inv (m : Machine) : Prop where
  but : InvBut m none
  mask : MaskOk m

/-- What the operations on one task leave alone. -/
structure Frame (m m' : Machine) : Prop where
  alltaskq : m'.alltaskq = m.alltaskq
  cloned : m'.cloned = m.cloned
  curr : m'.curr = m.curr

theorem Frame.refl (m : Machine) : Frame m m := ⟨rfl, rfl, rfl⟩

theorem Frame.trans {m₁ m₂ m₃ : Machine} (h : Frame m₁ m₂) (h' : Frame m₂ m₃) : Frame m₁ m₃ :=
  ⟨h'.alltaskq.trans h.alltaskq, h'.cloned.trans h.cloned, h'.curr.trans h.curr⟩

theorem between_iff {a b c : Int} : between a b c = true ↔ a ≤ b ∧ b < c := by
  simp [between]

theorem InRange.between {x : Task} (h : InRange x) : between 0 x.counter NRUNTASKQ = true :=
  between_iff.mpr h.counter

theorem InRange.counter_lt {x : Task} (h : InRange x) : x.counter.toNat < NRUNTASKQ := by
  have hcounter := h.counter
  unfold NRUNTASKQ
  omega

theorem nodup_append_singleton {l : List Nat} {t : Nat} (hl : l.Nodup) (ht : t ∉ l) :
    (l ++ [t]).Nodup :=
  hl.append (List.nodup_singleton t) (by simpa using ht)

/-! ## Off a queue and on one -/

namespace Machine

/-- Task `t` is taken off its queue. -/
def off (m : Machine) (t : Nat) : Machine :=
  { m with
    queue := fun q => (m.queue q).erase t
    linked := fun i => if i = t then false else m.linked i }

/-- Task `t` is put at the end of queue `q`. -/
def on (m : Machine) (q : Queue) (t : Nat) : Machine :=
  { m with
    queue := fun q' => if q' = q then m.queue q ++ [t] else m.queue q'
    linked := fun i => if i = t then true else m.linked i }

def setMask (m : Machine) (mask : BitVec 32) : Machine := { m with mask := mask }

end Machine

variable {m m' : Machine} {t : Nat} {q : Queue} {away : Option Nat} {x : Task}

theorem mem_on {q' : Queue} {i : Nat} :
    i ∈ (m.on q t).queue q' ↔ i ∈ m.queue q' ∨ i = t ∧ q' = q := by
  simp only [Machine.on]
  split
  · next hq =>
    subst hq
    simp
  · next hq => simp [hq]

theorem InvBut.setMask (h : InvBut m away) (mask : BitVec 32) : InvBut (m.setMask mask) away :=
  ⟨h.all_nodup, h.idle_mem, h.idle_run, h.curr_mem, h.range, h.cloned, h.cloned_nodup,
    h.queue_nodup, h.queued, h.place, h.unlinked⟩

theorem InvBut.of_needresched (h : InvBut m away) (b : Bool) :
    InvBut { m with needresched := b } away :=
  ⟨h.all_nodup, h.idle_mem, h.idle_run, h.curr_mem, h.range, h.cloned, h.cloned_nodup,
    h.queue_nodup, h.queued, h.place, h.unlinked⟩

theorem InvBut.off (h : InvBut m none) (ht : t ∈ m.alltaskq) :
    m.unlinkrun t = some (m.off t) ∧ InvBut (m.off t) (some t) := by
  obtain ⟨hlinked, q, -, hplace⟩ := h.place t ht (by simp)
  have hmem : ∀ i q', i ∈ (m.off t).queue q' ↔ i ≠ t ∧ i ∈ m.queue q' := fun i q' =>
    (h.queue_nodup q').mem_erase_iff
  refine ⟨if_pos hlinked, h.all_nodup, h.idle_mem, h.idle_run, h.curr_mem, h.range, h.cloned,
    h.cloned_nodup, fun q' => (h.queue_nodup q').erase t, ?_, ?_, ?_⟩
  · intro i q' hi
    obtain ⟨hne, hold⟩ := (hmem i q').mp hi
    exact ⟨(h.queued i q' hold).1, fun heq => hne (some.inj heq).symm⟩
  · intro i hi hne
    have hne' : i ≠ t := fun heq => hne (by rw [heq])
    obtain ⟨hlinked', q', hhome, hplace'⟩ := h.place i hi (by simp)
    refine ⟨(if_neg hne').trans hlinked', q', hhome, fun q'' => ?_⟩
    rw [hmem, hplace']
    exact and_iff_right hne'
  · rintro i heq
    exact if_pos (some.inj heq).symm

theorem InvBut.on (h : InvBut m (some t)) (ht : t ∈ m.alltaskq) (hhome : Home (m.task t) q) :
    m.enqtail q t = some (m.on q t) ∧ InvBut (m.on q t) none := by
  have hlinked := h.unlinked t rfl
  have hnot : ∀ q', t ∉ m.queue q' := fun q' hmem => (h.queued t q' hmem).2 rfl
  refine ⟨if_neg (by simp [hlinked]), h.all_nodup, h.idle_mem, h.idle_run, h.curr_mem, h.range,
    h.cloned, h.cloned_nodup, ?_, ?_, ?_, by simp⟩
  · intro q'
    by_cases hq : q' = q
    · subst hq
      simp only [Machine.on, if_true]
      exact nodup_append_singleton (h.queue_nodup q') (hnot q')
    · simp only [Machine.on, if_neg hq]
      exact h.queue_nodup q'
  · intro i q' hi
    rcases mem_on.mp hi with hold | ⟨rfl, -⟩
    · exact ⟨(h.queued i q' hold).1, by simp⟩
    · exact ⟨ht, by simp⟩
  · intro i hi _
    by_cases hit : i = t
    · subst hit
      refine ⟨if_pos rfl, q, hhome, fun q' => ?_⟩
      rw [mem_on]
      simp [hnot q']
    · obtain ⟨hlinked', q', hhome', hplace⟩ := h.place i hi fun heq => hit (some.inj heq).symm
      refine ⟨(if_neg hit).trans hlinked', q', hhome', fun q'' => ?_⟩
      rw [mem_on, hplace]
      simp [hit]

/-- A task changes; if it is on a queue, it may stay there. -/
theorem InvBut.setTask (h : InvBut m away) (ht : t ∉ m.cloned) (hx : InRange x)
    (hidle : t = idletask → x.state = .run)
    (hhome : away ≠ some t → ∀ q, Home (m.task t) q → Home x q) :
    InvBut (m.setTask t x) away where
  all_nodup := h.all_nodup
  idle_mem := h.idle_mem
  idle_run := by
    simp only [Machine.setTask]
    split
    · next heq => exact hidle heq.symm
    · exact h.idle_run
  curr_mem := h.curr_mem
  range := by
    intro i hi
    simp only [Machine.setTask]
    split
    · exact hx
    · exact h.range i hi
  cloned := by
    intro i hi
    have hne : i ≠ t := by
      rintro rfl
      exact ht hi
    simp only [Machine.setTask, if_neg hne]
    exact h.cloned i hi
  cloned_nodup := h.cloned_nodup
  queue_nodup := h.queue_nodup
  queued := h.queued
  place := by
    intro i hi hne
    obtain ⟨hlinked, q, hq, hplace⟩ := h.place i hi hne
    refine ⟨hlinked, q, ?_, hplace⟩
    simp only [Machine.setTask]
    split
    · next heq =>
      subst heq
      exact hhome hne q hq
    · exact hq
  unlinked := h.unlinked

theorem InvBut.not_cloned (h : InvBut m away) (ht : t ∈ m.alltaskq) : t ∉ m.cloned :=
  fun hmem => (h.cloned t hmem).1 ht

/-! ## The mask -/

/-- A running task is on the queue of its counter. -/
theorem InvBut.mem_run (h : InvBut m none) (ht : t ∈ m.alltaskq) (hrun : (m.task t).state = .run)
    (q : Queue) : t ∈ m.queue q ↔ q = .run (m.task t).counter.toNat := by
  obtain ⟨-, q', hhome, hplace⟩ := h.place t ht (by simp)
  cases q' with
  | run i =>
      obtain ⟨-, rfl⟩ := hhome
      exact hplace q
  | wait w => exact absurd hrun hhome

/-- Any other task is on no run queue. -/
theorem InvBut.not_mem_run (h : InvBut m none) (ht : t ∈ m.alltaskq)
    (hrun : (m.task t).state ≠ .run) (i : Nat) : t ∉ m.queue (.run i) := by
  obtain ⟨-, q', hhome, hplace⟩ := h.place t ht (by simp)
  cases q' with
  | run j => exact absurd hhome.1 hrun
  | wait w =>
      rw [hplace]
      simp

/-- `deqrun`: a queue that loses its last task loses its bit. -/
theorem deqrun_spec (h : Inv m) (ht : t ∈ m.alltaskq) (hrun : (m.task t).state = .run) :
    ∃ mask, m.deqrun t = some ((m.off t).setMask mask) ∧ MaskOk ((m.off t).setMask mask) := by
  have hrange := h.but.range t (.inl ht)
  have hmem := h.but.mem_run ht hrun
  have hunlink := (h.but.off ht).1
  generalize hc : (m.task t).counter.toNat = c at hmem
  have hother : ∀ i, i ≠ c → (m.off t).queue (.run i) = m.queue (.run i) := fun i hi =>
    List.erase_of_not_mem (by rw [hmem]; simpa using hi)
  have hbit : ∀ i < NRUNTASKQ, i ≠ c →
      (m.mask.getLsbD i = true ↔ (m.off t).queue (.run i) ≠ []) := by
    intro i hi hne
    rw [hother i hne]
    exact h.mask i hi
  by_cases hempty : (m.off t).queue (.run c) = []
  · refine ⟨m.mask &&& ~~~bit 32 c, ?_, fun i hi => ?_⟩
    · simp only [Machine.deqrun, hrange.between, if_true, hunlink, hc, bind_eq_bind,
        bind_some, hempty]
      rfl
    · have hclear := getLsbD_clear m.mask (i := c) hi
      change (m.mask &&& ~~~bit 32 c).getLsbD i = true ↔ (m.off t).queue (.run i) ≠ []
      rw [hclear]
      by_cases hne : i = c
      · simp [hne, hempty]
      · simp only [hne, ne_eq, not_false_eq_true, decide_true, Bool.and_true]
        exact hbit i hi hne
  · refine ⟨m.mask, ?_, fun i hi => ?_⟩
    · simp only [Machine.deqrun, hrange.between, if_true, hunlink, hc, bind_eq_bind,
        bind_some, hempty, if_false]
      rfl
    · change m.mask.getLsbD i = true ↔ (m.off t).queue (.run i) ≠ []
      by_cases hne : i = c
      · subst hne
        refine iff_of_true ((h.mask i hi).mpr ?_) hempty
        exact List.ne_nil_of_mem ((hmem (.run i)).mpr rfl)
      · exact hbit i hi hne

/-- `enqrun`: a queue that gets a task gets its bit. -/
theorem enqrun_spec (h : InvBut m (some t)) (hmask : MaskOk m) (ht : t ∈ m.alltaskq)
    (hrun : (m.task t).state = .run) :
    ∃ mask, m.enqrun t = some ((m.on (.run (m.task t).counter.toNat) t).setMask mask) ∧
      Inv ((m.on (.run (m.task t).counter.toNat) t).setMask mask) := by
  have hrange := h.range t (.inl ht)
  obtain ⟨henq, hbut⟩ := h.on ht (q := .run (m.task t).counter.toNat) ⟨hrun, rfl⟩
  generalize hc : (m.task t).counter.toNat = c at *
  refine ⟨m.mask ||| bit 32 c, ?_, hbut.setMask _, fun i hi => ?_⟩
  · simp only [Machine.enqrun, hrange.between, if_true, hc, henq, bind_eq_bind,
      bind_some]
    rfl
  · have hset := getLsbD_set m.mask (i := c) hi
    change (m.mask ||| bit 32 c).getLsbD i = true ↔ (m.on (.run c) t).queue (.run i) ≠ []
    rw [hset]
    by_cases hne : i = c
    · subst hne
      simp [Machine.on]
    · simp only [hne, decide_false, Bool.or_false, Machine.on, Queue.run.injEq, if_false]
      exact hmask i hi

/-! ## The operations -/

theorem setcounter_spec (h : Inv m) (ht : t ∈ m.alltaskq) {newval : Int}
    (hnew : 0 ≤ newval ∧ newval < 32) :
    ∃ m', m.setcounter t newval = some m' ∧ Inv m' ∧ Frame m m' ∧
      m'.task = fun i => if i = t then { m.task t with counter := newval } else m.task i := by
  have hrange := h.but.range t (.inl ht)
  have hx : InRange { m.task t with counter := newval } := ⟨hrange.priority, hnew⟩
  have hcloned := h.but.not_cloned ht
  unfold Machine.setcounter
  split
  · next hrun =>
    -- a task on a wait queue stays there
    refine ⟨_, rfl, ⟨h.but.setTask hcloned hx ?_ ?_, h.mask⟩, ⟨rfl, rfl, rfl⟩, rfl⟩
    · rintro rfl
      exact absurd h.but.idle_run hrun
    · intro _ q hhome
      cases q with
      | run i => exact absurd hhome.1 hrun
      | wait w => exact hhome
  next hrun =>
  have hrun : (m.task t).state = .run := not_not.mp hrun
  obtain ⟨mask, hdeq, hmask⟩ := deqrun_spec h ht hrun
  have hoff : InvBut ((m.off t).setMask mask) (some t) := (h.but.off ht).2.setMask mask
  have hset : InvBut (((m.off t).setMask mask).setTask t { m.task t with counter := newval })
      (some t) := hoff.setTask hcloned hx (fun _ => hrun) (fun hne => absurd rfl hne)
  have hstate : ((((m.off t).setMask mask).setTask t
      { m.task t with counter := newval }).task t).state = .run := by
    simp [Machine.setTask, hrun]
  obtain ⟨mask', henq, hinv⟩ := enqrun_spec hset hmask ht hstate
  exact ⟨_, by rw [hdeq]; exact henq, hinv, ⟨rfl, rfl, rfl⟩, rfl⟩

end Unixlite.Kern.Sched
