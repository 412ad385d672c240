import Unixlite.Kern.SchedInv
import Unixlite.Verified.Run

/-!
# Runs of the scheduler

`find_spec`: one refill is enough, and what is found is the head of the highest
queue that has a task.  `runq_always` is the invariant of the run queues along
every run.
-/

namespace Unixlite.Kern.Sched

open Unixlite.Verified.Bitmap Unixlite.Verified.Run
open Machine
open List
open Option (bind_eq_bind bind_some some)

variable {m m' : Machine} {t : Nat}

/-! ## The operations -/

theorem waitsleep_spec (h : Inv m) (hrun : (m.task m.curr).state = .run)
    (hidle : m.curr ≠ idletask) {state : Tstate} (hstate : state ≠ .run) (q : Nat) :
    ∃ m', m.waitsleep q state = some m' ∧ Inv m' := by
  have ht := h.but.curr_mem
  obtain ⟨mask, hdeq, hmask⟩ := deqrun_spec h ht hrun
  have hoff : InvBut ((m.off m.curr).setMask mask) (some m.curr) :=
    (h.but.off ht).2.setMask mask
  have hrange := h.but.range m.curr (.inl ht)
  have hset : InvBut (((m.off m.curr).setMask mask).setTask m.curr
      { m.task m.curr with state := state }) (some m.curr) :=
    hoff.setTask (h.but.not_cloned ht) ⟨hrange.priority, hrange.counter⟩
      (fun heq => absurd heq hidle) (fun hne => absurd rfl hne)
  have hhome : Home ((((m.off m.curr).setMask mask).setTask m.curr
      { m.task m.curr with state := state }).task m.curr) (.wait q) := by
    simpa [setTask, Home] using hstate
  obtain ⟨henq, hbut⟩ := hset.on ht hhome
  refine ⟨_, by rw [waitsleep, hdeq]; exact henq, hbut, ?_⟩
  intro i hi
  exact hmask i hi

/-- A task that does not run leaves its wait queue. -/
theorem mask_off (h : Inv m) (ht : t ∈ m.alltaskq) (hrun : (m.task t).state ≠ .run) :
    MaskOk (m.off t) := by
  intro i hi
  have hsame : (m.off t).queue (.run i) = m.queue (.run i) :=
    erase_of_not_mem (h.but.not_mem_run ht hrun i)
  rw [hsame]
  exact h.mask i hi

/-- `wakeup`: a task that sleeps goes to its run queue. -/
theorem wakeup_spec (h : Inv m) (ht : t ∈ m.alltaskq) : ∃ m', m.wakeup t = some m' ∧ Inv m' := by
  unfold wakeup
  split
  · exact ⟨m, rfl, h⟩
  next hsleep =>
  have hrun : (m.task t).state ≠ .run := by
    intro hrun
    rw [hrun] at hsleep
    exact hsleep ⟨by decide, by decide⟩
  have hrange := h.but.range t (.inl ht)
  obtain ⟨hunlink, hoff⟩ := h.but.off ht
  have hset : InvBut ((m.off t).setTask t { m.task t with state := .run }) (some t) :=
    hoff.setTask (h.but.not_cloned ht) ⟨hrange.priority, hrange.counter⟩ (fun _ => rfl)
      (fun hne => absurd rfl hne)
  have hstate : (((m.off t).setTask t { m.task t with state := .run }).task t).state = .run := by
    simp [setTask]
  obtain ⟨mask, henq, hinv⟩ := enqrun_spec hset (mask_off h ht hrun) ht hstate
  have henq' : ((m.off t).setTask t { (m.off t).task t with state := .run }).enqrun t = _ := henq
  simp only [hunlink, bind_eq_bind, bind_some, henq']
  split
  · exact ⟨_, rfl, hinv.but.of_needresched true, hinv.mask⟩
  · exact ⟨_, rfl, hinv⟩

theorem signal_spec (h : Inv m) (q : Nat) : ∃ m', m.signal q = some m' ∧ Inv m' := by
  unfold signal
  split
  · exact ⟨m, rfl, h⟩
  · next t hhead => exact wakeup_spec h (h.but.queued t _ (mem_of_head? hhead)).1

theorem broadcast_inv {fuel : Nat} (h : Inv m) {q : Nat}
    (hm : broadcastLoop fuel m q = some m') : Inv m' := by
  induction fuel generalizing m with
  | zero =>
      unfold broadcastLoop at hm
      split at hm
      · cases hm
        exact h
      · cases hm
  | succ fuel ih =>
      unfold broadcastLoop at hm
      split at hm
      · cases hm
        exact h
      · obtain ⟨m₁, hsignal, h₁⟩ := signal_spec h q
        simp only [hsignal, bind_eq_bind, bind_some] at hm
        exact ih h₁ hm

theorem timerisr_spec (h : Inv m) : ∃ m', m.timerisr = some m' ∧ Inv m' := by
  have ht := h.but.curr_mem
  have hrange := h.but.range m.curr (.inl ht)
  unfold timerisr
  dsimp only
  split
  · exact ⟨m, rfl, h⟩
  split
  · exact ⟨_, rfl, h.but.of_needresched true, h.mask⟩
  next hcounter =>
  have hnew : 0 ≤ (m.task m.curr).counter - 1 ∧ (m.task m.curr).counter - 1 < 32 := by
    have hcounter' := hrange.counter
    omega
  obtain ⟨m₁, hset, h₁, -, -⟩ := setcounter_spec h ht hnew
  exact ⟨{ m₁ with needresched := true }, by rw [hset]; rfl, h₁.but.of_needresched true, h₁.mask⟩

/-- `sysnice` keeps the priority that of a run queue. -/
theorem nice_spec (h : Inv m) (hrun : (m.task m.curr).state = .run) (inc : Int) (suser : Bool) :
    ∃ m', m.sysnice inc suser = some m' ∧ Inv m' := by
  have ht := h.but.curr_mem
  have hrange := h.but.range m.curr (.inl ht)
  unfold sysnice
  split
  · exact ⟨m, rfl, h⟩
  dsimp only
  obtain ⟨x, hx, hxrange, hstate, hcounter⟩ : ∃ x : Task,
      x = (if between 0 (Int.bmod ((m.task m.curr).priority - inc) (2 ^ 32)) NRUNTASKQ then
        { m.task m.curr with priority := Int.bmod ((m.task m.curr).priority - inc) (2 ^ 32) }
        else m.task m.curr) ∧ InRange x ∧ x.state = .run ∧
      x.counter = (m.task m.curr).counter := by
    refine ⟨_, rfl, ?_⟩
    split
    · next hprio => exact ⟨⟨between_iff.mp hprio, hrange.counter⟩, hrun, rfl⟩
    · exact ⟨hrange, hrun, rfl⟩
  rw [← hx]
  have hset : Inv (m.setTask m.curr x) := by
    refine ⟨h.but.setTask (h.but.not_cloned ht) hxrange (fun _ => hstate) fun _ q hhome => ?_,
      h.mask⟩
    cases q with
    | run i => exact ⟨hstate, by rw [hcounter]; exact hhome.2⟩
    | wait w => exact absurd hrun hhome
  have hzero : (0 : Int) ≤ 0 ∧ (0 : Int) < 32 := by decide
  obtain ⟨m₁, hcall, h₁, -, -⟩ := setcounter_spec hset ht hzero
  exact ⟨m₁, hcall, h₁⟩

/-- `clone` makes a task that is on no queue. -/
theorem clone_inv (h : Inv m) (hall : t ∉ m.alltaskq) (hcloned : t ∉ m.cloned) :
    Inv (m.clone t) := by
  have hrange := h.but.range m.curr (.inl h.but.curr_mem)
  have hsame : ∀ i, i ≠ t → (m.clone t).task i = m.task i := fun i hi => if_neg hi
  have hnew : (m.clone t).task t = { m.task m.curr with state := .run } := if_pos rfl
  have hne : ∀ i ∈ m.alltaskq, i ≠ t := by
    rintro i hi rfl
    exact hall hi
  refine ⟨⟨h.but.all_nodup, h.but.idle_mem, ?_, h.but.curr_mem, ?_, ?_,
    nodup_cons.mpr ⟨hcloned, h.but.cloned_nodup⟩, h.but.queue_nodup, h.but.queued, ?_,
    h.but.unlinked⟩, h.mask⟩
  · rw [hsame idletask (hne idletask h.but.idle_mem)]
    exact h.but.idle_run
  · intro i hi
    by_cases hit : i = t
    · rw [hit, hnew]
      exact ⟨hrange.priority, hrange.counter⟩
    · rw [hsame i hit]
      refine h.but.range i (hi.imp id fun hmem => ?_)
      exact (mem_cons.mp hmem).resolve_left hit
  · intro i hi
    rcases mem_cons.mp hi with rfl | hmem
    · exact ⟨hall, by rw [hnew]⟩
    · have hit : i ≠ t := by
        rintro rfl
        exact hcloned hmem
      rw [hsame i hit]
      exact h.but.cloned i hmem
  · intro i hi hoff
    rw [hsame i (hne i hi)]
    exact h.but.place i hi hoff

/-- `install`: a new task goes to the queue of the counter it was made with. -/
theorem install_spec (h : Inv m) (ht : t ∈ m.cloned) : ∃ m', m.install t = some m' ∧ Inv m' := by
  obtain ⟨hall, hrun⟩ := h.but.cloned t ht
  have hne : ∀ i ∈ m.alltaskq, i ≠ t := by
    rintro i hi rfl
    exact hall hi
  let m₁ : Machine := { m with
    alltaskq := m.alltaskq ++ [t]
    cloned := m.cloned.erase t
    linked := fun i => if i = t then false else m.linked i }
  have hbut : InvBut m₁ (some t) := by
    refine ⟨nodup_append_singleton h.but.all_nodup hall, mem_append_left _ h.but.idle_mem,
      h.but.idle_run, mem_append_left _ h.but.curr_mem, ?_, ?_, h.but.cloned_nodup.erase t,
      h.but.queue_nodup, ?_, ?_, ?_⟩
    · rintro i (hi | hi)
      · rcases mem_append.mp hi with hi | hi
        · exact h.but.range i (.inl hi)
        · rw [mem_singleton.mp hi]
          exact h.but.range t (.inr ht)
      · exact h.but.range i (.inr (mem_of_mem_erase hi))
    · intro i hi
      obtain ⟨hit, hmem⟩ := h.but.cloned_nodup.mem_erase_iff.mp hi
      obtain ⟨hout, hstate⟩ := h.but.cloned i hmem
      refine ⟨fun hin => ?_, hstate⟩
      rcases mem_append.mp hin with hin | hin
      · exact hout hin
      · exact hit (mem_singleton.mp hin)
    · intro i q hi
      have hmem := (h.but.queued i q hi).1
      exact ⟨mem_append_left _ hmem, fun heq => hne i hmem (some.inj heq).symm⟩
    · intro i hi hoff
      have hit : i ≠ t := fun heq => hoff (by rw [heq])
      have hmem : i ∈ m.alltaskq :=
        (mem_append.mp hi).resolve_right fun hin => hit (mem_singleton.mp hin)
      obtain ⟨hlinked, q, hplace⟩ := h.but.place i hmem (by simp)
      exact ⟨(if_neg hit).trans hlinked, q, hplace⟩
    · intro i heq
      exact if_pos (some.inj heq).symm
  obtain ⟨mask, henq, hinv⟩ := enqrun_spec hbut h.mask (by simp [m₁]) hrun
  exact ⟨_, henq, hinv⟩

/-- `uninstall`: a zombie is taken off its queue and forgotten. -/
theorem uninstall_inv (h : Inv m) (ht : t ∈ m.alltaskq) (hcurr : t ≠ m.curr)
    (hm : m.uninstall t = some m') : Inv m' := by
  unfold uninstall at hm
  split at hm
  · next hzombie =>
    have hrun : (m.task t).state ≠ .run := by
      rw [hzombie]
      decide
    obtain ⟨hunlink, hoff⟩ := h.but.off ht
    have hlinked := (h.but.place t ht (by simp)).1
    rw [unlinkrun, if_pos hlinked, some.injEq] at hm
    subst hm
    have hkeep : ∀ i, i ∈ m.alltaskq.erase t ↔ i ≠ t ∧ i ∈ m.alltaskq := fun i =>
      h.but.all_nodup.mem_erase_iff
    refine ⟨⟨h.but.all_nodup.erase t, (hkeep _).mpr ⟨?_, h.but.idle_mem⟩, h.but.idle_run,
      (hkeep _).mpr ⟨hcurr.symm, h.but.curr_mem⟩, ?_, ?_, h.but.cloned_nodup, hoff.queue_nodup, ?_,
      ?_, by simp⟩, fun i hi => mask_off h ht hrun i hi⟩
    · rintro rfl
      exact hrun h.but.idle_run
    · rintro i (hi | hi)
      · exact h.but.range i (.inl ((hkeep i).mp hi).2)
      · exact h.but.range i (.inr hi)
    · intro i hi
      obtain ⟨hout, hstate⟩ := h.but.cloned i hi
      exact ⟨fun hin => hout ((hkeep i).mp hin).2, hstate⟩
    · intro i q hi
      obtain ⟨hmem, hne⟩ := hoff.queued i q hi
      exact ⟨(hkeep i).mpr ⟨fun heq => hne (by rw [heq]), hmem⟩, by simp⟩
    · intro i hi _
      obtain ⟨hit, hmem⟩ := (hkeep i).mp hi
      exact hoff.place i hmem fun heq => hit (some.inj heq).symm
  · cases hm

/-! ## `find` -/

/-- What `find` gives a task is a counter. -/
theorem quota_range (h : Inv m) (ht : t ∈ m.alltaskq) : 0 ≤ m.quota t ∧ m.quota t < 32 := by
  have hrange := h.but.range t (.inl ht)
  have hprio := hrange.priority
  have hcounter := hrange.counter
  unfold quota NRUNTASKQ
  dsimp only
  split_ifs <;> omega

/-- The refill of the tasks `ts`; the others are as they were. -/
theorem refill_spec {ts : List Nat} (h : Inv m) (hts : ts.Nodup) (hall : ∀ t ∈ ts, t ∈ m.alltaskq) :
    ∃ m', refill ts m = some m' ∧ Inv m' ∧ Frame m m' ∧
      (∀ t, t ∉ ts → m'.task t = m.task t) ∧
      (idletask ∈ ts → (m'.task idletask).counter = 1) := by
  induction ts generalizing m with
  | nil => exact ⟨m, rfl, h, .refl m, fun _ _ => rfl, by simp⟩
  | cons t ts ih =>
      have ht := hall t mem_cons_self
      obtain ⟨htnot, hts⟩ := nodup_cons.mp hts
      obtain ⟨m₁, hset, h₁, hframe, htask⟩ := setcounter_spec h ht (quota_range h ht)
      have hall₁ : ∀ i ∈ ts, i ∈ m₁.alltaskq := fun i hi =>
        hframe.alltaskq ▸ hall i (mem_cons_of_mem t hi)
      obtain ⟨m₂, hrefill, h₂, hframe₂, hsame, hidle⟩ := ih h₁ hts hall₁
      refine ⟨m₂, by rw [refill, hset]; exact hrefill, h₂, hframe.trans hframe₂, ?_, ?_⟩
      · intro i hi
        obtain ⟨hit, hnot⟩ := not_or.mp (mem_cons.not.mp hi)
        rw [hsame i hnot, htask]
        exact if_neg hit
      · intro hmem
        rcases mem_cons.mp hmem with heq | hmem
        · subst heq
          rw [hsame _ htnot, htask]
          simp [quota]
        · exact hidle hmem

/-- The head of the highest run queue that has a task. -/
def Highest (m : Machine) (t : Nat) : Prop :=
  ∃ i < NRUNTASKQ, (m.queue (.run i)).head? = some t ∧
    ∀ j, i < j → j < NRUNTASKQ → m.queue (.run j) = []

/-- Where some queue but the lowest has a task, `find` takes the highest. -/
theorem findRepeat_high (h : Inv m) {i : Nat} (hi : i < NRUNTASKQ) (hpos : 0 < i)
    (hne : m.queue (.run i) ≠ []) (fuel : Nat) :
    ∃ t, findRepeat fuel m = some (t, m) ∧ Highest m t := by
  obtain ⟨j, hbsr, hle, hlt, hbit, hhigh⟩ := bsr_spec m.mask hi ((h.mask i hi).mpr hne)
  have hj : m.queue (.run j) ≠ [] := (h.mask j hlt).mp hbit
  obtain ⟨t, rest, hqueue⟩ := exists_cons_of_ne_nil hj
  have hhead : (m.queue (.run j)).head? = some t := by rw [hqueue, List.head?_cons]
  have hmem : t ∈ m.queue (.run j) := mem_of_head? hhead
  have hall := (h.but.queued t _ hmem).1
  have hrun : (m.task t).state = .run := by
    by_contra hrun
    exact h.but.not_mem_run hall hrun j hmem
  refine ⟨t, ?_, j, hlt, hhead, ?_⟩
  · unfold findRepeat
    simp only [hbsr, bind_eq_bind, bind_some, if_neg (show ¬ j = 0 by omega), hhead,
      hrun, if_true]
    rfl
  · intro k hk hkn
    by_contra hk'
    have hkbit := (h.mask k hkn).mpr hk'
    rw [hhigh k hk hkn] at hkbit
    cases hkbit

/-- The idle task is on a run queue. -/
theorem idle_queue (h : Inv m) : m.queue (.run (m.task idletask).counter.toNat) ≠ [] :=
  ne_nil_of_mem ((h.but.mem_run h.but.idle_mem h.but.idle_run _).mpr rfl)

theorem checkmask_spec (h : Inv m) : m.checkmask = true := by
  have hrange := h.but.range idletask (.inl h.but.idle_mem)
  have hbit := (h.mask _ hrange.counter_lt).mpr (idle_queue h)
  simp only [checkmask, Bool.and_eq_true, bne_iff_ne, ne_eq, all_eq_true,
    mem_range, beq_iff_eq]
  constructor
  · intro hzero
    rw [hzero] at hbit
    simp at hbit
  · intro i hi
    have hmask := h.mask i hi
    cases hb : m.mask.getLsbD i with
    | true => simpa [hb] using hmask.mp hb
    | false =>
        simp only [hb, Bool.false_eq_true, false_iff, ne_eq, not_not] at hmask
        simp [hmask]

/-- `find` ends after at most one refill, with the head of the highest queue
that has a task. -/
theorem find_spec (h : Inv m) :
    ∃ t m', m.find = some (t, m') ∧ Inv m' ∧ Frame m m' ∧ Highest m' t ∧
      ((∃ i, 0 < i ∧ i < NRUNTASKQ ∧ m.queue (.run i) ≠ []) → m' = m) := by
  rw [find, if_pos (checkmask_spec h)]
  by_cases hhigh : ∃ i, 0 < i ∧ i < NRUNTASKQ ∧ m.queue (.run i) ≠ []
  · obtain ⟨i, hpos, hi, hne⟩ := hhigh
    obtain ⟨t, hfind, htop⟩ := findRepeat_high h hi hpos hne NRUNTASKQ
    exact ⟨t, m, hfind, h, .refl m, htop, fun _ => rfl⟩
  · -- all that run have used up their time
    have hzero : bsr m.mask = some 0 := by
      have hrange := h.but.range idletask (.inl h.but.idle_mem)
      have hbit := (h.mask _ hrange.counter_lt).mpr (idle_queue h)
      obtain ⟨j, hbsr, -, hlt, hbit, -⟩ := bsr_spec m.mask hrange.counter_lt hbit
      have hj : j = 0 := by
        by_contra hj
        exact hhigh ⟨j, Nat.pos_of_ne_zero hj, hlt, (h.mask j hlt).mp hbit⟩
      rw [hbsr, hj]
    obtain ⟨m₁, hrefill, h₁, hframe, -, hidle⟩ :=
      refill_spec h h.but.all_nodup fun _ ht => ht
    have hone : m₁.queue (.run 1) ≠ [] := by
      have hqueue := idle_queue h₁
      rwa [hidle h.but.idle_mem] at hqueue
    obtain ⟨t, hfind, htop⟩ := findRepeat_high h₁ (by decide) Nat.one_pos hone 31
    refine ⟨t, m₁, ?_, h₁, hframe, htop, fun hex => absurd hex hhigh⟩
    rw [show NRUNTASKQ = 31 + 1 from rfl, findRepeat]
    simp only [hzero, bind_eq_bind, bind_some, if_true, hrefill]
    exact hfind

/-! ## Runs -/

/-- The run queues are in order. -/
structure RunqOk (m : Machine) : Prop where
  /-- A task that runs is on the queue of its counter, once, and on no other. -/
  running : ∀ t ∈ m.alltaskq, (m.task t).state = .run →
    0 ≤ (m.task t).counter ∧ (m.task t).counter < NRUNTASKQ ∧
      ∀ q, t ∈ m.queue q ↔ q = .run (m.task t).counter.toNat
  once : ∀ q, (m.queue q).Nodup
  /-- No other task is on a run queue. -/
  others : ∀ t i, t ∈ m.queue (.run i) → t ∈ m.alltaskq ∧ (m.task t).state = .run
  mask : ∀ i < NRUNTASKQ, m.mask.getLsbD i = true ↔ m.queue (.run i) ≠ []
  /-- `find` ends, and takes the head of the highest queue with a task; if that
  is the lowest, the tasks get their time first. -/
  find : ∃ t m', m.find = some (t, m') ∧ Highest m' t ∧
    ((∃ i, 0 < i ∧ i < NRUNTASKQ ∧ m.queue (.run i) ≠ []) → m' = m)

theorem Inv.runqOk (h : Inv m) : RunqOk m where
  running := by
    intro t ht hrun
    have hcounter := (h.but.range t (.inl ht)).counter
    exact ⟨hcounter.1, hcounter.2, h.but.mem_run ht hrun⟩
  once := h.but.queue_nodup
  others := by
    intro t i hmem
    have hall := (h.but.queued t _ hmem).1
    refine ⟨hall, ?_⟩
    by_contra hrun
    exact h.but.not_mem_run hall hrun i hmem
  mask := h.mask
  find := by
    obtain ⟨t, m', hfind, -, -, htop, hsame⟩ := find_spec h
    exact ⟨t, m', hfind, htop, hsame⟩

/-- `sched` changes `curr`, and counters in `find`. -/
theorem sched_spec (h : Inv m) : ∃ m', m.sched = some m' ∧ Inv m' := by
  obtain ⟨t, m₁, hfind, h₁, -, ⟨i, -, hhead, -⟩, -⟩ := find_spec h
  have ht : t ∈ m₁.alltaskq := (h₁.but.queued t _ (mem_of_head? hhead)).1
  simp only [sched, hfind, bind_eq_bind, bind_some]
  split
  · exact ⟨_, rfl, h₁.but.of_needresched false, h₁.mask⟩
  · have hbut := h₁.but
    exact ⟨_, rfl, ⟨hbut.all_nodup, hbut.idle_mem, hbut.idle_run, ht, hbut.range, hbut.cloned,
      hbut.cloned_nodup, hbut.queue_nodup, hbut.queued, hbut.place, hbut.unlinked⟩, h₁.mask⟩

theorem running_iff : m.running = true ↔ (m.task m.curr).state = .run := by
  simp [running]

/-- An operation that returns a good machine does so. -/
theorem inv_of_some {r : Option Machine} (h : ∃ m₁, r = some m₁ ∧ Inv m₁) (hm : r = some m') :
    Inv m' := by
  obtain ⟨m₁, hr, h₁⟩ := h
  rw [hm, some.injEq] at hr
  exact hr ▸ h₁

theorem step_inv {e : Event} (h : Inv m) (hm : step m e = some m') : Inv m' := by
  cases e with
  | clone t =>
      simp only [step] at hm
      split at hm
      · next hnew =>
        cases hm
        exact clone_inv h hnew.2.1 hnew.2.2
      · cases hm
  | install t =>
      simp only [step] at hm
      split at hm
      · next hcan => exact inv_of_some (install_spec h hcan.2) hm
      · cases hm
  | timerisr => exact inv_of_some (timerisr_spec h) hm
  | setcounter t newval =>
      simp only [step] at hm
      split at hm
      · next hcan =>
        obtain ⟨m₁, hset, h₁, -, -⟩ := setcounter_spec h hcan.1 (between_iff.mp hcan.2)
        exact inv_of_some ⟨m₁, hset, h₁⟩ hm
      · cases hm
  | nice inc suser =>
      simp only [step] at hm
      split at hm
      · next hrun => exact inv_of_some (nice_spec h (running_iff.mp hrun) inc suser) hm
      · cases hm
  | waitsleep q state =>
      simp only [step] at hm
      split at hm
      · next hcan =>
        exact inv_of_some (waitsleep_spec h (running_iff.mp hcan.1) hcan.2.1 hcan.2.2 q) hm
      · cases hm
  | wakeup t =>
      simp only [step] at hm
      split at hm
      · next ht => exact inv_of_some (wakeup_spec h ht) hm
      · cases hm
  | signal q => exact inv_of_some (signal_spec h q) hm
  | broadcast q => exact broadcast_inv h hm
  | sched => exact inv_of_some (sched_spec h) hm
  | prempt =>
      simp only [step, prempt] at hm
      split at hm
      · exact inv_of_some (sched_spec h) hm
      · cases hm
        exact h
  | uninstall t =>
      simp only [step] at hm
      split at hm
      · next hcan => exact uninstall_inv h hcan.2.1 hcan.2.2 hm
      · cases hm

/-- The idle task is put on the queue of its counter. -/
theorem launchidletask_inv (task : Nat → Task) (linked : Nat → Bool) :
    ∃ m, launchidletask task linked = some m ∧ Inv m := by
  let m₀ : Machine :=
    { task := fun i => if i = idletask then ⟨.run, 16, 1⟩ else task i
      alltaskq := [idletask]
      cloned := []
      queue := fun _ => []
      linked := fun i => if i = idletask then false else linked i
      mask := 0
      curr := idletask
      needresched := false }
  have hbut : InvBut m₀ (some idletask) := by
    refine ⟨nodup_singleton _, mem_singleton_self _, rfl, mem_singleton_self _,
      ?_, by simp [m₀], nodup_nil, fun _ => nodup_nil, by simp [m₀], ?_, ?_⟩
    · rintro i (hi | hi)
      · rw [mem_singleton.mp hi]
        have hidle : InRange ⟨.run, 16, 1⟩ := ⟨by decide, by decide⟩
        exact hidle
      · exact absurd hi not_mem_nil
    · intro i hi hne
      exact absurd (by rw [mem_singleton.mp hi]) hne
    · intro i heq
      exact if_pos (some.inj heq).symm
  have hmask : MaskOk m₀ := by
    intro i _
    simp [m₀]
  obtain ⟨mask, henq, hinv⟩ := enqrun_spec hbut hmask (mem_singleton_self _) rfl
  exact ⟨_, henq, hinv⟩

/-- `sched` leaves the processor to a task that runs, and no other has more time left. -/
def Picks (m : Machine) : Prop :=
  ∃ m', m.sched = some m' ∧ (m'.task m'.curr).state = .run ∧ ∀ t ∈ m'.alltaskq,
    (m'.task t).state = .run → (m'.task t).counter ≤ (m'.task m'.curr).counter

theorem Inv.picks (h : Inv m) : Picks m := by
  obtain ⟨t, m₁, hfind, h₁, -, ⟨i, -, hhead, hhigh⟩, -⟩ := find_spec h
  have hmem := mem_of_head? hhead
  have ht := (h₁.but.queued t _ hmem).1
  have hrun : (m₁.task t).state = .run := by
    by_contra hne
    exact h₁.but.not_mem_run ht hne i hmem
  have hi : i = (m₁.task t).counter.toNat := by
    simpa using (h₁.but.mem_run ht hrun (.run i)).mp hmem
  have htop : ∀ u ∈ m₁.alltaskq, (m₁.task u).state = .run →
      (m₁.task u).counter ≤ (m₁.task t).counter := by
    intro u hu hrunu
    have hrange := h₁.but.range u (.inl hu)
    have hpos := (h₁.but.range t (.inl ht)).counter
    by_contra hlt
    have hqueue := (h₁.but.mem_run hu hrunu _).mpr rfl
    rw [hhigh _ (by omega) hrange.counter_lt] at hqueue
    exact not_mem_nil hqueue
  simp only [Picks, sched, hfind, bind_eq_bind, bind_some]
  split
  · next hsame => exact ⟨_, rfl, hsame.1, fun u hu hrunu => hsame.2 ▸ htop u hu hrunu⟩
  · exact ⟨_, rfl, hrun, htop⟩

end Unixlite.Kern.Sched
