import Unixlite.Kern.Pipe

/-!
# Nobody sleeps in a pipe without a reason

Readers and writers share one queue, and whoever changes what they may wait for wakes all of
them.  So a reader sleeps only in front of an empty pipe with a writer, a writer only in front
of a full one with a reader, and neither with a signal (`wakes_always`).
-/

namespace Unixlite.Kern.Pipe

open Unixlite.Verified.Run

/-- What a task that stands at `f` has to wait for. -/
def Machine.Waits (m : Machine) : Frame → Prop
  | .out => True
  | .read _ => m.fifo.empty = true ∧ m.nwriter ≠ 0
  | .write _ _ => m.fifo.full = true ∧ m.nreader ≠ 0

/-- Whoever sleeps in the pipe has to. -/
def Wakes (m : Machine) : Prop :=
  ∀ tid, m.frame tid ≠ .out → (m.tasks tid).state = .wait →
    m.Waits (m.frame tid) ∧ (m.tasks tid).hassig = false

namespace Wakes

variable {m m' : Machine} {tid : Nat}

/-- Behind a `broadcast` nobody sleeps, whatever has changed. -/
theorem broadcast (m : Machine) : Wakes m.broadcast := by
  intro i hframe hwait
  have htask : m.broadcast.tasks i = Wait.wakeup (m.tasks i) := if_neg hframe
  rw [htask] at hwait
  exact absurd hwait (Wait.wakeup_state _)

theorem leave (h : Wakes m) (tid : Nat) (r : Ret) : Wakes (m.leave tid r) := by
  intro i hframe hwait
  by_cases hi : i = tid
  · exact absurd (if_pos hi) hframe
  · have hsame : (m.leave tid r).frame i = m.frame i := if_neg hi
    rw [hsame] at hframe ⊢
    exact h i hframe hwait

theorem setTask (h : Wakes m) {t : Task} (ht : m.frame tid ≠ .out → t.state = .wait →
      (m.tasks tid).state = .wait ∧ ((m.tasks tid).hassig = false → t.hassig = false)) :
    Wakes (m.setTask tid t) := by
  intro i hframe hwait
  by_cases hi : i = tid
  · subst hi
    have htask : (m.setTask i t).tasks i = t := if_pos rfl
    rw [htask] at hwait ⊢
    obtain ⟨hold, hsig⟩ := ht hframe hwait
    obtain ⟨hwaits, hno⟩ := h i hframe hold
    exact ⟨hwaits, hsig hno⟩
  · have htask : (m.setTask tid t).tasks i = m.tasks i := if_neg hi
    rw [htask] at hwait ⊢
    exact h i hframe hwait

theorem post (h : Wakes m) (tid signo : Nat) :
    Wakes (m.setTask tid ((m.tasks tid).post signo)) := by
  refine h.setTask fun _ hwait => ?_
  rcases Wait.post_state (m.tasks tid) signo with hstate | hrun
  · exact ⟨hstate ▸ hwait, fun hno => Wait.post_hassig hno hwait⟩
  · exact nomatch hrun.symm.trans hwait

/-- Who has something to wait for has it still. -/
theorem counts (h : Wakes m) {r w : Nat} (hr : m.nreader ≠ 0 → r ≠ 0)
    (hw : m.nwriter ≠ 0 → w ≠ 0) : Wakes { m with nreader := r, nwriter := w } := by
  intro i hframe hwait
  obtain ⟨hwaits, hno⟩ := h i hframe hwait
  refine ⟨?_, hno⟩
  dsimp only at hframe ⊢
  cases hat : m.frame i with
  | out => exact absurd hat hframe
  | read count =>
      rw [hat] at hwaits
      exact ⟨hwaits.1, hw hwaits.2⟩
  | write obuf buf =>
      rw [hat] at hwaits
      exact ⟨hwaits.1, hr hwaits.2⟩

theorem wait (h : Wakes m) {f : Frame} (hf : m.Waits f) (r : Ret) : Wakes (m.wait tid f r) := by
  unfold Machine.wait
  split
  · exact h.leave tid r
  next hsig =>
  intro i hframe hwait
  by_cases hi : i = tid
  · simp only [Machine.goto, Machine.setTask, if_pos hi]
    exact ⟨by cases f <;> exact hf, Bool.eq_false_iff.mpr hsig⟩
  · simp only [Machine.goto, Machine.setTask, if_neg hi] at hframe hwait ⊢
    obtain ⟨hwaits, hno⟩ := h i hframe hwait
    exact ⟨by cases hat : m.frame i <;> rw [hat] at hwaits <;> exact hwaits, hno⟩

theorem read (h : Wakes m) {count : Int} (hm : m.read tid count = some m') : Wakes m' := by
  unfold Machine.read at hm
  split at hm
  · next hempty =>
    split at hm
    · cases hm
      exact h.leave tid _
    · next hwriter =>
      cases hm
      exact h.wait (f := .read count) ⟨hempty, hwriter⟩ _
  · obtain ⟨x, -, hm⟩ := Option.bind_eq_some_iff.mp hm
    cases hm
    exact (broadcast _).leave tid _

/-- One round of a write: it is the last, or it has woken everybody. -/
theorem round {fuel : Nat} {obuf buf : List Lib.Byte} (h : Wakes m)
    (hm : Machine.write fuel m tid obuf buf = some m') :
    Wakes m' ∨ ∃ fuel' m₁ obuf' buf', fuel = fuel' + 1 ∧ Wakes m₁ ∧
      Machine.write fuel' m₁ tid obuf' buf' = some m' := by
  unfold Machine.write at hm
  split at hm
  · cases hm
    exact .inl (h.leave tid _)
  split at hm
  · cases hm
    exact .inl ((h.post tid SIGPIPE).leave tid _)
  split at hm
  · next hreader hfull =>
    cases hm
    exact .inl (h.wait (f := .write obuf buf) ⟨hfull, hreader⟩ _)
  split at hm
  · cases hm
  next fuel =>
  obtain ⟨x, -, hm⟩ := Option.bind_eq_some_iff.mp hm
  exact .inr ⟨fuel, _, _, _, rfl, broadcast _, hm⟩

theorem write {fuel : Nat} {obuf buf : List Lib.Byte} (h : Wakes m)
    (hm : Machine.write fuel m tid obuf buf = some m') : Wakes m' := by
  induction fuel generalizing m obuf buf with
  | zero => exact (h.round hm).resolve_right fun ⟨_, _, _, _, hfuel, _⟩ => nomatch hfuel
  | succ fuel ih =>
      rcases h.round hm with hlast | ⟨fuel', m₁, obuf', buf', hfuel, h₁, hm₁⟩
      · exact hlast
      · cases hfuel
        exact ih h₁ hm₁

theorem go {e : Event} (h : Wakes m) (hm : go m e = some m') : Wakes m' := by
  cases e with
  | read tid count ver =>
      simp only [Pipe.go] at hm
      split at hm
      · cases hm
      split at hm
      · cases hm
        exact h.leave tid _
      · exact h.read hm
  | write tid count buf ver =>
      simp only [Pipe.go] at hm
      split at hm
      · cases hm
      split at hm
      · cases hm
        exact h.leave tid _
      · exact h.write hm
  | resume tid =>
      simp only [Pipe.go] at hm
      split at hm
      · cases hm
      split at hm
      · cases hm
      · split at hm
        · cases hm
          exact h.leave tid _
        · exact h.read hm
      · split at hm
        · cases hm
          exact h.leave tid _
        · exact h.write hm
  | rhold =>
      cases hm
      exact h.counts (fun _ => Nat.succ_ne_zero _) id
  | whold =>
      cases hm
      exact h.counts id fun _ => Nat.succ_ne_zero _
  | rlose =>
      simp only [Pipe.go, Machine.rlose] at hm
      split_ifs at hm with h₀ h₁ h₂ <;> cases hm
      · exact h.counts (fun _ => h₁) id
      · exact broadcast { m with nreader := m.nreader - 1, alive := false }
      · exact broadcast _
  | wlose =>
      simp only [Pipe.go, Machine.wlose] at hm
      split_ifs at hm with h₀ h₁ h₂ <;> cases hm
      · exact h.counts id fun _ => h₁
      · exact broadcast { m with nwriter := m.nwriter - 1, alive := false }
      · exact broadcast _
  | post tid signo =>
      cases hm
      exact h.post tid signo
  | wakeup tid =>
      cases hm
      exact h.setTask fun _ hwait => absurd hwait (Wait.wakeup_state _)
  | other tid t =>
      simp only [Pipe.go] at hm
      split at hm
      · next hout =>
        cases hm
        exact h.setTask fun hframe => absurd hout hframe
      · cases hm

end Wakes

end Unixlite.Kern.Pipe
