import Unixlite.Kern.SignalRun

/-!
# Stop signals and SIGCONT

`task_t::post` is to take the four stop signals out of the pending set when it
posts SIGCONT or SIGKILL, and SIGCONT when it posts a stop signal.  The second
half deletes one signal and works; the first half goes through
`del(int, int, int, int)`, which joins four complements by "or" and deletes
nothing (`del4_stop`).  So a post cancels what it should if and only if there
is nothing to cancel when SIGCONT or SIGKILL is posted
(`cancels_post_iff`, and `stopcont_iff` for all sequences of posts).
-/

namespace Unixlite.Kern

open Unixlite.Verified.Run
open Task
open BitVec

/-! ## One-signal operations -/

theorem validsig_iff {a : Nat} : validsig a = true ↔ 0 < a ∧ a < 32 := by
  simp only [validsig, Bool.and_eq_true, decide_eq_true_eq]
  rfl

theorem sigbit_getLsbD (a i : Nat) :
    (sigbit a).getLsbD i = (decide (i < 32) && decide (i = a - 1)) := by
  simp only [sigbit, getLsbD_shiftLeft, getLsbD_one]
  by_cases h : i = a - 1
  · simp [h]
  · have hne : ¬ (a - 1 ≤ i ∧ i - (a - 1) = 0) := by omega
    by_cases hle : i < a - 1
    · simp [h, hle]
    · have : i - (a - 1) ≠ 0 := by omega
      simp [h, this]

namespace Sigset

/-- The numbers of two signals that are valid have the same bit only if they
are equal. -/
theorem contain_add {x : Sigset} {a b : Nat} (ha : validsig a = true) (hb : validsig b = true) :
    (x.add a).contain b = (x.contain b || decide (a = b)) := by
  rw [validsig_iff] at ha hb
  have hsame : (b - 1 = a - 1) = (a = b) := by
    apply propext
    omega
  have hlt : b - 1 < 32 := by omega
  simp only [contain_eq, Sigset.add, getLsbD_or, sigbit_getLsbD, hlt, hsame, decide_true,
    Bool.true_and]

theorem contain_del {x : Sigset} {a b : Nat} (ha : validsig a = true) (hb : validsig b = true) :
    (x.del a).contain b = (x.contain b && !decide (a = b)) := by
  rw [validsig_iff] at ha hb
  have hsame : (b - 1 = a - 1) = (a = b) := by
    apply propext
    omega
  have hlt : b - 1 < 32 := by omega
  simp only [contain_eq, Sigset.del, getLsbD_and, getLsbD_not, sigbit_getLsbD, hlt,
    hsame, decide_true, Bool.true_and]

/-- `del(SIGSTOP, SIGTSTP, SIGTTIN, SIGTTOU)` deletes nothing: no bit is missing
from all four complements. -/
theorem del4_stop (x : Sigset) : x.del4 SIGSTOP SIGTSTP SIGTTIN SIGTTOU = x := by
  have hall : (~~~sigbit SIGSTOP ||| ~~~sigbit SIGTSTP ||| ~~~sigbit SIGTTIN |||
      ~~~sigbit SIGTTOU) = BitVec.allOnes 32 := by
    decide
  simp only [del4, hall, and_allOnes]

end Sigset

/-! ## The two halves -/

/-- The signals that stop a task by default. -/
def stopsignals : List Nat := [SIGSTOP, SIGTSTP, SIGTTIN, SIGTTOU]

/-- The signals that are to undo a stop. -/
def contsignals : List Nat := [SIGCONT, SIGKILL]

theorem validsig_of_mem_stopsignals {a : Nat} (h : a ∈ stopsignals) : validsig a = true := by
  simp only [stopsignals, List.mem_cons, List.not_mem_nil, or_false] at h
  rcases h with rfl | rfl | rfl | rfl <;> decide

theorem not_mem_contsignals {a : Nat} (h : a ∈ stopsignals) : a ∉ contsignals := by
  simp only [stopsignals, List.mem_cons, List.not_mem_nil, or_false] at h
  rcases h with rfl | rfl | rfl | rfl <;> decide

namespace Task

/-- `this` is not `idletask` and not `inittask`, and not a zombie. -/
structure Ordinary (t : Task) : Prop where
  isidle : t.isidle = false
  isinit : t.isinit = false
  zombie : t.state ≠ .zombie

/-- A stop signal is pending. -/
def StopPending (t : Task) : Prop := ∃ a ∈ stopsignals, t.sigset.contain a = true

/-- A stop signal and SIGCONT are not pending together. -/
def Apart (t : Task) : Prop := ¬ (t.StopPending ∧ t.sigset.contain SIGCONT = true)

/-- What is to hold of a task when `signo` has been posted to it. -/
def Cancels (signo : Nat) (t : Task) : Prop :=
  (signo ∈ contsignals → ¬ t.StopPending) ∧
    (signo ∈ stopsignals → t.sigset.contain SIGCONT = false)

instance (t : Task) : Decidable t.StopPending :=
  inferInstanceAs (Decidable (∃ a ∈ stopsignals, t.sigset.contain a = true))

instance (t : Task) : Decidable t.Apart := inferInstanceAs (Decidable (¬ _))

instance (signo : Nat) (t : Task) : Decidable (Cancels signo t) :=
  inferInstanceAs (Decidable (_ ∧ _))

/-- The set after the `switch` of `post`. -/
def cancelled (t : Task) (signo : Nat) : Sigset :=
  if signo ∈ stopsignals then t.sigset.del SIGCONT else t.sigset

/-- The signal is dropped: ignored by the action, or by default. -/
def drops (t : Task) (signo : Nat) : Bool :=
  ((t.sigvec signo).func == SIGXIGN && signo != SIGCHLD) ||
    ((t.sigvec signo).func == SIGXDFL && sigdflign signo)

/-- **What `post` does**: it deletes SIGCONT before a stop signal and nothing
else, adds the signal unless it is dropped, and wakes a task that waits. -/
theorem post_eq {t : Task} (ht : t.Ordinary) (signo : Nat) :
    t.post signo =
      if t.drops signo then { t with sigset := t.cancelled signo }
      else
        { t with
          sigset := (t.cancelled signo).add signo
          state := if !t.sigmask.contain signo && t.state == .wait then .run else t.state } := by
  have hmem : signo ∈ stopsignals ↔
      signo = SIGSTOP ∨ signo = SIGTSTP ∨ signo = SIGTTIN ∨ signo = SIGTTOU := by
    simp [stopsignals]
  have hset : (if signo = SIGKILL ∨ signo = SIGCONT then
        t.sigset.del4 SIGSTOP SIGTSTP SIGTTIN SIGTTOU
      else if signo = SIGSTOP ∨ signo = SIGTSTP ∨ signo = SIGTTIN ∨ signo = SIGTTOU then
        t.sigset.del SIGCONT
      else t.sigset) = t.cancelled signo := by
    simp only [Sigset.del4_stop, cancelled, hmem]
    by_cases hcont : signo = SIGKILL ∨ signo = SIGCONT
    · rcases hcont with rfl | rfl <;> simp [SIGKILL, SIGCONT, SIGSTOP, SIGTSTP, SIGTTIN, SIGTTOU]
    · simp [hcont]
  have hstate : (t.state == Tstate.zombie) = false := by
    simpa using ht.zombie
  simp only [post, ht.isidle, ht.isinit, hstate, hset, Bool.or_self, Bool.false_and,
    Bool.false_eq_true, if_false, drops]
  cases (t.sigvec signo).func == SIGXIGN && signo != SIGCHLD <;>
    cases (t.sigvec signo).func == SIGXDFL && sigdflign signo <;>
    cases !t.sigmask.contain signo && t.state == Tstate.wait <;> simp

theorem post_sigset {t : Task} (ht : t.Ordinary) (signo : Nat) :
    (t.post signo).sigset =
      if t.drops signo then t.cancelled signo else (t.cancelled signo).add signo := by
  rw [post_eq ht]
  split <;> rfl

/-- Posting leaves the kind of the task as it is. -/
theorem Ordinary.post {t : Task} (ht : t.Ordinary) (signo : Nat) : (t.post signo).Ordinary := by
  rw [post_eq ht]
  split
  · exact ⟨ht.isidle, ht.isinit, ht.zombie⟩
  · refine ⟨ht.isidle, ht.isinit, ?_⟩
    show (if _ then Tstate.run else t.state) ≠ .zombie
    split
    · simp
    · exact ht.zombie

end Task

/-! ## One post -/

section Post

variable {t : Task} (ht : t.Ordinary) {signo : Nat} (hvalid : validsig signo = true)
include ht hvalid

/-- Every signal but the one posted was pending before. -/
theorem Task.pending_of_post {a : Nat} (ha : validsig a = true) (hne : signo ≠ a)
    (h : (t.post signo).sigset.contain a = true) : (t.cancelled signo).contain a = true := by
  rw [post_sigset ht] at h
  split at h
  · exact h
  · rwa [Sigset.contain_add hvalid ha, decide_eq_false hne, Bool.or_false] at h

/-- A signal that the `switch` leaves in the set is pending after the post. -/
theorem Task.pending_post {a : Nat} (ha : validsig a = true)
    (h : (t.cancelled signo).contain a = true) : (t.post signo).sigset.contain a = true := by
  rw [post_sigset ht]
  split
  · exact h
  · rw [Sigset.contain_add hvalid ha, h, Bool.true_or]

/-- The half that works: no SIGCONT is left when a stop signal is posted. -/
theorem Task.post_stop (hstop : signo ∈ stopsignals) :
    (t.post signo).sigset.contain SIGCONT = false := by
  have hne : signo ≠ SIGCONT := by
    rintro rfl
    exact absurd hstop (by decide)
  rw [Bool.eq_false_iff]
  intro hpend
  have := pending_of_post ht hvalid (by decide) hne hpend
  rw [cancelled, if_pos hstop, Sigset.contain_del (by decide) (by decide)] at this
  simp at this

/-- The half that does not: SIGCONT and SIGKILL leave the stop signals as they
were. -/
theorem Task.post_cont (hcont : signo ∈ contsignals) :
    (t.post signo).StopPending ↔ t.StopPending := by
  have hset : t.cancelled signo = t.sigset :=
    if_neg fun hstop => not_mem_contsignals hstop hcont
  constructor
  · rintro ⟨a, ha, hpend⟩
    have hne : signo ≠ a := by
      rintro rfl
      exact not_mem_contsignals ha hcont
    have := pending_of_post ht hvalid (validsig_of_mem_stopsignals ha) hne hpend
    exact ⟨a, ha, hset ▸ this⟩
  · rintro ⟨a, ha, hpend⟩
    refine ⟨a, ha, pending_post ht hvalid (validsig_of_mem_stopsignals ha) ?_⟩
    rw [hset]
    exact hpend

/-- **A post cancels what it is to cancel** exactly when SIGCONT and SIGKILL
find nothing to cancel. -/
theorem Task.cancels_post_iff :
    Cancels signo (t.post signo) ↔ (signo ∈ contsignals → ¬ t.StopPending) := by
  constructor
  · intro h hcont hstop
    exact h.1 hcont ((post_cont ht hvalid hcont).mpr hstop)
  · intro h
    refine ⟨fun hcont hstop => ?_, fun hstop => post_stop ht hvalid hstop⟩
    exact h hcont ((post_cont ht hvalid hcont).mp hstop)

/-- A post that cancels keeps the stop signals and SIGCONT apart. -/
theorem Task.Apart.post (hapart : t.Apart) (hok : signo ∈ contsignals → ¬ t.StopPending) :
    (t.post signo).Apart := by
  rintro ⟨⟨a, ha, hpend⟩, hcont⟩
  have hva := validsig_of_mem_stopsignals ha
  by_cases hstop : signo ∈ stopsignals
  · rw [post_stop ht hvalid hstop] at hcont
    exact absurd hcont (by simp)
  · have hset : t.cancelled signo = t.sigset := if_neg hstop
    have hne : signo ≠ a := by
      rintro rfl
      exact hstop ha
    have hold : t.StopPending := ⟨a, ha, hset ▸ pending_of_post ht hvalid hva hne hpend⟩
    by_cases hsig : signo = SIGCONT
    · exact hok (by simp [contsignals, hsig]) hold
    · exact hapart ⟨hold, hset ▸ pending_of_post ht hvalid (by decide) hsig hcont⟩

end Post

/-! ## Sequences of posts -/

/-- One post; `post` asserts that the number is valid. -/
def poststep (t : Task) (signo : Nat) : Option Task :=
  if validsig signo then some (t.post signo) else none

/-- SIGCONT and SIGKILL are posted only while no stop signal is pending. -/
def NoStop (t : Task) (signo : Nat) : Prop := signo ∈ contsignals → ¬ t.StopPending

theorem poststep_eq_some {t t' : Task} {signo : Nat} :
    poststep t signo = some t' ↔ validsig signo = true ∧ t.post signo = t' := by
  simp [poststep]

/-- The post leaves the set as it should. -/
def CancelsStep (t : Task) (signo : Nat) : Prop := Cancels signo (t.post signo)

theorem ordinary_always {t : Task} (ht : t.Ordinary) (signos : List Nat) :
    Always poststep Ordinary t signos := by
  refine always_of_step (fun t signo t' ht hstep => ?_) signos ht
  obtain ⟨-, rfl⟩ := poststep_eq_some.mp hstep
  exact ht.post signo

/-- Step by step, a post cancels exactly when it meets the condition. -/
theorem cancels_each_iff {t : Task} (ht : t.Ordinary) {signos : List Nat}
    (hvalid : ∀ signo ∈ signos, validsig signo = true) :
    Each poststep CancelsStep t signos ↔ Each poststep NoStop t signos := by
  have hsigs : Each poststep (fun _ signo => validsig signo = true) t signos :=
    each_of_forall hvalid t
  constructor
  · intro h
    refine Each.of_always ?_ (ordinary_always ht signos) (hsigs.and h)
    rintro u signo hu ⟨hsig, hcancels⟩
    exact (cancels_post_iff hu hsig).mp hcancels
  · intro h
    refine Each.of_always ?_ (ordinary_always ht signos) (hsigs.and h)
    rintro u signo hu ⟨hsig, hok⟩
    exact (cancels_post_iff hu hsig).mpr hok

/-- The stop signals and SIGCONT stay apart while every post meets the
condition. -/
theorem apart_always {t : Task} (ht : t.Ordinary) (hapart : t.Apart) {signos : List Nat}
    (hok : Each poststep NoStop t signos) : Always poststep Apart t signos := by
  have hstep : ∀ u signo u', (u.Ordinary ∧ u.Apart) → NoStop u signo →
      poststep u signo = some u' → u'.Ordinary ∧ u'.Apart := by
    rintro u signo u' ⟨hu, hua⟩ hok hstep
    obtain ⟨hsig, rfl⟩ := poststep_eq_some.mp hstep
    exact ⟨hu.post signo, hua.post hu hsig hok⟩
  exact (always_of_each hstep ⟨ht, hapart⟩ hok).mono fun _ h => h.2

/-- **Stop and continue cancel each other**, in a sequence of posts, exactly when
no SIGCONT or SIGKILL is posted while a stop signal is pending. -/
theorem stopcont_iff (t : Task) (signos : List Nat) (ht : t.Ordinary)
    (hvalid : ∀ signo ∈ signos, validsig signo = true) :
    (Each poststep CancelsStep t signos ∧ (t.Apart → Always poststep Task.Apart t signos)) ↔
      Each poststep NoStop t signos := by
  rw [cancels_each_iff ht hvalid]
  constructor
  · exact fun h => h.1
  · exact fun h => ⟨h, fun hapart => apart_always ht hapart h⟩

/-- A task with a handler for SIGCONT, and the default actions else. -/
def resumable : Task :=
  { bootTask false false with
    sigvec := Sigvec.set (fun _ => Sigact.zero) SIGCONT ⟨0x8048000, Sigset.clear, 0, 0⟩ }

theorem resumable_ordinary : resumable.Ordinary := ⟨rfl, rfl, by decide⟩

theorem stopcont_iff_resumable :
    (Each poststep CancelsStep resumable [SIGCONT, SIGTSTP] ∧
        (resumable.Apart → Always poststep Task.Apart resumable [SIGCONT, SIGTSTP])) ↔
      Each poststep NoStop resumable [SIGCONT, SIGTSTP] :=
  stopcont_iff resumable [SIGCONT, SIGTSTP] resumable_ordinary (by decide)

/-- SIGTSTP and then SIGCONT: both are pending. -/
theorem stopcont_together :
    resumable.Ordinary ∧ resumable.Apart ∧
      ¬ Task.Cancels SIGCONT ((resumable.post SIGTSTP).post SIGCONT) ∧
      ¬ ((resumable.post SIGTSTP).post SIGCONT).Apart :=
  ⟨resumable_ordinary, by decide, by decide, by decide⟩

end Unixlite.Kern
