import Unixlite.Verified.Run
import Unixlite.Lib.Errno
import Mathlib.Data.Finset.Insert

/-!
# User and group ids

`kern/uidgid.cc`: the two BSD calls `setreuid` and `setregid` and the two calls
with saved ids `setuid` and `setgid`.  The tests of a call mix the ids from before
it with those it has already stored, and a call with two arguments takes the first
back when the second is refused.

`step_subset` says what a call of a task with a non-zero `euid` can do; the run
theorem `dropped` follows from it.
-/

namespace Unixlite.Kern.Uidgid

open Unixlite.Verified.Run

/-- `uid_t` and `gid_t`. -/
abbrev Id := BitVec 16

/-- `(uid_t) -1`: leave the id as it is. -/
def KEEP : Id := -1

/-! ## The ids of a task -/

/-- The three user ids of a task, or its three group ids. -/
structure Ids where
  real : Id
  eff : Id
  saved : Id
  deriving DecidableEq, Repr

/-- The ids as a set. -/
def Ids.set (i : Ids) : Finset Id := {i.real, i.eff, i.saved}

theorem Ids.mem_set {i : Ids} {x : Id} : x ∈ i.set ↔ x = i.real ∨ x = i.eff ∨ x = i.saved := by
  simp [set]

@[simp] theorem Ids.real_mem (i : Ids) : i.real ∈ i.set := by simp [mem_set]
@[simp] theorem Ids.eff_mem (i : Ids) : i.eff ∈ i.set := by simp [mem_set]
@[simp] theorem Ids.saved_mem (i : Ids) : i.saved ∈ i.set := by simp [mem_set]

theorem Ids.set_subset {i j : Ids} (hreal : i.real ∈ j.set) (heff : i.eff ∈ j.set)
    (hsaved : i.saved ∈ j.set) : i.set ⊆ j.set := by
  intro x hx
  rcases mem_set.mp hx with rfl | rfl | rfl
  · exact hreal
  · exact heff
  · exact hsaved

/-- The fields `uid`, `euid`, `suid` and `gid`, `egid`, `sgid` of `task_t`. -/
structure Creds where
  u : Ids
  g : Ids
  deriving DecidableEq, Repr

def Creds.suser (t : Creds) : Bool := t.u.eff == 0

/-! ## The calls -/

/-- The second test of `syssetreuid` and `syssetregid`: `old` is the real id from before
the call, which a refusal puts back. -/
def Ids.setEff (i : Ids) (old : Id) (suser : Bool) (eid : Id) : Int × Ids :=
  if eid ≠ KEEP then
    if old = eid ∨ i.eff = eid ∨ suser then (0, { i with eff := eid, saved := eid })
    else (EPERM, { i with real := old })
  else (0, i)

/-- The body of `syssetreuid` and of `syssetregid`. -/
def Ids.setre (i : Ids) (suser : Bool) (rid eid : Id) : Int × Ids :=
  let old := i.real
  if rid ≠ KEEP then
    if i.eff = rid ∨ old = rid ∨ suser then { i with real := rid }.setEff old suser eid
    else (EPERM, i)
  else i.setEff old suser eid

/-- The body of `syssetuid` and of `syssetgid`. -/
def Ids.setid (i : Ids) (suser : Bool) (id : Id) : Int × Ids :=
  if suser then (0, ⟨id, id, id⟩)
  else if id = i.real ∨ id = i.saved then (0, { i with eff := id })
  else (EPERM, i)

def syssetregid (t : Creds) (rgid egid : Id) : Int × Creds :=
  let r := t.g.setre t.suser rgid egid
  (r.1, { t with g := r.2 })

def syssetgid (t : Creds) (gid : Id) : Int × Creds :=
  let r := t.g.setid t.suser gid
  (r.1, { t with g := r.2 })

def syssetreuid (t : Creds) (ruid euid : Id) : Int × Creds :=
  let r := t.u.setre t.suser ruid euid
  (r.1, { t with u := r.2 })

def syssetuid (t : Creds) (uid : Id) : Int × Creds :=
  let r := t.u.setid t.suser uid
  (r.1, { t with u := r.2 })

/-- A call with its arguments. -/
inductive Call where
  | setuid (uid : Id)
  | setreuid (ruid euid : Id)
  | setgid (gid : Id)
  | setregid (rgid egid : Id)
  deriving DecidableEq, Repr

/-- The result of a call and the ids after it. -/
def Creds.call (t : Creds) : Call → Int × Creds
  | .setuid uid => syssetuid t uid
  | .setreuid ruid euid => syssetreuid t ruid euid
  | .setgid gid => syssetgid t gid
  | .setregid rgid egid => syssetregid t rgid egid

/-- Every call returns. -/
def step (t : Creds) (c : Call) : Option Creds := some (t.call c).2

/-! ## One call -/

/-- **What a refused or unprivileged call can do to three ids.** -/
structure Kept (i : Ids) (r : Int × Ids) : Prop where
  subset : r.2.set ⊆ i.set
  refused : r.1 = EPERM → r.2 = i

theorem kept_self (i : Ids) (e : Int) : Kept i (e, i) := ⟨fun _ h => h, fun _ => rfl⟩

/-- A call that succeeds takes the new ids from the old ones. -/
theorem kept_ok {i j : Ids} (hreal : j.real ∈ i.set) (heff : j.eff ∈ i.set)
    (hsaved : j.saved ∈ i.set) : Kept i (0, j) :=
  ⟨Ids.set_subset hreal heff hsaved, fun h => absurd h (show (0 : Int) ≠ EPERM by decide)⟩

theorem setid_kept (i : Ids) (id : Id) : Kept i (i.setid false id) := by
  unfold Ids.setid
  rw [if_neg (by decide)]
  split
  · next hid =>
      refine kept_ok i.real_mem ?_ i.saved_mem
      rcases hid with rfl | rfl
      · exact i.real_mem
      · exact i.saved_mem
  · exact kept_self i EPERM

/-- The second half, with whatever the first has left in the real id. -/
theorem setEff_kept {i : Ids} {x : Id} (hx : x ∈ i.set) (eid : Id) :
    Kept i ({ i with real := x }.setEff i.real false eid) := by
  unfold Ids.setEff
  split
  · split
    · next heid =>
        have hmem : eid ∈ i.set := by
          rcases heid with rfl | rfl | h
          · exact i.real_mem
          · exact i.eff_mem
          · cases h
        exact kept_ok hx hmem hmem
    · exact kept_self i EPERM
  · exact kept_ok hx i.eff_mem i.saved_mem

theorem setre_kept (i : Ids) (rid eid : Id) : Kept i (i.setre false rid eid) := by
  unfold Ids.setre
  dsimp only
  split
  · split
    · next hrid =>
        refine setEff_kept ?_ eid
        rcases hrid with rfl | rfl | h
        · exact i.eff_mem
        · exact i.real_mem
        · cases h
    · exact kept_self i EPERM
  · exact setEff_kept i.real_mem eid

/-- The super-user is refused nothing. -/
theorem setre_true (i : Ids) (rid eid : Id) : (i.setre true rid eid).1 = 0 := by
  have setEff (j : Ids) : (j.setEff i.real true eid).1 = 0 := by
    unfold Ids.setEff
    split
    · rw [if_pos (.inr (.inr rfl))]
    · rfl
  unfold Ids.setre
  split
  · rw [if_pos (.inr (.inr rfl))]
    exact setEff _
  · exact setEff i

/-- A refused call changes no id, whoever has made it. -/
theorem setre_refused (i : Ids) (suser : Bool) (rid eid : Id)
    (h : (i.setre suser rid eid).1 = EPERM) : (i.setre suser rid eid).2 = i := by
  cases suser with
  | false => exact (setre_kept i rid eid).refused h
  | true => exact absurd ((setre_true i rid eid).symm.trans h) (by decide)

theorem setid_refused (i : Ids) (suser : Bool) (id : Id)
    (h : (i.setid suser id).1 = EPERM) : (i.setid suser id).2 = i := by
  cases suser with
  | false => exact (setid_kept i id).refused h
  | true => exact absurd h (show (0 : Int) ≠ EPERM by decide)

theorem call_refused (t : Creds) (c : Call) (h : (t.call c).1 = EPERM) : (t.call c).2 = t := by
  cases c with
  | setuid uid => exact congrArg (fun u => { t with u := u }) (setid_refused _ _ _ h)
  | setreuid ruid euid => exact congrArg (fun u => { t with u := u }) (setre_refused _ _ _ _ h)
  | setgid gid => exact congrArg (fun g => { t with g := g }) (setid_refused _ _ _ h)
  | setregid rgid egid => exact congrArg (fun g => { t with g := g }) (setre_refused _ _ _ _ h)

/-- **Step lemma.**  A call of a task that is not the super-user makes neither set of
ids larger. -/
theorem call_subset {t : Creds} (ht : t.u.eff ≠ 0) (c : Call) :
    (t.call c).2.u.set ⊆ t.u.set ∧ (t.call c).2.g.set ⊆ t.g.set := by
  have hsuser : t.suser = false := by simpa [Creds.suser] using ht
  cases c with
  | setuid uid =>
      refine ⟨?_, fun _ h => h⟩
      simp only [Creds.call, syssetuid, hsuser]
      exact (setid_kept t.u uid).subset
  | setreuid ruid euid =>
      refine ⟨?_, fun _ h => h⟩
      simp only [Creds.call, syssetreuid, hsuser]
      exact (setre_kept t.u ruid euid).subset
  | setgid gid =>
      refine ⟨fun _ h => h, ?_⟩
      simp only [Creds.call, syssetgid, hsuser]
      exact (setid_kept t.g gid).subset
  | setregid rgid egid =>
      refine ⟨fun _ h => h, ?_⟩
      simp only [Creds.call, syssetregid, hsuser]
      exact (setre_kept t.g rgid egid).subset

/-! ## Runs -/

/-- The ids of a task with no super-user id. -/
def Creds.Dropped (t : Creds) : Prop := 0 ∉ t.u.set

theorem Creds.Dropped.eff_ne {t : Creds} (h : t.Dropped) : t.u.eff ≠ 0 :=
  fun heff => h (heff ▸ t.u.eff_mem)

/-- What one call keeps of the task's ids. -/
def Creds.Keeps (t : Creds) (c : Call) : Prop :=
  (t.call c).2.u.set ⊆ t.u.set ∧ (t.call c).2.g.set ⊆ t.g.set ∧
    ((t.call c).1 = EPERM → (t.call c).2 = t)

/-- A task without a super-user id never gets one. -/
theorem dropped_always {t : Creds} (h : t.Dropped) (calls : List Call) :
    Always step Creds.Dropped t calls := by
  refine always_of_step ?_ calls h
  intro s c s' hs hstep
  cases hstep
  exact fun hmem => hs ((call_subset hs.eff_ne c).1 hmem)

/-- `setuid` by the super-user sets all three ids. -/
theorem setuid_dropped {t : Creds} (ht : t.suser = true) {uid : Id} (huid : uid ≠ 0) :
    (syssetuid t uid).2.Dropped := by
  simp only [syssetuid, ht, Ids.setid, if_true, Creds.Dropped, Ids.mem_set, or_self]
  exact Ne.symm huid

/-- **Dropped privileges stay dropped.** -/
theorem dropped (t : Creds) (calls : List Call) :
    (Always step (fun s => s.u.eff ≠ 0) t calls →
      Each step Creds.Keeps t calls ∧
      Always step (fun s => s.u.set ⊆ t.u.set ∧ s.g.set ⊆ t.g.set) t calls) ∧
    (t.suser = true → ∀ uid ≠ 0, Always step Creds.Dropped (syssetuid t uid).2 calls) ∧
    (t.Dropped → Always step Creds.Dropped t calls) := by
  refine ⟨fun h => ⟨?_, ?_⟩, fun ht uid huid => ?_, fun h => dropped_always h calls⟩
  · exact h.each fun s c hs => ⟨(call_subset hs c).1, (call_subset hs c).2, call_refused s c⟩
  · refine (h.and_of_step ?_ ⟨fun _ hx => hx, fun _ hx => hx⟩).mono fun _ hs => hs.2
    rintro s c s' hs ⟨hu, hg⟩ hstep
    cases hstep
    exact ⟨(call_subset hs c).1.trans hu, (call_subset hs c).2.trans hg⟩
  · exact dropped_always (setuid_dropped ht huid) calls

/-- A daemon that the super-user has turned over to user 2 asks for user 0 again. -/
theorem dropped_daemon :
    Each step Creds.Keeps ⟨⟨2, 2, 2⟩, ⟨0, 0, 0⟩⟩ [.setreuid 2 0, .setuid 0, .setregid 0 0] ∧
    Always step Creds.Dropped (syssetuid ⟨⟨0, 0, 0⟩, ⟨0, 0, 0⟩⟩ 2).2
      [.setreuid 2 0, .setuid 0, .setregid 0 0] :=
  ⟨((dropped ⟨⟨2, 2, 2⟩, ⟨0, 0, 0⟩⟩ _).1
      ((dropped_always (t := ⟨⟨2, 2, 2⟩, ⟨0, 0, 0⟩⟩)
        (show (0 : Id) ∉ Ids.set ⟨2, 2, 2⟩ by decide) _).mono fun _ h => h.eff_ne)).1,
    (dropped ⟨⟨0, 0, 0⟩, ⟨0, 0, 0⟩⟩ _).2.1 rfl 2 (by decide)⟩

end Unixlite.Kern.Uidgid
