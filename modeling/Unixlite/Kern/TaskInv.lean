import Unixlite.Kern.Taskdb
import Unixlite.Verified.Partial
import Mathlib.Data.List.Nodup

/-!
# What the task table keeps

The queues and the parent pointers of the task table agree (`Taskdb.Inv`), and every
task comes after its parent, so that each chain of parents ends at the idle task and
`mychild` returns (`Inv.mychild`).
-/

namespace Unixlite.Kern

open Unixlite.Verified.Partial List Option

/-! ## Steps that fail -/

theorem deref_ok {p : Option Nat} {x : Nat} (h : deref p = .ok x) : p = some x := by
  cases p with
  | none => cases h
  | some y =>
      cases h
      rfl

namespace Taskdb

variable {s s' : Taskdb} {t u c p i curr : Nat} {pid : BitVec 32}

structure Inv (s : Taskdb) : Prop where
  idle_mem : idle ∈ s.alltaskq
  nodup : s.alltaskq.Nodup
  fresh : ∀ t ∈ s.alltaskq, t < s.ntask
  live : ∀ t, s.live t = true ↔ t ∈ s.alltaskq
  hash : ∀ b t, t ∈ s.hashtab b ↔ t ∈ s.alltaskq ∧ b = s.hashfunc (s.pid t)
  hashNodup : ∀ b, (s.hashtab b).Nodup
  pids : ∀ t ∈ s.alltaskq, ∀ u ∈ s.alltaskq, s.pid t = s.pid u → t = u
  child : ∀ p c, c ∈ s.childq p ↔ s.parent c = some p ∧ c ∈ s.alltaskq
  childNodup : ∀ p, (s.childq p).Nodup
  parent : ∀ t ∈ s.alltaskq, t ≠ idle → ∃ p ∈ s.alltaskq, s.parent t = some p ∧ p < t
  idleParent : s.parent idle = none
  first : s.ntask = 1 ∨ init ∈ s.alltaskq ∧ s.pid init = 1 ∧ s.parent init = some idle
  inittask : ∀ i, s.inittask = some i → i = init ∧ init ∈ s.alltaskq
  idlePid : s.pid idle = 0

/-! ## Looking up -/

theorem Inv.findtask_some (h : s.Inv) (hf : s.findtask pid = some t) :
    t ∈ s.alltaskq ∧ s.pid t = pid := by
  have hpid := List.find?_some hf
  have hmem := mem_of_find?_eq_some hf
  exact ⟨((h.hash _ _).mp hmem).1, eq_of_beq hpid⟩

theorem Inv.findtask_none (h : s.Inv) (hf : s.findtask pid = none) (ht : t ∈ s.alltaskq) :
    s.pid t ≠ pid := by
  intro hpid
  have hmem : t ∈ s.hashtab (s.hashfunc pid) := (h.hash _ _).mpr ⟨ht, by rw [hpid]⟩
  have hnot := List.find?_eq_none.mp hf t hmem
  rw [hpid] at hnot
  exact hnot BEq.rfl

/-- The number that `newpid` gives is not that of a task. -/
theorem newpid_free (hn : s.newpid = some pid) : s.findtask pid = none := by
  have hgo : ∀ n last, newpid.go s n last = some pid → s.findtask pid = none := by
    intro n
    induction n with
    | zero =>
        intro last hlast
        cases hlast
    | succ n ih =>
        intro last hlast
        unfold newpid.go at hlast
        split at hlast
        · next hfree =>
            cases hlast
            exact isNone_iff_eq_none.mp hfree
        · exact ih _ hlast
  exact hgo _ _ hn

/-- The numbers that `newpid` has gone over are in use. -/
theorem used_of_go (h : s.Inv) {n : Nat} {last : BitVec 32} (hgo : newpid.go s n last = none) :
    ∀ k < n, last + BitVec.ofNat 32 (k + 1) ∈ s.alltaskq.map s.pid := by
  induction n generalizing last with
  | zero => exact fun k hk => absurd hk (Nat.not_lt_zero k)
  | succ n ih =>
      unfold newpid.go at hgo
      split at hgo
      · cases hgo
      next hused =>
      rw [isNone_iff_eq_none] at hused
      obtain ⟨t, ht⟩ := ne_none_iff_exists'.mp hused
      intro k hk
      cases k with
      | zero => exact mem_map.mpr ⟨t, h.findtask_some ht⟩
      | succ k =>
          rw [BitVec.ofNat_add, BitVec.add_comm _ (BitVec.ofNat 32 1), ← BitVec.add_assoc]
          exact ih hgo k (by omega)

/-- One of the numbers that `newpid` tries is free. -/
theorem Inv.newpid_isSome (h : s.Inv) (hlen : s.alltaskq.length < 2 ^ 32) :
    ∃ pid, s.newpid = some pid := by
  refine ne_none_iff_exists'.mp fun hgo => ?_
  have hused := used_of_go h hgo
  have hnodup : ((range (s.alltaskq.length + 1)).map fun k =>
      s.lastpid + BitVec.ofNat 32 (k + 1)).Nodup := by
    refine nodup_range.map_on fun j hj k hk heq => ?_
    rw [mem_range] at hj hk
    have hnat := congrArg BitVec.toNat (add_left_cancel heq)
    rw [BitVec.toNat_ofNat, BitVec.toNat_ofNat] at hnat
    omega
  have hle := (subperm_of_subset hnodup fun x hx => by
    obtain ⟨k, hk, rfl⟩ := mem_map.mp hx
    exact hused k (mem_range.mp hk)).length_le
  rw [length_map, length_map, length_range] at hle
  omega

/-- The first number that is given is 1. -/
theorem Inv.newpid_first (h : s.Inv) (hone : s.ntask = 1) (hlast : s.lastpid = 0)
    (hn : s.newpid = some pid) : pid = 1 := by
  have hfree : s.findtask (0 + 1) = none := by
    cases hf : s.findtask (0 + 1) with
    | none => rfl
    | some t =>
        obtain ⟨ht, hpid⟩ := h.findtask_some hf
        have hlt := h.fresh t ht
        have hidle : t = idle := by
          simp only [idle]
          omega
        rw [hidle, h.idlePid] at hpid
        exact absurd hpid (by decide)
  unfold newpid newpid.go at hn
  rw [hlast, hfree] at hn
  exact (some.inj hn).symm

/-- `mychild` comes to the idle task. -/
theorem Inv.mychild (h : s.Inv) (ht : t ∈ s.alltaskq) : s.mychild curr t ≠ none := by
  have hgo : ∀ n t, t ∈ s.alltaskq → t < n → mychild.go s curr n t ≠ none := by
    intro n
    induction n with
    | zero =>
        intro t ht hlt
        exact absurd hlt (Nat.not_lt_zero t)
    | succ n ih =>
        intro t ht hlt
        unfold mychild.go
        split
        · exact some_ne_none _
        next hne =>
        obtain ⟨p, hp, hpar, hpt⟩ := h.parent t ht hne
        rw [hpar]
        dsimp only
        split
        · exact some_ne_none _
        · exact ih p hp (by omega)
  exact hgo _ t ht (Nat.lt_succ_self t)

theorem Inv.parent_mem (h : s.Inv) (hc : c ∈ s.alltaskq) (hp : s.parent c = some p) :
    p ∈ s.alltaskq ∧ p < c ∧ c ≠ idle := by
  have hne : c ≠ idle := by
    intro hne
    rw [hne, h.idleParent] at hp
    cases hp
  obtain ⟨q, hq, hqc, hlt⟩ := h.parent c hc hne
  rw [hp] at hqc
  cases hqc
  exact ⟨hq, hlt, hne⟩

/-- The task of number 1 is the first that was forked. -/
theorem Inv.pid_one (h : s.Inv) (ht : t ∈ s.alltaskq) (hpid : s.pid t = 1) :
    t = init ∧ init ∈ s.alltaskq := by
  rcases h.first with hone | ⟨hmem, hpid', -⟩
  · have hlt := h.fresh t ht
    have hidle : t = idle := by
      simp only [idle]
      omega
    rw [hidle, h.idlePid] at hpid
    exact absurd hpid (by decide)
  · exact ⟨h.pids t ht init hmem (hpid.trans hpid'.symm), hmem⟩

/-! ## Changes -/

theorem inv_installidletask (hmask : BitVec 32) : (installidletask hmask).Inv := by
  refine ⟨mem_singleton_self idle, nodup_singleton idle, fun t ht => ?_, fun t => ?_,
    fun b t => ?_, fun b => ?_, fun t ht u hu _ => ?_, fun p c => ?_, fun p => nodup_nil,
    fun t ht hne => ?_, rfl, .inl rfl, (fun _ h => by cases h), rfl⟩
  · rw [mem_singleton.mp ht]
    exact Nat.zero_lt_one
  · show (t == idle) = true ↔ t ∈ [idle]
    rw [beq_iff_eq, mem_singleton]
  · show t ∈ (if b = 0 then [idle] else []) ↔ t ∈ [idle] ∧ b = 0 &&& hmask
    rw [show (0 : BitVec 32) &&& hmask = 0 from BitVec.zero_and]
    by_cases hb : b = 0
    · rw [if_pos hb]
      exact ⟨fun hm => ⟨hm, hb⟩, fun hm => hm.1⟩
    · rw [if_neg hb]
      exact iff_of_false (fun h => by cases h) fun hm => hb hm.2
  · show (if b = 0 then [idle] else []).Nodup
    split
    · exact nodup_singleton idle
    · exact nodup_nil
  · rw [mem_singleton.mp ht, mem_singleton.mp hu]
  · exact iff_of_false (fun h => by cases h) fun hc => by cases hc.1
  · exact absurd (mem_singleton.mp ht) hne

theorem Inv.install (h : s.Inv) (hcurr : curr ∈ s.alltaskq) (hpid : s.newpid = some pid)
    (hfirst : s.ntask = 1 → curr = idle ∧ pid = 1) : (s.install curr pid).Inv := by
  have hnew : s.ntask ∉ s.alltaskq := fun hin => Nat.lt_irrefl _ (h.fresh _ hin)
  have hfree := fun t ht => h.findtask_none (t := t) (newpid_free hpid) ht
  have hlt := h.fresh curr hcurr
  have hidle := h.fresh idle h.idle_mem
  refine ⟨?_, ?_, fun t ht => ?_, fun t => ?_, fun b t => ?_, fun b => ?_, fun t ht u hu => ?_,
    fun p c => ?_, fun p => ?_, fun t ht hne => ?_, ?_, .inr ?_, fun i hi => ?_, ?_⟩ <;>
    simp only [Taskdb.install] at *
  · exact mem_append_left _ h.idle_mem
  · exact nodup_append.mpr ⟨h.nodup, nodup_singleton _, by grind⟩
  · have hfresh := h.fresh t
    grind
  · have hlive := h.live t
    grind
  · have hhash := h.hash b t
    simp only [hashfunc] at hhash ⊢
    grind
  · have hhash := h.hash b s.ntask
    have hnodup := h.hashNodup b
    by_cases hb : b = s.hashfunc pid
    · rw [if_pos hb]
      exact nodup_append.mpr ⟨hnodup, nodup_singleton _, by grind⟩
    · rw [if_neg hb]
      exact hnodup
  · have hpids := h.pids t
    grind
  · have hchild := h.child p c
    have hpar : c ∈ s.alltaskq → s.parent c = some p → p ∈ s.alltaskq := fun hc hp =>
      (h.parent_mem hc hp).1
    grind
  · have hchild := h.child p s.ntask
    have hnodup := h.childNodup p
    grind
  · rcases mem_append.mp ht with hold | hnew'
    · obtain ⟨q, hq, hqt, hlt'⟩ := h.parent t hold hne
      have htn : t ≠ s.ntask := fun heq => hnew (heq ▸ hold)
      exact ⟨q, mem_append_left _ hq, (if_neg htn).trans hqt, hlt'⟩
    · have htn := mem_singleton.mp hnew'
      exact ⟨curr, mem_append_left _ hcurr, if_pos htn, htn ▸ hlt⟩
  · have hpar := h.idleParent
    grind
  · rcases h.first with hone | ⟨hmem, hp, hpar⟩
    · obtain ⟨hci, hpi⟩ := hfirst hone
      have hinit : s.ntask = init := hone
      grind
    · have hne : init ≠ s.ntask := fun heq => hnew (heq ▸ hmem)
      grind
  · have hinit := h.inittask i hi
    grind
  · exact (if_neg (by omega)).trans h.idlePid

/-- A task without children is gone. -/
def uninstalled (s : Taskdb) (t p : Nat) : Taskdb :=
  { s with
    alltaskq := s.alltaskq.erase t
    hashtab := fun b => if b = s.hashfunc (s.pid t) then (s.hashtab b).erase t else s.hashtab b
    zombietaskq := s.zombietaskq.erase t
    childq := fun u => if u = p then (s.childq u).erase t else s.childq u
    parent := fun u => if u = t then none else s.parent u
    live := fun u => if u = t then false else s.live u }

/-- A child has a new parent. -/
def reparented (s : Taskdb) (curr c i : Nat) : Taskdb :=
  { s with
    childq := fun u =>
      if u = i then (if u = curr then (s.childq u).erase c else s.childq u) ++ [c]
      else if u = curr then (s.childq u).erase c else s.childq u
    parent := fun u => if u = c then some i else s.parent u }

/-- A task that has no children, and is not the first, goes. -/
theorem Inv.uninstall (h : s.Inv) (ht : t ∈ s.alltaskq) (hp : s.parent t = some p)
    (hleaf : s.childq t = []) (hinit : t ≠ init) :
    s.uninstall t = .ok (s.uninstalled t p) ∧ (s.uninstalled t p).Inv ∧
      ∀ u, u ∈ s.alltaskq.erase t ↔ u ∈ s.alltaskq ∧ u ≠ t := by
  obtain ⟨hpmem, hlt, hidle⟩ := h.parent_mem ht hp
  have hall : ∀ u, u ∈ s.alltaskq.erase t ↔ u ∈ s.alltaskq ∧ u ≠ t := by
    intro u
    rw [h.nodup.mem_erase_iff]
    exact And.comm
  have hnopar : ∀ u, u ∈ s.alltaskq → s.parent u ≠ some t := by
    intro u hu hup
    have hin := (h.child t u).mpr ⟨hup, hu⟩
    rw [hleaf] at hin
    cases hin
  refine ⟨?_, ?_, hall⟩
  · unfold Taskdb.uninstall
    rw [if_neg (not_not.mpr hleaf), hp]
    rfl
  refine ⟨?_, h.nodup.erase t, fun u hu => ?_, fun u => ?_, fun b u => ?_, fun b => ?_,
    fun u hu v hv => ?_, fun q c => ?_, fun q => ?_, fun u hu hne => ?_, ?_, ?_, fun i hi => ?_,
    h.idlePid⟩
  · exact (hall idle).mpr ⟨h.idle_mem, hidle.symm⟩
  · exact h.fresh u ((hall u).mp hu).1
  · have hlive := h.live u
    dsimp only [uninstalled]
    grind
  · have hhash := h.hash b u
    have hnodup := h.hashNodup b
    simp only [hashfunc, uninstalled] at hhash ⊢
    grind
  · have hnodup := h.hashNodup b
    dsimp only [uninstalled]
    split
    · exact hnodup.erase t
    · exact hnodup
  · exact h.pids u ((hall u).mp hu).1 v ((hall v).mp hv).1
  · have hchild := h.child q c
    have hnodup := h.childNodup q
    dsimp only [uninstalled]
    grind
  · have hnodup := h.childNodup q
    dsimp only [uninstalled]
    split
    · exact hnodup.erase t
    · exact hnodup
  · obtain ⟨hu', hut⟩ := (hall u).mp hu
    obtain ⟨q, hq, hqu, hlt'⟩ := h.parent u hu' hne
    have hqt : q ≠ t := fun heq => hnopar u hu' (heq ▸ hqu)
    exact ⟨q, (hall q).mpr ⟨hq, hqt⟩, (if_neg hut).trans hqu, hlt'⟩
  · have hpar := h.idleParent
    dsimp only [uninstalled]
    grind
  · rcases h.first with hone | ⟨hmem, hpid, hpar⟩
    · exact .inl hone
    · exact .inr ⟨(hall init).mpr ⟨hmem, hinit.symm⟩, hpid, (if_neg hinit.symm).trans hpar⟩
  · obtain ⟨hi', hmem⟩ := h.inittask i hi
    exact ⟨hi', (hall init).mpr ⟨hmem, hinit.symm⟩⟩

/-- A child goes to `inittask`. -/
theorem Inv.reparent (h : s.Inv) (hi : s.inittask = some i) (hc : c ∈ s.childq curr)
    (hcurr : curr ≠ idle) :
    s.reparent curr c = .ok (i, s.reparented curr c i) ∧ (s.reparented curr c i).Inv := by
  obtain ⟨hii, himem⟩ := h.inittask i hi
  obtain ⟨hpc, hcmem⟩ := (h.child curr c).mp hc
  obtain ⟨-, hlt, hcidle⟩ := h.parent_mem hcmem hpc
  obtain ⟨-, hipar⟩ : s.pid init = 1 ∧ s.parent init = some idle := by
    rcases h.first with hone | ⟨-, hpid, hpar⟩
    · have hfresh := h.fresh init himem
      rw [hone] at hfresh
      exact absurd hfresh (Nat.lt_irrefl 1)
    · exact ⟨hpid, hpar⟩
  have hcinit : c ≠ init := by
    intro heq
    rw [heq, hipar] at hpc
    exact hcurr (some.inj hpc).symm
  subst hii
  constructor
  · unfold Taskdb.reparent reparented
    rw [hi]
    rfl
  · refine ⟨h.idle_mem, h.nodup, h.fresh, h.live, h.hash, h.hashNodup, h.pids, fun q d => ?_,
      fun q => ?_, fun u hu hne => ?_, ?_, ?_, h.inittask, h.idlePid⟩
    · have hchild := h.child q d
      have hnodup := h.childNodup q
      dsimp only [reparented]
      grind
    · have hnodup := h.childNodup q
      have hchild := h.child q c
      dsimp only [reparented]
      grind
    · by_cases huc : u = c
      · refine ⟨init, himem, if_pos huc, ?_⟩
        simp only [idle, init] at *
        omega
      · obtain ⟨q, hq, hqu, hlt'⟩ := h.parent u hu hne
        exact ⟨q, hq, (if_neg huc).trans hqu, hlt'⟩
    · exact (if_neg hcidle.symm).trans h.idleParent
    · exact h.first.imp id fun hf => ⟨hf.1, hf.2.1, (if_neg hcinit.symm).trans hf.2.2⟩

end Taskdb

end Unixlite.Kern
