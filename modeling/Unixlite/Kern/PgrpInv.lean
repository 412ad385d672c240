import Unixlite.Kern.Pgrp
import Unixlite.Kern.TaskInv

/-!
# What process groups and sessions keep

The pointers of `kern/pgrp.cc` and the queues they stand for agree (`Groups.Inv`).
Every session keeps its leader, so that `leave` deletes at most a group
(`Inv.leave`), and each way to make or join a group keeps all this.
-/

namespace Unixlite.Kern

open Unixlite.Verified.Partial List Option

namespace Groups

variable {s s' : Groups} {A E : Nat → Prop} {t u g h i j : Nat} {p q : Pgrp} {x y : Session}

/-- The session that a group belongs to. -/
def sessionof (s : Groups) (g : Nat) : Option Nat := (s.pgrp g).bind Pgrp.session

/-- The tasks are those of `A`; the sessions of `E` may be empty. -/
structure Inv (s : Groups) (A E : Nat → Prop) : Prop where
  task : ∀ t, A t ↔ s.pgrpof t ≠ none
  group : ∀ t g, s.pgrpof t = some g → s.pgrp g ≠ none
  taskq : ∀ g p, s.pgrp g = some p → p.taskq ≠ [] ∧ p.taskq.Nodup ∧
    ∀ t, t ∈ p.taskq ↔ s.pgrpof t = some g
  owner : ∀ g p, s.pgrp g = some p → ∃ i, p.session = some i ∧ s.session i ≠ none
  pgrpq : ∀ i x, s.session i = some x → (¬ E i → x.pgrpq ≠ []) ∧ x.pgrpq.Nodup ∧
    ∀ g, g ∈ x.pgrpq ↔ s.sessionof g = some i
  chain : ∀ b g, g ∈ s.hashtab b → s.pgrp g ≠ none
  chainNodup : ∀ b, (s.hashtab b).Nodup
  freshPgrp : ∀ g, s.npgrp ≤ g → s.pgrp g = none
  freshSession : ∀ i, s.nsession ≤ i → s.session i = none

/-- Every session has its leader, who leads the group of his own number. -/
def Led (s : Groups) (pid : Nat → BitVec 32) : Prop :=
  ∀ i x, s.session i = some x → ∃ t g p, x.leader = some t ∧ s.pgrpof t = some g ∧
    s.pgrp g = some p ∧ p.session = some i ∧ p.pgid = pid t

/-! ## Reading -/

theorem sessionof_eq (hp : s.pgrp g = some p) : s.sessionof g = p.session := by
  rw [sessionof, hp]
  rfl

theorem getPgrp_eq (hp : s.pgrp g = some p) : s.getPgrp g = .ok p := by
  rw [getPgrp, hp]

theorem getSession_eq (hx : s.session i = some x) : s.getSession i = .ok x := by
  rw [getSession, hx]

/-- A task's group and session are there. -/
theorem Inv.at (h : s.Inv A E) (ht : A t) :
    ∃ g p i x, s.pgrpof t = some g ∧ s.pgrp g = some p ∧ p.session = some i ∧
      s.session i = some x ∧ t ∈ p.taskq ∧ g ∈ x.pgrpq := by
  obtain ⟨g, hg⟩ := ne_none_iff_exists'.mp ((h.task t).mp ht)
  obtain ⟨p, hp⟩ := ne_none_iff_exists'.mp (h.group t g hg)
  obtain ⟨i, hi, hs⟩ := h.owner g p hp
  obtain ⟨x, hx⟩ := ne_none_iff_exists'.mp hs
  refine ⟨g, p, i, x, hg, hp, hi, hx, ((h.taskq g p hp).2.2 t).mpr hg, ?_⟩
  apply ((h.pgrpq i x hx).2.2 g).mpr
  rw [sessionof_eq hp, hi]

theorem pgrpAt_eq (hg : s.pgrpof t = some g) (hp : s.pgrp g = some p) :
    s.pgrpAt t = .ok (g, p) := by
  rw [pgrpAt, hg]
  show (s.getPgrp g).bind _ = _
  rw [getPgrp_eq hp]
  rfl

theorem sessionAt_eq (hg : s.pgrpof t = some g) (hp : s.pgrp g = some p)
    (hi : p.session = some i) : s.sessionAt t = .ok i := by
  rw [sessionAt, pgrpAt_eq hg hp]
  show deref p.session = _
  rw [hi]
  rfl

/-- `findpgrp` finds a group of the chain that it goes through. -/
theorem Inv.findpgrp_cases (h : s.Inv A E) (pgid : BitVec 32) :
    (s.findpgrp pgid = .ok none ∧
      ∀ g p, g ∈ s.hashtab (s.hashfunc pgid) → s.pgrp g = some p → p.pgid ≠ pgid) ∨
    ∃ g p, s.findpgrp pgid = .ok (some g) ∧ g ∈ s.hashtab (s.hashfunc pgid) ∧
      s.pgrp g = some p ∧ p.pgid = pgid := by
  have hgo : ∀ l : List Nat, (∀ g ∈ l, s.pgrp g ≠ none) →
      (findpgrp.go s pgid l = .ok none ∧ ∀ g p, g ∈ l → s.pgrp g = some p → p.pgid ≠ pgid) ∨
      ∃ g p, findpgrp.go s pgid l = .ok (some g) ∧ g ∈ l ∧ s.pgrp g = some p ∧
        p.pgid = pgid := by
    intro l
    induction l with
    | nil => exact fun _ => .inl ⟨rfl, (fun _ _ h => by cases h)⟩
    | cons g l ih =>
        intro hlive
        obtain ⟨p, hp⟩ := ne_none_iff_exists'.mp (hlive g mem_cons_self)
        have hstep : findpgrp.go s pgid (g :: l) =
            if p.pgid = pgid then .ok (some g) else findpgrp.go s pgid l := by
          show (s.getPgrp g).bind _ = _
          rw [getPgrp_eq hp]
          rfl
        rw [hstep]
        by_cases hpgid : p.pgid = pgid
        · rw [if_pos hpgid]
          exact .inr ⟨g, p, rfl, mem_cons_self, hp, hpgid⟩
        · rw [if_neg hpgid]
          rcases ih fun g hg => hlive g (mem_cons_of_mem _ hg) with
            ⟨hnone, hall⟩ | ⟨g', p', hsome, hmem, hp', hpgid'⟩
          · refine .inl ⟨hnone, fun g' p' hmem hp' => ?_⟩
            rcases mem_cons.mp hmem with rfl | hmem
            · rw [hp] at hp'
              cases hp'
              exact hpgid
            · exact hall g' p' hmem hp'
          · exact .inr ⟨g', p', hsome, mem_cons_of_mem _ hmem, hp', hpgid'⟩
  exact hgo _ fun g hg => h.chain _ g hg

/-! ## Leaving -/

/-- A group loses a task, and has others. -/
def shrunk (s : Groups) (t g : Nat) (p : Pgrp) : Groups :=
  (s.setPgrpof t none).setPgrp g (some { p with taskq := p.taskq.erase t })

/-- A group loses its last task. -/
def emptied (s : Groups) (t g i : Nat) (x : Session) : Groups :=
  (((s.setPgrpof t none).setPgrp g none).unlinkhash g).setSession i
    (some { x with fg := if x.fg = some g then none else x.fg, pgrpq := x.pgrpq.erase g })

theorem setSession_self (hx : s.session i = some x) : s.setSession i (some x) = s := by
  have hsame : (fun j => if j = i then some x else s.session j) = s.session := by
    funext j
    by_cases hj : j = i
    · rw [if_pos hj, hj, hx]
    · rw [if_neg hj]
  rw [setSession, hsame]

/-- A task that is not the leader leaves; its session stays. -/
theorem leave_eq (hg : s.pgrpof t = some g) (hp : s.pgrp g = some p)
    (hi : p.session = some i) (hx : s.session i = some x) (hleader : x.leader ≠ some t)
    (hstay : p.taskq.erase t = [] → x.pgrpq.erase g ≠ []) :
    s.leave t = .ok (if p.taskq.erase t ≠ [] then s.shrunk t g p else s.emptied t g i x) := by
  have hself : ({ x with leader := if x.leader = some t then none else x.leader } : Session) = x := by
    rw [if_neg hleader]
  unfold leave
  rw [pgrpAt_eq hg hp]
  show (deref p.session).bind _ = _
  rw [hi]
  show ((s.setPgrpof t none).getSession i).bind _ = _
  rw [getSession_eq (show (s.setPgrpof t none).session i = some x from hx)]
  show (let y : Session := { x with leader := if x.leader = some t then none else x.leader }
    let q : Pgrp := { p with taskq := p.taskq.erase t }
    if q.taskq ≠ [] then _ else _) = _
  rw [hself]
  by_cases hempty : p.taskq.erase t = []
  · rw [if_neg (not_not.mpr hempty)]
    rw [if_neg (not_not.mpr hempty), if_pos (hstay hempty)]
    rfl
  · dsimp only
    rw [if_pos hempty, if_pos hempty, setSession_self (show (s.setPgrpof t none).session i = some x from hx),
      Groups.shrunk, hi]

theorem sessionof_shrunk (hp : s.pgrp g = some p) :
    (s.shrunk t g p).sessionof h = s.sessionof h := by
  by_cases hh : h = g
  · subst hh
    rw [sessionof_eq hp]
    show (if h = h then some _ else _ : Option Pgrp).bind _ = _
    rw [if_pos rfl]
    rfl
  · show (if h = g then some _ else s.pgrp h : Option Pgrp).bind _ = _
    rw [if_neg hh]
    rfl

theorem Inv.shrunk (h : s.Inv A E) (hg : s.pgrpof t = some g) (hp : s.pgrp g = some p)
    (hmore : p.taskq.erase t ≠ []) : (s.shrunk t g p).Inv (fun u => A u ∧ u ≠ t) E := by
  obtain ⟨hne, hnodup, hmem⟩ := h.taskq g p hp
  refine ⟨fun u => ?_, fun u g' hg' => ?_, fun g' q hq => ?_, fun g' q hq => ?_,
    fun j y hy => ?_, fun b g' hg' => ?_, h.chainNodup, fun g' hg' => ?_, h.freshSession⟩
  · have htask := h.task u
    simp only [Groups.shrunk, setPgrp, setPgrpof]
    by_cases hu : u = t <;> simp [hu, htask]
  · simp only [Groups.shrunk, setPgrp, setPgrpof] at hg' ⊢
    have hgroup := h.group u g'
    grind
  · simp only [Groups.shrunk, setPgrp, setPgrpof] at hq ⊢
    by_cases hgg : g' = g
    · rw [if_pos hgg] at hq
      cases hq
      refine ⟨hmore, hnodup.erase t, fun u => ?_⟩
      grind
    · rw [if_neg hgg] at hq
      obtain ⟨hne', hnodup', hmem'⟩ := h.taskq g' q hq
      refine ⟨hne', hnodup', fun u => ?_⟩
      grind
  · have howner := h.owner g p hp
    have howner' := h.owner g' q
    simp only [Groups.shrunk, setPgrp, setPgrpof] at hq ⊢
    grind
  · obtain ⟨hfull, hnodup', hmem'⟩ := h.pgrpq j y hy
    refine ⟨hfull, hnodup', fun g' => ?_⟩
    rw [sessionof_shrunk hp]
    exact hmem' g'
  · have hchain := h.chain b g' hg'
    simp only [Groups.shrunk, setPgrp, setPgrpof]
    grind
  · have hfresh := h.freshPgrp g' hg'
    simp only [Groups.shrunk, setPgrp, setPgrpof]
    grind

theorem sessionof_emptied : (s.emptied t g i x).sessionof h =
    if h = g then none else s.sessionof h := by
  show (if h = g then none else s.pgrp h : Option Pgrp).bind _ = _
  by_cases hh : h = g
  · rw [if_pos hh, if_pos hh]
    rfl
  · rw [if_neg hh, if_neg hh]
    rfl

theorem Inv.emptied (h : s.Inv A E) (hg : s.pgrpof t = some g) (hp : s.pgrp g = some p)
    (hi : p.session = some i) (hx : s.session i = some x)
    (hlast : p.taskq.erase t = []) (hstay : x.pgrpq.erase g ≠ []) :
    (s.emptied t g i x).Inv (fun u => A u ∧ u ≠ t) E := by
  obtain ⟨hne, hnodup, hmem⟩ := h.taskq g p hp
  -- nobody else is in the group
  have honly : ∀ u, s.pgrpof u = some g → u = t := by
    intro u hu
    by_contra hut
    have hin : u ∈ p.taskq.erase t := hnodup.mem_erase_iff.mpr ⟨hut, (hmem u).mpr hu⟩
    rw [hlast] at hin
    cases hin
  refine ⟨fun u => ?_, fun u g' hg' => ?_, fun g' q hq => ?_, fun g' q hq => ?_,
    fun j y hy => ?_, fun b g' hg' => ?_, fun b => ?_, fun g' hg' => ?_, fun j hj => ?_⟩
  · have htask := h.task u
    simp only [Groups.emptied, setSession, unlinkhash, setPgrp, setPgrpof]
    by_cases hu : u = t <;> simp [hu, htask]
  · have hgroup := h.group u g'
    simp only [Groups.emptied, setSession, unlinkhash, setPgrp, setPgrpof] at hg' ⊢
    grind
  · simp only [Groups.emptied, setSession, unlinkhash, setPgrp, setPgrpof] at hq ⊢
    by_cases hgg : g' = g
    · rw [if_pos hgg] at hq
      cases hq
    · rw [if_neg hgg] at hq
      obtain ⟨hne', hnodup', hmem'⟩ := h.taskq g' q hq
      refine ⟨hne', hnodup', fun u => ?_⟩
      grind
  · have howner := h.owner g' q
    simp only [Groups.emptied, setSession, unlinkhash, setPgrp, setPgrpof] at hq ⊢
    grind
  · simp only [sessionof_emptied]
    simp only [Groups.emptied, setSession, unlinkhash, setPgrp, setPgrpof] at hy
    by_cases hj : j = i
    · rw [if_pos hj] at hy
      cases hy
      obtain ⟨-, hnodup', hmem'⟩ := h.pgrpq i x hx
      refine ⟨fun _ => hstay, hnodup'.erase g, fun g' => ?_⟩
      grind
    · rw [if_neg hj] at hy
      obtain ⟨hfull, hnodup', hmem'⟩ := h.pgrpq j y hy
      refine ⟨hfull, hnodup', fun g' => ?_⟩
      have hgi : s.sessionof g = some i := by rw [sessionof_eq hp, hi]
      grind
  · have hchain := h.chain b g'
    simp only [Groups.emptied, setSession, unlinkhash, setPgrp, setPgrpof] at hg' ⊢
    rw [(h.chainNodup b).mem_erase_iff] at hg'
    rw [if_neg hg'.1]
    exact hchain hg'.2
  · exact (h.chainNodup b).erase g
  · have hfresh := h.freshPgrp g' hg'
    simp only [Groups.emptied, setSession, unlinkhash, setPgrp, setPgrpof]
    grind
  · have hfresh := h.freshSession j hj
    simp only [Groups.emptied, setSession, unlinkhash, setPgrp, setPgrpof]
    grind

/-! ## Entering -/

/-- A group has one more task. -/
def grown (s : Groups) (t g : Nat) (p : Pgrp) : Groups :=
  (s.setPgrpof t (some g)).setPgrp g (some { p with taskq := p.taskq ++ [t] })

/-- There is one more group. -/
def founded (s : Groups) (i t : Nat) (pid mem : BitVec 32) (x : Session) : Groups :=
  { s with
    pgrpof := fun u => if u = t then some s.npgrp else s.pgrpof u
    pgrp := fun g => if g = s.npgrp then some ⟨pid, [t], some i⟩ else s.pgrp g
    session := fun j =>
      if j = i then some { x with pgrpq := x.pgrpq ++ [s.npgrp] } else s.session j
    hashtab := fun b =>
      if b = s.hashfunc mem then s.hashtab b ++ [s.npgrp] else s.hashtab b
    npgrp := s.npgrp + 1 }

theorem enter_eq (ht : s.pgrpof t = none) (hp : s.pgrp g = some p) :
    s.enter t g = .ok (s.grown t g p) := by
  rw [enter, if_neg (not_not.mpr ht), getPgrp_eq hp]
  rfl

theorem newPgrp_eq (hx : s.session i = some x) (pid mem : BitVec 32) :
    s.newPgrp i t pid mem = .ok (s.founded i t pid mem x) := by
  rw [newPgrp, getSession_eq hx]
  rfl

theorem Inv.grown (h : s.Inv A E) (ht : s.pgrpof t = none) (hp : s.pgrp g = some p) :
    (s.grown t g p).Inv (fun u => A u ∨ u = t) E := by
  obtain ⟨hne, hnodup, hmem⟩ := h.taskq g p hp
  have hsess : ∀ g', (s.grown t g p).sessionof g' = s.sessionof g' := by
    intro g'
    simp only [sessionof, Groups.grown, setPgrp, setPgrpof]
    by_cases hgg : g' = g <;> simp [hgg, hp]
  refine ⟨fun u => ?_, fun u g' hg' => ?_, fun g' q hq => ?_, fun g' q hq => ?_,
    fun j y hy => ?_, fun b g' hg' => ?_, h.chainNodup, fun g' hg' => ?_, h.freshSession⟩
  · have htask := h.task u
    simp only [Groups.grown, setPgrp, setPgrpof]
    by_cases hu : u = t <;> simp [hu, htask]
  · have hgroup := h.group u g'
    simp only [Groups.grown, setPgrp, setPgrpof] at hg' ⊢
    grind
  · simp only [Groups.grown, setPgrp, setPgrpof] at hq ⊢
    by_cases hgg : g' = g
    · rw [if_pos hgg] at hq
      cases hq
      refine ⟨by simp, nodup_append.mpr ⟨hnodup, nodup_singleton t, ?_⟩, fun u => ?_⟩
      · grind
      · rw [mem_append, hmem u, hgg]
        grind
    · rw [if_neg hgg] at hq
      obtain ⟨hne', hnodup', hmem'⟩ := h.taskq g' q hq
      refine ⟨hne', hnodup', fun u => ?_⟩
      grind
  · have howner := h.owner g p hp
    have howner' := h.owner g' q
    simp only [Groups.grown, setPgrp, setPgrpof] at hq ⊢
    grind
  · obtain ⟨hfull, hnodup', hmem'⟩ := h.pgrpq j y hy
    refine ⟨hfull, hnodup', fun g' => ?_⟩
    rw [hsess]
    exact hmem' g'
  · have hchain := h.chain b g' hg'
    simp only [Groups.grown, setPgrp, setPgrpof]
    grind
  · have hfresh := h.freshPgrp g' hg'
    simp only [Groups.grown, setPgrp, setPgrpof]
    grind

theorem Inv.founded (h : s.Inv A E) (ht : s.pgrpof t = none) (hx : s.session i = some x)
    (pid mem : BitVec 32) :
    (s.founded i t pid mem x).Inv (fun u => A u ∨ u = t) (fun j => E j ∧ j ≠ i) := by
  have hnew : s.pgrp s.npgrp = none := h.freshPgrp _ (Nat.le_refl _)
  have hnone : ∀ u, s.pgrpof u ≠ some s.npgrp := fun u hu => h.group u _ hu hnew
  have hsess : ∀ g', (s.founded i t pid mem x).sessionof g' =
      if g' = s.npgrp then some i else s.sessionof g' := by
    intro g'
    simp only [sessionof, Groups.founded]
    by_cases hgg : g' = s.npgrp <;> simp [hgg]
  refine ⟨fun u => ?_, fun u g' hg' => ?_, fun g' q hq => ?_, fun g' q hq => ?_,
    fun j y hy => ?_, fun b g' hg' => ?_, fun b => ?_, fun g' hg' => ?_, fun j hj => ?_⟩
  · have htask := h.task u
    simp only [Groups.founded]
    by_cases hu : u = t <;> simp [hu, htask]
  · have hgroup := h.group u g'
    simp only [Groups.founded] at hg' ⊢
    grind
  · simp only [Groups.founded] at hq ⊢
    by_cases hgg : g' = s.npgrp
    · rw [if_pos hgg] at hq
      cases hq
      refine ⟨cons_ne_nil t [], nodup_singleton t, fun u => ?_⟩
      grind
    · rw [if_neg hgg] at hq
      obtain ⟨hne', hnodup', hmem'⟩ := h.taskq g' q hq
      refine ⟨hne', hnodup', fun u => ?_⟩
      grind
  · have howner := h.owner g' q
    simp only [Groups.founded] at hq ⊢
    grind
  · simp only [hsess]
    simp only [Groups.founded] at hy
    have hsnew : s.sessionof s.npgrp = none := by rw [sessionof, hnew]; rfl
    by_cases hj : j = i
    · rw [if_pos hj] at hy
      cases hy
      obtain ⟨-, hnodup', hmem'⟩ := h.pgrpq i x hx
      refine ⟨fun _ => by simp,
        nodup_append.mpr ⟨hnodup', nodup_singleton _, ?_⟩, fun g' => ?_⟩
      · grind
      · rw [mem_append, hmem' g', hj]
        grind
    · rw [if_neg hj] at hy
      obtain ⟨hfull, hnodup', hmem'⟩ := h.pgrpq j y hy
      refine ⟨fun hE => hfull fun hEj => hE ⟨hEj, hj⟩, hnodup', fun g' => ?_⟩
      grind
  · have hchain := h.chain b g'
    simp only [Groups.founded] at hg' ⊢
    grind
  · have hchain := h.chain b s.npgrp
    have hnodup' := h.chainNodup b
    simp only [Groups.founded]
    by_cases hb : b = s.hashfunc mem
    · rw [if_pos hb]
      exact nodup_append.mpr ⟨hnodup', nodup_singleton _, by grind⟩
    · rw [if_neg hb]
      exact hnodup'
  · have hfresh := h.freshPgrp g'
    simp only [Groups.founded] at hg' ⊢
    grind
  · have hfresh := h.freshSession j hj
    simp only [Groups.founded]
    grind

/-- A session is made, which has no group yet. -/
def opened (s : Groups) (t : Nat) (pid : BitVec 32) : Groups :=
  { s with
    session := fun j =>
      if j = s.nsession then some ⟨pid, some t, none, none, []⟩ else s.session j
    nsession := s.nsession + 1 }

theorem newSession_eq (ht : s.pgrpof t = none) (pid mem : BitVec 32) :
    s.newSession t pid mem = .ok ((s.opened t pid).founded s.nsession t pid mem
      ⟨pid, some t, none, none, []⟩) := by
  rw [newSession, if_neg (not_not.mpr ht)]
  apply newPgrp_eq
  exact if_pos rfl

theorem Inv.opened (h : s.Inv A E) (t : Nat) (pid : BitVec 32) :
    (s.opened t pid).Inv A (fun j => E j ∨ j = s.nsession) := by
  have hnew : s.session s.nsession = none := h.freshSession _ (Nat.le_refl _)
  refine ⟨h.task, h.group, h.taskq, fun g' q hq => ?_, fun j y hy => ?_, h.chain, h.chainNodup,
    h.freshPgrp, fun j hj => ?_⟩
  · have howner := h.owner g' q hq
    simp only [Groups.opened]
    grind
  · simp only [Groups.opened] at hy
    by_cases hj : j = s.nsession
    · rw [if_pos hj] at hy
      cases hy
      refine ⟨fun hE => absurd (.inr hj) hE, nodup_nil, fun g' => ?_⟩
      refine iff_of_false (fun h => by cases h) fun hg' => ?_
      -- no group can be in a session that was not there
      obtain ⟨q, hq, hqi⟩ := bind_eq_some_iff.mp hg'
      obtain ⟨k, hk, hs⟩ := h.owner g' q hq
      rw [hqi] at hk
      cases hk
      rw [hj] at hs
      exact hs hnew
    · rw [if_neg hj] at hy
      obtain ⟨hfull, hnodup', hmem'⟩ := h.pgrpq j y hy
      exact ⟨fun hE => hfull fun hEj => hE (.inl hEj), hnodup', hmem'⟩
  · have hfresh := h.freshSession j
    simp only [Groups.opened] at hj ⊢
    grind

/-- The foreground group and the terminal of a session do not matter. -/
theorem Inv.setFg (h : s.Inv A E) (hx : s.session i = some x) (fg tty : Option Nat) :
    (s.setSession i (some { x with fg := fg, tty := tty })).Inv A E := by
  refine ⟨h.task, h.group, h.taskq, fun g' q hq => ?_, fun j y hy => ?_, h.chain, h.chainNodup,
    h.freshPgrp, fun j hj => ?_⟩
  · have howner := h.owner g' q hq
    simp only [setSession]
    grind
  · simp only [setSession] at hy
    by_cases hj : j = i
    · rw [if_pos hj] at hy
      cases hy
      rw [hj]
      exact h.pgrpq i x hx
    · rw [if_neg hj] at hy
      exact h.pgrpq j y hy
  · have hfresh := h.freshSession j hj
    simp only [setSession]
    grind

theorem Inv.mono {A' E' : Nat → Prop} (h : s.Inv A E) (hA : ∀ t, A' t ↔ A t)
    (hE : ∀ i, E i → E' i) : s.Inv A' E' :=
  ⟨fun t => (hA t).trans (h.task t), h.group, h.taskq, h.owner,
    fun i x hx => ⟨fun hi => (h.pgrpq i x hx).1 fun hEi => hi (hE i hEi), (h.pgrpq i x hx).2⟩,
    h.chain, h.chainNodup, h.freshPgrp, h.freshSession⟩

/-! ## Leaders -/

variable {pid : Nat → BitVec 32}

theorem Led.shrunk (h : s.Led pid) (hg : s.pgrpof t = some g) (hp : s.pgrp g = some p)
    (hi : p.session = some i) (hx : s.session i = some x) (hleader : x.leader ≠ some t) :
    (s.shrunk t g p).Led pid := by
  intro j y hy
  obtain ⟨l, g', q, hl, hg', hq, hj, hpgid⟩ := h j y hy
  have hlt : l ≠ t := by
    intro hlt
    rw [hlt, hg] at hg'
    cases hg'
    rw [hp] at hq
    cases hq
    rw [hi] at hj
    cases hj
    rw [show s.session i = some y from hy] at hx
    cases hx
    exact hleader (hlt ▸ hl)
  refine ⟨l, g', if g' = g then { p with taskq := p.taskq.erase t } else q, hl, ?_, ?_, ?_, ?_⟩
  · exact (if_neg hlt).trans hg'
  · simp only [Groups.shrunk, setPgrp, setPgrpof]
    grind
  · grind
  · grind

theorem Led.emptied (hinv : s.Inv A E) (h : s.Led pid) (hg : s.pgrpof t = some g)
    (hp : s.pgrp g = some p) (hi : p.session = some i) (hx : s.session i = some x)
    (hleader : x.leader ≠ some t) (hlast : p.taskq.erase t = []) :
    (s.emptied t g i x).Led pid := by
  obtain ⟨-, hnodup, hmem⟩ := hinv.taskq g p hp
  intro j y hy
  have hold : ∃ z, s.session j = some z ∧ z.leader = y.leader := by
    simp only [Groups.emptied, setSession, unlinkhash, setPgrp, setPgrpof] at hy
    by_cases hj : j = i
    · rw [if_pos hj] at hy
      cases hy
      exact ⟨x, hj ▸ hx, rfl⟩
    · rw [if_neg hj] at hy
      exact ⟨y, hy, rfl⟩
  obtain ⟨z, hz, hzl⟩ := hold
  obtain ⟨l, g', q, hl, hg', hq, hj, hpgid⟩ := h j z hz
  have hgg : g' ≠ g := by
    intro hgg
    rw [hgg, hp] at hq
    cases hq
    rw [hi] at hj
    cases hj
    rw [hx] at hz
    cases hz
    have hlt : l ≠ t := fun hlt => hleader (hlt ▸ hl)
    have hin : l ∈ p.taskq.erase t := hnodup.mem_erase_iff.mpr ⟨hlt, (hmem l).mpr (hgg ▸ hg')⟩
    rw [hlast] at hin
    cases hin
  have hlt : l ≠ t := by
    intro hlt
    rw [hlt, hg] at hg'
    exact hgg (some.inj hg').symm
  refine ⟨l, g', q, hzl ▸ hl, (if_neg hlt).trans hg', (if_neg hgg).trans hq, hj, hpgid⟩

theorem Led.grown (h : s.Led pid) (ht : s.pgrpof t = none) (hp : s.pgrp g = some p) :
    (s.grown t g p).Led pid := by
  intro j y hy
  obtain ⟨l, g', q, hl, hg', hq, hj, hpgid⟩ := h j y hy
  have hlt : l ≠ t := by
    intro hlt
    rw [hlt, ht] at hg'
    cases hg'
  refine ⟨l, g', if g' = g then { p with taskq := p.taskq ++ [t] } else q, hl,
    (if_neg hlt).trans hg', ?_, ?_, ?_⟩
  · simp only [Groups.grown, setPgrp, setPgrpof]
    grind
  · grind
  · grind

theorem Led.founded (hinv : s.Inv A E) (h : s.Led pid) (ht : s.pgrpof t = none)
    (hx : s.session i = some x) (mem : BitVec 32) :
    (s.founded i t (pid t) mem x).Led pid := by
  have hnew : s.pgrp s.npgrp = none := hinv.freshPgrp _ (Nat.le_refl _)
  intro j y hy
  have hold : ∃ z, s.session j = some z ∧ z.leader = y.leader := by
    simp only [Groups.founded] at hy
    grind
  obtain ⟨z, hz, hzl⟩ := hold
  obtain ⟨l, g', q, hl, hg', hq, hj, hpgid⟩ := h j z hz
  have hlt : l ≠ t := by
    intro hlt
    rw [hlt, ht] at hg'
    cases hg'
  have hgg : g' ≠ s.npgrp := by
    intro hgg
    rw [hgg, hnew] at hq
    cases hq
  exact ⟨l, g', q, hzl ▸ hl, (if_neg hlt).trans hg', (if_neg hgg).trans hq, hj, hpgid⟩

/-- The one who makes a session leads it. -/
theorem Led.opened (hinv : s.Inv A E) (h : s.Led pid) (ht : s.pgrpof t = none) (mem : BitVec 32) :
    ((s.opened t (pid t)).founded s.nsession t (pid t) mem
      ⟨pid t, some t, none, none, []⟩).Led pid := by
  have hnew : s.pgrp s.npgrp = none := hinv.freshPgrp _ (Nat.le_refl _)
  intro j y hy
  by_cases hj : j = s.nsession
  · have hy' : y = ⟨pid t, some t, none, none, [] ++ [s.npgrp]⟩ := by
      simp only [Groups.founded, Groups.opened] at hy
      rw [if_pos hj] at hy
      exact (some.inj hy).symm
    rw [hy', hj]
    exact ⟨t, s.npgrp, _, rfl, if_pos rfl, if_pos rfl, rfl, rfl⟩
  · have hold : s.session j = some y := by
      simp only [Groups.founded, Groups.opened] at hy
      grind
    obtain ⟨l, g', q, hl, hg', hq, hjs, hpgid⟩ := h j y hold
    have hlt : l ≠ t := by
      intro hlt
      rw [hlt, ht] at hg'
      cases hg'
    have hgg : g' ≠ s.npgrp := by
      intro hgg
      rw [hgg, hnew] at hq
      cases hq
    exact ⟨l, g', q, hl, (if_neg hlt).trans hg', (if_neg hgg).trans hq, hjs, hpgid⟩

theorem Led.setFg (h : s.Led pid) (hx : s.session i = some x) (fg tty : Option Nat) :
    (s.setSession i (some { x with fg := fg, tty := tty })).Led pid := by
  intro j y hy
  by_cases hj : j = i
  · have hy' : y = { x with fg := fg, tty := tty } := by
      simp only [setSession] at hy
      rw [if_pos hj] at hy
      exact (some.inj hy).symm
    rw [hy', hj]
    exact h i x hx
  · exact h j y ((if_neg hj).symm.trans hy)

theorem Led.congr {pid' : Nat → BitVec 32} (h : s.Led pid)
    (hpid : ∀ t, s.pgrpof t ≠ none → pid' t = pid t) : s.Led pid' := by
  intro i x hx
  obtain ⟨t, g, p, ht, hg, hp, hi, hpgid⟩ := h i x hx
  refine ⟨t, g, p, ht, hg, hp, hi, hpgid.trans (hpid t ?_).symm⟩
  rw [hg]
  exact fun h => by cases h

/-! ## What `leave` does -/

/-- `s'` is `s` after `t` has left, and the group that was only his has gone. -/
structure Left (s s' : Groups) (t : Nat) : Prop where
  pgrpof : ∀ u, s'.pgrpof u = if u = t then none else s.pgrpof u
  pgrp : ∀ g q, s'.pgrp g = some q →
    ∃ p, s.pgrp g = some p ∧ q.pgid = p.pgid ∧ q.session = p.session
  session : ∀ i, (s'.session i = none ↔ s.session i = none) ∧ ∀ y, s'.session i = some y →
    ∃ x, s.session i = some x ∧ y.leader = x.leader ∧
      ∀ g, y.fg = some g ↔ x.fg = some g ∧ (s'.sessionof g = some i ∨ s.sessionof g ≠ some i)
  hashtab : ∀ b g, g ∈ s'.hashtab b ↔ g ∈ s.hashtab b ∧ s'.pgrp g ≠ none
  hmask : s'.hmask = s.hmask
  ttysession : s'.ttysession = s.ttysession
  next : s'.npgrp = s.npgrp ∧ s'.nsession = s.nsession

/-- A task that does not lead its session leaves it. -/
theorem Inv.leave (h : s.Inv A fun _ => False) (hled : s.Led pid) (hg : s.pgrpof t = some g)
    (hp : s.pgrp g = some p) (hi : p.session = some i) (hx : s.session i = some x)
    (hleader : x.leader ≠ some t) :
    ∃ s', s.leave t = .ok s' ∧ s'.Inv (fun u => A u ∧ u ≠ t) (fun _ => False) ∧ s'.Led pid ∧
      Left s s' t := by
  obtain ⟨-, hnodup, hmem⟩ := h.taskq g p hp
  obtain ⟨-, hqnodup, hqmem⟩ := h.pgrpq i x hx
  obtain ⟨l, g', q, hl, hg', hq, hqi, -⟩ := hled i x hx
  have hlt : l ≠ t := fun hlt => hleader (hlt ▸ hl)
  -- the group of the leader stays in the session
  have hstay : p.taskq.erase t = [] → x.pgrpq.erase g ≠ [] := by
    intro hlast hempty
    have hgg : g' ≠ g := by
      intro hgg
      have hin : l ∈ p.taskq.erase t := hnodup.mem_erase_iff.mpr ⟨hlt, (hmem l).mpr (hgg ▸ hg')⟩
      rw [hlast] at hin
      cases hin
    have hin : g' ∈ x.pgrpq.erase g := by
      apply hqnodup.mem_erase_iff.mpr
      refine ⟨hgg, (hqmem g').mpr ?_⟩
      rw [sessionof_eq hq, hqi]
    rw [hempty] at hin
    cases hin
  refine ⟨_, leave_eq hg hp hi hx hleader hstay, ?_⟩
  by_cases hlast : p.taskq.erase t = []
  · rw [if_neg (not_not.mpr hlast)]
    refine ⟨h.emptied hg hp hi hx hlast (hstay hlast),
      hled.emptied h hg hp hi hx hleader hlast, fun u => rfl, ?_, ?_, ?_, rfl, rfl, rfl, rfl⟩
    · intro g' q hq
      simp only [Groups.emptied, setSession, unlinkhash, setPgrp, setPgrpof] at hq
      grind
    · intro j
      simp only [sessionof_emptied]
      simp only [Groups.emptied, setSession, unlinkhash, setPgrp, setPgrpof]
      have hgi : s.sessionof g = some i := by rw [sessionof_eq hp, hi]
      grind
    · intro b g'
      have hchain := h.chain b g'
      simp only [Groups.emptied, setSession, unlinkhash, setPgrp, setPgrpof]
      rw [(h.chainNodup b).mem_erase_iff]
      grind
  · rw [if_pos hlast]
    refine ⟨h.shrunk hg hp hlast, hled.shrunk hg hp hi hx hleader, fun u => rfl, ?_, ?_, ?_,
      rfl, rfl, rfl, rfl⟩
    · intro g' q hq
      simp only [Groups.shrunk, setPgrp, setPgrpof] at hq
      grind
    · intro j
      simp only [sessionof_shrunk hp]
      simp only [Groups.shrunk, setPgrp, setPgrpof]
      grind
    · intro b g'
      have hchain := h.chain b g'
      simp only [Groups.shrunk, setPgrp, setPgrpof]
      grind

/-! ## System calls -/

/-- `s'` is `s` after `t` has left a session that stays. -/
structure Quits (s s' : Groups) (A : Nat → Prop) (pid : Nat → BitVec 32) (t : Nat) : Prop where
  inv : s'.Inv (fun u => A u ∧ u ≠ t) fun _ => False
  led : s'.Led pid
  left : Left s s' t

theorem Quits.pgrpof (h : Quits s s' A pid t) : s'.pgrpof t = none :=
  (h.left.pgrpof t).trans (if_pos rfl)

theorem Quits.back (ht : A t) (u : Nat) : A u ↔ (A u ∧ u ≠ t) ∨ u = t := by
  by_cases hu : u = t
  · rw [hu]
    exact iff_of_true ht (.inr rfl)
  · exact ⟨fun hA => .inl ⟨hA, hu⟩, fun hA => (hA.resolve_right hu).1⟩

/-- The task leads its session. -/
def leads (s : Groups) (t : Nat) : Prop :=
  ∃ g p i x, s.pgrpof t = some g ∧ s.pgrp g = some p ∧ p.session = some i ∧
    s.session i = some x ∧ x.leader = some t

/-- `syssetsid` makes a session for this task. -/
def detaches (s : Groups) (t : Nat) (pid : BitVec 32) : Prop :=
  ∃ g p, s.pgrpof t = some g ∧ s.pgrp g = some p ∧ p.pgid ≠ pid

/-- `syssetpgid` makes a group for this task. -/
def founds (s : Groups) (t : Nat) (pid pgid : BitVec 32) : Prop :=
  ¬ s.leads t ∧ (pgid = 0 ∨ pgid = pid) ∧ s.findpgrp pid = .ok none

/-- `syssetpgid` puts this task into the group. -/
def joins (s : Groups) (t : Nat) (pid pgid : BitVec 32) (g : Nat) : Prop :=
  ¬ s.leads t ∧ pgid ≠ 0 ∧ pgid ≠ pid ∧ s.findpgrp pgid = .ok (some g) ∧ s.pgrpof t ≠ some g

theorem leads_iff (hg : s.pgrpof t = some g) (hp : s.pgrp g = some p) (hi : p.session = some i)
    (hx : s.session i = some x) : s.leads t ↔ x.leader = some t := by
  constructor
  · intro ⟨g', p', i', x', hg', hp', hi', hx', hl⟩
    rw [hg] at hg'
    cases hg'
    rw [hp] at hp'
    cases hp'
    rw [hi] at hi'
    cases hi'
    rw [hx] at hx'
    cases hx'
    exact hl
  · intro hl
    exact ⟨g, p, i, x, hg, hp, hi, hx, hl⟩

/-- What `syssetsid` comes to. -/
theorem Inv.setsid_cases {db : Taskdb} (h : s.Inv A fun _ => False) (hled : s.Led db.pid)
    (ht : A t) (low : Bool) (mem : BitVec 32) :
    (¬ (low = false ∧ s.detaches t (db.pid t)) ∧ ∃ e, s.syssetsid db t low mem = .ok (e, s)) ∨
    ∃ s', low = false ∧ s.detaches t (db.pid t) ∧ Quits s s' A db.pid t ∧
      s.syssetsid db t low mem = .ok ((db.pid t).toInt, (s'.opened t (db.pid t)).founded
        s'.nsession t (db.pid t) mem ⟨db.pid t, some t, none, none, []⟩) := by
  obtain ⟨g, p, i, x, hg, hp, hi, hx, -, -⟩ := h.at ht
  cases low with
  | true => exact .inl ⟨(fun h => by cases h.1), ENOMEM, rfl⟩
  | false =>
      have hcall : s.syssetsid db t false mem =
          if p.pgid = db.pid t then .ok (EPERM, s)
          else (s.leave t).bind fun s => (s.newSession t (db.pid t) mem).bind fun s =>
            .ok ((db.pid t).toInt, s) := by
        show (s.pgrpAt t).bind _ = _
        rw [pgrpAt_eq hg hp]
        rfl
      by_cases hpgid : p.pgid = db.pid t
      · rw [hcall, if_pos hpgid]
        refine .inl ⟨fun ⟨_, g', p', hg', hp', hne⟩ => ?_, EPERM, rfl⟩
        rw [hg] at hg'
        cases hg'
        rw [hp] at hp'
        cases hp'
        exact hne hpgid
      · right
        -- the leader's group has the leader's number
        have hleader : x.leader ≠ some t := by
          intro hl
          obtain ⟨l, g', q, hl', hg', hq, -, hqpgid⟩ := hled i x hx
          rw [hl] at hl'
          cases hl'
          rw [hg] at hg'
          cases hg'
          rw [hp] at hq
          cases hq
          exact hpgid hqpgid
        obtain ⟨s', hleave, hinv, hled', hleft⟩ := h.leave hled hg hp hi hx hleader
        have hquit : Quits s s' A db.pid t := ⟨hinv, hled', hleft⟩
        refine ⟨s', rfl, ⟨g, p, hg, hp, hpgid⟩, hquit, ?_⟩
        rw [hcall, if_neg hpgid, hleave]
        show (s'.newSession t (db.pid t) mem).bind _ = _
        rw [newSession_eq hquit.pgrpof]
        rfl

theorem Quits.setsid (h : Quits s s' A pid t) (ht : A t) (mem : BitVec 32) :
    ((s'.opened t (pid t)).founded s'.nsession t (pid t) mem
      ⟨pid t, some t, none, none, []⟩).Inv A (fun _ => False) ∧
    ((s'.opened t (pid t)).founded s'.nsession t (pid t) mem
      ⟨pid t, some t, none, none, []⟩).Led pid := by
  refine ⟨?_, h.led.opened h.inv h.pgrpof mem⟩
  have hopen := (h.inv.opened t (pid t)).founded h.pgrpof (if_pos rfl) (pid t) mem
  exact hopen.mono (Quits.back ht) fun j hj => hj.2 (hj.1.resolve_left id)

/-- What `syssetpgid` comes to, of a task that it may be about. -/
theorem Inv.setpgid_cases (h : s.Inv A fun _ => False) (hled : s.Led pid) (ht : A t)
    (pgid mem : BitVec 32) :
    (¬ s.founds t (pid t) pgid ∧ (∀ g, ¬ s.joins t (pid t) pgid g) ∧
      ∃ e, s.setpgid t (pid t) pgid mem = .ok (e, s)) ∨
    (∃ s' g q, s.joins t (pid t) pgid g ∧ Quits s s' A pid t ∧ s'.pgrp g = some q ∧
      s.setpgid t (pid t) pgid mem = .ok (0, s'.grown t g q)) ∨
    ∃ s' g p i x, s.founds t (pid t) pgid ∧ s.pgrpof t = some g ∧ s.pgrp g = some p ∧
      p.session = some i ∧ Quits s s' A pid t ∧ s'.session i = some x ∧
      s.setpgid t (pid t) pgid mem = .ok (0, s'.founded i t (pid t) mem x) := by
  obtain ⟨g, p, i, x, hg, hp, hi, hx, -, -⟩ := h.at ht
  have hleads := leads_iff hg hp hi hx
  generalize hpgid : (if pgid = 0 then pid t else pgid) = pgid'
  have hcall : s.setpgid t (pid t) pgid mem =
      if x.leader = some t then .ok (EPERM, s)
      else (s.findpgrp pgid').bind fun r => r.elim
        (if pid t = pgid' then
          (s.leave t).bind fun s => (s.newPgrp i t (pid t) mem).bind fun s => .ok (0, s)
        else .ok (ESRCH, s))
        fun g =>
          if pid t = pgid' then .ok (EPERM, s)
          else if s.pgrpof t = some g then .ok (0, s)
          else (s.leave t).bind fun s => (s.enter t g).bind fun s => .ok (0, s) := by
    show (s.sessionAt t).bind _ = _
    rw [sessionAt_eq hg hp hi]
    show (s.getSession i).bind _ = _
    rw [getSession_eq hx, ← hpgid]
    refine ite_congr rfl (fun _ => rfl) fun _ => congrArg (Except.bind _) (funext fun r => ?_)
    cases r with
    | none => rfl
    | some g => rfl
  by_cases hleader : x.leader = some t
  · rw [hcall, if_pos hleader]
    exact .inl ⟨fun hf => hf.1 (hleads.mpr hleader), fun g hj => hj.1 (hleads.mpr hleader),
      EPERM, rfl⟩
  have hnot : ¬ s.leads t := fun hl => hleader (hleads.mp hl)
  obtain ⟨s', hleave, hinv, hled', hleft⟩ := h.leave hled hg hp hi hx hleader
  have hquit : Quits s s' A pid t := ⟨hinv, hled', hleft⟩
  rw [hcall, if_neg hleader, hleave]
  -- the number asked for is the task's own
  by_cases hself : pgid = 0 ∨ pgid = pid t
  · have hown : pgid' = pid t := by
      rw [← hpgid]
      rcases hself with hzero | hsame
      · rw [if_pos hzero]
      · rw [hsame]
        split
        · rfl
        · rfl
    rw [hown]
    have hnojoin : ∀ g, ¬ s.joins t (pid t) pgid g := fun g hj =>
      hself.elim hj.2.1 hj.2.2.1
    rcases h.findpgrp_cases (pid t) with ⟨hfind, -⟩ | ⟨g', q, hfind, -, -, -⟩
    · rw [hfind]
      right
      right
      have hs' : s'.session i ≠ none := fun hnone =>
        absurd (((hleft.session i).1).mp hnone) (by rw [hx]; exact fun h => by cases h)
      obtain ⟨y, hy⟩ := ne_none_iff_exists'.mp hs'
      refine ⟨s', g, p, i, y, ⟨hnot, hself, hfind⟩, hg, hp, hi, hquit, hy, ?_⟩
      show (if pid t = pid t then (s'.newPgrp i t (pid t) mem).bind _ else _) = _
      rw [if_pos rfl, newPgrp_eq hy]
      rfl
    · rw [hfind]
      left
      refine ⟨fun hf => ?_, hnojoin, EPERM, if_pos rfl⟩
      rw [hf.2.2] at hfind
      cases hfind
  · obtain ⟨hzero, hne⟩ := not_or.mp hself
    rw [if_neg hzero] at hpgid
    subst hpgid
    have hnofound : ¬ s.founds t (pid t) pgid := fun hf => hself hf.2.1
    have hne' : ¬ pid t = pgid := fun heq => hne heq.symm
    rcases h.findpgrp_cases pgid with ⟨hfind, -⟩ | ⟨g', q, hfind, -, hq, -⟩
    · rw [hfind]
      left
      refine ⟨hnofound, fun g hj => ?_, ESRCH, if_neg hne'⟩
      rw [hj.2.2.2.1] at hfind
      cases hfind
    · rw [hfind]
      by_cases hsame : s.pgrpof t = some g'
      · left
        refine ⟨hnofound, fun g hj => ?_, 0, ?_⟩
        · have hgg := hj.2.2.2.1.symm.trans hfind
          cases hgg
          exact hj.2.2.2.2 hsame
        · show (if pid t = pgid then _ else if s.pgrpof t = some g' then _ else _) = _
          rw [if_neg hne', if_pos hsame]
      · right
        left
        -- somebody else is in that group, so it stays
        obtain ⟨hfull, -, hmem⟩ := h.taskq g' q hq
        obtain ⟨u, hu⟩ := exists_mem_of_ne_nil _ hfull
        have hug := (hmem u).mp hu
        have hut : u ≠ t := fun hut => hsame (hut ▸ hug)
        have hlive := hinv.group u g' ((hleft.pgrpof u).trans ((if_neg hut).trans hug))
        obtain ⟨q', hq'⟩ := ne_none_iff_exists'.mp hlive
        refine ⟨s', g', q', ⟨hnot, hzero, hne, hfind, hsame⟩, hquit, hq', ?_⟩
        show (if pid t = pgid then _ else if s.pgrpof t = some g' then _
          else (s'.enter t g').bind _) = _
        rw [if_neg hne', if_neg hsame, enter_eq hquit.pgrpof hq']
        rfl

/-- Whom `syssetpgid` is about. -/
theorem Inv.setpgidTask_cases {db : Taskdb} {curr : Nat} (hdb : db.Inv)
    (h : s.Inv (fun t => t ∈ db.alltaskq) E) (hcurr : curr ∈ db.alltaskq) (n : BitVec 32) :
    (∃ e, s.setpgidTask db curr n = .ok (.error e)) ∨
    ∃ t, t ∈ db.alltaskq ∧ db.pid t = (if n = 0 then db.pid curr else n) ∧
      s.setpgidTask db curr n = .ok (.ok t) := by
  unfold setpgidTask
  split
  · next hself =>
      refine .inr ⟨curr, hcurr, ?_, rfl⟩
      by_cases hn : n = 0
      · rw [if_pos hn]
      · rw [if_neg hn]
        exact (hself.resolve_left hn).symm
  next hself =>
  have hn : n ≠ 0 := fun hn => hself (.inl hn)
  split
  · exact .inl ⟨ESRCH, rfl⟩
  next t hfind =>
  obtain ⟨ht, hpid⟩ := hdb.findtask_some hfind
  split
  · next hnone => exact absurd hnone (hdb.mychild ht)
  · exact .inl ⟨EPERM, rfl⟩
  · obtain ⟨g, p, i, x, hg, hp, hi, -⟩ := h.at ht
    obtain ⟨g', q, j, y, hg', hq, hj, -⟩ := h.at hcurr
    have hcall : ∀ z : Except Int Nat, (if i ≠ j then (.ok (.error EPERM) : Except Fault _)
        else .ok (.ok t)) = .ok z → (do
          if (← s.sessionAt t) ≠ (← s.sessionAt curr) then .ok (.error EPERM)
          else .ok (.ok t) : Except Fault (Except Int Nat)) = .ok z := by
      intro z hz
      rw [sessionAt_eq hg hp hi, sessionAt_eq hg' hq hj]
      exact hz
    by_cases hij : i = j
    · right
      refine ⟨t, ht, hpid.trans (if_neg hn).symm, hcall _ ?_⟩
      rw [if_neg (not_not.mpr hij)]
    · left
      refine ⟨EPERM, hcall _ ?_⟩
      rw [if_pos hij]

/-- `syssetpgid` is refused, or is `setpgid` of that task. -/
theorem Inv.syssetpgid_cases {db : Taskdb} {curr : Nat} (hdb : db.Inv)
    (h : s.Inv (fun t => t ∈ db.alltaskq) E) (hcurr : curr ∈ db.alltaskq) (low : Bool)
    (n pgid mem : BitVec 32) :
    ((∀ t, ¬ (low = false ∧ s.setpgidTask db curr n = .ok (.ok t))) ∧
      ∃ e, s.syssetpgid db curr low n pgid mem = .ok (e, s)) ∨
    ∃ t, t ∈ db.alltaskq ∧ low = false ∧ s.setpgidTask db curr n = .ok (.ok t) ∧
      s.syssetpgid db curr low n pgid mem = s.setpgid t (db.pid t) pgid mem := by
  cases low with
  | true => exact .inl ⟨(fun _ h => by cases h.1), ENOMEM, rfl⟩
  | false =>
      rcases h.setpgidTask_cases hdb hcurr n with ⟨e, htask⟩ | ⟨t, ht, hpid, htask⟩
      · refine .inl ⟨fun t ht => ?_, e, ?_⟩
        · rw [htask] at ht
          cases ht.2
        · unfold Groups.syssetpgid
          rw [htask]
          rfl
      · refine .inr ⟨t, ht, rfl, htask, ?_⟩
        unfold Groups.syssetpgid
        rw [htask, hpid]
        rfl

theorem Quits.grown (h : Quits s s' A pid t) (ht : A t) (hq : s'.pgrp g = some q) :
    (s'.grown t g q).Inv A (fun _ => False) ∧ (s'.grown t g q).Led pid :=
  ⟨(h.inv.grown h.pgrpof hq).mono (Quits.back ht) fun _ => id, h.led.grown h.pgrpof hq⟩

theorem Quits.founded (h : Quits s s' A pid t) (ht : A t) (hx : s'.session i = some x)
    (mem : BitVec 32) :
    (s'.founded i t (pid t) mem x).Inv A (fun _ => False) ∧
      (s'.founded i t (pid t) mem x).Led pid :=
  ⟨(h.inv.founded h.pgrpof hx (pid t) mem).mono (Quits.back ht) fun _ hE => hE.1.elim,
    h.led.founded h.inv h.pgrpof hx mem⟩

/-- The sessions that are still there have their leaders. -/
theorem Quits.leader (h : Quits s s' A pid t) (hx : s'.session i = some x)
    (hl : x.leader = some u) : ∃ y, s.session i = some y ∧ y.leader = some u := by
  obtain ⟨y, hy, hyl, -⟩ := (h.left.session i).2 x hx
  exact ⟨y, hy, hyl ▸ hl⟩

/-! ## The terminal -/

theorem Inv.setTty (h : s.Inv A E) (f : Nat → Option Nat) :
    ({ s with ttysession := f } : Groups).Inv A E :=
  ⟨h.task, h.group, h.taskq, h.owner, h.pgrpq, h.chain, h.chainNodup, h.freshPgrp,
    h.freshSession⟩

/-- A session that has no terminal gets one. -/
def ttyOpened (s : Groups) (tty g i : Nat) (x : Session) : Groups :=
  { s.setSession i (some { x with fg := some g, tty := some tty }) with
    ttysession := fun y => if y = tty then some i else s.ttysession y }

theorem Inv.condevOpen_cases (h : s.Inv A E) (ht : A t) (tty : Nat) :
    s.condevOpen t tty = .ok s ∨
    ∃ g i x, s.pgrpof t = some g ∧ s.sessionof g = some i ∧ s.session i = some x ∧ x.tty = none ∧
      s.condevOpen t tty = .ok (s.ttyOpened tty g i x) := by
  obtain ⟨g, p, i, x, hg, hp, hi, hx, -, -⟩ := h.at ht
  have hcall : s.condevOpen t tty =
      if x.tty ≠ none then .ok s else .ok (s.ttyOpened tty g i x) := by
    show (s.pgrpAt t).bind _ = _
    rw [pgrpAt_eq hg hp]
    show (deref p.session).bind _ = _
    rw [hi]
    show (s.getSession i).bind _ = _
    rw [getSession_eq hx]
    rfl
  rw [hcall]
  by_cases htty : x.tty = none
  · right
    refine ⟨g, i, x, hg, ?_, hx, htty, if_neg (not_not.mpr htty)⟩
    rw [sessionof_eq hp, hi]
  · exact .inl (if_pos htty)

theorem getSession_ok (h : s.getSession i = .ok x) : s.session i = some x := by
  unfold getSession at h
  split at h
  · next y hy =>
      cases h
      exact hy
  · cases h

theorem ttyfg_ok {tty : Nat} (h : s.ttyfg tty = .ok (some (i, x, g))) :
    s.ttysession tty = some i ∧ s.session i = some x ∧ x.fg = some g := by
  unfold ttyfg at h
  split at h
  · cases h
  next j hj =>
  obtain ⟨y, hy, h⟩ := bind_ok h
  split at h
  · cases h
  next g' hg =>
  cases h
  exact ⟨hj, getSession_ok hy, hg⟩

theorem tiocspgrp_cases {tty : Nat} {pgid : BitVec 32} {r : Int × Groups}
    (h : s.tiocspgrp tty pgid = .ok r) :
    r.2 = s ∨ ∃ i x fg g, s.ttyfg tty = .ok (some (i, x, fg)) ∧ s.session i = some x ∧
      s.findpgrp pgid = .ok (some g) ∧ r.2 = s.setSession i (some { x with fg := some g }) := by
  obtain ⟨o, ho, h⟩ := bind_ok h
  split at h
  · cases h
    exact .inl rfl
  next i x fg =>
  obtain ⟨o, hfind, h⟩ := bind_ok h
  split at h
  · cases h
    exact .inl rfl
  next g =>
  cases h
  exact .inr ⟨i, x, fg, g, ho, (ttyfg_ok ho).2.1, hfind, rfl⟩

end Groups

end Unixlite.Kern
