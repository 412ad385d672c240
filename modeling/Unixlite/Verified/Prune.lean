import Mathlib.Logic.Function.Basic

/-!
# Freeing trees of pointers

Cells hold pointers to cells, and a mark says which pointers lead to something in use.  A tree
is freed from its leaves up: each entry of a cell is freed and set to null, and the cell is
freed after its last entry.  To go on behind a pointer its cell has to be read, which may fail;
then all stops where it is.

The cells are kept twice, and only the dirty ones are written back.  After a failure the
pointers written back lead to what is in use exactly if on the way to the failure every cell
that has lost an entry is dirty (`Pruned.kept`).
-/

namespace Unixlite.Verified.Prune

open List

/-- How pointers lead to cells, and which entries a cell has. -/
structure Layout (ν γ κ : Type*) where
  null : ν
  cell : ν → γ
  inj : Function.Injective cell
  keys : List κ
  nodup : keys.Nodup

/-- The pointers in the cells, and what is in use. -/
structure Memory (ν γ κ : Type*) where
  child : γ → κ → ν
  used : ν → Bool

variable {ν γ κ : Type*}

namespace Memory

section

variable [DecidableEq ν]

def drop (m : Memory ν γ κ) (v : ν) : Memory ν γ κ :=
  { m with used := Function.update m.used v false }

theorem used_drop (m : Memory ν γ κ) (v w : ν) :
    (m.drop v).used w = if w = v then false else m.used w :=
  Function.update_apply ..

end

section

variable [DecidableEq γ] [DecidableEq κ]

/-- Store a pointer in a cell. -/
def set (m : Memory ν γ κ) (c : γ) (k : κ) (v : ν) : Memory ν γ κ :=
  { m with child := Function.update m.child c (Function.update (m.child c) k v) }

variable (m : Memory ν γ κ) {c c' : γ} {k k' : κ} {v : ν}

theorem child_set : (m.set c k v).child c k = v := by
  unfold set
  dsimp only
  rw [Function.update_self, Function.update_self]

theorem child_set_cell (h : c' ≠ c) : (m.set c k v).child c' = m.child c' :=
  Function.update_of_ne h ..

theorem child_set_key (h : k' ≠ k) : (m.set c k v).child c k' = m.child c k' := by
  unfold set
  dsimp only
  rw [Function.update_self, Function.update_of_ne h]

/-- What is there already is stored. -/
theorem set_child : m.set c k (m.child c k) = m := by
  unfold set
  rw [Function.update_eq_self, Function.update_eq_self]

/-- An entry is as it was, or it is the one that has been stored. -/
theorem child_set_or (c' : γ) (k' : κ) :
    (m.set c k v).child c' k' = v ∨ (m.set c k v).child c' k' = m.child c' k' := by
  by_cases hc : c' = c
  · by_cases hk : k' = k
    · rw [hc, hk]
      exact .inl (child_set m)
    · rw [hc]
      exact .inr (child_set_key m hk)
  · exact .inr (congrFun (child_set_cell m hc) k')

end

end Memory

/-! ## Trees -/

section

variable (L : Layout ν γ κ)

/-- What a pointer leads to, with `d` levels of cells. -/
def Reach (child : γ → κ → ν) : (d : Nat) → (v w : ν) → Prop
  | 0, v, w => v ≠ L.null ∧ w = v
  | d + 1, v, w => v ≠ L.null ∧ (w = v ∨ ∃ k ∈ L.keys, Reach child d (child (L.cell v) k) w)

/-- The trees in the entries of a cell have nothing in common, nor the cell itself. -/
structure Apart (child : γ → κ → ν) (c : γ) (depth : κ → Nat) (ks : List κ) : Prop where
  cell : ∀ k ∈ ks, ∀ w, Reach L child (depth k) (child c k) w → L.cell w ≠ c
  entry : ∀ k ∈ ks, ∀ k' ∈ ks, ∀ w, Reach L child (depth k) (child c k) w →
    Reach L child (depth k') (child c k') w → k = k'

/-- No two ways lead to one place. -/
def Tree (child : γ → κ → ν) : (d : Nat) → (v : ν) → Prop
  | 0, _ => True
  | d + 1, v => v ≠ L.null → Apart L child (L.cell v) (fun _ => d) L.keys ∧
      ∀ k ∈ L.keys, Tree child d (child (L.cell v) k)

/-- What is written back. -/
def image (dirty : γ → Bool) (m m' : Memory ν γ κ) : γ → κ → ν :=
  fun c => if dirty c then m'.child c else m.child c

/-- Up to the first entry that fails they are kept, and that one is covered. -/
def coveredAll (fail covered keep : κ → Bool) : List κ → Bool
  | [] => true
  | k :: ks => if fail k then covered k else keep k && coveredAll fail covered keep ks

end

variable {L : Layout ν γ κ} {child child' : γ → κ → ν} {d : Nat} {v w : ν}

theorem Reach.ne_null (h : Reach L child d v w) : v ≠ L.null := by
  cases d with
  | zero => exact h.1
  | succ d => exact h.1

theorem Reach.self (h : v ≠ L.null) : Reach L child d v v := by
  cases d with
  | zero => exact ⟨h, rfl⟩
  | succ d => exact ⟨h, .inl rfl⟩

variable {k : κ} {c : γ} {ks : List κ}

theorem Reach.below (hv : v ≠ L.null) (hk : k ∈ L.keys)
    (h : Reach L child d (child (L.cell v) k) w) : Reach L child (d + 1) v w :=
  ⟨hv, .inr ⟨k, hk, h⟩⟩

/-- What is found behind the pointer to a cell is the cell and what is behind its entries. -/
theorem reach_succ (hv : v ≠ L.null) :
    Reach L child (d + 1) v w ↔ w = v ∨ ∃ k ∈ L.keys, Reach L child d (child (L.cell v) k) w :=
  ⟨fun h => h.2, fun h => ⟨hv, h⟩⟩

/-- With pointers taken away there is less to reach. -/
theorem Reach.shrink (hsub : ∀ c k, child' c k = L.null ∨ child' c k = child c k)
    (h : Reach L child' d v w) : Reach L child d v w := by
  induction d generalizing v with
  | zero => exact h
  | succ d ih =>
      obtain ⟨hv, hw⟩ := h
      refine ⟨hv, hw.imp_right ?_⟩
      rintro ⟨k, hk, hreach⟩
      refine ⟨k, hk, ?_⟩
      rcases hsub (L.cell v) k with hnull | hsame
      · exact absurd hnull hreach.ne_null
      · rw [← hsame]
        exact ih hreach

/-- Only the cells of the tree matter. -/
theorem reach_congr (h : ∀ w, Reach L child d v w → child' (L.cell w) = child (L.cell w)) :
    Reach L child' d v w ↔ Reach L child d v w := by
  induction d generalizing v with
  | zero => exact Iff.rfl
  | succ d ih =>
      refine and_congr_right fun hv => or_congr_right (exists_congr fun k => ?_)
      refine and_congr_right fun hk => ?_
      rw [h v (Reach.self hv)]
      exact ih fun w hw => h w (hw.below hv hk)

theorem Apart.congr {depth : κ → Nat} (h : Apart L child c depth ks)
    (hentry : ∀ k ∈ ks, child' c k = child c k)
    (hreach : ∀ k ∈ ks, ∀ w, Reach L child' (depth k) (child c k) w ↔
      Reach L child (depth k) (child c k) w) : Apart L child' c depth ks := by
  refine ⟨fun k hk w hw => ?_, fun k hk k' hk' w hw hw' => ?_⟩
  · rw [hentry k hk, hreach k hk] at hw
    exact h.cell k hk w hw
  · rw [hentry k hk, hreach k hk] at hw
    rw [hentry k' hk', hreach k' hk'] at hw'
    exact h.entry k hk k' hk' w hw hw'

theorem Tree.congr (htree : Tree L child d v)
    (h : ∀ w, Reach L child d v w → child' (L.cell w) = child (L.cell w)) :
    Tree L child' d v := by
  induction d generalizing v with
  | zero => trivial
  | succ d ih =>
      intro hv
      obtain ⟨hapart, hbelow⟩ := htree hv
      have hcell := h v (Reach.self hv)
      have hagree : ∀ k ∈ L.keys, ∀ w, Reach L child d (child (L.cell v) k) w →
          child' (L.cell w) = child (L.cell w) := fun k hk w hw => h w (hw.below hv hk)
      refine ⟨hapart.congr (fun k _ => congrFun hcell k)
        (fun k hk w => reach_congr (hagree k hk)), fun k hk => ?_⟩
      rw [hcell]
      exact ih (hbelow k hk) (hagree k hk)

theorem coveredAll_congr {fail fail' cov cov' keep keep' : κ → Bool}
    (hfail : ∀ k ∈ ks, fail' k = fail k) (hcov : ∀ k ∈ ks, cov' k = cov k)
    (hkeep : ∀ k ∈ ks, keep' k = keep k) :
    coveredAll fail' cov' keep' ks = coveredAll fail cov keep ks := by
  induction ks with
  | nil => rfl
  | cons k ks ih =>
      rw [forall_mem_cons] at hfail hcov hkeep
      rw [coveredAll, coveredAll, hfail.1, hcov.1, hkeep.1, ih hfail.2 hcov.2 hkeep.2]

/-- Nothing is written back but pointers from before. -/
theorem image_shrinks {m m' : Memory ν γ κ} {dirty : γ → Bool}
    (hsub : ∀ c' k, m'.child c' k = L.null ∨ m'.child c' k = m.child c' k) (c' : γ) (k : κ) :
    image dirty m m' c' k = L.null ∨ image dirty m m' c' k = m.child c' k := by
  unfold image
  split
  · exact hsub c' k
  · exact .inr rfl

theorem Reach.image {m m' : Memory ν γ κ} {dirty : γ → Bool}
    (hsub : ∀ c' k, m'.child c' k = L.null ∨ m'.child c' k = m.child c' k)
    (h : Reach L (image dirty m m') d (image dirty m m' c k) w) :
    Reach L m.child d (m.child c k) w := by
  rcases image_shrinks hsub c k with hnull | hsame
  · exact absurd hnull h.ne_null
  · rw [hsame] at h
    exact h.shrink (image_shrinks hsub)

theorem any_congr {p q : κ → Bool} (h : ∀ k ∈ ks, p k = q k) : ks.any p = ks.any q := by
  induction ks with
  | nil => rfl
  | cons k ks ih =>
      rw [forall_mem_cons] at h
      rw [any_cons, any_cons, h.1, ih h.2]

/-- The trees in the entries `ks` of a cell, before. -/
structure Whole (L : Layout ν γ κ) (m : Memory ν γ κ) (c : γ) (depth : κ → Nat) (ks : List κ) :
    Prop where
  apart : Apart L m.child c depth ks
  tree : ∀ k ∈ ks, Tree L m.child (depth k) (m.child c k)
  used : ∀ k ∈ ks, ∀ w, Reach L m.child (depth k) (m.child c k) w → m.used w = true

/-- The entries of the cell, before. -/
theorem Whole.entries {m : Memory ν γ κ} {depth : κ → Nat} (hd : depth k = d + 1)
    (hv : m.child c k ≠ L.null) (h : Whole L m c depth [k]) :
    Whole L m (L.cell (m.child c k)) (fun _ => d) L.keys := by
  have htree := h.tree k mem_cons_self
  rw [hd] at htree
  obtain ⟨hapart, hbelow⟩ := htree hv
  refine ⟨hapart, hbelow, fun j hj w hw => ?_⟩
  have hreach := hw.below hv hj
  rw [← hd] at hreach
  exact h.used k mem_cons_self w hreach

/-! ## Failures -/

section

variable [DecidableEq ν] (L : Layout ν γ κ) (bad : ν → Bool)

/-- A cell of the tree cannot be read. -/
def fails (child : γ → κ → ν) : (d : Nat) → (v : ν) → Bool
  | 0, _ => false
  | d + 1, v => v ≠ L.null && (bad v || L.keys.any fun k => fails child d (child (L.cell v) k))

/-- On the way to the first cell that cannot be read, each cell is dirty or has no pointer in
front of the one that leads on. -/
def covered (dirty : γ → Bool) (child : γ → κ → ν) : (d : Nat) → (v : ν) → Bool
  | 0, _ => true
  | d + 1, v => v = L.null || (bad v ||
      coveredAll (fun k => fails L bad child d (child (L.cell v) k))
        (fun k => covered dirty child d (child (L.cell v) k))
        (fun k => dirty (L.cell v) || child (L.cell v) k = L.null) L.keys)

end

variable [DecidableEq ν] {bad : ν → Bool}

theorem fails_congr (h : ∀ w, Reach L child d v w → child' (L.cell w) = child (L.cell w)) :
    fails L bad child' d v = fails L bad child d v := by
  induction d generalizing v with
  | zero => rfl
  | succ d ih =>
      unfold fails
      by_cases hv : v = L.null
      · rw [decide_eq_false (not_not.mpr hv), Bool.false_and, Bool.false_and]
      · rw [h v (Reach.self hv), any_congr fun k hk => ih fun w hw => h w (hw.below hv hk)]

theorem covered_congr {dirty : γ → Bool}
    (h : ∀ w, Reach L child d v w → child' (L.cell w) = child (L.cell w)) :
    covered L bad dirty child' d v = covered L bad dirty child d v := by
  induction d generalizing v with
  | zero => rfl
  | succ d ih =>
      unfold covered
      by_cases hv : v = L.null
      · rw [decide_eq_true hv, Bool.true_or, Bool.true_or]
      have hagree : ∀ k ∈ L.keys, ∀ w, Reach L child d (child (L.cell v) k) w →
          child' (L.cell w) = child (L.cell w) := fun k hk w hw => h w (hw.below hv hk)
      rw [h v (Reach.self hv), coveredAll_congr (fun k hk => fails_congr (hagree k hk))
        (fun k hk => ih (hagree k hk)) fun _ _ => rfl]

/-! ## What freeing does -/

/-- What is found after the entries `ks` of a cell have been freed, one after the other. -/
structure Pruned (L : Layout ν γ κ) (bad : ν → Bool) (m : Memory ν γ κ) (c : γ)
    (depth : κ → Nat) (ks : List κ) (r : Bool × Memory ν γ κ) : Prop where
  ok : r.1 = !ks.any fun k => fails L bad m.child (depth k) (m.child c k)
  /-- Pointers are taken away only. -/
  shrinks : ∀ c' k, r.2.child c' k = L.null ∨ r.2.child c' k = m.child c' k
  cell : ∀ c' ≠ c, (∀ k ∈ ks, ∀ w, Reach L m.child (depth k) (m.child c k) w → L.cell w ≠ c') →
    r.2.child c' = m.child c'
  entry : ∀ k, (k ∉ ks ∨ fails L bad m.child (depth k) (m.child c k) = true) →
    r.2.child c k = m.child c k
  fewer : ∀ w, r.2.used w = true → m.used w = true
  other : ∀ w, (∀ k ∈ ks, ¬Reach L m.child (depth k) (m.child c k) w) → r.2.used w = m.used w
  freed : r.1 = true → ∀ k ∈ ks, r.2.child c k = L.null ∧
    ∀ w, Reach L m.child (depth k) (m.child c k) w → r.2.used w = false
  kept : r.1 = false → ∀ dirty,
    (∀ k ∈ ks, ∀ w, Reach L (image dirty m r.2) (depth k) (image dirty m r.2 c k) w →
      r.2.used w = true) ↔
    coveredAll (fun k => fails L bad m.child (depth k) (m.child c k))
      (fun k => covered L bad dirty m.child (depth k) (m.child c k))
      (fun k => dirty c || m.child c k = L.null) ks = true

section

variable {m m' : Memory ν γ κ} {c : γ} {k : κ} {ks : List κ} {depth : κ → Nat}
  {r r' : Bool × Memory ν γ κ}

theorem Pruned.any (hr : Pruned L bad m c depth ks r) :
    (ks.any fun k => fails L bad m.child (depth k) (m.child c k)) = !r.1 := by
  rw [hr.ok, Bool.not_not]

theorem Pruned.one (hr : Pruned L bad m c depth [k] r) :
    fails L bad m.child (depth k) (m.child c k) = !r.1 := by
  rw [← hr.any, any_cons, any_nil, Bool.or_false]

/-- The other trees are not touched. -/
theorem Pruned.agree (h : Whole L m c depth (k :: ks)) (hk : k ∉ ks)
    (hr : Pruned L bad m c depth [k] r) {j : κ} (hj : j ∈ ks) :
    r.2.child c j = m.child c j ∧
      ∀ w, Reach L m.child (depth j) (m.child c j) w →
        r.2.child (L.cell w) = m.child (L.cell w) ∧ r.2.used w = m.used w := by
  have hne : j ≠ k := fun heq => hk (heq ▸ hj)
  have hj' : j ∈ k :: ks := mem_cons_of_mem k hj
  have hk' : k ∈ k :: ks := mem_cons_self
  refine ⟨hr.entry j (.inl fun hmem => hne (mem_singleton.mp hmem)), fun w hw => ⟨?_, ?_⟩⟩
  · refine hr.cell _ (h.apart.cell j hj' w hw) fun k₁ hk₁ w' hw' heq => ?_
    rw [mem_singleton.mp hk₁, L.inj heq] at hw'
    exact hne (h.apart.entry j hj' k hk' w hw hw')
  · refine hr.other w fun k₁ hk₁ hw' => ?_
    rw [mem_singleton.mp hk₁] at hw'
    exact hne (h.apart.entry j hj' k hk' w hw hw')

theorem Whole.tail (h : Whole L m c depth (k :: ks)) (hk : k ∉ ks)
    (hr : Pruned L bad m c depth [k] r) : Whole L r.2 c depth ks := by
  have hagree := fun j (hj : j ∈ ks) => hr.agree h hk hj
  have hreach : ∀ j ∈ ks, ∀ w, Reach L r.2.child (depth j) (m.child c j) w ↔
      Reach L m.child (depth j) (m.child c j) w := fun j hj w =>
    reach_congr fun w hw => ((hagree j hj).2 w hw).1
  have hmem : ∀ j ∈ ks, j ∈ k :: ks := fun j hj => mem_cons_of_mem k hj
  have hapart : Apart L m.child c depth ks :=
    ⟨fun j hj => h.apart.cell j (hmem j hj),
      fun j hj j' hj' => h.apart.entry j (hmem j hj) j' (hmem j' hj')⟩
  refine ⟨hapart.congr (fun j hj => (hagree j hj).1) hreach, fun j hj => ?_, fun j hj w hw => ?_⟩
  · rw [(hagree j hj).1]
    exact (h.tree j (hmem j hj)).congr fun w hw => ((hagree j hj).2 w hw).1
  · rw [(hagree j hj).1, hreach j hj] at hw
    rw [((hagree j hj).2 w hw).2]
    exact h.used j (hmem j hj) w hw

/-- The first entry could not be freed. -/
theorem Pruned.stop (h : Whole L m c depth (k :: ks)) (hk : k ∉ ks)
    (hr : Pruned L bad m c depth [k] r) (hfail : r.1 = false) :
    Pruned L bad m c depth (k :: ks) r := by
  have hfails : fails L bad m.child (depth k) (m.child c k) = true := by
    rw [hr.one, hfail, Bool.not_false]
  have hsame : ∀ j, r.2.child c j = m.child c j := by
    intro j
    by_cases hj : j = k
    · rw [hj]
      exact hr.entry k (.inr hfails)
    · exact hr.entry j (.inl fun hmem => hj (mem_singleton.mp hmem))
  have hmem : ∀ {p : κ → Prop}, (∀ j ∈ k :: ks, p j) → ∀ j ∈ [k], p j := fun hp j hj =>
    hp j (mem_singleton.mp hj ▸ mem_cons_self)
  refine ⟨?_, hr.shrinks, fun c' hc' hcell => hr.cell c' hc' (hmem hcell), fun j _ => hsame j,
    hr.fewer, fun w hw => hr.other w (hmem hw), fun htrue => ?_, fun _ dirty => ?_⟩
  · rw [hfail, any_cons, hfails, Bool.true_or, Bool.not_true]
  · rw [hfail] at htrue
    cases htrue
  · have hkept := hr.kept hfail dirty
    rw [coveredAll, if_pos hfails] at hkept ⊢
    refine Iff.trans ⟨fun hall => hmem hall, fun hone => ?_⟩ hkept
    rw [forall_mem_cons]
    refine ⟨hone k mem_cons_self, fun j hj w hw => ?_⟩
    have hbefore := hw.image hr.shrinks
    rw [((hr.agree h hk hj).2 w hbefore).2]
    exact h.used j (mem_cons_of_mem k hj) w hbefore

/-- The first entry has been freed. -/
theorem Pruned.cons (h : Whole L m c depth (k :: ks)) (hk : k ∉ ks)
    (hr : Pruned L bad m c depth [k] r) (hok : r.1 = true)
    (hr' : Pruned L bad r.2 c depth ks r') : Pruned L bad m c depth (k :: ks) r' := by
  have hfails : fails L bad m.child (depth k) (m.child c k) = false := by
    rw [hr.one, hok, Bool.not_true]
  have hagree := fun j (hj : j ∈ ks) => hr.agree h hk hj
  have hcells := fun j (hj : j ∈ ks) w hw => ((hagree j hj).2 w hw).1
  have hreach : ∀ j ∈ ks, ∀ w, Reach L r.2.child (depth j) (r.2.child c j) w ↔
      Reach L m.child (depth j) (m.child c j) w := by
    intro j hj w
    rw [(hagree j hj).1]
    exact reach_congr (hcells j hj)
  have hfail : ∀ j ∈ ks, fails L bad r.2.child (depth j) (r.2.child c j) =
      fails L bad m.child (depth j) (m.child c j) := by
    intro j hj
    rw [(hagree j hj).1]
    exact fails_congr (hcells j hj)
  have hmem : ∀ j ∈ ks, j ∈ k :: ks := fun j hj => mem_cons_of_mem k hj
  have hfirst := hr.freed hok k mem_cons_self
  -- what has been freed stays so
  have hnull : r'.2.child c k = L.null := by
    rcases hr'.shrinks c k with hnull | hsame
    · exact hnull
    · rw [hsame]
      exact hfirst.1
  have hgone : ∀ w, Reach L m.child (depth k) (m.child c k) w → r'.2.used w = false := by
    intro w hw
    cases hused : r'.2.used w with
    | false => rfl
    | true =>
        have hbefore := hr'.fewer w hused
        rw [hfirst.2 w hw] at hbefore
        cases hbefore
  refine ⟨?_, fun c' j => ?_, fun c' hc' hcell => ?_, fun j hj => ?_,
    fun w hw => hr.fewer w (hr'.fewer w hw), fun w hw => ?_, fun htrue => ?_,
    fun hfalse dirty => ?_⟩
  · rw [hr'.ok, any_cons, hfails, Bool.false_or, any_congr hfail]
  · rcases hr'.shrinks c' j with hnull | hsame
    · exact .inl hnull
    · rw [hsame]
      exact hr.shrinks c' j
  · rw [hr'.cell c' hc' fun j hj w hw => hcell j (hmem j hj) w ((hreach j hj w).mp hw)]
    refine hr.cell c' hc' fun j hj => ?_
    rw [mem_singleton.mp hj]
    exact hcell k mem_cons_self
  · by_cases hjk : j = k
    · rw [hjk, hfails] at hj
      rcases hj with hj | hj
      · exact absurd mem_cons_self hj
      · cases hj
    · have hsame := hr.entry j (.inl fun hmem => hjk (mem_singleton.mp hmem))
      rw [← hsame]
      by_cases hjks : j ∈ ks
      · refine hr'.entry j (.inr ?_)
        rw [hfail j hjks]
        exact hj.resolve_left fun hnot => hnot (hmem j hjks)
      · exact hr'.entry j (.inl hjks)
  · rw [hr'.other w fun j hj hw' => hw j (hmem j hj) ((hreach j hj w).mp hw')]
    refine hr.other w fun j hj => ?_
    rw [mem_singleton.mp hj]
    exact hw k mem_cons_self
  · rw [forall_mem_cons]
    refine ⟨⟨hnull, hgone⟩, fun j hj => ?_⟩
    obtain ⟨hnull', hfreed⟩ := hr'.freed htrue j hj
    exact ⟨hnull', fun w hw => hfreed w ((hreach j hj w).mpr hw)⟩
  · rw [coveredAll, hfails, if_neg Bool.false_ne_true, Bool.and_eq_true, forall_mem_cons]
    refine and_congr ?_ ?_
    · -- the entry that has been freed
      rw [Bool.or_eq_true, decide_eq_true_eq]
      constructor
      · intro hused
        by_contra hneither
        rw [not_or] at hneither
        have hcell : image dirty m r'.2 c k = m.child c k := by
          unfold image
          rw [if_neg hneither.1]
        have hself : Reach L (image dirty m r'.2) (depth k) (image dirty m r'.2 c k)
            (m.child c k) := by
          rw [hcell]
          exact Reach.self hneither.2
        have hin := hused _ hself
        rw [hgone _ (Reach.self hneither.2)] at hin
        cases hin
      · intro hkeep w hw
        refine absurd ?_ hw.ne_null
        unfold image
        split
        · exact hnull
        · next hclean => exact hkeep.resolve_left hclean
    · -- the others
      have himage : ∀ j ∈ ks, ∀ w,
          Reach L (image dirty m r'.2) (depth j) (image dirty m r'.2 c j) w ↔
            Reach L (image dirty r.2 r'.2) (depth j) (image dirty r.2 r'.2 c j) w := by
        intro j hj w
        have hentry : image dirty m r'.2 c j = image dirty r.2 r'.2 c j := by
          unfold image
          split
          · rfl
          · exact (hagree j hj).1.symm
        rw [hentry]
        refine reach_congr fun w hw => ?_
        have hcell := hcells j hj w ((hreach j hj w).mp (hw.image hr'.shrinks))
        unfold image
        rw [hcell]
      have hkept := hr'.kept hfalse dirty
      rw [coveredAll_congr hfail (fun j hj => ?_) fun j hj => ?_] at hkept
      · rw [← hkept]
        exact forall₂_congr fun j hj => forall_congr' fun w => by rw [himage j hj w]
      · rw [(hagree j hj).1]
        exact covered_congr (hcells j hj)
      · rw [(hagree j hj).1]

/-- There is nothing behind a null pointer. -/
theorem Pruned.null (hnull : m.child c k = L.null) : Pruned L bad m c depth [k] (true, m) := by
  have hfails : fails L bad m.child (depth k) (m.child c k) = false := by
    rw [hnull]
    cases depth k with
    | zero => rfl
    | succ d => rw [fails, decide_eq_false (not_not.mpr rfl), Bool.false_and]
  refine ⟨?_, fun _ _ => .inr rfl, fun _ _ _ => rfl, fun _ _ => rfl, fun _ h => h,
    fun _ _ => rfl, fun _ j hj => ?_, fun hfalse => by cases hfalse⟩
  · rw [any_cons, hfails]
    rfl
  · rw [mem_singleton.mp hj]
    exact ⟨hnull, fun w hw => absurd hnull hw.ne_null⟩

end

section

variable {m : Memory ν γ κ} {c : γ} {k : κ} {depth : κ → Nat} {r : Bool × Memory ν γ κ}
  (hd : depth k = d + 1) (hv : m.child c k ≠ L.null)

include hd hv

/-- What is outside of a tree is outside of what is behind its first cell. -/
theorem Pruned.outside {c' : γ} (hr : Pruned L bad m (L.cell (m.child c k)) (fun _ => d) L.keys r)
    (hc' : ∀ w, Reach L m.child (depth k) (m.child c k) w → L.cell w ≠ c') :
    r.2.child c' = m.child c' := by
  rw [hd] at hc'
  exact hr.cell c' (hc' _ (Reach.self hv)).symm fun j hj w hw => hc' w (hw.below hv hj)

variable (h : Whole L m c depth [k])

include h

/-- The cell itself is in use as long as its entries are being freed. -/
theorem Pruned.holds (hr : Pruned L bad m (L.cell (m.child c k)) (fun _ => d) L.keys r) :
    r.2.used (m.child c k) = true := by
  rw [hr.other _ fun j hj hw => (h.entries hd hv).apart.cell j hj _ hw rfl]
  exact h.used k mem_cons_self _ (Reach.self hv)

/-- A cell that cannot be read. -/
theorem Pruned.unread (hbad : bad (m.child c k) = true) :
    Pruned L bad m c depth [k] (false, m) := by
  have hfails : fails L bad m.child (depth k) (m.child c k) = true := by
    rw [hd, fails, decide_eq_true hv, hbad, Bool.true_or, Bool.and_self]
  refine ⟨?_, fun _ _ => .inr rfl, fun _ _ _ => rfl, fun _ _ => rfl, fun _ h => h,
    fun _ _ => rfl, fun htrue => (by cases htrue), fun _ dirty => ?_⟩
  · rw [any_cons, hfails]
    rfl
  · have himage : image dirty m m = m.child := by
      funext c'
      unfold image
      rw [ite_self]
    rw [coveredAll, if_pos hfails, hd, covered, hbad, Bool.true_or, Bool.or_true, himage]
    refine iff_of_true (fun j hj => ?_) rfl
    rw [mem_singleton.mp hj]
    exact h.used k mem_cons_self

/-- An entry of the cell could not be freed. -/
theorem Pruned.fail (hbad : bad (m.child c k) = false)
    (hr : Pruned L bad m (L.cell (m.child c k)) (fun _ => d) L.keys r) (hfail : r.1 = false) :
    Pruned L bad m c depth [k] r := by
  have hcell := hr.outside hd hv (h.apart.cell k mem_cons_self)
  have hany : (L.keys.any fun j => fails L bad m.child d (m.child (L.cell (m.child c k)) j)) =
      true := by
    rw [hr.any, hfail, Bool.not_false]
  have hfails : fails L bad m.child (depth k) (m.child c k) = true := by
    rw [hd, fails, hbad, Bool.false_or, hany, decide_eq_true hv]
    rfl
  refine ⟨?_, hr.shrinks, fun c' hc' hout => ?_, fun j _ => congrFun hcell j, hr.fewer,
    fun w hw => hr.other w fun j hj hw' => ?_, fun htrue => ?_, fun _ dirty => ?_⟩
  · rw [hfail, any_cons, hfails]
    rfl
  · exact hr.outside hd hv (hout k mem_cons_self)
  · refine hw k mem_cons_self ?_
    rw [hd]
    exact hw'.below hv hj
  · rw [hfail] at htrue
    cases htrue
  · have himage : image dirty m r.2 c k = m.child c k := by
      unfold image
      rw [hcell, ite_self]
    rw [coveredAll, if_pos hfails, hd, covered, hbad, decide_eq_false hv, Bool.false_or,
      Bool.false_or, ← hr.kept hfail dirty, forall_mem_singleton, hd, himage]
    constructor
    · exact fun hall j hj w hw => hall w (hw.below hv hj)
    · intro hall w hw
      rcases (reach_succ hv).mp hw with rfl | ⟨j, hj, hw⟩
      · exact hr.holds hd hv h
      · exact hall j hj w hw

end

/-! ## The program -/

/-- Free the entries of a cell one after the other, up to a failure. -/
def pruneAll (f : κ → Memory ν γ κ → Bool × Memory ν γ κ) :
    List κ → Memory ν γ κ → Bool × Memory ν γ κ
  | [], m => (true, m)
  | k :: ks, m => if (f k m).1 then pruneAll f ks (f k m).2 else f k m

variable {m : Memory ν γ κ} {c : γ} {depth : κ → Nat}

/-- When each entry is freed as it should be, so is a cell of them. -/
theorem pruneAll_pruned {f : κ → Memory ν γ κ → Bool × Memory ν γ κ} {ks : List κ}
    (hf : ∀ k m, Whole L m c depth [k] → Pruned L bad m c depth [k] (f k m))
    (hks : ks.Nodup) (h : Whole L m c depth ks) :
    Pruned L bad m c depth ks (pruneAll f ks m) := by
  induction ks generalizing m with
  | nil =>
      exact ⟨rfl, fun _ _ => .inr rfl, fun _ _ _ => rfl, fun _ _ => rfl, fun _ h => h,
        fun _ _ => rfl, fun _ k hk => absurd hk not_mem_nil, fun hfalse => by cases hfalse⟩
  | cons k ks ih =>
      obtain ⟨hk, hks⟩ := nodup_cons.mp hks
      have hmem : ∀ j ∈ [k], j ∈ k :: ks := fun j hj =>
        mem_singleton.mp hj ▸ mem_cons_self
      have hone : Whole L m c depth [k] :=
        ⟨⟨fun j hj => h.apart.cell j (hmem j hj), fun j hj j' hj' =>
          h.apart.entry j (hmem j hj) j' (hmem j' hj')⟩,
          fun j hj => h.tree j (hmem j hj), fun j hj => h.used j (hmem j hj)⟩
      have hr := hf k m hone
      rw [pruneAll]
      split
      · next hok => exact Pruned.cons h hk hr hok (ih hks (h.tail hk hr))
      · next hfail => exact Pruned.stop h hk hr (Bool.not_eq_true _ ▸ hfail)

variable [DecidableEq γ] [DecidableEq κ]

section

variable (L : Layout ν γ κ) (bad : ν → Bool)

/-- Free what is behind the entry `k` of `c`, with `d` levels of cells. -/
def prune : (d : Nat) → (c : γ) → (k : κ) → Memory ν γ κ → Bool × Memory ν γ κ
  | 0, c, k, m =>
      (true, if m.child c k = L.null then m else (m.drop (m.child c k)).set c k L.null)
  | d + 1, c, k, m =>
      if m.child c k = L.null then (true, m)
      else if bad (m.child c k) then (false, m)
      else
        let r := pruneAll (prune d (L.cell (m.child c k))) L.keys m
        if r.1 then (true, (r.2.drop (r.2.child c k)).set c k L.null) else r

end
variable {k : κ} {d : Nat}


/-- A pointer with no cells behind it. -/
theorem Pruned.leaf (hd : depth k = 0) (hv : m.child c k ≠ L.null) :
    Pruned L bad m c depth [k] (true, (m.drop (m.child c k)).set c k L.null) := by
  have hfails : fails L bad m.child (depth k) (m.child c k) = false := by rw [hd, fails]
  refine ⟨?_, fun c' j => Memory.child_set_or _ c' j, fun c' hc' _ => Memory.child_set_cell _ hc',
    fun j hj => ?_, fun w hw => ?_, fun w hw => ?_, fun _ j hj => ?_,
    fun hfalse => by cases hfalse⟩
  · rw [any_cons, hfails]
    rfl
  · refine Memory.child_set_key _ fun hjk => ?_
    rw [hjk, hfails] at hj
    rcases hj with hj | hj
    · exact hj mem_cons_self
    · cases hj
  · have hdrop := Memory.used_drop m (m.child c k) w
    split at hdrop
    · rw [show (m.drop (m.child c k)).used w = true from hw] at hdrop
      cases hdrop
    · rw [← hdrop]
      exact hw
  · refine (Memory.used_drop m _ w).trans (if_neg fun heq => ?_)
    rw [heq] at hw
    exact hw k mem_cons_self (Reach.self hv)
  · rw [mem_singleton.mp hj, hd]
    refine ⟨Memory.child_set _, fun w hw => ?_⟩
    exact (Memory.used_drop m _ w).trans (if_pos hw.2)

/-- All entries of the cell are free, and so is the cell. -/
theorem Pruned.done {r : Bool × Memory ν γ κ} (hd : depth k = d + 1)
    (hv : m.child c k ≠ L.null) (h : Whole L m c depth [k]) (hbad : bad (m.child c k) = false)
    (hr : Pruned L bad m (L.cell (m.child c k)) (fun _ => d) L.keys r) (hok : r.1 = true) :
    Pruned L bad m c depth [k] (true, (r.2.drop (r.2.child c k)).set c k L.null) := by
  have hcell := hr.outside hd hv (h.apart.cell k mem_cons_self)
  have hany : (L.keys.any fun j => fails L bad m.child d (m.child (L.cell (m.child c k)) j)) =
      false := by
    rw [hr.any, hok, Bool.not_true]
  have hfails : fails L bad m.child (depth k) (m.child c k) = false := by
    rw [hd, fails, hbad, Bool.false_or, hany, Bool.and_false]
  have hused : ∀ w, ((r.2.drop (r.2.child c k)).set c k L.null).used w =
      if w = m.child c k then false else r.2.used w := by
    intro w
    rw [← hcell]
    exact Memory.used_drop ..
  refine ⟨?_, fun c' j => ?_, fun c' hc' hout => ?_, fun j hj => ?_, fun w hw => ?_,
    fun w hw => ?_, fun _ => forall_mem_singleton.mpr ⟨Memory.child_set _, fun w hw => ?_⟩,
    fun hfalse => by cases hfalse⟩
  · rw [any_cons, hfails]
    rfl
  · rcases Memory.child_set_or (r.2.drop (r.2.child c k)) c' j with hnull | hsame
    · exact .inl hnull
    · rw [hsame]
      exact hr.shrinks c' j
  · rw [Memory.child_set_cell _ hc']
    exact hr.outside hd hv (hout k mem_cons_self)
  · have hne : j ≠ k := by
      rintro rfl
      rw [hfails] at hj
      rcases hj with hj | hj
      · exact hj mem_cons_self
      · cases hj
    rw [Memory.child_set_key _ hne]
    exact congrFun hcell j
  · rw [hused] at hw
    split at hw
    · cases hw
    · exact hr.fewer w hw
  · have hout := hw k mem_cons_self
    rw [hd] at hout
    have hne : w ≠ m.child c k := by
      rintro rfl
      exact hout (Reach.self hv)
    rw [hused, if_neg hne]
    exact hr.other w fun j hj hw' => hout (hw'.below hv hj)
  · rw [hused]
    split
    · rfl
    · next hne =>
      rw [hd] at hw
      obtain ⟨j, hj, hw⟩ := ((reach_succ hv).mp hw).resolve_left hne
      exact (hr.freed hok j hj).2 w hw

/-- The pointer to what has been freed is null. -/
theorem prune_null (hok : (prune L bad d c k m).1 = true) :
    (prune L bad d c k m).2.child c k = L.null := by
  cases d with
  | zero =>
      rw [prune]
      split
      · next hnull => exact hnull
      · exact Memory.child_set _
  | succ d =>
      rw [prune] at hok ⊢
      split
      · next hnull => exact hnull
      · next hv =>
        rw [if_neg hv] at hok
        cases hbad : bad (m.child c k) with
        | true =>
            rw [hbad, if_pos rfl] at hok
            cases hok
        | false =>
            rw [hbad, if_neg Bool.false_ne_true] at hok
            rw [if_neg Bool.false_ne_true]
            dsimp only at hok ⊢
            split
            · exact Memory.child_set _
            · next hfail =>
              rw [if_neg hfail] at hok
              exact absurd hok hfail

/-- **A tree is freed from its leaves up**, and this is what has to be dirty for what is written
back to lead to nothing free. -/
theorem prune_pruned (hd : depth k = d) (h : Whole L m c depth [k]) :
    Pruned L bad m c depth [k] (prune L bad d c k m) := by
  induction d generalizing m c k depth with
  | zero =>
      rw [prune]
      split
      · next hnull => exact Pruned.null hnull
      · next hv => exact Pruned.leaf hd hv
  | succ d ih =>
      rw [prune]
      split
      · next hnull => exact Pruned.null hnull
      · next hv =>
        cases hbad : bad (m.child c k) with
        | true =>
            exact Pruned.unread hd hv h hbad
        | false =>
            rw [if_neg Bool.false_ne_true]
            have hr := pruneAll_pruned (fun j m hone => ih rfl hone) L.nodup (h.entries hd hv)
            dsimp only
            split
            · next hok => exact Pruned.done hd hv h hbad hr hok
            · next hfail =>
              exact Pruned.fail hd hv h hbad hr (Bool.not_eq_true _ ▸ hfail)

end Unixlite.Verified.Prune
