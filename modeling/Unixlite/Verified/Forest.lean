import Mathlib.Logic.Function.Basic

/-!
# Trees of pointers in memory

A forest of trees whose nodes are cells of one memory: a root for each tree, and in every cell
pointers to others.  A place in it is a tree and the way down to a pointer, the last step
first.  Trees have a depth, behind which a cell holds something else than pointers.

As long as no two places hold the same pointer, a pointer that is filled in changes what is
found at its own place and nowhere else.
-/

namespace Unixlite.Verified

open Function (update update_of_ne update_self)

structure Forest (ι κ ν : Type*) where
  root : ι → ν
  child : ν → κ → ν

namespace Forest

variable {ι κ ν : Type*} [DecidableEq ι] [DecidableEq κ] [DecidableEq ν]

/-- What is found at a place; behind a null pointer there is nothing. -/
def get (null : ν) (t : Forest ι κ ν) (i : ι) : List κ → ν
  | [] => t.root i
  | k :: ks => if t.get null i ks = null then null else t.child (t.get null i ks) k

/-- Store a pointer in the cell `b`. -/
def store (t : Forest ι κ ν) (b : ν) (k : κ) (v : ν) : Forest ι κ ν where
  root := t.root
  child := update t.child b (update (t.child b) k v)

/-- Store a pointer at a place. -/
def put (null : ν) (t : Forest ι κ ν) (i : ι) (v : ν) : List κ → Forest ι κ ν
  | [] => ⟨update t.root i v, t.child⟩
  | k :: ks => t.store (t.get null i ks) k v

/-- Fill a cell with null pointers. -/
def clear (null : ν) (t : Forest ι κ ν) (v : ν) : Forest ι κ ν :=
  ⟨t.root, update t.child v fun _ => null⟩

/-- No two places hold the same pointer. -/
def NoShare (null : ν) (depth : ι → Nat) (t : Forest ι κ ν) : Prop :=
  ∀ i ks j ls, ks.length ≤ depth i → ls.length ≤ depth j → t.get null i ks ≠ null →
    t.get null i ks = t.get null j ls → i = j ∧ ks = ls

/-- No place holds `v`. -/
def Unused (null : ν) (depth : ι → Nat) (t : Forest ι κ ν) (v : ν) : Prop :=
  ∀ i ks, ks.length ≤ depth i → t.get null i ks ≠ v

variable {null v w : ν} {depth : ι → Nat} {t : Forest ι κ ν} {i : ι} {ks : List κ}

omit [DecidableEq ι] [DecidableEq κ] in
/-- A cell that no place leads to can be cleared. -/
theorem get_clear (hv : Unused null depth t v) {j : ι} {ls : List κ} (hls : ls.length ≤ depth j) :
    (t.clear null v).get null j ls = t.get null j ls := by
  induction ls with
  | nil => rfl
  | cons m ms ih =>
      have hms : ms.length ≤ depth j := Nat.le_of_succ_le hls
      rw [get, get, ih hms]
      have hne : t.get null j ms ≠ v := hv j ms hms
      rw [show (t.clear null v).child (t.get null j ms) = t.child (t.get null j ms) from
        update_of_ne hne _ _]

/-- **A null pointer is filled in**: nothing changes at any other place.  Behind the new pointer
there is nothing yet, or its place is at the bottom of the tree. -/
theorem get_put (h : NoShare null depth t) (hv : Unused null depth t v) (hnull : v ≠ null)
    (hks : ks.length ≤ depth i) (hold : t.get null i ks = null)
    (hparent : ∀ k ks', ks = k :: ks' → t.get null i ks' ≠ null)
    (hbehind : ks.length = depth i ∨ ∀ k, t.child v k = null)
    {j : ι} {ls : List κ} (hls : ls.length ≤ depth j) :
    (t.put null i v ks).get null j ls = if j = i ∧ ls = ks then v else t.get null j ls := by
  induction ls with
  | nil =>
      cases ks with
      | nil =>
          by_cases hj : j = i
          · rw [if_pos ⟨hj, rfl⟩, hj]
            exact update_self ..
          · rw [if_neg fun hboth => hj hboth.1]
            exact update_of_ne hj ..
      | cons k ks =>
          rw [if_neg fun hboth => by cases hboth.2]
          rfl
  | cons m ms ih =>
      have hms : ms.length ≤ depth j := Nat.le_of_succ_le hls
      by_cases hplace : j = i ∧ ms = ks
      · -- behind the new pointer
        have hother : ¬(j = i ∧ m :: ms = ks) := by
          rintro ⟨-, hboth⟩
          rw [← hplace.2] at hboth
          exact List.cons_ne_self m ms hboth
        have hnew : (t.put null i v ks).get null j ms = v := (ih hms).trans (if_pos hplace)
        have hempty : t.get null j ms = null := by rw [hplace.1, hplace.2, hold]
        have hchild : (t.put null i v ks).child v m = null := by
          have hshort : ks.length ≠ depth i := by
            rw [← hplace.1, ← hplace.2]
            exact Nat.ne_of_lt hls
          refine Eq.trans ?_ (hbehind.resolve_left hshort m)
          cases ks with
          | nil => rfl
          | cons k ks =>
              have hne : v ≠ t.get null i ks := (hv i ks (Nat.le_of_succ_le hks)).symm
              exact congrFun (update_of_ne hne _ t.child) m
        rw [get, hnew, if_neg hnull, hchild, if_neg hother, get, if_pos hempty]
      have hsame : (t.put null i v ks).get null j ms = t.get null j ms :=
        (ih hms).trans (if_neg hplace)
      rw [get, hsame, get]
      by_cases hq : t.get null j ms = null
      · have hother : ¬(j = i ∧ m :: ms = ks) := by
          rintro ⟨rfl, hboth⟩
          exact hparent m ms hboth.symm hq
        rw [if_pos hq, if_neg hother, if_pos hq]
      rw [if_neg hq, if_neg hq]
      cases ks with
      | nil =>
          rw [if_neg fun hboth => by cases hboth.2]
          rfl
      | cons k ks =>
          have hks' : ks.length ≤ depth i := Nat.le_of_succ_le hks
          by_cases hcell : t.get null j ms = t.get null i ks
          · -- the cell in which the pointer is
            obtain ⟨rfl, rfl⟩ := h j ms i ks hms hks' hq hcell
            show update t.child _ _ (t.get null j ms) m = _
            rw [update_self]
            by_cases hm : m = k
            · rw [hm, update_self, if_pos ⟨rfl, rfl⟩]
            · rw [update_of_ne hm, if_neg]
              rintro ⟨-, hboth⟩
              exact hm (List.cons.inj hboth).1
          · have hother : ¬(j = i ∧ m :: ms = k :: ks) := by
              rintro ⟨rfl, hboth⟩
              exact hcell (by rw [(List.cons.inj hboth).2])
            rw [if_neg hother]
            exact congrFun (update_of_ne hcell _ t.child) m

section

variable (h : NoShare null depth t) (hv : Unused null depth t v) (hnull : v ≠ null)
  (hks : ks.length ≤ depth i) (hold : t.get null i ks = null)
  (hparent : ∀ k ks', ks = k :: ks' → t.get null i ks' ≠ null)
  (hbehind : ks.length = depth i ∨ ∀ k, t.child v k = null)

include h hv hnull hks hold hparent hbehind

theorem NoShare.put : NoShare null depth (t.put null i v ks) := by
  intro j ls j' ls' hls hls'
  rw [get_put h hv hnull hks hold hparent hbehind hls,
    get_put h hv hnull hks hold hparent hbehind hls']
  by_cases hj : j = i ∧ ls = ks
  · rw [if_pos hj]
    by_cases hj' : j' = i ∧ ls' = ks
    · rw [if_pos hj']
      exact fun _ _ => ⟨hj.1.trans hj'.1.symm, hj.2.trans hj'.2.symm⟩
    · rw [if_neg hj']
      exact fun _ heq => absurd heq.symm (hv j' ls' hls')
  · rw [if_neg hj]
    by_cases hj' : j' = i ∧ ls' = ks
    · rw [if_pos hj']
      exact fun _ heq => absurd heq (hv j ls hls)
    · rw [if_neg hj']
      exact h j ls j' ls' hls hls'

theorem Unused.put (hw : Unused null depth t w) (hne : w ≠ v) :
    Unused null depth (t.put null i v ks) w := by
  intro j ls hls
  rw [get_put h hv hnull hks hold hparent hbehind hls]
  split
  · exact hne.symm
  · exact hw j ls hls

end

end Forest

end Unixlite.Verified
