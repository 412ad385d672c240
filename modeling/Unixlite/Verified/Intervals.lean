import Mathlib.Data.List.Pairwise
import Mathlib.Data.Nat.Basic

/-!
# Intervals in order

A list of half-open intervals, each of which ends where the next one starts, or
before.  An interval may be empty.
-/

namespace Unixlite.Verified.Intervals

open List

variable {α : Type*} {lo hi : α → Nat} {l l₁ l₂ : List α} {x y : α} {v : Nat}

/-- Each interval ends before the following ones start. -/
structure Ordered (lo hi : α → Nat) (l : List α) : Prop where
  le : ∀ x ∈ l, lo x ≤ hi x
  before : l.Pairwise fun x y => hi x ≤ lo y

/-- The interval contains `v`. -/
def Contains (lo hi : α → Nat) (x : α) (v : Nat) : Prop := lo x ≤ v ∧ v < hi x

theorem Ordered.nil : Ordered lo hi [] := ⟨by simp, List.Pairwise.nil⟩

theorem Ordered.sorted (h : Ordered lo hi l) : l.Pairwise fun x y => lo x ≤ lo y :=
  h.before.imp_of_mem fun hx _ hxy => Nat.le_trans (h.le _ hx) hxy

theorem Ordered.disjoint (h : Ordered lo hi l) :
    l.Pairwise fun x y => ∀ v, ¬ (Contains lo hi x v ∧ Contains lo hi y v) := by
  refine h.before.imp fun hxy v hboth => ?_
  have hx := hboth.1.2
  have hy := hboth.2.1
  omega

theorem ordered_append : Ordered lo hi (l₁ ++ l₂) ↔
    Ordered lo hi l₁ ∧ Ordered lo hi l₂ ∧ ∀ x ∈ l₁, ∀ y ∈ l₂, hi x ≤ lo y := by
  constructor
  · rintro ⟨hle, hbefore⟩
    obtain ⟨h₁, h₂, hcross⟩ := pairwise_append.mp hbefore
    exact ⟨⟨fun x hx => hle x (mem_append_left l₂ hx), h₁⟩,
      ⟨fun x hx => hle x (mem_append_right l₁ hx), h₂⟩, hcross⟩
  · rintro ⟨h₁, h₂, hcross⟩
    refine ⟨fun x hx => ?_, pairwise_append.mpr ⟨h₁.before, h₂.before, hcross⟩⟩
    rcases mem_append.mp hx with hx | hx
    · exact h₁.le x hx
    · exact h₂.le x hx

theorem ordered_cons : Ordered lo hi (x :: l) ↔
    lo x ≤ hi x ∧ (∀ y ∈ l, hi x ≤ lo y) ∧ Ordered lo hi l := by
  constructor
  · rintro ⟨hle, hbefore⟩
    obtain ⟨hx, hl⟩ := pairwise_cons.mp hbefore
    exact ⟨hle x mem_cons_self, hx, fun y hy => hle y (mem_cons_of_mem x hy), hl⟩
  · rintro ⟨hx, hcross, h⟩
    refine ⟨fun y hy => ?_, pairwise_cons.mpr ⟨hcross, h.before⟩⟩
    rcases mem_cons.mp hy with rfl | hy
    · exact hx
    · exact h.le y hy

/-- One interval becomes another between its neighbours. -/
theorem Ordered.replace (h : Ordered lo hi (l₁ ++ x :: l₂)) (hy : lo y ≤ hi y)
    (h₁ : ∀ z ∈ l₁, hi z ≤ lo y) (h₂ : ∀ z ∈ l₂, hi y ≤ lo z) :
    Ordered lo hi (l₁ ++ y :: l₂) := by
  obtain ⟨hl₁, hl₂, hcross⟩ := ordered_append.mp h
  obtain ⟨-, -, hl₂⟩ := ordered_cons.mp hl₂
  refine ordered_append.mpr ⟨hl₁, ordered_cons.mpr ⟨hy, h₂, hl₂⟩, fun z hz w hw => ?_⟩
  rcases mem_cons.mp hw with rfl | hw
  · exact h₁ z hz
  · exact hcross z hz w (mem_cons_of_mem x hw)

/-- The interval at a place is replaced. -/
theorem Ordered.set {k : Nat} (h : Ordered lo hi l) (hk : k < l.length) (hy : lo y ≤ hi y)
    (h₁ : ∀ i z, i < k → l[i]? = some z → hi z ≤ lo y)
    (h₂ : ∀ i z, k < i → l[i]? = some z → hi y ≤ lo z) : Ordered lo hi (l.set k y) := by
  have hsplit : l = l.take k ++ l[k] :: l.drop (k + 1) := by
    rw [getElem_cons_drop, take_append_drop]
  rw [set_eq_take_append_cons_drop, if_pos hk]
  refine Ordered.replace (x := l[k]) (hsplit ▸ h) hy (fun z hz => ?_) fun z hz => ?_
  · obtain ⟨i, hi, rfl⟩ := mem_take_iff_getElem.mp hz
    exact h₁ i _ (by omega) (List.getElem?_eq_getElem _)
  · obtain ⟨i, hi, rfl⟩ := mem_drop_iff_getElem.mp hz
    exact h₂ (k + 1 + i) _ (by omega) (List.getElem?_eq_getElem _)

/-- The first interval that ends above `v` is the one that contains it, if any
does. -/
theorem Ordered.find (h : Ordered lo hi l) (hx : x ∈ l) (hv : Contains lo hi x v) :
    l.find? (fun y => decide (v < hi y)) = some x := by
  induction l with
  | nil => cases hx
  | cons y l ih =>
      obtain ⟨-, hcross, hl⟩ := ordered_cons.mp h
      rcases mem_cons.mp hx with rfl | hx
      · exact List.find?_cons_of_pos (decide_eq_true hv.2)
      · have hend : ¬ v < hi y := by
          have hle := hcross x hx
          have hstart := hv.1
          omega
        rw [List.find?_cons_of_neg (by simpa using hend)]
        exact ih hl hx

end Unixlite.Verified.Intervals
