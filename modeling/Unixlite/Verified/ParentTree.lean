import Mathlib.Data.Set.Basic
import Mathlib.Logic.Function.Iterate
import Mathlib.Order.WellFounded

/-!
# Trees given by parent pointers

A set of nodes with a parent for each of them is a tree when the root is its own
parent and following the pointers from any node reaches the root.  The two ways
in which a tree grows and shrinks are a new leaf (`IsTree.insertLeaf`) and the
removal of a node that is nobody's parent (`IsTree.eraseLeaf`).
-/

namespace Unixlite.Verified.ParentTree

variable {ι : Type*}

structure IsTree (root : ι) (D : Set ι) (up : ι → ι) : Prop where
  root_mem : root ∈ D
  up_root : up root = root
  up_mem : ∀ d ∈ D, up d ∈ D
  reach : ∀ d ∈ D, ∃ k, up^[k] d = root

variable {root : ι} {D E : Set ι} {up up' : ι → ι}

namespace IsTree

theorem iterate_mem (h : IsTree root D up) {d : ι} (hd : d ∈ D) (k : Nat) : up^[k] d ∈ D := by
  induction k with
  | zero => exact hd
  | succ k ih =>
      rw [Function.iterate_succ_apply']
      exact h.up_mem _ ih

/-- Only the root is its own parent. -/
theorem up_ne_self (h : IsTree root D up) {d : ι} (hd : d ∈ D) (hne : d ≠ root) : up d ≠ d := by
  intro hself
  obtain ⟨k, hk⟩ := h.reach d hd
  rw [Function.iterate_fixed hself k] at hk
  exact hne hk

/-- Parents outside the tree do not matter. -/
theorem congr (h : IsTree root D up) (hDE : ∀ d, d ∈ E ↔ d ∈ D)
    (hup : ∀ d ∈ D, up' d = up d) : IsTree root E up' where
  root_mem := (hDE root).mpr h.root_mem
  up_root := (hup root h.root_mem).trans h.up_root
  up_mem := by
    intro d hd
    rw [hup d ((hDE d).mp hd)]
    exact (hDE _).mpr (h.up_mem d ((hDE d).mp hd))
  reach := by
    intro d hd
    obtain ⟨k, hk⟩ := h.reach d ((hDE d).mp hd)
    refine ⟨k, ?_⟩
    have hiter : ∀ j, up'^[j] d = up^[j] d := by
      intro j
      induction j with
      | zero => rfl
      | succ j ih =>
          rw [Function.iterate_succ_apply', Function.iterate_succ_apply', ih]
          exact hup _ (h.iterate_mem ((hDE d).mp hd) j)
    rw [hiter k, hk]

/-- Parents that come before their children, all from the root on, make a tree. -/
theorem of_lt [LT ι] [WellFoundedLT ι] (hroot : root ∈ D) (hself : up root = root)
    (hlt : ∀ d ∈ D, d ≠ root → up d ∈ D ∧ up d < d) : IsTree root D up := by
  refine ⟨hroot, hself, fun d hd => ?_, fun d => ?_⟩
  · by_cases hdr : d = root
    · rw [hdr, hself]
      exact hroot
    · exact (hlt d hd hdr).1
  · induction d using WellFoundedLT.induction with
    | ind d ih =>
        intro hd
        by_cases hdr : d = root
        · exact ⟨0, hdr⟩
        · obtain ⟨hmem, hless⟩ := hlt d hd hdr
          obtain ⟨k, hk⟩ := ih (up d) hless hmem
          exact ⟨k + 1, hk⟩

/-- A new node under a node of the tree. -/
theorem insertLeaf (h : IsTree root D up) {n p : ι} (hn : n ∉ D) (hp : p ∈ D)
    (hE : ∀ d, d ∈ E ↔ d = n ∨ d ∈ D) (hnp : up' n = p)
    (hup : ∀ d ∈ D, up' d = up d) : IsTree root E up' := by
  have hold : IsTree root D up' := h.congr (fun _ => Iff.rfl) hup
  refine ⟨(hE root).mpr (.inr h.root_mem), hold.up_root, ?_, ?_⟩
  · intro d hd
    rcases (hE d).mp hd with rfl | hd
    · exact (hE _).mpr (.inr (hnp ▸ hp))
    · exact (hE _).mpr (.inr (hold.up_mem d hd))
  · intro d hd
    rcases (hE d).mp hd with rfl | hd
    · obtain ⟨k, hk⟩ := hold.reach p hp
      exact ⟨k + 1, by rw [Function.iterate_succ_apply, hnp, hk]⟩
    · exact hold.reach d hd

/-- A node that is nobody's parent goes. -/
theorem eraseLeaf (h : IsTree root D up) {c : ι} (hc : c ≠ root)
    (hleaf : ∀ d ∈ D, d ≠ c → up d ≠ c) (hE : ∀ d, d ∈ E ↔ d ∈ D ∧ d ≠ c)
    (hup : ∀ d ∈ D, d ≠ c → up' d = up d) : IsTree root E up' := by
  have hstay : ∀ d ∈ D, d ≠ c → ∀ k, up'^[k] d = up^[k] d ∧ up^[k] d ≠ c := by
    intro d hd hdc k
    induction k with
    | zero => exact ⟨rfl, hdc⟩
    | succ k ih =>
        rw [Function.iterate_succ_apply', Function.iterate_succ_apply', ih.1]
        have hmem := h.iterate_mem hd k
        exact ⟨hup _ hmem ih.2, hleaf _ hmem ih.2⟩
  refine ⟨(hE root).mpr ⟨h.root_mem, hc.symm⟩, ?_, ?_, ?_⟩
  · exact (hup root h.root_mem hc.symm).trans h.up_root
  · intro d hd
    obtain ⟨hd, hdc⟩ := (hE d).mp hd
    rw [hup d hd hdc]
    exact (hE _).mpr ⟨h.up_mem d hd, hleaf d hd hdc⟩
  · intro d hd
    obtain ⟨hd, hdc⟩ := (hE d).mp hd
    obtain ⟨k, hk⟩ := h.reach d hd
    exact ⟨k, (hstay d hd hdc k).1.trans hk⟩

end IsTree

end Unixlite.Verified.ParentTree
