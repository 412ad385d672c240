import Mathlib.Algebra.BigOperators.Group.Finset.Basic
import Unixlite.Fs.Inode
import Unixlite.Verified.ParentTree

/-!
# What the directories of a file system say

A `Tree` keeps of a file system which inodes are allocated, which of them are
directories, their link counts and the slots of the directories.  It is well
formed (`Tree.WF`) when the directories form a tree along their `..` entries,
each one but the root has one entry besides, in its parent, and every link count
is the number of entries that name the inode.

The directory operations are put together from six changes that keep a `Tree`
well formed: `grow`, `link`, `unlink`, `insertDir`, `eraseDir`, `moveDir`, and
two that concern inodes only, `create` and `release`.
-/

namespace Unixlite.Fs

open Verified.ParentTree Finset

structure Tree where
  bound : Nat
  alloc : Nat → Prop
  dir : Nat → Prop
  nlink : Nat → Nat
  slots : Nat → List De

/-- A slot without an entry. -/
def De.free : De := ⟨MINIXFREEINO, []⟩

/-- The number of entries that name `i`. -/
def count (l : List De) (i : Nat) : Nat := (l.map De.ino).count i

theorem count_append (l r : List De) (i : Nat) : count (l ++ r) i = count l i + count r i := by
  simp [count]

theorem count_cons (e : De) (l : List De) (i : Nat) :
    count (e :: l) i = count l i + if e.ino = i then 1 else 0 := by
  simp [count, List.count_cons]

theorem count_eq_zero {l : List De} {i : Nat} : count l i = 0 ↔ ∀ e ∈ l, e.ino ≠ i := by
  simp [count, List.count_eq_zero]

/-- One slot changes. -/
theorem count_set {l : List De} {k : Nat} {old : De} (new : De) (i : Nat)
    (hold : l[k]? = some old) :
    count (l.set k new) i + (if old.ino = i then 1 else 0) =
      count l i + if new.ino = i then 1 else 0 := by
  induction l generalizing k with
  | nil => simp at hold
  | cons e l ih =>
      cases k with
      | zero =>
          obtain rfl : e = old := by simpa using hold
          rw [List.set_cons_zero, count_cons, count_cons]
          omega
      | succ k =>
          have htail := ih (by simpa using hold)
          rw [List.set_cons_succ, count_cons, count_cons]
          omega

namespace Tree

/-! ## Observations -/

/-- The inode of the `..` entry. -/
def up (t : Tree) (d : Nat) : Nat := ((t.slots d)[1]?.getD De.free).ino

/-- The number of entries that name `i`, in all directories. -/
def refs (t : Tree) (i : Nat) : Nat := ∑ d ∈ Finset.range t.bound, count (t.slots d) i

/-- Directory `p` names `i` in slot `k`, not counting its first two. -/
def At (t : Tree) (p k i : Nat) : Prop :=
  2 ≤ k ∧ ∃ e, (t.slots p)[k]? = some e ∧ e.ino = i

/-- The allocated directories. -/
def dirs (t : Tree) : Set Nat := {d | t.alloc d ∧ t.dir d}

/-- All of well-formedness but where directories are named and the link counts. -/
structure Shape (t : Tree) : Prop where
  range : ∀ i, t.alloc i → 0 < i ∧ i < t.bound
  slots_dir : ∀ d, t.slots d ≠ [] → d ∈ t.dirs
  dots : ∀ d ∈ t.dirs, ∃ rest, t.slots d = ⟨d, dot⟩ :: ⟨t.up d, dotdot⟩ :: rest
  live : ∀ d, ∀ e ∈ t.slots d, e.ino ≠ MINIXFREEINO → t.alloc e.ino
  names : ∀ d, ∀ e ∈ (t.slots d).drop 2, e.ino ≠ MINIXFREEINO → e.name ≠ dot ∧ e.name ≠ dotdot
  tree : IsTree MINIXROOTINO t.dirs t.up

/-- Each directory but the root is named once, by its parent; the root is not. -/
structure Named (t : Tree) : Prop where
  intro ::
  exist : ∀ d ∈ t.dirs, d ≠ MINIXROOTINO → ∃ k, t.At (t.up d) k d
  unique : ∀ d ∈ t.dirs, ∀ p k, t.At p k d →
    d ≠ MINIXROOTINO ∧ p = t.up d ∧ ∀ l, t.At p l d → l = k

structure WF (t : Tree) : Prop extends Shape t, Named t where
  nlink_eq : ∀ i, t.alloc i → t.nlink i = t.refs i

/-! ## Changing one directory -/

def setSlots (t : Tree) (p : Nat) (l : List De) : Tree :=
  { t with slots := fun d => if d = p then l else t.slots d }

def setSlot (t : Tree) (p k : Nat) (e : De) : Tree := t.setSlots p ((t.slots p).set k e)

def setNlink (t : Tree) (i n : Nat) : Tree :=
  { t with nlink := fun j => if j = i then n else t.nlink j }

section Observe

variable (t : Tree) (p k : Nat) (l : List De) (e : De) (i n : Nat)

@[simp] theorem setSlots_bound : (t.setSlots p l).bound = t.bound := rfl
@[simp] theorem setSlots_nlink : (t.setSlots p l).nlink = t.nlink := rfl
@[simp] theorem setSlots_slots (d : Nat) :
    (t.setSlots p l).slots d = if d = p then l else t.slots d := rfl

@[simp] theorem setSlot_bound : (t.setSlot p k e).bound = t.bound := rfl
@[simp] theorem setSlot_nlink : (t.setSlot p k e).nlink = t.nlink := rfl
@[simp] theorem setSlot_slots (d : Nat) :
    (t.setSlot p k e).slots d = if d = p then (t.slots p).set k e else t.slots d := rfl

@[simp] theorem setNlink_bound : (t.setNlink i n).bound = t.bound := rfl
@[simp] theorem setNlink_slots : (t.setNlink i n).slots = t.slots := rfl
@[simp] theorem setNlink_refs : (t.setNlink i n).refs = t.refs := rfl
@[simp] theorem setNlink_nlink (j : Nat) :
    (t.setNlink i n).nlink j = if j = i then n else t.nlink j := rfl

end Observe
variable {t : Tree} {k m p : Nat}


theorem refs_setSlots (hp : p < t.bound) (l : List De) (i : Nat) :
    (t.setSlots p l).refs i + count (t.slots p) i = t.refs i + count l i := by
  have hmem : p ∈ Finset.range t.bound := mem_range.mpr hp
  have hrest : ∑ d ∈ (Finset.range t.bound).erase p, count ((t.setSlots p l).slots d) i =
      ∑ d ∈ (Finset.range t.bound).erase p, count (t.slots d) i := by
    refine sum_congr rfl fun d hd => ?_
    rw [setSlots_slots, if_neg (ne_of_mem_erase hd)]
  have hnew := add_sum_erase _ (fun d => count ((t.setSlots p l).slots d) i) hmem
  have hold := add_sum_erase _ (fun d => count (t.slots d) i) hmem
  simp only [setSlots_slots, if_true] at hnew hrest
  simp only [refs, setSlots_bound, setSlots_slots]
  omega

theorem refs_setSlot {old : De} (hp : p < t.bound)
    (hold : (t.slots p)[k]? = some old) (new : De) (i : Nat) :
    (t.setSlot p k new).refs i + (if old.ino = i then 1 else 0) =
      t.refs i + if new.ino = i then 1 else 0 := by
  have hrefs := refs_setSlots hp ((t.slots p).set k new) i
  have hcount := count_set new i hold
  rw [setSlot]
  omega

theorem up_setSlot (hk : 2 ≤ k) (e : De) (d : Nat) : (t.setSlot p k e).up d = t.up d := by
  rw [up, up, setSlot_slots]
  split
  · next h =>
      subst h
      rw [List.getElem?_set_ne (by omega)]
  · rfl

theorem at_setSlot {old : De} (hold : (t.slots p)[k]? = some old)
    (e : De) (hk : 2 ≤ k) (q l i : Nat) :
    (t.setSlot p k e).At q l i ↔
      if q = p ∧ l = k then e.ino = i else t.At q l i := by
  have hlt : k < (t.slots p).length := (List.getElem?_eq_some_iff.mp hold).1
  rw [At, setSlot_slots]
  by_cases hq : q = p
  · subst hq
    by_cases hl : l = k
    · subst hl
      simp [hk, hlt]
    · rw [if_pos rfl, List.getElem?_set_ne (Ne.symm hl)]
      simp [hl, At]
  · simp [hq, At]

/-! ## Facts about a well-formed tree -/

variable {t t' : Tree} {p k i c n : Nat} {e old : De} {name : Name}

theorem Shape.zero_not_dir (h : Shape t) : MINIXFREEINO ∉ t.dirs := fun h0 =>
  Nat.lt_irrefl 0 (h.range 0 h0.1).1

theorem Shape.mem_dirs_of_slot (h : Shape t) (he : (t.slots p)[k]? = some e) : p ∈ t.dirs := by
  refine h.slots_dir p fun hnil => ?_
  rw [hnil] at he
  simp at he

theorem Shape.lt_bound_of_slot (h : Shape t) (he : (t.slots p)[k]? = some e) : p < t.bound :=
  (h.range p (h.mem_dirs_of_slot he).1).2

/-- The first two entries name directories. -/
theorem Shape.two_le (h : Shape t) (he : (t.slots p)[k]? = some e) (hdir : e.ino ∉ t.dirs) :
    2 ≤ k := by
  have hp := h.mem_dirs_of_slot he
  obtain ⟨rest, hrest⟩ := h.dots p hp
  rw [hrest] at he
  match k, he with
  | 0, he =>
      obtain rfl : _ = e := by simpa using he
      exact absurd hp hdir
  | 1, he =>
      obtain rfl : _ = e := by simpa using he
      exact absurd (h.tree.up_mem p hp) hdir
  | k + 2, _ => omega

theorem Shape.two_le_of_free (h : Shape t) (he : (t.slots p)[k]? = some e)
    (hfree : e.ino = MINIXFREEINO) : 2 ≤ k :=
  h.two_le he (hfree ▸ h.zero_not_dir)

theorem refs_pos {d : Nat} (hd : d < t.bound) (he : e ∈ t.slots d) : 0 < t.refs e.ino := by
  refine Nat.pos_of_ne_zero fun h0 => ?_
  have hzero := sum_eq_zero_iff.mp h0 d (mem_range.mpr hd)
  exact count_eq_zero.mp hzero e he rfl

theorem Shape.refs_eq_zero (h : Shape t) (hi : ¬ t.alloc i) (h0 : i ≠ MINIXFREEINO) :
    t.refs i = 0 := by
  refine sum_eq_zero fun d _ => count_eq_zero.mpr fun e he hei => ?_
  exact hi (hei ▸ h.live d e he (hei ▸ h0))

theorem Shape.slots_eq_nil (h : Shape t) (hi : ¬ t.alloc i) : t.slots i = [] := by
  by_contra hne
  exact hi (h.slots_dir i hne).1

/-- A directory names itself. -/
theorem WF.nlink_pos (h : WF t) (hd : i ∈ t.dirs) : 0 < t.nlink i := by
  obtain ⟨rest, hrest⟩ := h.dots i hd
  have hpos : 0 < t.refs i :=
    refs_pos (e := ⟨i, dot⟩) (h.range i hd.1).2 (by simp [hrest])
  rw [h.nlink_eq i hd.1]
  exact hpos

theorem Named.congr (h : Named t) (hdirs : t'.dirs = t.dirs) (hup : ∀ d ∈ t.dirs, t'.up d = t.up d)
    (hat : ∀ d ∈ t.dirs, ∀ p k, t'.At p k d ↔ t.At p k d) : Named t' where
  exist := by
    intro d hd hroot
    rw [hdirs] at hd
    obtain ⟨k, hk⟩ := h.exist d hd hroot
    exact ⟨k, (hat d hd _ k).mpr (hup d hd ▸ hk)⟩
  unique := by
    intro d hd p k hk
    rw [hdirs] at hd
    obtain ⟨hroot, hp, huniq⟩ := h.unique d hd p k ((hat d hd p k).mp hk)
    exact ⟨hroot, hp.trans (hup d hd).symm, fun l hl => huniq l ((hat d hd p l).mp hl)⟩

/-! ## Entries of files -/

/-- Slots from the third on may change freely. -/
theorem Shape.setSlot (h : Shape t) (hold : (t.slots p)[k]? = some old) (hk : 2 ≤ k)
    (he : e.ino ≠ MINIXFREEINO → t.alloc e.ino ∧ e.name ≠ dot ∧ e.name ≠ dotdot) :
    Shape (t.setSlot p k e) where
  range := h.range
  slots_dir := by
    intro d hd
    by_cases hdp : d = p
    · subst hdp
      exact h.mem_dirs_of_slot hold
    · rw [setSlot_slots, if_neg hdp] at hd
      exact h.slots_dir d hd
  dots := by
    intro d hd
    obtain ⟨rest, hrest⟩ := h.dots d hd
    rw [up_setSlot hk, setSlot_slots]
    by_cases hdp : d = p
    · subst hdp
      obtain ⟨j, rfl⟩ := Nat.exists_eq_add_of_le' hk
      exact ⟨rest.set j e, by rw [if_pos rfl, hrest]; rfl⟩
    · exact ⟨rest, by rw [if_neg hdp, hrest]⟩
  live := by
    intro d e' he' hne
    by_cases hdp : d = p
    · rw [setSlot_slots, if_pos hdp] at he'
      rcases List.mem_or_eq_of_mem_set he' with hmem | rfl
      · exact h.live p e' hmem hne
      · exact (he hne).1
    · rw [setSlot_slots, if_neg hdp] at he'
      exact h.live d e' he' hne
  names := by
    intro d e' he' hne
    by_cases hdp : d = p
    · rw [setSlot_slots, if_pos hdp, List.drop_set, if_neg (by omega)] at he'
      rcases List.mem_or_eq_of_mem_set he' with hmem | rfl
      · exact h.names p e' hmem hne
      · exact (he hne).2
    · rw [setSlot_slots, if_neg hdp] at he'
      exact h.names d e' he' hne
  tree := h.tree.congr (fun _ => Iff.rfl) fun d _ => up_setSlot hk e d

theorem Shape.setNlink (h : Shape t) : Shape (t.setNlink i n) :=
  ⟨h.range, h.slots_dir, h.dots, h.live, h.names, h.tree⟩

/-- Slots that held no directory, and hold none. -/
theorem Named.setSlot (h : Named t) (hold : (t.slots p)[k]? = some old) (hk : 2 ≤ k)
    (holddir : old.ino ∉ t.dirs) (hdir : e.ino ∉ t.dirs) : Named (t.setSlot p k e) := by
  refine h.congr rfl (fun d _ => up_setSlot hk e d) fun d hd q l => ?_
  rw [at_setSlot hold e hk]
  split
  · next hql =>
      obtain ⟨rfl, rfl⟩ := hql
      constructor
      · intro hed
        exact absurd (hed ▸ hd) hdir
      · rintro ⟨-, e', he', hed⟩
        rw [hold] at he'
        cases he'
        exact absurd (hed ▸ hd) holddir
  · rfl

/-- One more slot at the end. -/
theorem WF.grow (h : WF t) (hp : p ∈ t.dirs) : WF (t.setSlots p (t.slots p ++ [De.free])) := by
  obtain ⟨rest, hrest⟩ := h.dots p hp
  have hup : ∀ d, (t.setSlots p (t.slots p ++ [De.free])).up d = t.up d := by
    intro d
    rw [up, up, setSlots_slots]
    split
    · next hdp => subst hdp; simp [hrest]
    · rfl
  have hmem : ∀ d, ∀ e ∈ (t.setSlots p (t.slots p ++ [De.free])).slots d,
      e.ino ≠ MINIXFREEINO → e ∈ t.slots d := by
    intro d e he hne
    rw [setSlots_slots] at he
    split at he
    · next hdp =>
        rcases List.mem_append.mp he with he | he
        · exact hdp ▸ he
        · exact absurd (by rw [List.mem_singleton.mp he]; rfl) hne
    · exact he
  refine ⟨⟨h.range, ?_, ?_, fun d e he hne => h.live d e (hmem d e he hne) hne, ?_, ?_⟩, ?_, ?_⟩
  · intro d hd
    by_cases hdp : d = p
    · exact hdp ▸ hp
    · exact h.slots_dir d (by simpa [hdp] using hd)
  · intro d hd
    rw [hup, setSlots_slots]
    split
    · next hdp =>
        subst hdp
        exact ⟨rest ++ [De.free], by rw [hrest]; rfl⟩
    · exact h.dots d hd
  · intro d e he hne
    by_cases hdp : d = p
    · subst hdp
      rw [setSlots_slots, if_pos rfl, hrest] at he
      refine h.names d e ?_ hne
      rw [hrest]
      have he : e ∈ rest ∨ e = De.free := by simpa using he
      rcases he with he | rfl
      · exact he
      · exact absurd rfl hne
    · exact h.names d e (by simpa [hdp] using he) hne
  · exact h.tree.congr (fun _ => Iff.rfl) fun d _ => hup d
  · refine h.toNamed.congr rfl (fun d _ => hup d) fun d hd q l => ?_
    rw [At, At, setSlots_slots]
    by_cases hq : q = p
    · subst hq
      rw [if_pos rfl]
      refine and_congr_right fun _ => ?_
      constructor
      · rintro ⟨e, he, rfl⟩
        rw [List.getElem?_append] at he
        split at he
        · exact ⟨e, he, rfl⟩
        · obtain rfl := List.mem_singleton.mp (List.mem_of_getElem? he)
          exact absurd hd h.zero_not_dir
      · rintro ⟨e, he, rfl⟩
        refine ⟨e, ?_, rfl⟩
        rw [List.getElem?_append_left (List.getElem?_eq_some_iff.mp he).1, he]
    · rw [if_neg hq]
  · intro j hj
    have hrefs := refs_setSlots (h.range p hp.1).2 (t.slots p ++ [De.free]) j
    have hj0 : De.free.ino ≠ j := (h.range j hj).1.ne
    rw [count_append, count_cons, if_neg hj0] at hrefs
    rw [setSlots_nlink, h.nlink_eq j hj]
    simp only [count, List.map_nil, List.count_nil] at hrefs
    omega

/-- A directory with room for an entry: the same, or longer. -/
theorem WF.room {l : List De} (h : WF t) (hp : p ∈ t.dirs)
    (hl : l = t.slots p ∨ l = t.slots p ++ [De.free]) : WF (t.setSlots p l) := by
  rcases hl with rfl | rfl
  · have hself : t.setSlots p (t.slots p) = t := by
      simp only [setSlots]
      congr 1
      funext d
      split
      · next hd => rw [hd]
      · rfl
    rw [hself]
    exact h
  · exact h.grow hp

/-- A free slot takes a link to a file. -/
theorem WF.link (h : WF t) (hold : (t.slots p)[k]? = some old) (hfree : old.ino = MINIXFREEINO)
    (hi : t.alloc i) (hdir : ¬ t.dir i) (hname : name ≠ dot ∧ name ≠ dotdot) :
    WF ((t.setSlot p k ⟨i, name⟩).setNlink i (t.nlink i + 1)) := by
  have hk := h.two_le_of_free hold hfree
  have hshape := h.toShape.setSlot (e := ⟨i, name⟩) hold hk fun _ => ⟨hi, hname⟩
  have hnamed := h.toNamed.setSlot (e := ⟨i, name⟩) hold hk (hfree ▸ h.zero_not_dir)
    fun hi => hdir hi.2
  refine ⟨hshape.setNlink, ⟨hnamed.exist, hnamed.unique⟩, fun j hj => ?_⟩
  have hrefs := refs_setSlot (h.lt_bound_of_slot hold) hold ⟨i, name⟩ j
  rw [if_neg (hfree ▸ (h.range j hj).1.ne)] at hrefs
  rw [setNlink_refs, setNlink_nlink, setSlot_nlink]
  by_cases hij : j = i
  · subst hij
    rw [if_pos rfl] at hrefs ⊢
    have hnlink := h.nlink_eq j hj
    omega
  · rw [if_neg (Ne.symm hij)] at hrefs
    rw [if_neg hij, h.nlink_eq j hj]
    omega

/-- The entry of a file goes. -/
theorem WF.unlink (h : WF t) (hold : (t.slots p)[k]? = some old) (hdir : ¬ t.dir old.ino)
    (he : e.ino = MINIXFREEINO) :
    WF ((t.setSlot p k e).setNlink old.ino (t.nlink old.ino - 1)) := by
  have hnotdir : old.ino ∉ t.dirs := fun hd => hdir hd.2
  have hk := h.two_le hold hnotdir
  have hshape := h.toShape.setSlot (e := e) hold hk fun hne => absurd he hne
  have hnamed := h.toNamed.setSlot hold hk hnotdir (he ▸ h.zero_not_dir)
  refine ⟨hshape.setNlink, ⟨hnamed.exist, hnamed.unique⟩, fun j hj => ?_⟩
  have hrefs := refs_setSlot (h.lt_bound_of_slot hold) hold e j
  rw [if_neg (c := e.ino = j) (he ▸ (h.range j hj).1.ne)] at hrefs
  rw [setNlink_refs, setNlink_nlink, setSlot_nlink]
  by_cases hij : j = old.ino
  · subst hij
    rw [if_pos rfl] at hrefs ⊢
    have hnlink := h.nlink_eq _ hj
    omega
  · rw [if_neg (Ne.symm hij)] at hrefs
    rw [if_neg hij, h.nlink_eq j hj]
    omega

/-- A slot that is filled twice. -/
theorem setSlot_overwrite {q : Nat} (t : Tree) (e f g : De) (hne : ¬ (p = q ∧ k = m)) :
    ((t.setSlot q m f).setSlot p k e).setSlot q m g = (t.setSlot p k e).setSlot q m g := by
  simp only [setSlot, setSlots, Tree.mk.injEq, true_and, if_true]
  funext d
  by_cases hdq : d = q
  · subst hdq
    rw [if_pos rfl, if_pos rfl]
    by_cases hdp : d = p
    · subst hdp
      rw [if_pos rfl, if_pos rfl]
      have hmk : m ≠ k := fun hmk => hne ⟨rfl, hmk.symm⟩
      rw [List.set_comm _ _ hmk, List.set_set, if_pos rfl]
    · rw [if_neg hdp, if_neg hdp, List.set_set]
  · rw [if_neg hdq, if_neg hdq]
    by_cases hdp : d = p
    · subst hdp
      rw [if_pos rfl, if_pos rfl, if_neg hdq, if_neg hdq]
    · rw [if_neg hdp, if_neg hdp, if_neg hdq]

theorem setNlink_back (t : Tree) (i n : Nat) : (t.setNlink i n).setNlink i (t.nlink i) = t := by
  simp only [setNlink]
  congr 1
  funext j
  by_cases hj : j = i
  · rw [if_pos hj, hj]
  · rw [if_neg hj, if_neg hj]

theorem setNlink_comm {j : Nat} (t : Tree) (hij : i ≠ j) :
    (t.setNlink i n).setNlink j m = (t.setNlink j m).setNlink i n := by
  simp only [setNlink, Tree.mk.injEq, true_and, and_true]
  funext x
  by_cases hx : x = i
  · subst hx
    rw [if_neg hij, if_pos rfl, if_pos rfl]
  · rw [if_neg hx, if_neg hx]

/-- The entry of a file moves. -/
theorem WF.moveFile {q : Nat} {free : De} (h : WF t) (hold : (t.slots p)[k]? = some old)
    (hi : t.alloc old.ino) (hdir : ¬ t.dir old.ino) (hfree : (t.slots q)[m]? = some free)
    (hfree0 : free.ino = MINIXFREEINO) (he : e.ino = MINIXFREEINO)
    (hname : name ≠ dot ∧ name ≠ dotdot) :
    WF ((t.setSlot p k e).setSlot q m ⟨old.ino, name⟩) := by
  have hmid := h.unlink hold hdir he
  have hfree' : (((t.setSlot p k e).setNlink old.ino (t.nlink old.ino - 1)).slots q)[m]? =
      some free := by
    rw [setNlink_slots, setSlot_slots]
    split
    · next hqp =>
        subst hqp
        have hkm : k ≠ m := by
          rintro rfl
          rw [hold] at hfree
          cases hfree
          exact (h.range _ hi).1.ne hfree0.symm
        rw [List.getElem?_set_ne hkm]
        exact hfree
    · exact hfree
  have hfinal := hmid.link (i := old.ino) hfree' hfree0 hi hdir hname
  have hpos : 0 < t.nlink old.ino := by
    rw [h.nlink_eq _ hi]
    exact refs_pos (h.lt_bound_of_slot hold) (List.mem_of_getElem? hold)
  have heq : ((((t.setSlot p k e).setNlink old.ino (t.nlink old.ino - 1)).setSlot q m
      ⟨old.ino, name⟩).setNlink old.ino
      (((t.setSlot p k e).setNlink old.ino (t.nlink old.ino - 1)).nlink old.ino + 1)) =
      (t.setSlot p k e).setSlot q m ⟨old.ino, name⟩ := by
    rw [setNlink_nlink, if_pos rfl, Nat.sub_add_cancel hpos]
    simp only [setSlot, setSlots, setNlink, Tree.mk.injEq, true_and, and_true]
    funext j
    by_cases hj : j = old.ino
    · rw [if_pos hj, hj]
    · rw [if_neg hj, if_neg hj]
  rw [← heq]
  exact hfinal

/-! ## Inodes come and go -/

/-- Inode `i` is free, with nothing in it. -/
def release (t : Tree) (i : Nat) : Tree :=
  { t with
    alloc := fun j => t.alloc j ∧ j ≠ i
    slots := fun d => if d = i then [] else t.slots d }

/-- A new inode that is no directory, without links. -/
def create (t : Tree) (n : Nat) : Tree :=
  { t with
    alloc := fun j => j = n ∨ t.alloc j
    dir := fun j => j ≠ n ∧ t.dir j
    nlink := fun j => if j = n then 0 else t.nlink j }

theorem setSlot_release (hpi : p ≠ i) :
    (t.release i).setSlot p k e = (t.setSlot p k e).release i := by
  simp only [Tree.release, setSlot, setSlots, Tree.mk.injEq, true_and]
  funext d
  by_cases hd : d = p
  · subst hd
    rw [if_pos rfl, if_neg hpi, if_neg hpi, if_pos rfl]
  · rw [if_neg hd, if_neg hd]

theorem WF.release (h : WF t) (hi : t.alloc i) (h0 : t.nlink i = 0) : WF (t.release i) := by
  have hnotdir : i ∉ t.dirs := fun hd => (h.nlink_pos hd).ne' h0
  have hnil : t.slots i = [] := by
    by_contra hne
    exact hnotdir (h.slots_dir i hne)
  have hslots : (t.release i).slots = t.slots := by
    funext d
    by_cases hd : d = i
    · simp [Tree.release, hd, hnil]
    · simp [Tree.release, hd]
  have hdirs : (t.release i).dirs = t.dirs := by
    ext d
    constructor
    · rintro ⟨⟨ha, -⟩, hd⟩
      exact ⟨ha, hd⟩
    · rintro ⟨ha, hd⟩
      exact ⟨⟨ha, fun hdi => hnotdir (hdi ▸ ⟨ha, hd⟩)⟩, hd⟩
  have hup : (t.release i).up = t.up := by
    funext d
    rw [up, up, hslots]
  have hno : ∀ d, ∀ e ∈ t.slots d, e.ino ≠ i := by
    intro d e he hei
    have hpos := refs_pos (h.range d (h.slots_dir d (List.ne_nil_of_mem he)).1).2 he
    rw [hei, ← h.nlink_eq i hi, h0] at hpos
    exact Nat.lt_irrefl 0 hpos
  refine ⟨⟨fun j hj => h.range j hj.1, ?_, ?_, ?_, ?_, ?_⟩, ?_, fun j hj => ?_⟩
  · rw [hslots, hdirs]
    exact h.slots_dir
  · rw [hslots, hdirs, hup]
    exact h.dots
  · rw [hslots]
    exact fun d e he hne => ⟨h.live d e he hne, hno d e he⟩
  · rw [hslots]
    exact h.names
  · rw [hdirs, hup]
    exact h.tree
  · refine h.toNamed.congr hdirs (fun d _ => congrFun hup d) fun d _ p k => ?_
    rw [At, At, hslots]
  · have hrefs : (t.release i).refs = t.refs := by
      funext j
      rw [refs, refs, hslots]
      rfl
    rw [hrefs]
    exact h.nlink_eq j hj.1

theorem WF.create (h : WF t) (hn : ¬ t.alloc n) (h0 : 0 < n) (hlt : n < t.bound) :
    WF (t.create n) := by
  have hdirs : (t.create n).dirs = t.dirs := by
    ext d
    constructor
    · rintro ⟨rfl | ha, hne, hd⟩
      · exact absurd rfl hne
      · exact ⟨ha, hd⟩
    · rintro ⟨ha, hd⟩
      exact ⟨.inr ha, fun hdn => hn (hdn ▸ ha), hd⟩
  refine ⟨⟨?_, ?_, ?_, fun d e he hne => .inr (h.live d e he hne), h.names, ?_⟩, ?_, ?_⟩
  · rintro j (rfl | hj)
    · exact ⟨h0, hlt⟩
    · exact h.range j hj
  · rw [hdirs]
    exact h.slots_dir
  · rw [hdirs]
    exact h.dots
  · rw [hdirs]
    exact h.tree
  · exact h.toNamed.congr hdirs (fun _ _ => rfl) fun _ _ _ _ => Iff.rfl
  · intro j hj
    show (if j = n then 0 else t.nlink j) = t.refs j
    by_cases hjn : j = n
    · rw [if_pos hjn, hjn, h.refs_eq_zero hn h0.ne']
    · rw [if_neg hjn, h.nlink_eq j (hj.resolve_left hjn)]

/-! ## Entries of directories -/

/-- A new directory `n`, named in slot `k` of `p`. -/
def insertDir (t : Tree) (p k : Nat) (name : Name) (n : Nat) : Tree where
  bound := t.bound
  alloc := fun j => j = n ∨ t.alloc j
  dir := fun j => j = n ∨ t.dir j
  nlink := fun j => if j = n then 2 else if j = p then t.nlink p + 1 else t.nlink j
  slots := fun d =>
    if d = n then [⟨n, dot⟩, ⟨p, dotdot⟩]
    else if d = p then (t.slots p).set k ⟨n, name⟩ else t.slots d

/-- Directory `c`, named in slot `k` of `p`, goes. -/
def eraseDir (t : Tree) (p k : Nat) (e : De) (c : Nat) : Tree where
  bound := t.bound
  alloc := fun j => t.alloc j ∧ j ≠ c
  dir := t.dir
  nlink := fun j => if j = c then 0 else if j = p then t.nlink p - 1 else t.nlink j
  slots := fun d => if d = c then [] else if d = p then (t.slots p).set k e else t.slots d

section InsertDir

variable {d : Nat}

theorem insertDir_slots_self : (t.insertDir p k name n).slots n = [⟨n, dot⟩, ⟨p, dotdot⟩] := by
  simp [Tree.insertDir]

/-- The slots of the other directories are as after `setSlot`. -/
theorem insertDir_slots (hd : d ≠ n) :
    (t.insertDir p k name n).slots d = (t.setSlot p k ⟨n, name⟩).slots d := by
  simp [Tree.insertDir, hd]

theorem insertDir_up_self : (t.insertDir p k name n).up n = p := by
  rw [up, insertDir_slots_self]
  rfl

theorem insertDir_up (hk : 2 ≤ k) (hd : d ≠ n) : (t.insertDir p k name n).up d = t.up d := by
  rw [up, insertDir_slots hd, ← up, up_setSlot hk]

theorem mem_dirs_insertDir : d ∈ (t.insertDir p k name n).dirs ↔ d = n ∨ d ∈ t.dirs := by
  constructor
  · rintro ⟨rfl | ha, hd⟩
    · exact .inl rfl
    · exact hd.imp_right fun hd => ⟨ha, hd⟩
  · rintro (rfl | ⟨ha, hd⟩)
    · exact ⟨.inl rfl, .inl rfl⟩
    · exact ⟨.inr ha, .inr hd⟩

variable (hold : (t.slots p)[k]? = some old) (hfree : old.ino = MINIXFREEINO) (hn : ¬ t.alloc n)

include hold hn

theorem Shape.at_insertDir (h : Shape t) (hk : 2 ≤ k) (q l j : Nat) :
    (t.insertDir p k name n).At q l j ↔ if q = p ∧ l = k then n = j else t.At q l j := by
  have hp := h.mem_dirs_of_slot hold
  have hpn : p ≠ n := fun hpn => hn (hpn ▸ hp.1)
  rw [← at_setSlot hold ⟨n, name⟩ hk, At, At]
  by_cases hq : q = n
  · subst hq
    refine and_congr_right fun hl => ?_
    obtain ⟨l, rfl⟩ := Nat.exists_eq_add_of_le' hl
    rw [insertDir_slots_self, setSlot_slots, if_neg hpn.symm, h.slots_eq_nil hn]
    simp
  · rw [insertDir_slots hq]

include hfree

theorem Shape.insertDir (h : Shape t) (h0 : 0 < n) (hlt : n < t.bound)
    (hname : name ≠ dot ∧ name ≠ dotdot) : Shape (t.insertDir p k name n) := by
  have hk := h.two_le_of_free hold hfree
  have hp := h.mem_dirs_of_slot hold
  have hnd : n ∉ t.dirs := fun hd => hn hd.1
  have hne : ∀ d ∈ t.dirs, d ≠ n := fun d hd hdn => hnd (hdn ▸ hd)
  refine ⟨?_, ?_, ?_, ?_, ?_, ?_⟩
  · rintro j (rfl | hj)
    · exact ⟨h0, hlt⟩
    · exact h.range j hj
  · intro d hd
    by_cases hdn : d = n
    · exact mem_dirs_insertDir.mpr (.inl hdn)
    · rw [insertDir_slots hdn] at hd
      refine mem_dirs_insertDir.mpr (.inr ?_)
      by_cases hdp : d = p
      · exact hdp ▸ hp
      · exact h.slots_dir d (by simpa [hdp] using hd)
  · intro d hd
    rcases mem_dirs_insertDir.mp hd with rfl | hd
    · exact ⟨[], by rw [insertDir_slots_self, insertDir_up_self]⟩
    · obtain ⟨rest, hrest⟩ := h.dots d hd
      rw [insertDir_slots (hne d hd), insertDir_up hk (hne d hd), setSlot_slots]
      by_cases hdp : d = p
      · subst hdp
        obtain ⟨j, rfl⟩ := Nat.exists_eq_add_of_le' hk
        exact ⟨rest.set j ⟨n, name⟩, by rw [if_pos rfl, hrest]; rfl⟩
      · exact ⟨rest, by rw [if_neg hdp, hrest]⟩
  · intro d e he hne
    by_cases hdn : d = n
    · subst hdn
      rw [insertDir_slots_self] at he
      have he : e = ⟨d, dot⟩ ∨ e = ⟨p, dotdot⟩ := by simpa using he
      rcases he with rfl | rfl
      · exact .inl rfl
      · exact .inr hp.1
    · rw [insertDir_slots hdn, setSlot_slots] at he
      split at he
      · rcases List.mem_or_eq_of_mem_set he with he | rfl
        · exact .inr (h.live p e he hne)
        · exact .inl rfl
      · exact .inr (h.live d e he hne)
  · intro d e he hne
    by_cases hdn : d = n
    · subst hdn
      rw [insertDir_slots_self] at he
      simp at he
    · rw [insertDir_slots hdn, setSlot_slots] at he
      split at he
      · rw [List.drop_set, if_neg (by omega)] at he
        rcases List.mem_or_eq_of_mem_set he with he | rfl
        · exact h.names p e he hne
        · exact hname
      · exact h.names d e he hne
  · exact h.tree.insertLeaf hnd hp (fun _ => mem_dirs_insertDir) insertDir_up_self
      fun d hd => insertDir_up hk (hne d hd)

/-- The new directory is named by its parent alone. -/
theorem WF.named_insertDir (h : WF t) (h0 : 0 < n) : Named (t.insertDir p k name n) := by
  have hk := h.two_le_of_free hold hfree
  have hnd : n ∉ t.dirs := fun hd => hn hd.1
  have hne : ∀ d ∈ t.dirs, d ≠ n := fun d hd hdn => hnd (hdn ▸ hd)
  have hat : ∀ q l j, (t.insertDir p k name n).At q l j ↔
      if q = p ∧ l = k then n = j else t.At q l j := h.at_insertDir hold hn hk
  refine ⟨?_, ?_⟩
  · intro d hd hroot
    rcases mem_dirs_insertDir.mp hd with rfl | hdt
    · exact ⟨k, by rw [hat, insertDir_up_self, if_pos ⟨rfl, rfl⟩]⟩
    · obtain ⟨l, hl⟩ := h.exist d hdt hroot
      refine ⟨l, (hat _ l d).mpr ?_⟩
      rw [insertDir_up hk (hne d hdt), if_neg]
      · exact hl
      · rintro ⟨hq, rfl⟩
        obtain ⟨-, e, he, hed⟩ := hl
        rw [hq, hold] at he
        cases he
        exact h.zero_not_dir (hfree ▸ hed ▸ hdt)
  · intro d hd q l hql
    rw [hat] at hql
    rcases mem_dirs_insertDir.mp hd with rfl | hd
    · have hnone : ∀ q l, ¬ t.At q l d := by
        rintro q l ⟨-, e, he, rfl⟩
        exact hn (h.live q e (List.mem_of_getElem? he) h0.ne')
      split at hql
      · next hpos =>
          obtain ⟨rfl, rfl⟩ := hpos
          refine ⟨fun hroot => hnd (hroot ▸ h.tree.root_mem), insertDir_up_self.symm,
            fun l' hl' => ?_⟩
          rw [hat] at hl'
          split at hl'
          · next hpos => exact hpos.2
          · exact absurd hl' (hnone _ _)
      · exact absurd hql (hnone _ _)
    · split at hql
      · exact absurd (hql ▸ hd) hnd
      · obtain ⟨hroot, hq, huniq⟩ := h.unique d hd q l hql
        refine ⟨hroot, hq.trans (insertDir_up hk (hne d hd)).symm, fun l' hl' => huniq l' ?_⟩
        rw [hat] at hl'
        split at hl'
        · exact absurd (hl' ▸ hd) hnd
        · exact hl'

theorem WF.insertDir (h : WF t) (h0 : 0 < n) (hlt : n < t.bound)
    (hname : name ≠ dot ∧ name ≠ dotdot) : WF (t.insertDir p k name n) := by
  have hp := h.mem_dirs_of_slot hold
  have hpn : p ≠ n := fun hpn => hn (hpn ▸ hp.1)
  refine ⟨h.toShape.insertDir hold hfree hn h0 hlt hname, h.named_insertDir hold hfree hn h0, ?_⟩
  intro j hj
  have hcount := refs_setSlots (t := t.setSlot p k ⟨n, name⟩) hlt
    [⟨n, dot⟩, ⟨p, dotdot⟩] j
  have hset := refs_setSlot (h.lt_bound_of_slot hold) hold ⟨n, name⟩ j
  rw [setSlot_slots, if_neg hpn.symm, h.slots_eq_nil hn, count_cons, count_cons] at hcount
  have h0j : old.ino ≠ j := by
    rcases hj with rfl | hj
    · exact hfree ▸ h0.ne
    · exact hfree ▸ (h.range j hj).1.ne
  rw [if_neg h0j] at hset
  show (if j = n then 2 else if j = p then t.nlink p + 1 else t.nlink j) =
    ((t.setSlot p k ⟨n, name⟩).setSlots n [⟨n, dot⟩, ⟨p, dotdot⟩]).refs j
  rcases hj with rfl | hj
  · have hzero := h.refs_eq_zero hn h0.ne'
    rw [if_neg hpn, if_pos rfl] at hcount
    rw [if_pos rfl] at hset ⊢
    omega
  · have hjn : j ≠ n := fun hjn => hn (hjn ▸ hj)
    have hnlink := h.nlink_eq j hj
    rw [if_neg hjn.symm] at hset hcount
    rw [if_neg hjn]
    by_cases hjp : j = p
    · subst hjp
      rw [if_pos rfl] at hcount ⊢
      omega
    · rw [if_neg (Ne.symm hjp)] at hcount
      rw [if_neg hjp]
      omega

end InsertDir

/-- Directory `c` has nothing but its first two entries. -/
def Empty (t : Tree) (c : Nat) : Prop := ∀ e ∈ (t.slots c).drop 2, e.ino = MINIXFREEINO

theorem Empty.not_at {d : Nat} (h : t.Empty c) (ht : Shape t) (hd : d ∈ t.dirs) : ¬ t.At c k d := by
  rintro ⟨hk, e, he, rfl⟩
  obtain ⟨j, rfl⟩ := Nat.exists_eq_add_of_le' hk
  refine ht.zero_not_dir (h e ?_ ▸ hd)
  rw [Nat.add_comm, ← List.getElem?_drop] at he
  exact List.mem_of_getElem? he

/-- An empty directory is nobody's parent. -/
theorem WF.up_ne_of_empty (h : WF t) (hc : c ≠ MINIXROOTINO) (hempty : t.Empty c) :
    ∀ d ∈ t.dirs, d ≠ c → t.up d ≠ c := by
  intro d hd _ hup
  by_cases hroot : d = MINIXROOTINO
  · rw [hroot, h.tree.up_root] at hup
    exact hc hup.symm
  · obtain ⟨k, hk⟩ := h.exist d hd hroot
    exact hempty.not_at h.toShape hd (hup ▸ hk)

theorem WF.parent_ne (h : WF t) (hc : c ∈ t.dirs) (hat : t.At p k c) : p ≠ c := by
  obtain ⟨hroot, hp, -⟩ := h.unique c hc p k hat
  exact hp ▸ h.tree.up_ne_self hc hroot

section EraseDir

variable {d : Nat}

theorem eraseDir_slots_self : (t.eraseDir p k e c).slots c = [] := by simp [Tree.eraseDir]

theorem eraseDir_slots (hd : d ≠ c) : (t.eraseDir p k e c).slots d = (t.setSlot p k e).slots d := by
  simp [Tree.eraseDir, hd]

theorem eraseDir_up (hk : 2 ≤ k) (hd : d ≠ c) : (t.eraseDir p k e c).up d = t.up d := by
  rw [up, eraseDir_slots hd, ← up, up_setSlot hk]

theorem mem_dirs_eraseDir : d ∈ (t.eraseDir p k e c).dirs ↔ d ∈ t.dirs ∧ d ≠ c := by
  constructor
  · rintro ⟨⟨ha, hne⟩, hd⟩
    exact ⟨⟨ha, hd⟩, hne⟩
  · rintro ⟨⟨ha, hd⟩, hne⟩
    exact ⟨⟨ha, hne⟩, hd⟩

variable (hc : c ∈ t.dirs) (hat : t.At p k c) (hempty : t.Empty c) (he : e.ino = MINIXFREEINO)

include hat hempty he in
/-- The other directories are named where they were. -/
theorem Shape.at_eraseDir (h : Shape t) (q l j : Nat) (hj : j ∈ t.dirs) (hjc : j ≠ c) :
    (t.eraseDir p k e c).At q l j ↔ t.At q l j := by
  obtain ⟨hk, old, hold, hoc⟩ := hat
  have hset : (t.setSlot p k e).At q l j ↔ t.At q l j := by
    rw [at_setSlot hold e hk]
    split
    · next hql =>
        obtain ⟨rfl, rfl⟩ := hql
        constructor
        · intro hej
          rw [← hej, he] at hj
          exact absurd hj h.zero_not_dir
        · rintro ⟨-, e', he', rfl⟩
          rw [hold] at he'
          cases he'
          exact absurd hoc hjc
    · rfl
  by_cases hq : q = c
  · subst hq
    refine iff_of_false ?_ (hempty.not_at h hj)
    rintro ⟨-, e', he', -⟩
    rw [eraseDir_slots_self] at he'
    simp at he'
  · rw [← hset, At, At, eraseDir_slots hq]

include hc hat hempty he

/-- The only entries that named `c` were its own `.` and slot `k` of `p`. -/
theorem WF.eraseDir_ino_ne (h : WF t) (hdc : d ≠ c) :
    ∀ e' ∈ (t.eraseDir p k e c).slots d, e'.ino ≠ c := by
  obtain ⟨hroot, hp, huniq⟩ := h.unique c hc p k hat
  obtain ⟨hk, old, hold, -⟩ := hat
  intro e' he' hec
  rw [eraseDir_slots hdc] at he'
  have hd : d ∈ t.dirs := by
    refine h.slots_dir d fun hnil => ?_
    rw [setSlot_slots] at he'
    split at he'
    · next hdp => exact absurd (hdp ▸ hnil) (List.ne_nil_of_mem (List.mem_of_getElem? hold))
    · exact absurd hnil (List.ne_nil_of_mem he')
  obtain ⟨l, hl⟩ := List.mem_iff_getElem?.mp he'
  obtain ⟨rest, hrest⟩ := (h.toShape.setSlot (e := e) hold hk fun hne => absurd he hne).dots d hd
  have hl' := hl
  rw [hrest] at hl'
  match l, hl, hl' with
  | 0, _, hl' =>
      obtain rfl : _ = e' := by simpa only [List.getElem?_cons_zero, Option.some.injEq] using hl'
      exact hdc hec
  | 1, _, hl' =>
      obtain rfl : _ = e' := by simpa only [List.getElem?_cons_succ,
        List.getElem?_cons_zero, Option.some.injEq] using hl'
      have hleaf := h.up_ne_of_empty hroot hempty d hd hdc
      exact hleaf ((up_setSlot hk e d).symm.trans hec)
  | l + 2, hl, _ =>
      have hatl : (t.setSlot p k e).At d (l + 2) c := ⟨by omega, e', hl, hec⟩
      rw [at_setSlot hold e hk] at hatl
      split at hatl
      · exact h.zero_not_dir (he ▸ hatl ▸ hc)
      · next hneg =>
          obtain ⟨-, hq, -⟩ := h.unique c hc d _ hatl
          exact hneg ⟨hq.trans hp.symm, huniq _ (hp ▸ hq ▸ hatl)⟩

theorem WF.shape_eraseDir (h : WF t) : Shape (t.eraseDir p k e c) := by
  have hgone := fun d (hdc : d ≠ c) => h.eraseDir_ino_ne hc hat hempty he hdc
  obtain ⟨hroot, -, -⟩ := h.unique c hc p k hat
  obtain ⟨hk, old, hold, -⟩ := hat
  have hshape := h.toShape.setSlot (e := e) hold hk fun hne => absurd he hne
  refine ⟨fun j hj => h.range j hj.1, ?_, ?_, ?_, ?_, ?_⟩
  · intro d hd
    by_cases hdc : d = c
    · exact absurd (hdc ▸ eraseDir_slots_self) hd
    · rw [eraseDir_slots hdc] at hd
      exact mem_dirs_eraseDir.mpr ⟨hshape.slots_dir d hd, hdc⟩
  · intro d hd
    obtain ⟨hd, hdc⟩ := mem_dirs_eraseDir.mp hd
    rw [eraseDir_slots hdc, eraseDir_up hk hdc, ← up_setSlot hk e d]
    exact hshape.dots d hd
  · intro d e' he' hne
    by_cases hdc : d = c
    · rw [hdc, eraseDir_slots_self] at he'
      simp at he'
    · refine ⟨?_, hgone d hdc e' he'⟩
      rw [eraseDir_slots hdc] at he'
      exact hshape.live d e' he' hne
  · intro d e' he' hne
    by_cases hdc : d = c
    · rw [hdc, eraseDir_slots_self] at he'
      simp at he'
    · rw [eraseDir_slots hdc] at he'
      exact hshape.names d e' he' hne
  · exact h.tree.eraseLeaf hroot (h.up_ne_of_empty hroot hempty) (fun _ => mem_dirs_eraseDir)
      fun d _ hdc => eraseDir_up hk hdc

omit hc in
theorem WF.named_eraseDir (h : WF t) : Named (t.eraseDir p k e c) := by
  have hsame := h.at_eraseDir hat hempty he
  have hk := hat.1
  refine ⟨?_, ?_⟩
  · intro d hd hdr
    obtain ⟨hd, hdc⟩ := mem_dirs_eraseDir.mp hd
    obtain ⟨l, hl⟩ := h.exist d hd hdr
    exact ⟨l, by rwa [eraseDir_up hk hdc, hsame _ _ _ hd hdc]⟩
  · intro d hd q l hql
    obtain ⟨hd, hdc⟩ := mem_dirs_eraseDir.mp hd
    rw [hsame _ _ _ hd hdc] at hql
    obtain ⟨hdr, hq, huniq⟩ := h.unique d hd q l hql
    refine ⟨hdr, hq.trans (eraseDir_up hk hdc).symm, fun l' hl' => huniq l' ?_⟩
    rwa [hsame _ _ _ hd hdc] at hl'

theorem WF.eraseDir (h : WF t) : WF (t.eraseDir p k e c) := by
  refine ⟨h.shape_eraseDir hc hat hempty he, h.named_eraseDir hat hempty he, ?_⟩
  have hpc := h.parent_ne hc hat
  obtain ⟨-, hp, -⟩ := h.unique c hc p k hat
  obtain ⟨-, old, hold, hoc⟩ := hat
  intro j hj
  obtain ⟨hj, hjc⟩ := hj
  obtain ⟨rest, hrest⟩ := h.dots c hc
  have hdead : count rest j = 0 := by
    refine count_eq_zero.mpr fun e' he' hej => ?_
    have hfree := hempty e' (by rw [hrest]; exact he')
    exact (h.range j hj).1.ne (hej ▸ hfree.symm)
  have hcount := refs_setSlots (t := t.setSlot p k e) (h.range c hc.1).2 [] j
  have hset := refs_setSlot (h.lt_bound_of_slot hold) hold e j
  rw [setSlot_slots, if_neg hpc.symm, hrest, count_cons, count_cons, ← hp, hdead,
    if_neg (c := (De.mk c dot).ino = j) (Ne.symm hjc)] at hcount
  rw [if_neg (c := e.ino = j) (he ▸ (h.range j hj).1.ne), hoc, if_neg (Ne.symm hjc)] at hset
  simp only [count, List.map_nil, List.count_nil] at hcount
  have hnlink := h.nlink_eq j hj
  show (if j = c then 0 else if j = p then t.nlink p - 1 else t.nlink j) =
    ((t.setSlot p k e).setSlots c []).refs j
  rw [if_neg hjc]
  by_cases hjp : j = p
  · subst hjp
    rw [if_pos rfl] at hcount ⊢
    omega
  · rw [if_neg (Ne.symm hjp)] at hcount
    rw [if_neg hjp]
    omega

end EraseDir

/-- The removal of a directory, one change after the other. -/
theorem eraseDir_eq (t : Tree) (p k : Nat) (e : De) (c : Nat) :
    (((t.setNlink p (t.nlink p - 1)).setNlink c 0).setSlot p k e).release c =
      t.eraseDir p k e c := rfl

/-- The entry of a directory moves within the same parent. -/
theorem WF.moveDir {m : Nat} {free : De} (h : WF t) (hc : c ∈ t.dirs) (hat : t.At p k c)
    (hfree : (t.slots p)[m]? = some free) (hfree0 : free.ino = MINIXFREEINO)
    (he : e.ino = MINIXFREEINO) (hname : name ≠ dot ∧ name ≠ dotdot) :
    WF ((t.setSlot p k e).setSlot p m ⟨c, name⟩) := by
  obtain ⟨hroot, hp, huniq⟩ := h.unique c hc p k hat
  obtain ⟨hk, old, hold, hoc⟩ := hat
  have hm := h.two_le_of_free hfree hfree0
  have hmk : m ≠ k := by
    rintro rfl
    rw [hold] at hfree
    cases hfree
    exact h.zero_not_dir (hfree0 ▸ hoc ▸ hc)
  have hfree' : ((t.setSlot p k e).slots p)[m]? = some free := by
    rw [setSlot_slots, if_pos rfl, List.getElem?_set_ne (Ne.symm hmk), hfree]
  have hmid := h.toShape.setSlot (e := e) hold hk fun hne => absurd he hne
  have hshape := hmid.setSlot (e := ⟨c, name⟩) hfree' hm fun _ => ⟨hc.1, hname⟩
  have hup : ∀ d, ((t.setSlot p k e).setSlot p m ⟨c, name⟩).up d = t.up d := by
    intro d
    rw [up_setSlot hm, up_setSlot hk]
  have hatiff : ∀ q l j, ((t.setSlot p k e).setSlot p m ⟨c, name⟩).At q l j ↔
      if q = p ∧ l = m then c = j else if q = p ∧ l = k then e.ino = j else t.At q l j := by
    intro q l j
    rw [at_setSlot hfree' ⟨c, name⟩ hm, at_setSlot hold e hk]
  refine ⟨hshape, ⟨?_, ?_⟩, ?_⟩
  · intro d hd hdr
    by_cases hdc : d = c
    · subst hdc
      exact ⟨m, by rw [hup, hatiff, if_pos ⟨hp.symm, rfl⟩]⟩
    · obtain ⟨l, hl⟩ := h.exist d hd hdr
      refine ⟨l, ?_⟩
      obtain ⟨hl2, e', he', hed⟩ := hl
      rw [hup, hatiff, if_neg, if_neg]
      · exact ⟨hl2, e', he', hed⟩
      · rintro ⟨hq, rfl⟩
        rw [hq, hold] at he'
        cases he'
        exact hdc (hed.symm.trans hoc)
      · rintro ⟨hq, rfl⟩
        rw [hq, hfree] at he'
        cases he'
        exact h.zero_not_dir (hfree0 ▸ hed ▸ hd)
  · intro d hd q l hql
    rw [hatiff] at hql
    rw [hup]
    have hd0 : e.ino ≠ d := fun hed => h.zero_not_dir (he ▸ hed ▸ hd)
    by_cases hdc : d = c
    · subst hdc
      have hpos : ∀ q l, ((t.setSlot p k e).setSlot p m ⟨d, name⟩).At q l d →
          q = p ∧ l = m := by
        intro q l hql
        rw [hatiff] at hql
        by_contra hneg
        rw [if_neg hneg] at hql
        split at hql
        · exact hd0 hql
        · next hneg' =>
            obtain ⟨-, hq, -⟩ := h.unique d hd q l hql
            exact hneg' ⟨hq.trans hp.symm, huniq l (hp ▸ hq ▸ hql)⟩
      rw [← hatiff] at hql
      refine ⟨hroot, (hpos q l hql).1.trans hp, fun l' hl' => ?_⟩
      rw [(hpos q l' hl').2, (hpos q l hql).2]
    · have hkeep : ∀ l, ((t.setSlot p k e).setSlot p m ⟨c, name⟩).At q l d → t.At q l d := by
        intro l hl
        rw [hatiff] at hl
        split at hl
        · exact absurd hl.symm hdc
        · split at hl
          · exact absurd hl hd0
          · exact hl
      rw [← hatiff] at hql
      obtain ⟨hdr, hq, huniq⟩ := h.unique d hd q l (hkeep l hql)
      exact ⟨hdr, hq, fun l' hl' => huniq l' (hkeep l' hl')⟩
  · intro j hj
    have hlt := h.lt_bound_of_slot hold
    have hfirst := refs_setSlot hlt hold e j
    have hsecond := refs_setSlot (t := t.setSlot p k e) hlt hfree' ⟨c, name⟩ j
    have hj0 := (h.range j hj).1.ne
    rw [if_neg (c := e.ino = j) (he ▸ hj0), hoc] at hfirst
    rw [if_neg (c := free.ino = j) (hfree0 ▸ hj0)] at hsecond
    have hnlink := h.nlink_eq j hj
    show t.nlink j = _
    have hsplit : (if (De.mk c name).ino = j then 1 else 0) = if c = j then 1 else 0 := rfl
    omega

end Tree

end Unixlite.Fs
