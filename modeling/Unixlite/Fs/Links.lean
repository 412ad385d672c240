import Unixlite.Fs.Dir
import Unixlite.Fs.Tree

/-!
# The directory operations keep the tree

Each operation of `Dir` is one of the changes of `Tree`, seen through
`Filesys.tree`, or changes nothing there.  What an operation needs for that
stands in its theorem: nothing for `hardlink2`, `unlink2`, `mkreg` and `rmdir2`;
an inode slot for `mkdir`; and for `rename2` that a directory stays in its
parent, that a file replaced has one link, and that the new name is not too long.
-/

namespace Unixlite.Fs

open Option
open Inode (decnlink)

/-! ## The tree of a file system -/

/-- What the directories say. -/
def Filesys.tree (fs : Filesys) : Tree where
  bound := fs.ninode
  alloc := fs.Alloc
  dir := fun i => (fs.inode i).isdir = true
  nlink := fun i => (fs.inode i).nlink
  slots := fs.slots

/-- Inodes that are held or cached are allocated, and 0 is never handed out. -/
structure Filesys.Held (fs : Filesys) : Prop where
  imap_zero : fs.imap MINIXFREEINO = true
  refcnt : ∀ i, (fs.inode i).refcnt ≠ 0 → fs.Alloc i
  cached : ∀ i, (fs.inode i).cached = true → fs.Alloc i

structure Filesys.WF (fs : Filesys) : Prop where
  tree : fs.tree.WF
  held : fs.Held

namespace Filesys

variable {fs : Filesys} {i j p k : Nat} {f : Inode → Inode} {e : De}

@[simp] theorem tree_bound : fs.tree.bound = fs.ninode := rfl
@[simp] theorem tree_alloc : fs.tree.alloc i ↔ fs.Alloc i := Iff.rfl
@[simp] theorem tree_dir : fs.tree.dir i ↔ (fs.inode i).isdir = true := Iff.rfl
@[simp] theorem tree_nlink : fs.tree.nlink i = (fs.inode i).nlink := rfl
@[simp] theorem tree_slots : fs.tree.slots i = (fs.inode i).slots := rfl

@[simp] theorem upd_ninode : (fs.upd i f).ninode = fs.ninode := rfl
@[simp] theorem upd_imap : (fs.upd i f).imap = fs.imap := rfl
@[simp] theorem upd_alloc : (fs.upd i f).Alloc j ↔ fs.Alloc j := Iff.rfl
theorem upd_inode : (fs.upd i f).inode j = if j = i then f (fs.inode j) else fs.inode j := rfl
@[simp] theorem upd_inode_self : (fs.upd i f).inode i = f (fs.inode i) := if_pos rfl
theorem upd_inode_ne (h : j ≠ i) : (fs.upd i f).inode j = fs.inode j := if_neg h

theorem tree_congr {fs' : Filesys} (hninode : fs'.ninode = fs.ninode) (himap : fs'.imap = fs.imap)
    (hinode : ∀ j, (fs'.inode j).mode = (fs.inode j).mode ∧
      (fs'.inode j).nlink = (fs.inode j).nlink ∧ (fs'.inode j).slots = (fs.inode j).slots) :
    fs'.tree = fs.tree := by
  simp only [tree, Tree.mk.injEq]
  refine ⟨hninode, ?_, ?_, ?_, ?_⟩
  · funext j
    rw [Alloc, Alloc, hninode, himap]
  · funext j
    rw [Inode.isdir, Inode.isdir, (hinode j).1]
  · funext j
    exact (hinode j).2.1
  · funext j
    exact (hinode j).2.2

theorem tree_eq {fs' : Filesys} (hninode : fs'.ninode = fs.ninode) (himap : fs'.imap = fs.imap)
    (hinode : fs'.inode = fs.inode) : fs'.tree = fs.tree :=
  tree_congr hninode himap fun j => by rw [hinode]; exact ⟨rfl, rfl, rfl⟩

/-- The tree does not show the rest of an inode. -/
theorem tree_upd (hmode : (f (fs.inode i)).mode = (fs.inode i).mode)
    (hnlink : (f (fs.inode i)).nlink = (fs.inode i).nlink)
    (hslots : (f (fs.inode i)).slots = (fs.inode i).slots) : (fs.upd i f).tree = fs.tree := by
  refine tree_congr rfl rfl fun j => ?_
  by_cases hj : j = i
  · subst hj
    rw [upd_inode_self]
    exact ⟨hmode, hnlink, hslots⟩
  · rw [upd_inode_ne hj]
    exact ⟨rfl, rfl, rfl⟩

/-- A link count changes. -/
theorem tree_upd_nlink (n : Nat) :
    (fs.upd i fun x => { x with nlink := n }).tree = fs.tree.setNlink i n := by
  simp only [tree, Tree.setNlink, Tree.mk.injEq, upd_ninode, true_and]
  refine ⟨rfl, ?_, ?_, ?_⟩
  · funext j
    rw [upd_inode]
    split <;> rfl
  · funext j
    rw [upd_inode]
    split <;> rfl
  · funext j
    rw [slots, slots, upd_inode]
    split <;> rfl

theorem upd_congr {g : Inode → Inode} (h : f (fs.inode i) = g (fs.inode i)) :
    fs.upd i f = fs.upd i g := by
  rw [upd, upd]
  congr 1
  funext j
  by_cases hj : j = i
  · subst hj
    rw [if_pos rfl, if_pos rfl, h]
  · rw [if_neg hj, if_neg hj]

theorem tree_incnlink : (fs.upd i fun x => { x with nlink := x.nlink + 1 }).tree =
    fs.tree.setNlink i (fs.tree.nlink i + 1) := by
  rw [upd_congr (g := fun x => { x with nlink := (fs.inode i).nlink + 1 }) rfl, tree_upd_nlink]
  rfl

theorem tree_decnlink : (fs.upd i decnlink).tree = fs.tree.setNlink i (fs.tree.nlink i - 1) := by
  rw [upd_congr (g := fun x => { x with nlink := (fs.inode i).nlink - 1 }) rfl, tree_upd_nlink]
  rfl

theorem tree_setslots (l : List De) :
    (fs.upd p fun x => { x with slots := l }).tree = fs.tree.setSlots p l := by
  simp only [tree, Tree.setSlots, Tree.mk.injEq, upd_ninode, true_and]
  refine ⟨rfl, ?_, ?_, ?_⟩
  · funext j
    rw [upd_inode]
    split <;> rfl
  · funext j
    rw [upd_inode]
    split <;> rfl
  · funext j
    rw [slots, upd_inode]
    split <;> rfl

theorem tree_setde : (fs.setde p k e).tree = fs.tree.setSlot p k e := by
  rw [setde, upd_congr (g := fun x => { x with slots := (fs.inode p).slots.set k e }) rfl,
    tree_setslots]
  rfl

/-! ## Entries -/

variable {name : Name}

/-- What `findde` finds. -/
theorem findde_eq_some (h : fs.findde p name = some k) :
    (fs.tree.slots p)[k]? = some (fs.de p k) ∧ (fs.de p k).ino ≠ MINIXFREEINO ∧
      (fs.de p k).name = name := by
  obtain ⟨hlt, hk, -⟩ := List.findIdx?_eq_some_iff_getElem.mp h
  have hde : fs.de p k = (fs.slots p)[k] := by
    rw [de, List.getD_eq_getElem?_getD, List.getElem?_eq_getElem hlt]
    rfl
  simp only [Bool.and_eq_true, bne_iff_ne, beq_iff_eq] at hk
  rw [hde]
  exact ⟨List.getElem?_eq_getElem hlt, hk.1, hk.2⟩

theorem WF.alloc_of_findde (h : fs.WF) (hf : fs.findde p name = some k) :
    fs.Alloc (fs.de p k).ino := by
  obtain ⟨hde, hne, -⟩ := findde_eq_some hf
  exact h.tree.live p _ (List.mem_of_getElem? hde) hne

/-- A name that is neither `.` nor `..` is not in the first two slots. -/
theorem WF.two_le_of_findde (h : fs.WF) (hf : fs.findde p name = some k)
    (hdot : name ≠ dot) (hdotdot : name ≠ dotdot) : 2 ≤ k := by
  obtain ⟨hde, -, hname⟩ := findde_eq_some hf
  obtain ⟨rest, hrest⟩ := h.tree.dots p (h.tree.mem_dirs_of_slot hde)
  rw [hrest] at hde
  match k, hde, hname with
  | 0, hde, hname =>
      have heq : De.mk p dot = fs.de p 0 := by simpa using hde
      exact absurd (hname.symm.trans (by rw [← heq])) hdot
  | 1, hde, hname =>
      have heq : De.mk (fs.tree.up p) dotdot = fs.de p 1 := by simpa using hde
      exact absurd (hname.symm.trans (by rw [← heq])) hdotdot
  | k + 2, _, _ => omega

/-- The entries `.` and `..` are there. -/
theorem WF.findde_dot (h : fs.WF) (hp : p ∈ fs.tree.dirs) : fs.findde p dot = some 0 := by
  obtain ⟨rest, hrest⟩ := h.tree.dots p hp
  have h0 : p ≠ MINIXFREEINO := (h.tree.range p hp.1).1.ne'
  have hslots : fs.slots p = ⟨p, dot⟩ :: ⟨fs.tree.up p, dotdot⟩ :: rest := hrest
  simp [findde, hslots, List.findIdx?_cons, h0]

theorem WF.findde_dotdot (h : fs.WF) (hp : p ∈ fs.tree.dirs) : fs.findde p dotdot = some 1 := by
  obtain ⟨rest, hrest⟩ := h.tree.dots p hp
  have h0 : fs.tree.up p ≠ MINIXFREEINO := (h.tree.range _ (h.tree.tree.up_mem p hp).1).1.ne'
  have hslots : fs.slots p = ⟨p, dot⟩ :: ⟨fs.tree.up p, dotdot⟩ :: rest := hrest
  have hne : dot ≠ dotdot := by decide
  simp [findde, hslots, List.findIdx?_cons, h0, hne]

theorem WF.de_one (h : fs.WF) (hp : p ∈ fs.tree.dirs) : (fs.de p 1).ino = fs.tree.up p := by
  obtain ⟨rest, hrest⟩ := h.tree.dots p hp
  have hslots : fs.slots p = ⟨p, dot⟩ :: ⟨fs.tree.up p, dotdot⟩ :: rest := hrest
  simp [de, hslots]

theorem emptydir_iff : fs.emptydir i = true ↔ fs.tree.Empty i := by
  simp [emptydir, Tree.Empty, slots]

/-! ## Holding -/

theorem Held.upd (h : fs.Held) (hr : (f (fs.inode i)).refcnt ≠ 0 → fs.Alloc i)
    (hc : (f (fs.inode i)).cached = true → fs.Alloc i) : (fs.upd i f).Held where
  imap_zero := h.imap_zero
  refcnt := by
    intro j hj
    by_cases hji : j = i
    · subst hji
      rw [upd_inode_self] at hj
      exact hr hj
    · rw [upd_inode_ne hji] at hj
      exact h.refcnt j hj
  cached := by
    intro j hj
    by_cases hji : j = i
    · subst hji
      rw [upd_inode_self] at hj
      exact hc hj
    · rw [upd_inode_ne hji] at hj
      exact h.cached j hj

theorem Held.upd_of_eq (h : fs.Held) (hr : (f (fs.inode i)).refcnt = (fs.inode i).refcnt)
    (hc : (f (fs.inode i)).cached = (fs.inode i).cached) : (fs.upd i f).Held :=
  h.upd (fun h0 => h.refcnt i (hr ▸ h0)) fun h0 => h.cached i (hc ▸ h0)

theorem Held.setde (h : fs.Held) : (fs.setde p k e).Held := h.upd_of_eq rfl rfl

/-! ## What the tree decides -/

section Tree

variable {fs' : Filesys} (h : fs'.tree = fs.tree)

include h

theorem alloc_of_tree : fs'.Alloc i ↔ fs.Alloc i := by
  rw [← tree_alloc, h, tree_alloc]

theorem isdir_of_tree : (fs'.inode i).isdir = (fs.inode i).isdir := by
  rw [Bool.eq_iff_iff, ← tree_dir, h, tree_dir]

theorem nlink_of_tree : (fs'.inode i).nlink = (fs.inode i).nlink := by
  rw [← tree_nlink, h, tree_nlink]

theorem slots_of_tree : fs'.slots i = fs.slots i := by
  show fs'.tree.slots i = fs.tree.slots i
  rw [h]

theorem findde_of_tree (name : Name) : fs'.findde p name = fs.findde p name := by
  rw [findde, findde, slots_of_tree h]

theorem de_of_tree : fs'.de p k = fs.de p k := by
  rw [de, de, slots_of_tree h]

theorem emptydir_of_tree : fs'.emptydir i = fs.emptydir i := by
  rw [emptydir, emptydir, slots_of_tree h]

end Tree

end Filesys

/-! ## The inode cache -/

namespace Vol

open Filesys

variable {v v' : Vol} {c : Cred} {i j dir k : Nat} {name : Name} {e : Int}

theorem upd_fs (v : Vol) (i : Nat) (f : Inode → Inode) : (v.upd i f).fs = v.fs.upd i f := rfl

theorem readi_ok (h : v.readi i = .ok v') :
    v'.fs = v.fs.upd i fun x => { x with refcnt := x.refcnt + 1, cached := true } := by
  simp only [readi] at h
  split at h
  · cases h
  · split at h
    · cases h
    · cases h
      rfl

theorem readi_error (h : v.readi i = .error e) : e ≠ 0 := by
  simp only [readi] at h
  split at h
  · cases h
    decide
  · split at h
    · cases h
      decide
    · cases h

theorem tree_readi (h : v.readi i = .ok v') : v'.fs.tree = v.fs.tree := by
  rw [readi_ok h]
  exact tree_upd rfl rfl rfl

theorem held_readi (hheld : v.fs.Held) (ha : v.fs.Alloc i) (h : v.readi i = .ok v') :
    v'.fs.Held := by
  rw [readi_ok h]
  exact hheld.upd (fun _ => ha) fun _ => ha

theorem refcnt_readi (h : v.readi i = .ok v') (j : Nat) :
    (v'.fs.inode j).refcnt = (v.fs.inode j).refcnt + if j = i then 1 else 0 := by
  rw [readi_ok h, upd_inode]
  split
  · rfl
  · rfl

theorem cached_readi (h : v.readi i = .ok v') : (v'.fs.inode i).cached = true := by
  rw [readi_ok h, upd_inode_self]

theorem wf_readi (hwf : v.fs.WF) (ha : v.fs.Alloc i) (h : v.readi i = .ok v') : v'.fs.WF :=
  ⟨tree_readi h ▸ hwf.tree, held_readi hwf.held ha h⟩

/-- An allocated inode is read unless the cache is full. -/
theorem readi_of_alloc (ha : v.fs.Alloc i) (hroom : (v.fs.inode i).refcnt ≠ 0 ∨ v.nfree ≠ 0) :
    ∃ v', v.readi i = .ok v' := by
  have hbusy : ¬ ((v.fs.inode i).refcnt = 0 ∧ v.nfree = 0) := by omega
  have hrange : (!(v.fs.inode i).cached && decide (v.fs.ninode ≤ i)) = false := by
    rw [decide_eq_false (by have := ha.2.1; omega), Bool.and_false]
  exact ⟨_, by rw [readi, if_neg hbusy, hrange]; rfl⟩

/-- The last holder of an inode without links lets go of it. -/
def Last (v : Vol) (i : Nat) : Prop :=
  (v.fs.inode i).refcnt ≤ 1 ∧ (v.fs.inode i).cached = true ∧ (v.fs.inode i).nlink = 0

theorem lose_keep (h : ¬ v.Last i) :
    (v.lose i).fs = v.fs.upd i fun x => { x with refcnt := x.refcnt - 1 } := by
  unfold lose
  simp only [Vol.upd, upd_inode_self]
  split
  · rfl
  · next hr =>
      split
      · rfl
      · next hc =>
          simp only [Bool.or_eq_true, Bool.not_eq_true', decide_eq_true_eq, not_or,
            Bool.not_eq_false, not_not] at hc hr
          exact absurd ⟨by omega, hc.1, hc.2⟩ h

theorem lose_free (h : v.Last i) :
    (v.lose i).fs =
      ((((v.fs.upd i fun x => { x with refcnt := x.refcnt - 1 }).truncate i).freei i).upd i
        fun x => { x with cached := false }) := by
  obtain ⟨hr, hc, hn⟩ := h
  have hr0 : (v.fs.inode i).refcnt - 1 = 0 := by omega
  simp [lose, Vol.upd, hr0, hc, hn]

theorem tree_lose_keep (h : ¬ v.Last i) : (v.lose i).fs.tree = v.fs.tree := by
  rw [lose_keep h]
  exact tree_upd rfl rfl rfl

theorem freei_alloc (fs : Filesys) (i j : Nat) : (fs.freei i).Alloc j ↔ fs.Alloc j ∧ j ≠ i := by
  by_cases hrange : i = 0 ∨ fs.ninode ≤ i
  · rw [freei, if_pos hrange]
    refine ⟨fun h => ⟨h, ?_⟩, fun h => h.1⟩
    have hj := h.1
    have hj' := h.2.1
    omega
  · rw [freei, if_neg hrange]
    by_cases hj : j = i
    · simp [Alloc, hj]
    · simp [Alloc, hj]

theorem truncate_cases (fs : Filesys) (i : Nat) :
    (fs.inode i).isdir = false ∧ fs.truncate i = fs ∨
      ∃ z, fs.truncate i =
        { fs.upd i (fun x => { x with size := 0, slots := [], zones := 0 }) with zfree := z } := by
  by_cases h : !(fs.inode i).isreg && !(fs.inode i).isdir
  · exact .inl ⟨by simp_all, if_pos h⟩
  · exact .inr ⟨_, if_neg h⟩

theorem truncate_inode (fs : Filesys) (i j : Nat) :
    ((fs.truncate i).inode j).mode = (fs.inode j).mode ∧
    ((fs.truncate i).inode j).nlink = (fs.inode j).nlink ∧
    ((fs.truncate i).inode j).refcnt = (fs.inode j).refcnt ∧
    ((fs.truncate i).inode j).cached = (fs.inode j).cached := by
  rcases truncate_cases fs i with ⟨-, h⟩ | ⟨z, h⟩
  · rw [h]
    exact ⟨rfl, rfl, rfl, rfl⟩
  · rw [h]
    simp only [upd_inode]
    split
    · exact ⟨rfl, rfl, rfl, rfl⟩
    · exact ⟨rfl, rfl, rfl, rfl⟩

theorem truncate_slots (fs : Filesys) (i j : Nat)
    (h : (fs.inode i).isdir = true ∨ (fs.inode i).slots = []) :
    ((fs.truncate i).inode j).slots = if j = i then [] else (fs.inode j).slots := by
  rcases truncate_cases fs i with ⟨hno, htr⟩ | ⟨z, htr⟩
  · rw [htr]
    by_cases hj : j = i
    · subst hj
      rw [if_pos rfl]
      exact h.resolve_left (by simp [hno])
    · rw [if_neg hj]
  · rw [htr]
    simp only [upd_inode]
    split
    · rfl
    · rfl

theorem truncate_imap (fs : Filesys) (i : Nat) :
    (fs.truncate i).imap = fs.imap ∧ (fs.truncate i).ninode = fs.ninode := by
  rcases truncate_cases fs i with ⟨-, h⟩ | ⟨z, h⟩
  · rw [h]
    exact ⟨rfl, rfl⟩
  · rw [h]
    exact ⟨rfl, rfl⟩

theorem freei_inode (fs : Filesys) (i : Nat) :
    (fs.freei i).inode = fs.inode ∧ (fs.freei i).ninode = fs.ninode := by
  unfold freei
  split
  · exact ⟨rfl, rfl⟩
  · exact ⟨rfl, rfl⟩

theorem tree_lose_free (h : v.Last i)
    (hs : (v.fs.inode i).isdir = true ∨ (v.fs.inode i).slots = []) :
    (v.lose i).fs.tree = v.fs.tree.release i := by
  rw [lose_free h, tree_upd rfl rfl rfl]
  generalize hfs : (v.fs.upd i fun x => { x with refcnt := x.refcnt - 1 }) = fs
  have htree : fs.tree = v.fs.tree := by
    rw [← hfs]
    exact tree_upd rfl rfl rfl
  have hs : (fs.inode i).isdir = true ∨ (fs.inode i).slots = [] := by
    rw [isdir_of_tree htree]
    exact hs.imp_right fun hs => (slots_of_tree htree).trans hs
  rw [← htree]
  simp only [tree, Tree.release, Tree.mk.injEq]
  refine ⟨?_, ?_, ?_, ?_, ?_⟩
  · rw [(freei_inode _ i).2, (truncate_imap fs i).2]
  · funext j
    rw [eq_iff_iff, freei_alloc, Alloc, Alloc, (truncate_imap fs i).1, (truncate_imap fs i).2]
  · funext j
    rw [(freei_inode _ i).1, Inode.isdir, Inode.isdir, (truncate_inode fs i j).1]
  · funext j
    rw [(freei_inode _ i).1, (truncate_inode fs i j).2.1]
  · funext j
    rw [slots, (freei_inode _ i).1, truncate_slots fs i j hs]
    rfl

theorem refcnt_lose (v : Vol) (i j : Nat) :
    ((v.lose i).fs.inode j).refcnt = (v.fs.inode j).refcnt - if j = i then 1 else 0 := by
  have hdec : ((v.lose i).fs.inode j).refcnt =
      ((v.fs.upd i fun x => { x with refcnt := x.refcnt - 1 }).inode j).refcnt := by
    by_cases hlast : v.Last i
    · have htrunc := (truncate_inode
        (v.fs.upd i fun x => { x with refcnt := x.refcnt - 1 }) i j).2.2.1
      rw [← freei_inode _ i |>.1] at htrunc
      rw [lose_free hlast, ← htrunc]
      rw [upd_inode]
      split
      · rfl
      · rfl
    · rw [lose_keep hlast]
  rw [hdec, upd_inode]
  split
  · rfl
  · rfl

theorem held_lose (h : v.fs.Held) : (v.lose i).fs.Held := by
  by_cases hlast : v.Last i
  · have hnone : ((v.lose i).fs.inode i).refcnt = 0 ∧ ((v.lose i).fs.inode i).cached = false := by
      rw [lose_free hlast, upd_inode_self, (freei_inode _ i).1, (truncate_inode _ i i).2.2.1,
        upd_inode_self]
      have hr := hlast.1
      exact ⟨by show (v.fs.inode i).refcnt - 1 = 0; omega, rfl⟩
    have hrest : ∀ j, j ≠ i → ((v.lose i).fs.inode j).refcnt = (v.fs.inode j).refcnt ∧
        ((v.lose i).fs.inode j).cached = (v.fs.inode j).cached := by
      intro j hj
      rw [lose_free hlast, upd_inode_ne hj, (freei_inode _ i).1, (truncate_inode _ i j).2.2.1,
        (truncate_inode _ i j).2.2.2, upd_inode_ne hj]
      exact ⟨rfl, rfl⟩
    have halloc : ∀ j, (v.lose i).fs.Alloc j ↔ v.fs.Alloc j ∧ j ≠ i := by
      intro j
      rw [lose_free hlast, upd_alloc, freei_alloc, Alloc, Alloc, (truncate_imap _ i).1,
        (truncate_imap _ i).2]
      rfl
    refine ⟨?_, fun j hj => ?_, fun j hj => ?_⟩
    · rw [lose_free hlast, upd_imap, freei]
      split
      · rw [(truncate_imap _ i).1]
        exact h.imap_zero
      · next hrange =>
          show (if MINIXFREEINO = i then false else _) = true
          rw [if_neg fun h0 => hrange (.inl h0.symm), (truncate_imap _ i).1]
          exact h.imap_zero
    · by_cases hji : j = i
      · exact absurd (hji ▸ hnone.1) hj
      · exact (halloc j).mpr ⟨h.refcnt j ((hrest j hji).1 ▸ hj), hji⟩
    · by_cases hji : j = i
      · rw [hji, hnone.2] at hj
        cases hj
      · exact (halloc j).mpr ⟨h.cached j ((hrest j hji).2 ▸ hj), hji⟩
  · rw [lose_keep hlast]
    refine h.upd (fun hr => h.refcnt i ?_) fun hc => h.cached i hc
    show (v.fs.inode i).refcnt ≠ 0
    have hr : (v.fs.inode i).refcnt - 1 ≠ 0 := hr
    omega

theorem wf_lose (h : v.fs.WF) : (v.lose i).fs.WF := by
  refine ⟨?_, held_lose h.held⟩
  by_cases hlast : v.Last i
  · have ha : v.fs.tree.alloc i := h.held.cached i hlast.2.1
    have hs : (v.fs.inode i).isdir = true ∨ (v.fs.inode i).slots = [] := by
      by_cases hnil : (v.fs.inode i).slots = []
      · exact .inr hnil
      · exact .inl (h.tree.slots_dir i hnil).2
    rw [tree_lose_free hlast hs]
    exact h.tree.release ha hlast.2.2
  · rw [tree_lose_keep hlast]
    exact h.tree

/-! ## Making room for an entry -/

/-- `freede` may lengthen the directory by a free slot. -/
theorem freede_cases (h : v.freede dir = some (k, v')) :
    ∃ l z, (l = v.fs.slots dir ∨ l = v.fs.slots dir ++ [De.free]) ∧
      (∃ old, l[k]? = some old ∧ old.ino = MINIXFREEINO) ∧ v'.nfree = v.nfree ∧
      v'.fs.ninode = v.fs.ninode ∧ v'.fs.imap = v.fs.imap ∧
      v'.fs.inode = (v.fs.upd dir fun i => { i with slots := l, zones := z }).inode := by
  simp only [freede] at h
  split at h
  · next j hj =>
      cases h
      obtain ⟨hlt, hfree, -⟩ := List.findIdx?_eq_some_iff_getElem.mp hj
      refine ⟨_, (v.fs.inode dir).zones, .inl rfl,
        ⟨_, List.getElem?_eq_getElem hlt, by simpa using hfree⟩, rfl, rfl, rfl, ?_⟩
      have hself : v.fs.upd dir (fun i =>
          { i with slots := v.fs.slots dir, zones := (v.fs.inode dir).zones }) =
            v.fs.upd dir id := upd_congr rfl
      rw [hself]
      simp [Filesys.upd]
  · generalize (if (v.fs.slots dir).length % DEPERBLOCK = 0 then
      zonecost ((v.fs.slots dir).length / DEPERBLOCK) else 0) = cost at h
    split at h
    · cases h
    · cases h
      have hupd : v.fs.upd dir (fun i =>
          { i with slots := i.slots ++ [De.free], zones := i.zones + cost }) =
          v.fs.upd dir (fun i => { i with
            slots := v.fs.slots dir ++ [De.free], zones := (v.fs.inode dir).zones + cost }) :=
        upd_congr rfl
      have hinode := congrArg Filesys.inode hupd
      exact ⟨_, _, .inr rfl, ⟨De.free, by simp, rfl⟩, rfl, rfl, rfl, hinode⟩

theorem freede_tree (h : v.freede dir = some (k, v')) :
    ∃ l, (l = v.fs.slots dir ∨ l = v.fs.slots dir ++ [De.free]) ∧
      v'.fs.tree = v.fs.tree.setSlots dir l ∧ (v.fs.Held → v'.fs.Held) := by
  obtain ⟨l, z, hl, -, -, hninode, himap, hinode⟩ := freede_cases h
  refine ⟨l, hl, ?_, fun hheld => ?_⟩
  · have hupd : v'.fs.tree = (v.fs.upd dir fun i => { i with slots := l, zones := z }).tree :=
      tree_eq hninode himap hinode
    rw [hupd, ← tree_setslots]
    refine tree_congr rfl rfl fun j => ?_
    rw [upd_inode, upd_inode]
    split
    · exact ⟨rfl, rfl, rfl⟩
    · exact ⟨rfl, rfl, rfl⟩
  · have hupd : (v.fs.upd dir fun i => { i with slots := l, zones := z }).Held :=
      hheld.upd_of_eq rfl rfl
    refine ⟨himap ▸ hupd.imap_zero, fun j hj => ?_, fun j hj => ?_⟩
    · rw [Alloc, hninode, himap]
      exact hupd.refcnt j (hinode ▸ hj)
    · rw [Alloc, hninode, himap]
      exact hupd.cached j (hinode ▸ hj)

theorem freede_wf (h : v.freede dir = some (k, v')) (hwf : v.fs.WF)
    (hdir : dir ∈ v.fs.tree.dirs) : v'.fs.WF := by
  obtain ⟨l, hl, htree, hheld⟩ := freede_tree h
  exact ⟨htree ▸ hwf.tree.room hdir hl, hheld hwf.held⟩

theorem freede_free (h : v.freede dir = some (k, v')) :
    ∃ old, (v'.fs.tree.slots dir)[k]? = some old ∧ old.ino = MINIXFREEINO := by
  obtain ⟨l, z, -, hk, -, -, -, hinode⟩ := freede_cases h
  rw [tree_slots, hinode, upd_inode_self]
  exact hk

/-- A directory made longer keeps the entries it has. -/
theorem freede_slot (h : v.freede dir = some (k, v')) {d m : Nat} {de : De}
    (hde : (v.fs.tree.slots d)[m]? = some de) : (v'.fs.tree.slots d)[m]? = some de := by
  obtain ⟨l, z, hl, -, -, -, -, hinode⟩ := freede_cases h
  have hslots : v'.fs.tree.slots d = if d = dir then l else v.fs.tree.slots d := by
    rw [tree_slots, hinode, upd_inode]
    split
    · rfl
    · rfl
  rw [hslots]
  split
  · next hd =>
      subst hd
      rcases hl with rfl | rfl
      · exact hde
      · exact (List.getElem?_append_left (List.getElem?_eq_some_iff.mp hde).1).trans hde
  · exact hde

theorem freede_inode (h : v.freede dir = some (k, v')) (j : Nat) :
    (v'.fs.inode j).isdir = (v.fs.inode j).isdir ∧
    (v'.fs.inode j).nlink = (v.fs.inode j).nlink ∧
    (v'.fs.inode j).refcnt = (v.fs.inode j).refcnt ∧ (v'.fs.Alloc j ↔ v.fs.Alloc j) := by
  obtain ⟨l, z, -, -, -, hninode, himap, hinode⟩ := freede_cases h
  rw [Alloc, hninode, himap, hinode, upd_inode]
  split
  · exact ⟨rfl, rfl, rfl, Iff.rfl⟩
  · exact ⟨rfl, rfl, rfl, Iff.rfl⟩

theorem addcheck_eq_zero (h : v.addcheck dir name = 0) :
    name.length ≤ MINIXNAMELEN ∧ v.fs.findde dir name = none := by
  unfold addcheck at h
  split at h
  · cases h
  · next hlen =>
      split at h
      · cases h
      · split at h
        · cases h
        · next hnone => exact ⟨Nat.not_lt.mp hlen, not_isSome_iff_eq_none.mp hnone⟩

/-- A name that is not there is neither `.` nor `..`. -/
theorem name_of_findde (hwf : v.fs.WF) (hdir : dir ∈ v.fs.tree.dirs)
    (h : v.fs.findde dir name = none) : name ≠ dot ∧ name ≠ dotdot := by
  constructor
  · rintro rfl
    rw [hwf.findde_dot hdir] at h
    cases h
  · rintro rfl
    rw [hwf.findde_dotdot hdir] at h
    cases h

/-- Room for a link to a file, and the link. -/
theorem tree_link (hwf : v.fs.WF) (hdir : dir ∈ v.fs.tree.dirs)
    (hname : name ≠ dot ∧ name ≠ dotdot) (ha : v.fs.Alloc i) (hfile : (v.fs.inode i).isdir = false)
    (h : v.freede dir = some (k, v')) :
    ((v'.fs.tree.setSlot dir k ⟨i, name⟩).setNlink i (v'.fs.tree.nlink i + 1)).WF := by
  have hwf' := freede_wf h hwf hdir
  obtain ⟨old, hold, hfree⟩ := freede_free h
  obtain ⟨hisdir, -, -, halloc⟩ := freede_inode h i
  exact hwf'.tree.link hold hfree (halloc.mpr ha)
    (by rw [tree_dir, hisdir, hfile]; exact Bool.false_ne_true) hname

/-! ## `hardlink2` and `unlink2` -/

theorem hardlink2_wf {oldi : Nat} (hwf : v.fs.WF) (hdir : dir ∈ v.fs.tree.dirs)
    (ha : v.fs.Alloc oldi) (h : v.hardlink2 dir name oldi = some (e, v')) : v'.fs.WF := by
  unfold hardlink2 at h
  split at h
  · cases h
    exact hwf
  · next hfile =>
      split at h
      · cases h
        exact hwf
      · split at h
        · cases h
          exact hwf
        · next hcheck =>
            simp only [addde, map_map, map_eq_some_iff] at h
            obtain ⟨⟨k, w⟩, hw, h⟩ := h
            cases h
            have hnone := (addcheck_eq_zero (not_not.mp hcheck)).2
            have hwf' := freede_wf hw hwf hdir
            show ((w.fs.setde dir k ⟨oldi, name⟩).upd oldi
              fun x => { x with nlink := x.nlink + 1 }).WF
            refine ⟨?_, hwf'.held.setde.upd_of_eq rfl rfl⟩
            rw [tree_incnlink, tree_setde]
            exact tree_link hwf hdir (name_of_findde hwf hdir hnone) ha
              (Bool.eq_false_iff.mpr hfile) hw

variable {ino n : Nat} {mode : BitVec 16} {w : Vol}

/-- The entry in slot `k` of `dir` is dropped with the inode's link, as soon as
the inode has been let go. -/
theorem unlinkEntry_wf {de : De} {name : Name} (hwf : v.fs.WF)
    (hfind : v.fs.findde dir name = some k) (hino : (v.fs.de dir k).ino = ino)
    (hfile : (v.fs.inode ino).isdir = false) (hde : de.ino = MINIXFREEINO) :
    (((v.upd ino decnlink).lose ino).fs.setde dir k de).WF := by
  obtain ⟨hold, -, -⟩ := findde_eq_some hfind
  have ha : v.fs.Alloc ino := hino ▸ hwf.alloc_of_findde hfind
  have hnotdir : ¬ v.fs.tree.dir ino := by rw [tree_dir, hfile]; exact Bool.false_ne_true
  have hdir := hwf.tree.mem_dirs_of_slot hold
  have hne : dir ≠ ino := fun hd => hnotdir (hd ▸ hdir.2)
  have hnil : (v.fs.inode ino).slots = [] := by
    by_contra hne
    exact hnotdir (hwf.tree.slots_dir ino hne).2
  have hmain := hwf.tree.unlink hold (hino ▸ hnotdir) hde
  rw [hino] at hmain
  refine ⟨?_, (held_lose (hwf.held.upd_of_eq rfl rfl)).setde⟩
  rw [tree_setde]
  have htree : (v.upd ino decnlink).fs.tree =
      v.fs.tree.setNlink ino (v.fs.tree.nlink ino - 1) := tree_decnlink
  by_cases hlast : (v.upd ino decnlink).Last ino
  · have hslots : ((v.upd ino decnlink).fs.inode ino).slots = [] := by
      show ((v.fs.upd ino _).inode ino).slots = []
      rw [upd_inode_self]
      exact hnil
    rw [tree_lose_free hlast (.inr hslots), htree]
    have hzero : v.fs.tree.nlink ino - 1 = 0 := by
      have hn := hlast.2.2
      rwa [← tree_nlink, htree, Tree.setNlink_nlink, if_pos rfl] at hn
    have hfree := hmain.release (i := ino) ha (by
      rw [Tree.setNlink_nlink, if_pos rfl, hzero])
    rw [Tree.setSlot_release hne]
    exact hfree
  · rw [tree_lose_keep hlast, htree]
    exact hmain

theorem unlink2_wf {r : Int × Vol} (hwf : v.fs.WF) (h : v.unlink2 c dir name = r) : r.2.fs.WF := by
  subst h
  unfold unlink2
  split
  · exact hwf
  · split
    · exact hwf
    · next k hk =>
        have ha := hwf.alloc_of_findde hk
        dsimp only
        split
        · exact hwf
        · next w hw =>
            have hwf' := wf_readi hwf ha hw
            split
            · exact wf_lose hwf'
            · split
              · exact wf_lose hwf'
              · next hfile =>
                  have hk' : w.fs.findde dir name = some k := by
                    rw [findde_of_tree (tree_readi hw), hk]
                  exact unlinkEntry_wf hwf' hk' (congrArg De.ino (de_of_tree (tree_readi hw)))
                    (Bool.eq_false_iff.mpr hfile) rfl

/-! ## `mkreg` and `mkdir` -/

theorem alloci_some {fs fs' : Filesys} (h : fs.alloci = some (n, fs')) :
    fs.imap n = false ∧
      fs' = { fs with imap := fun x => if x = n then true else fs.imap x } := by
  simp only [alloci, map_eq_some_iff] at h
  obtain ⟨m, hm, h⟩ := h
  cases h
  exact ⟨by simpa using List.find?_some hm, rfl⟩

/-- A bit that is set and cleared again. -/
theorem giveback {fs : Filesys} (hfree : fs.imap n = false) :
    (Filesys.freei { fs with
      imap := fun x => if x = n then true else fs.imap x } n).tree = fs.tree ∧
    (fs.Held → (Filesys.freei { fs with
      imap := fun x => if x = n then true else fs.imap x } n).Held) := by
  have halloc : ∀ j, (Filesys.freei { fs with
      imap := fun x => if x = n then true else fs.imap x } n).Alloc j ↔ fs.Alloc j := by
    intro j
    rw [freei_alloc, Alloc, Alloc]
    by_cases hj : j = n
    · simp [hj, hfree]
    · simp [hj]
  refine ⟨?_, fun hheld => ⟨?_, fun j hj => ?_, fun j hj => ?_⟩⟩
  · simp only [tree, Tree.mk.injEq]
    refine ⟨(freei_inode _ _).2, ?_, ?_, ?_, ?_⟩
    · funext j
      rw [eq_iff_iff, halloc]
    · funext j
      rw [(freei_inode _ _).1]
    · funext j
      rw [(freei_inode _ _).1]
    · funext j
      rw [slots, (freei_inode _ _).1]
      rfl
  · have h0 : n ≠ MINIXFREEINO := by
      rintro rfl
      rw [hheld.imap_zero] at hfree
      cases hfree
    rw [freei]
    split
    · simp [hheld.imap_zero]
    · simp [h0.symm, hheld.imap_zero]
  · rw [halloc]
    rw [(freei_inode _ _).1] at hj
    exact hheld.refcnt j hj
  · rw [halloc]
    rw [(freei_inode _ _).1] at hj
    exact hheld.cached j hj

/-- The umask has no type bits. -/
theorem umask_sifmt (u : BitVec 9) : ~~~(u.zeroExtend 16) &&& SIFMT = SIFMT := by
  have hlow : ∀ i : Fin 16, (i : Nat) < 9 → SIFMT.getLsbD i = false := by decide
  refine BitVec.eq_of_getLsbD_eq fun i hi => ?_
  by_cases hi9 : i < 9
  · simp [hlow ⟨i, hi⟩ hi9]
  · have hzero : u.getLsbD i = false := BitVec.getLsbD_of_ge u i (by omega)
    simp [hzero, hi]

theorem typemode_sifmt {t : BitVec 16} (ht : t &&& SIFMT = t) (m : BitVec 16) :
    typemode t m &&& SIFMT = t := by
  rw [typemode, BitVec.and_or_distrib_right, ht, BitVec.and_assoc, BitVec.not_and_self]
  simp

/-- A new inode has the type it was asked for. -/
theorem isdir_newinode {t : BitVec 16} (ht : t &&& SIFMT = t) (m : BitVec 16) (i : Inode) :
    (newinode c (typemode t m) i).isdir = (t == SIFDIR) := by
  show ((typemode t m &&& ~~~(c.umask.zeroExtend 16)) &&& SIFMT == SIFDIR) = (t == SIFDIR)
  rw [BitVec.and_assoc, umask_sifmt, typemode_sifmt ht]

/-- The state when `mkcommon` has written the entry and the inode. -/
def made (w : Vol) (c : Cred) (dir k : Nat) (name : Name) (mode : BitVec 16) (n : Nat) : Vol :=
  Vol.upd { w with fs := w.fs.setde dir k ⟨n, name⟩ } n (newinode c mode)

/-- A new inode: its bit, and room for its entry. -/
structure Fresh (v : Vol) (c : Cred) (dir : Nat) (name : Name) (n k : Nat) (w : Vol) : Prop where
  intro ::
  free : v.fs.imap n = false
  alloci : ∃ fs, v.fs.alloci = some (n, fs)
  range : n < v.fs.ninode
  isdir : (v.fs.inode dir).isdir = true
  deny : (v.fs.inode dir).deny c IW = 0
  check : v.addcheck dir name = 0
  room : freede ⟨{ v.fs with imap := fun x => if x = n then true else v.fs.imap x }, v.nfree⟩ dir =
    some (k, w)

/-- `mkcommon` fails without a trace, or makes an entry and an inode and may
then fail to return it. -/
theorem mkcommon_cases {keep : Bool} (h : v.mkcommon c dir name mode keep = some (e, n, v')) :
    (e ≠ 0 ∧ v'.fs.tree = v.fs.tree ∧ (v.fs.Held → v'.fs.Held)) ∨
      ∃ k w, Fresh v c dir name n k w ∧
        (e = 0 ∧ keep = false ∧ v' = made w c dir k name mode n ∨
          e = 0 ∧ keep = true ∧ (made w c dir k name mode n).readi n = .ok v' ∨
          e ≠ 0 ∧ keep = true ∧ (made w c dir k name mode n).readi n = .error e ∧
            v' = made w c dir k name mode n) := by
  unfold mkcommon at h
  split at h
  · cases h
  · split at h
    · cases h
      exact .inl ⟨by decide, rfl, id⟩
    · next hisdir =>
        split at h
        · cases h
          exact .inl ⟨by decide, rfl, id⟩
        · next hdeny =>
          split at h
          · cases h
            exact .inl ⟨by decide, rfl, id⟩
          · next n' fs halloci =>
              obtain ⟨hfree, rfl⟩ := alloci_some halloci
              dsimp only at h
              split at h
              · cases h
                exact .inl ⟨by decide, giveback hfree⟩
              · split at h
                · cases h
                  exact .inl ⟨by decide, giveback hfree⟩
                · next hrange =>
                    split at h
                    · next hcheck =>
                        cases h
                        exact .inl ⟨hcheck, giveback hfree⟩
                    · next hcheck =>
                        right
                        simp only [addde, map_map, map_eq_some_iff] at h
                        obtain ⟨⟨k, w⟩, hw, h⟩ := h
                        have hfresh : Fresh v c dir name n' k w :=
                          ⟨hfree, ⟨_, halloci⟩, Nat.not_le.mp hrange, by simpa using hisdir,
                            not_not.mp hdeny, not_not.mp hcheck, hw⟩
                        cases keep with
                        | false =>
                            cases h
                            exact ⟨k, w, hfresh, .inl ⟨rfl, rfl, rfl⟩⟩
                        | true =>
                            dsimp only [Function.comp] at h
                            simp only [Bool.not_true, Bool.false_eq_true, if_false] at h
                            split at h
                            · next err herr =>
                                cases h
                                exact ⟨k, w, hfresh,
                                  .inr (.inr ⟨readi_error herr, rfl, herr, rfl⟩)⟩
                            · next u hu =>
                                cases h
                                exact ⟨k, w, hfresh, .inr (.inl ⟨rfl, rfl, hu⟩)⟩

theorem Fresh.not_alloc (h : Fresh v c dir name n k w) : ¬ v.fs.Alloc n := by
  rintro ⟨-, -, hset⟩
  rw [h.free] at hset
  cases hset

theorem Fresh.pos (h : Fresh v c dir name n k w) (hheld : v.fs.Held) : 0 < n := by
  refine Nat.pos_of_ne_zero ?_
  rintro rfl
  have hset : v.fs.imap 0 = true := hheld.imap_zero
  rw [h.free] at hset
  cases hset

/-- What `mkcommon` has written: `l` are the slots of the directory, with room. -/
theorem Fresh.made_spec (h : Fresh v c dir name n k w) (hheld : v.fs.Held)
    (ha : v.fs.Alloc dir) (mode : BitVec 16) :
    ∃ l z, (l = v.fs.tree.slots dir ∨ l = v.fs.tree.slots dir ++ [De.free]) ∧
      (∃ old, l[k]? = some old ∧ old.ino = MINIXFREEINO) ∧
      (∀ j, (made w c dir k name mode n).fs.inode j =
        if j = n then newinode c mode (v.fs.inode n)
        else if j = dir then { v.fs.inode dir with slots := l.set k ⟨n, name⟩, zones := z }
        else v.fs.inode j) ∧
      (∀ j, (made w c dir k name mode n).fs.Alloc j ↔ j = n ∨ v.fs.Alloc j) ∧
      (made w c dir k name mode n).fs.ninode = v.fs.ninode ∧
      (made w c dir k name mode n).fs.Held := by
  obtain ⟨l, z, hl, hk, -, hninode, himap, hinode⟩ := freede_cases h.room
  have hne : dir ≠ n := fun hd => h.not_alloc (hd ▸ ha)
  have hinode' : ∀ j, (made w c dir k name mode n).fs.inode j =
      if j = n then newinode c mode (v.fs.inode n)
      else if j = dir then { v.fs.inode dir with slots := l.set k ⟨n, name⟩, zones := z }
      else v.fs.inode j := by
    intro j
    show ((w.fs.setde dir k ⟨n, name⟩).upd n (newinode c mode)).inode j = _
    rw [upd_inode, setde, upd_inode, hinode, upd_inode]
    by_cases hj : j = n
    · subst hj
      rw [if_pos rfl, if_pos rfl, if_neg hne.symm, if_neg hne.symm]
    · rw [if_neg hj, if_neg hj]
      by_cases hjd : j = dir
      · subst hjd
        rw [if_pos rfl, if_pos rfl, if_pos rfl]
      · rw [if_neg hjd, if_neg hjd, if_neg hjd]
  have halloc : ∀ j, (made w c dir k name mode n).fs.Alloc j ↔ j = n ∨ v.fs.Alloc j := by
    intro j
    show 1 ≤ j ∧ j < w.fs.ninode ∧ w.fs.imap j = true ↔ _
    rw [hninode, himap]
    have hpos := h.pos hheld
    have hrange := h.range
    by_cases hj : j = n
    · subst hj
      simp [hrange]
      omega
    · simp [hj, Alloc]
  refine ⟨l, z, hl, hk, hinode', halloc, hninode, ?_, fun j hj => ?_, fun j hj => ?_⟩
  · show w.fs.imap MINIXFREEINO = true
    rw [himap]
    simp [hheld.imap_zero]
  · rw [halloc]
    refine Classical.or_iff_not_imp_left.mpr fun hjn => hheld.refcnt j ?_
    rw [hinode', if_neg hjn] at hj
    split at hj
    · next hjd => exact hjd ▸ hj
    · exact hj
  · rw [halloc]
    refine Classical.or_iff_not_imp_left.mpr fun hjn => hheld.cached j ?_
    rw [hinode', if_neg hjn] at hj
    split at hj
    · next hjd => exact hjd ▸ hj
    · exact hj

theorem mkreg_wf {keep : Bool} (hwf : v.fs.WF)
    (ha : v.fs.Alloc dir) (h : v.mkreg c dir name mode keep = some (e, n, v')) : v'.fs.WF := by
  have hreg : SIFREG &&& SIFMT = SIFREG := by decide
  rcases mkcommon_cases h with ⟨-, htree, hheld⟩ | ⟨k, w, hfresh, hcases⟩
  · exact ⟨htree ▸ hwf.tree, hheld hwf.held⟩
  · have hdir : dir ∈ v.fs.tree.dirs := ⟨ha, hfresh.isdir⟩
    have hne : dir ≠ n := fun hd => hfresh.not_alloc (hd ▸ ha)
    obtain ⟨l, z, hl, ⟨old, hold, hfree⟩, hinode, halloc, hninode, hheld⟩ :=
      hfresh.made_spec hwf.held ha (typemode SIFREG mode)
    have hcreate := hwf.tree.create hfresh.not_alloc (hfresh.pos hwf.held) hfresh.range
    have hdir' : dir ∈ (v.fs.tree.create n).dirs := ⟨.inr ha, hne, hfresh.isdir⟩
    have hroom := hcreate.room hdir' hl
    have hold' : (((v.fs.tree.create n).setSlots dir l).slots dir)[k]? = some old := by
      rw [Tree.setSlots_slots, if_pos rfl]
      exact hold
    have hlink := hroom.link (i := n) hold' hfree (.inl rfl)
      (fun hd => hd.1 rfl) (name_of_findde hwf hdir (addcheck_eq_zero hfresh.check).2)
    have hisdir := isdir_newinode (c := c) hreg mode (v.fs.inode n)
    have htree : (made w c dir k name (typemode SIFREG mode) n).fs.tree =
        (((v.fs.tree.create n).setSlots dir l).setSlot dir k ⟨n, name⟩).setNlink n 1 := by
      simp only [tree, Tree.setNlink, Tree.setSlot, Tree.setSlots, Tree.create, Tree.mk.injEq]
      refine ⟨hninode, ?_, ?_, ?_, ?_⟩
      · funext j
        rw [eq_iff_iff]
        exact halloc j
      · funext j
        rw [hinode, eq_iff_iff]
        by_cases hj : j = n
        · rw [if_pos hj, hisdir]
          simp [hj]
          decide
        · rw [if_neg hj]
          split
          · next hjd => simp [hjd, Inode.isdir, hne]
          · simp [hj]
      · funext j
        rw [hinode]
        by_cases hj : j = n
        · rw [if_pos hj, if_pos hj, newinode, if_neg]
          rw [typemode_sifmt hreg]
          decide
        · rw [if_neg hj, if_neg hj, if_neg hj]
          split
          · next hjd => rw [hjd]
          · rfl
      · funext j
        rw [slots, hinode]
        by_cases hj : j = n
        · subst hj
          rw [if_pos rfl, if_neg hne.symm, if_neg hne.symm]
          exact (hwf.tree.slots_eq_nil hfresh.not_alloc).symm
        · simp only [if_neg hj, if_true]
          split
          · rfl
          · rfl
    have hmade : (made w c dir k name (typemode SIFREG mode) n).fs.WF := by
      refine ⟨htree ▸ ?_, hheld⟩
      have hzero : ((v.fs.tree.create n).setSlots dir l).nlink n = 0 := if_pos rfl
      rw [hzero] at hlink
      exact hlink
    rcases hcases with ⟨-, -, rfl⟩ | ⟨-, -, hread⟩ | ⟨-, -, -, rfl⟩
    · exact hmade
    · exact wf_readi hmade ((halloc n).mpr (.inl rfl)) hread
    · exact hmade

theorem Fresh.made_nfree (h : Fresh v c dir name n k w) (mode : BitVec 16) :
    (made w c dir k name mode n).nfree = v.nfree := by
  obtain ⟨l, z, -, -, hnfree, -⟩ := freede_cases h.room
  exact hnfree

/-- The tree when `mkdir` has filled in the new directory. -/
theorem Fresh.mkdir_tree {u : Vol} (h : Fresh v c dir name n k w) (hwf : v.fs.WF)
    (ha : v.fs.Alloc dir) (mode : BitVec 16)
    (hu : u.fs = ((made w c dir k name (typemode SIFDIR mode) n).fs.upd n fun i =>
      { i with refcnt := i.refcnt + 1, cached := true })) :
    ((((u.upd n fun i => { i with
      nlink := 2, slots := [⟨n, dot⟩, ⟨dir, dotdot⟩], zones := 1 }).lose n).fs.upd dir
        fun i => { i with nlink := i.nlink + 1 }).tree).WF := by
  have hdirmode : SIFDIR &&& SIFMT = SIFDIR := by decide
  have hne : dir ≠ n := fun hd => h.not_alloc (hd ▸ ha)
  obtain ⟨l, z, hl, ⟨old, hold, hfree⟩, hinode, halloc, hninode, -⟩ :=
    h.made_spec hwf.held ha (typemode SIFDIR mode)
  have hold' : ((v.fs.tree.setSlots dir l).slots dir)[k]? = some old := by
    rw [Tree.setSlots_slots, if_pos rfl]
    exact hold
  have hmain := (hwf.tree.room ⟨ha, h.isdir⟩ hl).insertDir hold' hfree
    h.not_alloc (h.pos hwf.held) h.range
    (name_of_findde hwf ⟨ha, h.isdir⟩ (addcheck_eq_zero h.check).2)
  generalize hy : (u.upd n fun i => { i with
    nlink := 2, slots := [⟨n, dot⟩, ⟨dir, dotdot⟩], zones := 1 }) = y
  have hyn : y.fs.inode n = { newinode c (typemode SIFDIR mode) (v.fs.inode n) with
      refcnt := (v.fs.inode n).refcnt + 1, cached := true, nlink := 2,
      slots := [⟨n, dot⟩, ⟨dir, dotdot⟩], zones := 1 } := by
    rw [← hy, upd_fs, upd_inode_self, hu, upd_inode_self, hinode, if_pos rfl]
    rfl
  have hyj : ∀ j, j ≠ n → y.fs.inode j =
      if j = dir then { v.fs.inode dir with slots := l.set k ⟨n, name⟩, zones := z }
      else v.fs.inode j := by
    intro j hj
    rw [← hy, upd_fs, upd_inode_ne hj, hu, upd_inode_ne hj, hinode, if_neg hj]
  have hlast : ¬ y.Last n := by
    rintro ⟨-, -, hnlink⟩
    rw [hyn] at hnlink
    cases hnlink
  rw [tree_incnlink, tree_lose_keep hlast]
  have htree : y.fs.tree.setNlink dir (y.fs.tree.nlink dir + 1) =
      (v.fs.tree.setSlots dir l).insertDir dir k name n := by
    simp only [tree, Tree.setNlink, Tree.setSlots, Tree.insertDir, Tree.mk.injEq]
    refine ⟨?_, ?_, ?_, ?_, ?_⟩
    · rw [← hy, upd_fs, upd_ninode, hu, upd_ninode, hninode]
    · funext j
      rw [eq_iff_iff, ← halloc j, ← hy, upd_fs, upd_alloc, hu, upd_alloc]
    · funext j
      by_cases hj : j = n
      · subst hj
        rw [hyn, eq_iff_iff]
        have hisdir := isdir_newinode (c := c) hdirmode mode (v.fs.inode j)
        exact iff_of_true hisdir (.inl rfl)
      · rw [hyj j hj, eq_iff_iff]
        split
        · next hjd => simp [hjd, Inode.isdir, hne]
        · simp [hj]
    · funext j
      by_cases hj : j = n
      · subst hj
        rw [if_neg hne.symm, if_pos rfl, hyn]
      · rw [hyj j hj, if_neg hj]
        split
        · next hjd => rw [hyj dir hne, if_pos rfl]
        · rfl
    · funext j
      rw [slots]
      by_cases hj : j = n
      · subst hj
        rw [hyn, if_pos rfl]
      · rw [hyj j hj]
        split
        · rfl
        · rfl
  rw [htree]
  exact hmain

/-- What `mkdir` needs to go through, the inode slot apart. -/
def MkdirGoes (v : Vol) (c : Cred) (dir : Nat) (name : Name) : Prop :=
  (v.fs.inode dir).isdir = true ∧ (v.fs.inode dir).nlink < LINKMAX ∧ v.fs.zfree ≠ 0 ∧
    (v.fs.inode dir).deny c IW = 0 ∧ v.addcheck dir name = 0 ∧
    ∃ n fs, v.fs.alloci = some (n, fs) ∧ n < v.fs.ninode

/-- `mkdir` makes a directory or fails without a trace, unless it finds the
inode cache full when the entry is there. -/
theorem mkdir_wf (hwf : v.fs.WF) (ha : v.fs.Alloc dir)
    (hroom : e = 0 ∨ (v.MkdirGoes c dir name → v.nfree ≠ 0))
    (h : v.mkdir c dir name mode = some (e, v')) : v'.fs.WF := by
  unfold mkdir at h
  split at h
  · cases h
    exact hwf
  · split at h
    · cases h
      exact hwf
    · next hnlink =>
        split at h
        · cases h
          exact hwf
        · next hzfree =>
            simp only [map_eq_some_iff] at h
            obtain ⟨⟨e', n, u⟩, hmk, h⟩ := h
            generalize hv0 : (Vol.mk { v.fs with zfree := v.fs.zfree - 1 } v.nfree) = v0 at hmk
            have htree0 : v0.fs.tree = v.fs.tree := by
              rw [← hv0]
              exact tree_eq rfl rfl rfl
            have hheld0 : v0.fs.Held := by
              rw [← hv0]
              exact ⟨hwf.held.imap_zero, hwf.held.refcnt, hwf.held.cached⟩
            have hwf0 : v0.fs.WF := ⟨htree0 ▸ hwf.tree, hheld0⟩
            have ha0 : v0.fs.Alloc dir := (alloc_of_tree htree0).mpr ha
            rcases mkcommon_cases hmk with ⟨he, htree, hheld⟩ | ⟨k, w, hfresh, hcases⟩
            · rw [if_pos he] at h
              cases h
              have htree' : Filesys.tree { u.fs with zfree := u.fs.zfree + 1 } = u.fs.tree :=
                tree_eq rfl rfl rfl
              have hheld' := hheld hheld0
              refine ⟨?_, hheld'.imap_zero, hheld'.refcnt, hheld'.cached⟩
              rw [htree', htree]
              exact hwf0.tree
            · rcases hcases with ⟨-, hkeep, -⟩ | ⟨he, -, hread⟩ | ⟨he, -, hread, -⟩
              · cases hkeep
              · rw [if_neg (not_not.mpr he)] at h
                cases h
                have hmade := (hfresh.made_spec hwf0.held ha0 (typemode SIFDIR mode))
                obtain ⟨-, -, -, -, -, halloc, -, hheldm⟩ := hmade
                refine ⟨hfresh.mkdir_tree hwf0 ha0 mode (readi_ok hread), ?_⟩
                have hheldu := held_readi hheldm ((halloc n).mpr (.inl rfl)) hread
                have hfilled : (u.upd n fun i => { i with
                    nlink := 2, slots := [⟨n, dot⟩, ⟨dir, dotdot⟩], zones := 1 }).fs.Held := by
                  rw [upd_fs]
                  exact hheldu.upd_of_eq rfl rfl
                have hlost := held_lose (i := n) hfilled
                rw [upd_fs]
                exact hlost.upd_of_eq rfl rfl
              · exfalso
                have hne : e ≠ 0 := by
                  rw [if_pos he] at h
                  cases h
                  exact he
                have hgoes : v.MkdirGoes c dir name := by
                  subst hv0
                  refine ⟨hfresh.isdir, Nat.not_le.mp hnlink, hzfree, hfresh.deny, hfresh.check, ?_⟩
                  obtain ⟨fs, hfs⟩ := hfresh.alloci
                  simp only [alloci, map_eq_some_iff] at hfs ⊢
                  obtain ⟨m, hm, hfs⟩ := hfs
                  cases hfs
                  exact ⟨n, _, ⟨n, hm, rfl⟩, hfresh.range⟩
                have hnfree := hroom.resolve_left hne hgoes
                have ham := ((hfresh.made_spec hwf0.held ha0 (typemode SIFDIR mode)).choose_spec)
                obtain ⟨-, -, -, -, halloc, -, -⟩ := ham
                obtain ⟨u', hu'⟩ := readi_of_alloc ((halloc n).mpr (.inl rfl))
                  (.inr (by rw [hfresh.made_nfree, ← hv0]; exact hnfree))
                rw [hread] at hu'
                cases hu'

/-! ## `rmdir2` -/

/-- An empty directory that only the caller holds is neither the directory it
was looked up in nor the one above that. -/
theorem WF.at_of_rmdir (hwf : v.fs.WF) (hk : v.fs.findde dir name = some k)
    (hino : (v.fs.de dir k).ino = ino) (hne : dir ≠ ino) (hempty : v.fs.tree.Empty ino) :
    v.fs.tree.At dir k ino := by
  obtain ⟨hde, -, -⟩ := findde_eq_some hk
  have hdir := hwf.tree.mem_dirs_of_slot hde
  have hdot : name ≠ dot := by
    rintro rfl
    rw [hwf.findde_dot hdir] at hk
    cases hk
    obtain ⟨rest, hrest⟩ := hwf.tree.dots dir hdir
    rw [hrest] at hde
    have heq : De.mk dir dot = v.fs.de dir 0 := by simpa using hde
    exact hne (by rw [← hino, ← heq])
  have hdotdot : name ≠ dotdot := by
    rintro rfl
    rw [hwf.findde_dotdot hdir] at hk
    cases hk
    rw [hwf.de_one hdir] at hino
    by_cases hroot : dir = MINIXROOTINO
    · rw [hroot, hwf.tree.tree.up_root] at hino
      exact hne (hroot.trans hino)
    · obtain ⟨j, hj⟩ := hwf.tree.exist dir hdir hroot
      exact hempty.not_at hwf.tree.toShape hdir (hino ▸ hj)
  exact ⟨hwf.two_le_of_findde hk hdot hdotdot, _, hde, hino⟩

/-- The entry of an empty directory, its inode and the parent's link go. -/
theorem rmdirEntry_tree (de : De) (hwf : v.fs.WF) (hat : v.fs.tree.At dir k ino)
    (hdirs : ino ∈ v.fs.tree.dirs) (hbusy : (v.fs.inode ino).refcnt ≤ 1)
    (hcached : (v.fs.inode ino).cached = true) :
    (lose ⟨((v.upd dir decnlink).upd ino fun i => { i with nlink := 0 }).fs.setde dir k de,
      v.nfree⟩ ino).fs.tree = v.fs.tree.eraseDir dir k de ino ∧
    (lose ⟨((v.upd dir decnlink).upd ino fun i => { i with nlink := 0 }).fs.setde dir k de,
      v.nfree⟩ ino).fs.Held := by
  have hne := hwf.tree.parent_ne hdirs hat
  have hheld1 : (v.upd dir decnlink).fs.Held := hwf.held.upd_of_eq rfl rfl
  have hheld2 : ((v.upd dir decnlink).upd ino fun i => { i with nlink := 0 }).fs.Held := by
    rw [upd_fs]
    exact hheld1.upd_of_eq rfl rfl
  refine ⟨?_, held_lose hheld2.setde⟩
  have hino : (((v.upd dir decnlink).upd ino fun i => { i with nlink := 0 }).fs.setde
      dir k de).inode ino = { v.fs.inode ino with nlink := 0 } := by
    rw [setde, upd_inode_ne hne.symm, upd_fs, upd_inode_self, upd_fs, upd_inode_ne hne.symm]
  rw [tree_lose_free]
  · rw [tree_setde, upd_fs, tree_upd_nlink, upd_fs, tree_decnlink, Tree.eraseDir_eq]
  · rw [Last, hino]
    exact ⟨hbusy, hcached, rfl⟩
  · left
    rw [hino]
    exact hdirs.2

theorem rmdir2_wf (hwf : v.fs.WF) (hhold : (v.fs.inode dir).refcnt ≠ 0)
    (h : v.rmdir2 c dir name = some (e, v')) : v'.fs.WF := by
  unfold rmdir2 at h
  split at h
  · cases h
  split at h
  · cases h
    exact hwf
  split at h
  · cases h
    exact hwf
  next k hk =>
  dsimp only at h
  have ha := hwf.alloc_of_findde hk
  split at h
  · cases h
    exact hwf
  next w hw =>
  have hwf' := wf_readi hwf ha hw
  split at h
  · cases h
    exact wf_lose hwf'
  split at h
  · cases h
    exact wf_lose hwf'
  next hisdir =>
  split at h
  · cases h
    exact wf_lose hwf'
  next hbusy =>
  split at h
  · cases h
    exact wf_lose hwf'
  next hempty =>
  cases h
  have htree := tree_readi hw
  have hne : dir ≠ (v.fs.de dir k).ino := by
    intro hne
    rw [← hne, refcnt_readi hw, if_pos hne] at hbusy
    omega
  have hkw : w.fs.findde dir name = some k := by rw [findde_of_tree htree, hk]
  have hempty' : w.fs.tree.Empty (v.fs.de dir k).ino :=
    emptydir_iff.mp (by simpa using hempty)
  have hat := WF.at_of_rmdir hwf' hkw (by rw [de_of_tree htree]) hne hempty'
  have hdirs : (v.fs.de dir k).ino ∈ w.fs.tree.dirs :=
    ⟨(alloc_of_tree htree).mpr ha, by simpa using hisdir⟩
  obtain ⟨hfinal, hheld⟩ := rmdirEntry_tree { v.fs.de dir k with ino := MINIXFREEINO }
    hwf' hat hdirs (Nat.not_lt.mp hbusy) (cached_readi hw)
  exact ⟨hfinal ▸ hwf'.tree.eraseDir hdirs hat hempty' rfl, hheld⟩

end Vol

end Unixlite.Fs
