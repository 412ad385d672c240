import Unixlite.Fs.Permission

/-!
# The shape of directories over whole runs

Every directory has `.` and `..` in its first two slots: `addde` panics on one that has
no slots, and `emptydir` looks behind the first two.  The calls of `LinkRun` keep the
shape as long as they keep the tree.  `sysopen` is made of `lookup` and `mkreg`, which
are among them, and of `doopen`; `openregfd` refuses to open a directory for writing,
but not to empty it (`run_dirShape_iff`).
-/

namespace Unixlite.Fs

open Verified.Run

/-! ## The system -/

inductive Event where
  /-- A directory call, or a handle taken or dropped. -/
  | call (a : Call)
  /-- `doopen`, on an inode that is held. -/
  | doopen (flags : BitVec 32) (r : Ref)
  | close (fd : Nat)

namespace Kernel

/-- The last reference to a descriptor goes. -/
def close (k : Kernel) (fd : Nat) : Option Kernel :=
  (k.task.fdvec fd).map fun f =>
    let k := { k with task := { k.task with
      fdvec := fun i => if i = fd then none else k.task.fdvec i } }
    if f.type = .chrfd then k else k.lose f.inode

/-- One event; `none` when it cannot happen, or panics. -/
def step (k : Kernel) : Event → Option Kernel
  | .call a => (k.world.step a).map fun w => { k with world := w }
  | .doopen flags r => if k.world.held r.1 r.2 then some (k.doopen flags r).2 else none
  | .close fd => k.close fd

end Kernel

/-! ## The shape -/

/-- `sizeof(minixde_t)`. -/
def DESIZE : Nat := 32

/-- `size` of a directory. -/
def Filesys.dirsize (fs : Filesys) (d : Nat) : Nat := DESIZE * (fs.slots d).length

/-- A slot with an entry of this name. -/
def Filesys.HasEntry (fs : Filesys) (d k : Nat) (name : Name) : Prop :=
  ∃ de, (fs.slots d)[k]? = some de ∧ de.name = name ∧ de.ino ≠ MINIXFREEINO

structure Filesys.Shaped (fs : Filesys) (d : Nat) : Prop where
  size : 2 * DESIZE ≤ fs.dirsize d
  whole : fs.dirsize d % DESIZE = 0
  dot : fs.HasEntry d 0 dot
  dotdot : fs.HasEntry d 1 dotdot

/-- Every directory has its shape. -/
def Filesys.DirShape (fs : Filesys) : Prop :=
  ∀ d, fs.Alloc d → (fs.inode d).isdir = true → fs.Shaped d

namespace Kernel

def DirShape (k : Kernel) : Prop := ∀ dev, (k.world.fs dev).DirShape

/-- Directory calls keep the tree. -/
def CallFine (k : Kernel) : Event → Prop
  | .call a => k.world.Fine a
  | _ => True

/-- `OTRUNC` for a directory comes with `FDWRITE`, and so with EISDIR. -/
def OpenFine (k : Kernel) : Event → Prop
  | .doopen flags r => k.world.held r.1 r.2 = true → (k.inode r).isdir = true →
      flags &&& OTRUNC ≠ 0 → flags &&& FDWRITE ≠ 0
  | _ => True

end Kernel

/-! ## A well-formed file system has the shape -/

theorem Filesys.WF.dirShape {fs : Filesys} (h : fs.WF) : fs.DirShape := by
  intro d ha hdir
  have hd : d ∈ fs.tree.dirs := ⟨ha, hdir⟩
  have hup : fs.tree.up d ∈ fs.tree.dirs := h.tree.tree.up_mem d hd
  obtain ⟨rest, hrest⟩ := h.tree.dots d hd
  have hslots : fs.slots d = ⟨d, Fs.dot⟩ :: ⟨fs.tree.up d, Fs.dotdot⟩ :: rest := hrest
  refine ⟨?_, Nat.mul_mod_right _ _, ⟨⟨d, Fs.dot⟩, ?_, rfl, ?_⟩,
    ⟨⟨fs.tree.up d, Fs.dotdot⟩, ?_, rfl, ?_⟩⟩
  · unfold dirsize
    rw [hslots, List.length_cons, List.length_cons, Nat.mul_comm]
    exact Nat.mul_le_mul_left _ (Nat.le_add_left 2 _)
  · rw [hslots]
    rfl
  · exact (h.tree.range d ha).1.ne'
  · rw [hslots]
    rfl
  · exact (h.tree.range _ hup.1).1.ne'

/-! ## Opening -/

theorem Vol.truncate_wf {fs : Filesys} {i : Nat} (h : fs.WF) (hdir : (fs.inode i).isdir = false) :
    (fs.truncate i).WF := by
  rcases Vol.truncate_cases fs i with ⟨-, hsame⟩ | ⟨z, hnew⟩
  · rw [hsame]
    exact h
  · have hslots : (fs.inode i).slots = [] := by
      by_contra hne
      have hisdir := (h.tree.slots_dir i hne).2
      rw [Filesys.tree_dir, hdir] at hisdir
      cases hisdir
    let g : Inode → Inode := fun x => { x with size := 0, slots := [], zones := 0 }
    have htree : (fs.truncate i).tree = fs.tree := by
      rw [hnew]
      have hupd : (fs.upd i g).tree = fs.tree := Filesys.tree_upd rfl rfl hslots.symm
      exact Eq.trans (Filesys.tree_eq rfl rfl rfl) hupd
    have hupd : (fs.upd i g).Held := h.held.upd_of_eq rfl rfl
    refine ⟨htree ▸ h.tree, ?_⟩
    rw [hnew]
    exact ⟨hupd.imap_zero, hupd.refcnt, hupd.cached⟩

namespace Kernel

variable {k k' : Kernel} {flags : BitVec 32} {r : Ref} {f : Fdes}

theorem upd_wf {dev : Nat} {g : Vol → Vol} (hwf : k.world.WF) (hg : (g (k.world.vol dev)).fs.WF) :
    (k.upd dev g).world.WF := by
  intro d
  unfold upd World.setVol
  dsimp only
  split
  · exact hg
  · exact hwf d

theorem lose_wf (hwf : k.world.WF) (r : Ref) : (k.lose r).world.WF :=
  upd_wf hwf (Vol.wf_lose (hwf r.1))

/-- A regular file, or an inode that is not emptied. -/
theorem openregfd_wf (hwf : k.world.WF) (ha : (k.world.fs r.1).Alloc r.2)
    (hfine : (k.inode r).isdir = true → flags &&& OTRUNC ≠ 0 → flags &&& FDWRITE ≠ 0)
    (h : k.openregfd flags r = .ok (f, k')) : k'.world.WF := by
  unfold openregfd at h
  split at h
  · cases h
  next hdir =>
  cases h
  have hhold : ∀ k : Kernel, k.world.WF → (k.world.fs r.1).Alloc r.2 → (k.hold r).world.WF :=
    fun k hwf ha => upd_wf hwf (World.hold_wf (hwf r.1) ha)
  split
  · next htrunc =>
    have hreg : (k.inode r).isdir = false := by
      rw [← Bool.not_eq_true]
      intro hisdir
      exact hdir (by rw [hisdir, Bool.true_and, bne_iff_ne]; exact hfine hisdir htrunc)
    have htr : ((k.world.fs r.1).truncate r.2).WF := Vol.truncate_wf (hwf r.1) hreg
    have hwf' : (k.upd r.1 fun v => { v with fs := v.fs.truncate r.2 }).world.WF :=
      upd_wf hwf htr
    refine hhold _ hwf' ?_
    have hself : ((k.truncate r).world.fs r.1) = (k.world.fs r.1).truncate r.2 := if_pos rfl
    rw [hself, Filesys.Alloc, (Vol.truncate_imap _ _).1, (Vol.truncate_imap _ _).2]
    exact ha
  · exact hhold k hwf ha

/-- A character device holds no inode. -/
theorem openchrfd_world (h : k.openchrfd flags r = .ok (f, k')) : k'.world = k.world := by
  have hdev : ∀ d : Chrdev, k.chrdevOpen d flags r = .ok (f, k') → k'.world = k.world := by
    intro d hd
    unfold chrdevOpen at hd
    split at hd
    · cases hd
      rfl
    · dsimp only at hd
      split at hd
      · cases hd
        rfl
      · cases hd
  unfold openchrfd at h
  dsimp only at h
  split at h
  · cases h
  split at h
  · cases h
  split at h
  · split at h
    · exact hdev _ h
    · cases h
  · exact hdev _ h

theorem openfdes_wf (hwf : k.world.WF) (ha : (k.world.fs r.1).Alloc r.2)
    (hfine : (k.inode r).isdir = true → flags &&& OTRUNC ≠ 0 → flags &&& FDWRITE ≠ 0)
    (h : k.openfdes flags r = .ok (f, k')) : k'.world.WF := by
  unfold openfdes at h
  split at h
  · exact openregfd_wf hwf ha hfine h
  split at h
  · unfold openblkfd at h
    dsimp only at h
    split at h
    · cases h
      exact upd_wf hwf (World.hold_wf (hwf r.1) ha)
    · cases h
  split at h
  · rw [openchrfd_world h]
    exact hwf
  · cases h

theorem doopen_wf (hwf : k.world.WF) (ha : (k.world.fs r.1).Alloc r.2)
    (hfine : (k.inode r).isdir = true → flags &&& OTRUNC ≠ 0 → flags &&& FDWRITE ≠ 0) :
    (k.doopen flags r).2.world.WF := by
  have hfine' : (k.inode r).isdir = true → fdflags flags &&& OTRUNC ≠ 0 →
      fdflags flags &&& FDWRITE ≠ 0 := by
    rw [fdflags_and flags OTRUNC (by decide) (by decide),
      fdflags_and flags FDWRITE (by decide) (by decide)]
    exact hfine
  unfold doopen
  split
  · exact hwf
  · next f k' hopen =>
    have hwf' := openfdes_wf hwf ha hfine' hopen
    split
    · dsimp only
      split
      · exact hwf'
      · exact lose_wf hwf' r
    · exact hwf'

/-! ## Emptying a directory -/

/-- A directory without slots. -/
structure Emptied (k : Kernel) (r : Ref) : Prop where
  alloc : (k.world.fs r.1).Alloc r.2
  isdir : (k.inode r).isdir = true
  slots : (k.inode r).slots = []

theorem Emptied.not_shape (h : Emptied k r) : ¬ k.DirShape := by
  intro hshape
  obtain ⟨de, hde, -⟩ := (hshape r.1 r.2 h.alloc h.isdir).dot
  have hslots : (k.world.fs r.1).slots r.2 = [] := h.slots
  rw [hslots] at hde
  cases hde

theorem upd_self (k : Kernel) (dev : Nat) (g : Vol → Vol) :
    (k.upd dev g).world.fs dev = (g (k.world.vol dev)).fs := if_pos rfl

/-- What the other fields of the inode are does not matter. -/
theorem Emptied.upd (h : Emptied k r) {g : Inode → Inode}
    (hmode : (g (k.inode r)).mode = (k.inode r).mode)
    (hslots : (g (k.inode r)).slots = (k.inode r).slots) :
    Emptied (k.upd r.1 fun v => v.upd r.2 g) r := by
  have hinode : (k.upd r.1 fun v => v.upd r.2 g).inode r = g (k.inode r) := by
    unfold inode World.inode
    rw [upd_self, Vol.upd_fs, Filesys.upd_inode_self]
    rfl
  refine ⟨?_, ?_, ?_⟩
  · rw [upd_self, Vol.upd_fs]
    exact h.alloc
  · rw [hinode, Inode.isdir, hmode]
    exact h.isdir
  · rw [hinode, hslots]
    exact h.slots

theorem truncate_emptied (ha : (k.world.fs r.1).Alloc r.2) (hdir : (k.inode r).isdir = true) :
    Emptied (k.truncate r) r := by
  have hself : (k.truncate r).world.fs r.1 = (k.world.fs r.1).truncate r.2 := if_pos rfl
  refine ⟨?_, ?_, ?_⟩
  · rw [hself, Filesys.Alloc, (Vol.truncate_imap _ _).1, (Vol.truncate_imap _ _).2]
    exact ha
  · unfold inode World.inode
    rw [hself, Inode.isdir, (Vol.truncate_inode _ _ _).1]
    exact hdir
  · unfold inode World.inode
    rw [hself, Vol.truncate_slots _ _ _ (.inl hdir), if_pos rfl]

/-- An open that empties a directory. -/
theorem doopen_emptied (ha : (k.world.fs r.1).Alloc r.2) (hheld : (k.inode r).refcnt ≠ 0)
    (hdir : (k.inode r).isdir = true) (htrunc : flags &&& OTRUNC ≠ 0)
    (hread : flags &&& FDWRITE = 0) : Emptied (k.doopen flags r).2 r := by
  have hopen : k.openfdes (fdflags flags) r =
      .ok (⟨.regfd, fdflags flags, r⟩, (k.truncate r).hold r) := by
    have htrunc' : fdflags flags &&& OTRUNC ≠ 0 := by
      rw [fdflags_and flags OTRUNC (by decide) (by decide)]
      exact htrunc
    have hread' : ¬ ((k.inode r).isdir && (fdflags flags &&& FDWRITE != 0)) = true := by
      rw [fdflags_and flags FDWRITE (by decide) (by decide), Bool.and_eq_true, bne_iff_ne]
      exact fun h => h.2 hread
    have hkind : ((k.inode r).isreg || (k.inode r).isdir) = true := by
      rw [hdir, Bool.or_true]
    unfold openfdes openregfd
    rw [if_pos hkind, if_neg hread', if_pos htrunc']
  have hhold : Emptied ((k.truncate r).hold r) r := (truncate_emptied ha hdir).upd rfl rfl
  unfold doopen
  rw [hopen]
  dsimp only
  split
  · -- there is no slot for the descriptor, and the inode stays held
    have hrefcnt : 1 < (((k.truncate r).hold r).inode r).refcnt := by
      have hself : (k.truncate r).world.fs r.1 = (k.world.fs r.1).truncate r.2 := if_pos rfl
      have hcount : ((((k.world.fs r.1).truncate r.2).inode r.2).refcnt) = (k.inode r).refcnt :=
        (Vol.truncate_inode _ _ _).2.2.1
      have hsucc : (((k.truncate r).hold r).inode r).refcnt =
          (((k.truncate r).world.fs r.1).inode r.2).refcnt + 1 := by
        unfold inode World.inode hold
        rw [upd_self, Vol.hold, Vol.upd_fs, Filesys.upd_inode_self]
        rfl
      rw [hsucc, hself, hcount]
      omega
    have hkeep : ∀ v : Vol, 1 < (v.fs.inode r.2).refcnt →
        (v.lose r.2).fs = v.fs.upd r.2 fun x => { x with refcnt := x.refcnt - 1 } := by
      intro v hv
      exact Vol.lose_keep fun hlast => absurd hlast.1 (Nat.not_le.mpr hv)
    have hlose := hkeep (((k.truncate r).hold r).world.vol r.1) hrefcnt
    have hupd := hhold.upd (g := fun x => { x with refcnt := x.refcnt - 1 }) rfl rfl
    have hsame : (((k.truncate r).hold r).lose r).world.fs r.1 =
        (((k.truncate r).hold r).upd r.1 fun v => v.upd r.2 fun x =>
          { x with refcnt := x.refcnt - 1 }).world.fs r.1 := by
      unfold lose
      rw [upd_self, upd_self, hlose]
      rfl
    refine ⟨hsame ▸ hupd.alloc, ?_, ?_⟩
    · unfold inode World.inode
      exact hsame ▸ hupd.isdir
    · unfold inode World.inode
      exact hsame ▸ hupd.slots
  · exact ⟨hhold.alloc, hhold.isdir, hhold.slots⟩

/-! ## Runs -/

/-- **Step lemma.** -/
theorem step_wf {e : Event} (hwf : k.world.WF) (hcall : k.CallFine e) (hopen : k.OpenFine e)
    (h : k.step e = some k') : k'.world.WF := by
  cases e with
  | call a =>
      obtain ⟨w, hw, rfl⟩ := Option.map_eq_some_iff.mp h
      exact World.step_wf hwf hcall hw
  | doopen flags r =>
      obtain ⟨hheld, h⟩ := Option.ite_none_right_eq_some.mp h
      cases h
      exact doopen_wf hwf (World.alloc_of_held hwf hheld) (hopen hheld)
  | close fd =>
      obtain ⟨f, -, rfl⟩ := Option.map_eq_some_iff.mp h
      split
      · exact hwf
      · exact lose_wf hwf f.inode

/-- While the shape is there, no open has emptied a directory. -/
theorem openFine_of_shape {es : List Event} (hwf : k.world.WF) (hcalls : Each step CallFine k es)
    (h : Always step DirShape k es) : Each step OpenFine k es := by
  induction es generalizing k with
  | nil => trivial
  | cons e es ih =>
      have hopen : k.OpenFine e := by
        cases e with
        | call a => trivial
        | close fd => trivial
        | doopen flags r =>
            intro hheld hdir htrunc
            by_contra hread
            have hempty := doopen_emptied (World.alloc_of_held hwf hheld)
              (World.refcnt_of_held hheld) hdir htrunc hread
            exact hempty.not_shape (h.2 _ (if_pos hheld)).head
      exact ⟨hopen, fun t ht => ih (step_wf hwf hcalls.1 hopen ht) (hcalls.2 t ht) (h.2 t ht)⟩

/-- **Directories.**  In a run from well-formed file systems whose directory calls keep
the tree, every directory has its shape in every state exactly when no directory is
opened with `OTRUNC` for reading. -/
theorem run_dirShape_iff (k : Kernel) (hwf : k.world.WF) (es : List Event)
    (hcalls : Each step CallFine k es) :
    Always step DirShape k es ↔ Each step OpenFine k es := by
  constructor
  · exact openFine_of_shape hwf hcalls
  · intro hopen
    have hinv := always_of_each (P := fun k : Kernel => k.world.WF)
      (fun k e t hwf hfine h => step_wf hwf hfine.1 hfine.2 h) hwf (hcalls.and hopen)
    exact hinv.mono fun k hwf dev => (hwf dev).dirShape

/-- The superuser at the root of a new file system. -/
def mkfsKernel : Kernel where
  world := mkfsWorld
  task := ⟨superuser, (0, MINIXROOTINO), (0, MINIXROOTINO), false, fun _ => none⟩
  peer _ := none
  blkdevvec _ := false
  chrdevvec _ := none
  truncated := []

/-- A directory is made, and the root is opened for reading. -/
theorem run_dirShape_mkdir_open :
    Always step DirShape mkfsKernel
      [.call (.mkdir superuser 0 1 [0x61] 0o755), .doopen FDREAD (0, 1)] := by
  have hcalls : Each step CallFine mkfsKernel
      [.call (.mkdir superuser 0 1 [0x61] 0o755), .doopen FDREAD (0, 1)] :=
    ⟨fun _ => by decide, fun _ _ => ⟨trivial, fun _ _ => trivial⟩⟩
  refine (run_dirShape_iff mkfsKernel mkfsWorld_wf _ hcalls).mpr ?_
  exact ⟨trivial, fun _ _ => ⟨fun _ _ h => absurd (by decide) h, fun _ _ => trivial⟩⟩

/-- The root is opened with `OTRUNC` for reading. -/
theorem open_empties_root :
    ¬ ∀ es : List Event, Always step DirShape mkfsKernel es := by
  intro h
  have hlast := (always_iff_exec mkfsKernel _).mp (h [.doopen (FDREAD ||| OTRUNC) (0, 1)])
    _ [] _ (List.append_nil _).symm rfl 0 1 (by unfold Filesys.Alloc; decide) (by decide)
  have hsize := hlast.size
  revert hsize
  decide

end Kernel

end Unixlite.Fs
