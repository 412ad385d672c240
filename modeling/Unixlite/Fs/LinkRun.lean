import Unixlite.Fs.Rename
import Unixlite.Verified.Run

/-!
# Link counts and the directory tree over whole runs

One task makes directory calls in any order, on inodes it holds, and takes and
drops handles in between; the inode cache may forget an inode nobody holds.  In
a run whose steps are all fine every link count is the number of entries
(`run_linksOk`), and in a run of successful `mkdir`, `rmdir` and `rename` that
keep directories where they are, the directories form a tree along their `..`
entries (`run_dirTree`).
-/

namespace Unixlite.Fs

open Verified.Run Verified.ParentTree List Option

/-! ## The system -/

inductive Call where
  | hardlink (c : Cred) (dev dir : Nat) (basename : Name) (odev oldi : Nat)
  | unlink (c : Cred) (dev dir : Nat) (name : Name)
  | mkreg (c : Cred) (dev dir : Nat) (name : Name) (mode : BitVec 16) (keep : Bool)
  | mkdir (c : Cred) (dev dir : Nat) (name : Name) (mode : BitVec 16)
  | rmdir (c : Cred) (dev dir : Nat) (name : Name)
  | rename (c : Cred) (dev olddir : Nat) (oldname : Name) (ndev newdir : Nat) (newname : Name)
  /-- A handle on the inode of an entry. -/
  | lookup (dev dir : Nat) (name : Name)
  | hold (dev ino : Nat)
  | lose (dev ino : Nat)
  /-- The cache takes the slot of an inode nobody holds. -/
  | forget (dev ino : Nat)

namespace World

/-- The task has a handle. -/
def held (w : World) (dev ino : Nat) : Bool :=
  ino != MINIXFREEINO && (w.inode dev ino).refcnt != 0

/-- One call: its result and the state after it. -/
def call (w : World) : Call → Option (Int × World)
  | .hardlink _ dev dir basename odev oldi =>
      if w.held dev dir && w.held odev oldi then w.hardlink2 dev dir basename odev oldi else none
  | .unlink c dev dir name =>
      if w.held dev dir then w.on dev fun v => some (v.unlink2 c dir name) else none
  | .mkreg c dev dir name mode keep =>
      if w.held dev dir then
        w.on dev fun v => (v.mkreg c dir name mode keep).map fun (e, _, v) => (e, v)
      else none
  | .mkdir c dev dir name mode =>
      if w.held dev dir then w.on dev fun v => v.mkdir c dir name mode else none
  | .rmdir c dev dir name =>
      if w.held dev dir then w.on dev fun v => v.rmdir2 c dir name else none
  | .rename c dev olddir oldname ndev newdir newname =>
      if w.held dev olddir && w.held ndev newdir then
        w.rename2 c dev olddir oldname ndev newdir newname
      else none
  | .lookup dev dir name =>
      if w.held dev dir then
        w.on dev fun v =>
          match v.lookup2 dir name with
          | .error e => some (e, v)
          | .ok (_, v) => some (0, v)
      else none
  | .hold dev ino => if w.held dev ino then w.on dev fun v => some (0, v.hold ino) else none
  | .lose dev ino => if w.held dev ino then w.on dev fun v => some (0, v.lose ino) else none
  | .forget dev ino =>
      if w.held dev ino then none
      else w.on dev fun v => some (0, v.upd ino fun i => { i with cached := false })

/-- A call, successful or failing. -/
def step (w : World) (a : Call) : Option World := (w.call a).map Prod.snd

/-- A successful call that leaves files alone. -/
def dirStep (w : World) (a : Call) : Option World :=
  match a with
  | .hardlink .. | .unlink .. | .mkreg .. => none
  | a => (w.call a).bind fun (e, w) => if e = 0 then some w else none

/-! ## The conditions -/

/-- The checks of `rename2` before it looks at the names. -/
structure RenamePasses (w : World) (c : Cred) (dev olddir ndev newdir : Nat) : Prop where
  isdir : (w.inode dev olddir).isdir = true ∧ (w.inode ndev newdir).isdir = true
  deny : (w.inode dev olddir).deny c (IR ||| IW ||| IX) = 0 ∧
    (w.inode ndev newdir).deny c (IR ||| IW ||| IX) = 0
  dev : dev = ndev

/-- A rename that passes its checks keeps a directory in its parent, and replaces
no file that has other links. -/
def Keeps (w : World) : Call → Prop
  | .rename c dev olddir oldname ndev newdir newname =>
      w.RenamePasses c dev olddir ndev newdir →
        (w.vol dev).RenameKeeps olddir oldname newdir newname
  | _ => True

/-- In addition it does not meet a name too long, and a `mkdir` that passes its
checks finds a slot in the inode cache. -/
def Fine (w : World) : Call → Prop
  | .mkdir c dev dir name _ => (w.vol dev).MkdirGoes c dir name → w.nfree ≠ 0
  | .rename c dev olddir oldname ndev newdir newname =>
      w.RenamePasses c dev olddir ndev newdir →
        (w.vol dev).RenameFine olddir oldname newdir newname
  | _ => True

theorem Fine.keeps {w : World} {a : Call} (h : w.Fine a) : w.Keeps a := by
  cases a with
  | rename c dev olddir oldname ndev newdir newname =>
      exact fun hpass => (h hpass).toRenameKeeps
  | _ => trivial

/-! ## Every call keeps every file system well formed -/

def WF (w : World) : Prop := ∀ dev, (w.fs dev).WF

variable {w w' : World} {dev ino : Nat} {e : Int}

theorem refcnt_of_held (h : w.held dev ino = true) : ((w.vol dev).fs.inode ino).refcnt ≠ 0 := by
  simp only [held, Bool.and_eq_true, bne_iff_ne] at h
  exact h.2

theorem alloc_of_held (hwf : w.WF) (h : w.held dev ino = true) : (w.vol dev).fs.Alloc ino :=
  (hwf dev).held.refcnt ino (refcnt_of_held h)

theorem on_wf {f : Vol → Option (Int × Vol)} (hwf : w.WF) (h : w.on dev f = some (e, w'))
    (hf : ∀ v, f (w.vol dev) = some (e, v) → v.fs.WF) : w'.WF := by
  simp only [on, map_eq_some_iff] at h
  obtain ⟨⟨e', v⟩, hv, h⟩ := h
  cases h
  intro d
  by_cases hd : d = dev
  · simp only [setVol, if_pos hd]
    exact hf v hv
  · simp only [setVol, if_neg hd]
    exact hwf d

theorem lookup_wf {v v' : Vol} {dir : Nat} {name : Name} (hwf : v.fs.WF)
    (h : (match v.lookup2 dir name with
      | .error e => some (e, v)
      | .ok (_, v) => some (0, v)) = some (e, v')) : v'.fs.WF := by
  unfold Vol.lookup2 at h
  cases hk : v.fs.findde dir name with
  | none =>
      rw [hk] at h
      cases h
      exact hwf
  | some k =>
      rw [hk] at h
      dsimp only at h
      cases hr : v.readi (v.fs.de dir k).ino with
      | error err =>
          rw [hr] at h
          cases h
          exact hwf
      | ok u =>
          rw [hr] at h
          cases h
          exact Vol.wf_readi hwf (hwf.alloc_of_findde hk) hr

theorem hold_wf {v : Vol} (hwf : v.fs.WF) (ha : v.fs.Alloc ino) : (v.hold ino).fs.WF := by
  rw [Vol.hold, Vol.upd_fs]
  refine ⟨?_, hwf.held.upd (fun _ => ha) fun hc => hwf.held.cached ino hc⟩
  rw [Filesys.tree_upd rfl rfl rfl]
  exact hwf.tree

theorem forget_wf {v : Vol} (hwf : v.fs.WF) :
    (v.upd ino fun i => { i with cached := false }).fs.WF := by
  rw [Vol.upd_fs]
  refine ⟨?_, hwf.held.upd (fun hr => hwf.held.refcnt ino hr) fun hc => by cases hc⟩
  rw [Filesys.tree_upd rfl rfl rfl]
  exact hwf.tree

/-- **Step lemma.** -/
theorem call_wf {a : Call} (hwf : w.WF) (hkeeps : w.Keeps a) (hfine : e = 0 ∨ w.Fine a)
    (h : w.call a = some (e, w')) : w'.WF := by
  cases a with
  | hardlink c dev dir basename odev oldi =>
      simp only [call] at h
      split at h
      · next hheld =>
          rw [Bool.and_eq_true] at hheld
          unfold hardlink2 at h
          split at h
          · cases h
            exact hwf
          next hisdir =>
          split at h
          · cases h
            exact hwf
          next hdev =>
          obtain rfl := not_not.mp hdev
          have hisdir : (w.inode dev dir).isdir = true := by simpa using hisdir
          have hdir : dir ∈ (w.vol dev).fs.tree.dirs := ⟨alloc_of_held hwf hheld.1, hisdir⟩
          exact on_wf hwf h fun v hv =>
            Vol.hardlink2_wf (hwf dev) hdir (alloc_of_held hwf hheld.2) hv
      · cases h
  | unlink c dev dir name =>
      simp only [call] at h
      split at h
      · refine on_wf hwf h fun v hv => ?_
        exact Vol.unlink2_wf (r := (e, v)) (hwf dev) (some.inj hv)
      · cases h
  | mkreg c dev dir name mode keep =>
      simp only [call] at h
      split at h
      · next hheld =>
          refine on_wf hwf h fun v hv => ?_
          simp only [map_eq_some_iff] at hv
          obtain ⟨⟨e', n, u⟩, hu, hv⟩ := hv
          cases hv
          exact Vol.mkreg_wf (hwf dev) (alloc_of_held hwf hheld) hu
      · cases h
  | mkdir c dev dir name mode =>
      simp only [call] at h
      split at h
      · next hheld =>
          exact on_wf hwf h fun v hv =>
            Vol.mkdir_wf (hwf dev) (alloc_of_held hwf hheld) hfine hv
      · cases h
  | rmdir c dev dir name =>
      simp only [call] at h
      split at h
      · next hheld =>
          exact on_wf hwf h fun v hv => Vol.rmdir2_wf (hwf dev) (refcnt_of_held hheld) hv
      · cases h
  | rename c dev olddir oldname ndev newdir newname =>
      simp only [call] at h
      split at h
      · next hheld =>
          rw [Bool.and_eq_true] at hheld
          unfold rename2 at h
          split at h
          · cases h
          split at h
          · cases h
            exact hwf
          next hisdir =>
          split at h
          · cases h
            exact hwf
          next hdeny =>
          split at h
          · cases h
            exact hwf
          next hdev =>
          obtain rfl := not_not.mp hdev
          simp only [Bool.or_eq_true, Bool.not_eq_true', not_or, Bool.not_eq_false] at hisdir
          rw [not_or, not_not, not_not] at hdeny
          have hpass : w.RenamePasses c dev olddir dev newdir := ⟨hisdir, hdeny, rfl⟩
          have hdir : newdir ∈ (w.vol dev).fs.tree.dirs :=
            ⟨alloc_of_held hwf hheld.2, hisdir.2⟩
          exact on_wf hwf h fun v hv => Vol.rename2_wf (hwf dev) hdir (hkeeps hpass)
            (hfine.imp_right fun hf => hf hpass) hv
      · cases h
  | lookup dev dir name =>
      simp only [call] at h
      split at h
      · exact on_wf hwf h fun v hv => lookup_wf (hwf dev) hv
      · cases h
  | hold dev ino =>
      simp only [call] at h
      split at h
      · next hheld =>
          refine on_wf hwf h fun v hv => ?_
          cases hv
          exact hold_wf (hwf dev) (alloc_of_held hwf hheld)
      · cases h
  | lose dev ino =>
      simp only [call] at h
      split at h
      · refine on_wf hwf h fun v hv => ?_
        cases hv
        exact Vol.wf_lose (hwf dev)
      · cases h
  | forget dev ino =>
      simp only [call] at h
      split at h
      · cases h
      · refine on_wf hwf h fun v hv => ?_
        cases hv
        exact forget_wf (hwf dev)

theorem step_wf {a : Call} (hwf : w.WF) (hfine : w.Fine a) (h : w.step a = some w') : w'.WF := by
  obtain ⟨⟨e, u⟩, hu, rfl⟩ := map_eq_some_iff.mp h
  exact call_wf hwf hfine.keeps (.inr hfine) hu

theorem dirStep_wf {a : Call} (hwf : w.WF) (hkeeps : w.Keeps a) (h : w.dirStep a = some w') :
    w'.WF := by
  have hcall : (w.call a).bind (fun (e, w) => if e = 0 then some w else none) = some w' := by
    unfold dirStep at h
    split at h
    · cases h
    · cases h
    · cases h
    · exact h
  obtain ⟨⟨e, u⟩, hu, h⟩ := bind_eq_some_iff.mp hcall
  dsimp only at h
  split at h
  · next he =>
      cases h
      exact call_wf hwf hkeeps (.inl he) hu
  · cases h

end World

/-! ## What well-formedness says -/

/-- Every allocated inode has as many links as there are entries that name it,
`.` and `..` included, and no entry names a free inode. -/
def Filesys.LinksOk (fs : Filesys) : Prop :=
  ∀ i, (fs.Alloc i → (fs.inode i).nlink = fs.tree.refs i) ∧
    (¬ fs.Alloc i → i ≠ MINIXFREEINO → fs.tree.refs i = 0)

/-- Slot `k` of `p` names `d`, under a name other than `.` and `..`. -/
def Filesys.Entry (fs : Filesys) (p k d : Nat) : Prop :=
  ∃ de, (fs.slots p)[k]? = some de ∧ de.ino = d ∧ de.name ≠ dot ∧ de.name ≠ dotdot

/-- The inode that `..` names. -/
def Filesys.parent (fs : Filesys) (d : Nat) : Nat :=
  match fs.findde d dotdot with
  | some k => (fs.de d k).ino
  | none => MINIXFREEINO

/-- The directories form a tree rooted at the root inode. -/
def Filesys.DirTree (fs : Filesys) : Prop :=
  ∀ d, fs.Alloc d → (fs.inode d).isdir = true →
    (d ≠ MINIXROOTINO → ∃ p k, fs.Entry p k d ∧ (∀ q l, fs.Entry q l d → q = p ∧ l = k) ∧
      fs.parent d = p) ∧
    ∃ n, fs.parent^[n] d = MINIXROOTINO

namespace Filesys

variable {fs : Filesys}

theorem WF.linksOk (h : fs.WF) : fs.LinksOk := by
  intro i
  constructor
  · intro hi
    exact h.tree.nlink_eq i hi
  · intro hi h0
    exact h.tree.refs_eq_zero hi h0

theorem WF.parent_eq (h : fs.WF) {d : Nat} (hd : d ∈ fs.tree.dirs) :
    fs.parent d = fs.tree.up d := by
  rw [parent, h.findde_dotdot hd]
  exact h.de_one hd

/-- The entries besides `.` and `..` are those from the third slot on. -/
theorem WF.entry_iff (h : fs.WF) {p k d : Nat} (hd : fs.Alloc d) :
    fs.Entry p k d ↔ fs.tree.At p k d := by
  constructor
  · rintro ⟨de, hde, hino, hdot, hdotdot⟩
    refine ⟨?_, de, hde, hino⟩
    have hde' : (fs.tree.slots p)[k]? = some de := hde
    obtain ⟨rest, hrest⟩ := h.tree.dots p (h.tree.mem_dirs_of_slot hde')
    rw [hrest] at hde'
    match k, hde' with
    | 0, hde' =>
        obtain rfl : De.mk p dot = de := by simpa using hde'
        exact absurd rfl hdot
    | 1, hde' =>
        obtain rfl : De.mk (fs.tree.up p) dotdot = de := by simpa using hde'
        exact absurd rfl hdotdot
    | k + 2, _ => omega
  · rintro ⟨hk, de, hde, hino⟩
    have hmem : de ∈ (fs.tree.slots p).drop 2 := by
      obtain ⟨j, rfl⟩ := Nat.exists_eq_add_of_le hk
      rw [← List.getElem?_drop] at hde
      exact mem_of_getElem? hde
    have hlive : de.ino ≠ MINIXFREEINO := hino ▸ (h.tree.range d hd).1.ne'
    obtain ⟨hdot, hdotdot⟩ := h.tree.names p de hmem hlive
    exact ⟨de, hde, hino, hdot, hdotdot⟩

theorem WF.dirTree (h : fs.WF) : fs.DirTree := by
  intro d hd hisdir
  have hdirs : d ∈ fs.tree.dirs := ⟨hd, hisdir⟩
  constructor
  · intro hroot
    obtain ⟨k, hk⟩ := h.tree.exist d hdirs hroot
    refine ⟨fs.tree.up d, k, (h.entry_iff hd).mpr hk, fun q l hql => ?_, h.parent_eq hdirs⟩
    have hql' := (h.entry_iff hd).mp hql
    obtain ⟨-, hq, -⟩ := h.tree.unique d hdirs q l hql'
    obtain ⟨-, -, huniq⟩ := h.tree.unique d hdirs _ k hk
    exact ⟨hq, huniq l (hq ▸ hql')⟩
  · obtain ⟨n, hn⟩ := h.tree.tree.reach d hdirs
    refine ⟨n, ?_⟩
    have hiter : ∀ j, fs.parent^[j] d = fs.tree.up^[j] d := by
      intro j
      induction j with
      | zero => rfl
      | succ j ih =>
          rw [Function.iterate_succ_apply', Function.iterate_succ_apply', ih]
          exact h.parent_eq (h.tree.tree.iterate_mem hdirs j)
    rw [hiter n, hn]

end Filesys

/-! ## A new file system -/

/-- An inode that was never used. -/
def blankInode : Inode where
  mode := 0
  nlink := 0
  uid := 0
  gid := 0
  size := 0
  rdev := 0
  slots := []
  zones := 0
  refcnt := 0
  cached := false
  mounted := false

/-- The root inode, held since the file system was mounted. -/
def rootInode : Inode :=
  { blankInode with
    mode := 0x41FF
    nlink := 2
    slots := [⟨MINIXROOTINO, dot⟩, ⟨MINIXROOTINO, dotdot⟩]
    zones := 1
    refcnt := 1
    cached := true }

/-- A file system with nothing but a root. -/
def mkfs : Filesys where
  ninode := 16
  nimap := 16
  imap := fun i => decide (i ≤ 1)
  inode := fun i => if i = MINIXROOTINO then rootInode else blankInode
  zfree := 64

theorem mkfs_alloc {i : Nat} : mkfs.Alloc i ↔ i = MINIXROOTINO := by
  simp only [Filesys.Alloc, mkfs, decide_eq_true_eq, MINIXROOTINO]
  omega

theorem mkfs_inode_ne {i : Nat} (h : i ≠ MINIXROOTINO) : mkfs.inode i = blankInode := if_neg h

theorem mkfs_dirs {i : Nat} : i ∈ mkfs.tree.dirs ↔ i = MINIXROOTINO := by
  constructor
  · rintro ⟨ha, -⟩
    exact mkfs_alloc.mp ha
  · rintro rfl
    have hisdir : rootInode.isdir = true := by decide
    exact ⟨mkfs_alloc.mpr rfl, hisdir⟩

theorem mkfs_slots {p k : Nat} {de : De} (h : (mkfs.tree.slots p)[k]? = some de) :
    p = MINIXROOTINO ∧ k < 2 ∧ de.ino = MINIXROOTINO := by
  by_cases hp : p = MINIXROOTINO
  · subst hp
    refine ⟨rfl, (List.getElem?_eq_some_iff.mp h).1, ?_⟩
    have hmem : de ∈ rootInode.slots := mem_of_getElem? h
    simp only [rootInode, mem_cons, not_mem_nil, or_false] at hmem
    rcases hmem with rfl | rfl
    · rfl
    · rfl
  · rw [Filesys.tree_slots, mkfs_inode_ne hp] at h
    simp [blankInode] at h

theorem mkfs_wf : mkfs.WF := by
  refine ⟨⟨⟨?_, ?_, ?_, ?_, ?_, ?_⟩, ⟨?_, ?_⟩, ?_⟩, ⟨rfl, ?_, ?_⟩⟩
  · intro i hi
    obtain rfl := mkfs_alloc.mp hi
    decide
  · intro d hd
    refine mkfs_dirs.mpr ?_
    by_contra hne
    rw [Filesys.tree_slots, mkfs_inode_ne hne] at hd
    exact hd rfl
  · intro d hd
    obtain rfl := mkfs_dirs.mp hd
    exact ⟨[], rfl⟩
  · intro d e he _
    obtain ⟨k, hk⟩ := mem_iff_getElem?.mp he
    exact mkfs_alloc.mpr (mkfs_slots hk).2.2
  · intro d e he _
    obtain ⟨k, hk⟩ := mem_iff_getElem?.mp he
    rw [List.getElem?_drop] at hk
    have hlt := (mkfs_slots hk).2.1
    omega
  · refine ⟨mkfs_dirs.mpr rfl, rfl, fun d hd => ?_, fun d hd => ⟨0, mkfs_dirs.mp hd⟩⟩
    obtain rfl := mkfs_dirs.mp hd
    exact mkfs_dirs.mpr rfl
  · intro d hd hroot
    exact absurd (mkfs_dirs.mp hd) hroot
  · rintro d - p k ⟨hk, e, he, -⟩
    have hlt := (mkfs_slots he).2.1
    omega
  · intro i hi
    obtain rfl := mkfs_alloc.mp hi
    decide
  · intro i hi
    refine mkfs_alloc.mpr ?_
    by_contra hne
    rw [mkfs_inode_ne hne] at hi
    exact hi rfl
  · intro i hi
    refine mkfs_alloc.mpr ?_
    by_contra hne
    rw [mkfs_inode_ne hne] at hi
    cases hi

/-- New file systems only, and some room in the inode cache. -/
def mkfsWorld : World := ⟨fun _ => mkfs, 8⟩

theorem mkfsWorld_wf : mkfsWorld.WF := fun _ => mkfs_wf

/-- The superuser, with umask 022. -/
def superuser : Cred := ⟨0, 0, 0, 0, 0o022⟩

/-! ## Runs -/

namespace World

/-- In a run of directory calls that are all fine, every link count is right in
every state. -/
theorem run_linksOk (w : World) (hwf : w.WF) (as : List Call) (hfine : Each step Fine w as) :
    Always step (fun w => ∀ dev, (w.fs dev).LinksOk) w as := by
  have hinv : Always step WF w as :=
    always_of_each (fun _ _ _ hwf hfine h => step_wf hwf hfine h) hwf hfine
  exact hinv.mono fun w hwf dev => (hwf dev).linksOk

/-- A directory is made and given another name. -/
theorem run_linksOk_mkdir_rename :
    Each step Fine mkfsWorld
      [.mkdir superuser 0 1 [0x61] 0o755, .rename superuser 0 1 [0x61] 0 1 [0x62]] ∧
    Always step (fun w => ∀ dev, (w.fs dev).LinksOk) mkfsWorld
      [.mkdir superuser 0 1 [0x61] 0o755, .rename superuser 0 1 [0x61] 0 1 [0x62]] := by
  have hfine : Each step Fine mkfsWorld
      [.mkdir superuser 0 1 [0x61] 0o755, .rename superuser 0 1 [0x61] 0 1 [0x62]] := by
    refine ⟨fun _ => by decide, fun t ht => ⟨fun _ => ?_, fun _ _ => trivial⟩⟩
    have hnone : (t.vol 0).fs.findde 1 [0x62] = none := by
      have hdec : (mkfsWorld.step (.mkdir superuser 0 1 [0x61] 0o755)).all
          (fun t => (t.vol 0).fs.findde 1 [0x62] == none) = true := by decide
      rw [ht] at hdec
      simpa using hdec
    refine ⟨⟨fun _ _ _ _ => rfl, fun k m _ hm => ?_⟩, fun _ _ _ _ _ => by decide⟩
    rw [hnone] at hm
    cases hm
  exact ⟨hfine, run_linksOk mkfsWorld mkfsWorld_wf _ hfine⟩

/-- Renaming a file over one of two links of another frees the latter's inode,
which the other link still names. -/
theorem rename_frees_linked :
    ¬ ∀ as : List Call, Always step (fun w => ∀ dev, (w.fs dev).LinksOk) mkfsWorld as := by
  intro h
  have hlast := (always_iff_exec mkfsWorld _).mp
    (h [.mkreg superuser 0 1 [0x61] 0o644 true, .hardlink superuser 0 1 [0x62] 0 2, .lose 0 2,
      .mkreg superuser 0 1 [0x63] 0o644 false, .rename superuser 0 1 [0x63] 0 1 [0x62]])
    _ [] _ (List.append_nil _).symm rfl 0 2
  have hfree := hlast.2 (by unfold Filesys.Alloc; decide) (by decide)
  revert hfree
  decide

/-- In a run of successful `mkdir`, `rmdir` and `rename` that keep directories in
their parents and replace no file with other links, the directories form a tree
in every state. -/
theorem run_dirTree (w : World) (hwf : w.WF) (as : List Call)
    (hkeeps : Each dirStep Keeps w as) :
    Always dirStep (fun w => ∀ dev, (w.fs dev).DirTree) w as := by
  have hinv : Always dirStep WF w as :=
    always_of_each (fun _ _ _ hwf hkeeps h => dirStep_wf hwf hkeeps h) hwf hkeeps
  exact hinv.mono fun w hwf dev => (hwf dev).dirTree

/-- A directory is made and removed. -/
theorem run_dirTree_mkdir_rmdir :
    Each dirStep Keeps mkfsWorld
      [.mkdir superuser 0 1 [0x61] 0o755, .rmdir superuser 0 1 [0x61]] ∧
    Always dirStep (fun w => ∀ dev, (w.fs dev).DirTree) mkfsWorld
      [.mkdir superuser 0 1 [0x61] 0o755, .rmdir superuser 0 1 [0x61]] := by
  have hkeeps : Each dirStep Keeps mkfsWorld
      [.mkdir superuser 0 1 [0x61] 0o755, .rmdir superuser 0 1 [0x61]] :=
    ⟨trivial, fun _ _ => ⟨trivial, fun _ _ => trivial⟩⟩
  exact ⟨hkeeps, run_dirTree mkfsWorld mkfsWorld_wf _ hkeeps⟩

/-- A directory moved to another one still has the old one as its `..`. -/
theorem rename_leaves_dotdot :
    ¬ ∀ as : List Call, Always dirStep (fun w => ∀ dev, (w.fs dev).DirTree) mkfsWorld as := by
  intro h
  have hlast := (always_iff_exec mkfsWorld _).mp
    (h [.mkdir superuser 0 1 [0x61] 0o755, .mkdir superuser 0 1 [0x62] 0o755,
      .lookup 0 1 [0x61], .lookup 0 1 [0x62], .mkdir superuser 0 2 [0x63] 0o755,
      .rename superuser 0 2 [0x63] 0 3 [0x63]])
    _ [] _ (List.append_nil _).symm rfl 0 4
  obtain ⟨hparent, -⟩ := hlast (by unfold Filesys.Alloc; decide) (by decide)
  obtain ⟨p, k, -, huniq, hp⟩ := hparent (by decide)
  obtain ⟨h3, -⟩ := huniq 3 2 ⟨⟨4, [0x63]⟩, rfl, rfl, by decide, by decide⟩
  rw [← h3] at hp
  revert hp
  decide

end World

end Unixlite.Fs
