import Unixlite.Fs.LinkRun
import Unixlite.Fs.Open

/-!
# What a caller may open and change

`deny` decides what a caller may do with an inode.  `sysopen` and `hardlink2`
never ask it, and `unlink2` and `rmdir2` ask `denyunlink` instead; so a call
respects the permissions exactly if they happen to be there or something else
stops it (`permission_iff`).
-/

namespace Unixlite.Fs

open Verified.Run List

/-! ## Rights -/

/-- What `deny` reads. -/
def Inode.rights (i : Inode) : BitVec 16 × BitVec 16 × BitVec 16 := (i.mode, i.uid, i.gid)

theorem Inode.deny_congr {i j : Inode} (h : i.rights = j.rights) (c : Cred) (r : BitVec 16) :
    i.deny c r = j.deny c r := by
  obtain ⟨hmode, huid, hgid⟩ : i.mode = j.mode ∧ i.uid = j.uid ∧ i.gid = j.gid := by
    simpa [rights] using h
  rw [deny, deny, hmode, huid, hgid]

/-- Who may do all may write. -/
theorem Inode.deny_write {i : Inode} {c : Cred} (h : i.deny c (IR ||| IW ||| IX) = 0) :
    i.deny c IW = 0 := by
  have hsub : ∀ g : BitVec 16, (IR ||| IW ||| IX) &&& (g &&& 7) = IR ||| IW ||| IX →
      IW &&& (g &&& 7) = IW := by
    intro g hg
    have hw : IW = IW &&& (IR ||| IW ||| IX) := by decide
    rw [hw, BitVec.and_assoc, hg]
  simp only [deny] at h ⊢
  generalize (if c.euid = i.uid then i.mode >>> 6
    else if c.egid = i.gid then i.mode >>> 3 else i.mode) = g at h ⊢
  split at h
  · next hgranted => rw [if_pos (hsub _ hgranted)]
  · cases h

namespace Vol

open Filesys

theorem rights_upd {fs : Filesys} {i j : Nat} {f : Inode → Inode}
    (hf : (f (fs.inode i)).rights = (fs.inode i).rights) :
    ((fs.upd i f).inode j).rights = (fs.inode j).rights := by
  by_cases hj : j = i
  · subst hj
    rw [upd_inode_self, hf]
  · rw [upd_inode_ne hj]

theorem rights_truncate (fs : Filesys) (i j : Nat) :
    ((fs.truncate i).inode j).rights = (fs.inode j).rights := by
  rcases truncate_cases fs i with ⟨-, h⟩ | ⟨z, h⟩
  · rw [h]
  · have hupd : ((fs.upd i fun x => { x with size := 0, slots := [], zones := 0 }).inode
        j).rights = (fs.inode j).rights := rights_upd rfl
    rw [h]
    exact hupd

theorem rights_hold (v : Vol) (i j : Nat) :
    ((v.hold i).fs.inode j).rights = (v.fs.inode j).rights := by
  rw [hold, upd_fs]
  exact rights_upd rfl

theorem rights_lose (v : Vol) (i j : Nat) :
    ((v.lose i).fs.inode j).rights = (v.fs.inode j).rights := by
  have hdec : ((v.fs.upd i fun x => { x with refcnt := x.refcnt - 1 }).inode j).rights =
      (v.fs.inode j).rights := rights_upd rfl
  by_cases hlast : v.Last i
  · rw [lose_free hlast, rights_upd rfl, (freei_inode _ i).1, rights_truncate, hdec]
  · rw [lose_keep hlast, hdec]

end Vol

namespace Kernel

/-- No inode changes its owner or its mode. -/
def SameRights (k k' : Kernel) : Prop := ∀ r, (k'.inode r).rights = (k.inode r).rights

variable {k k' : Kernel} {flags : BitVec 32} {r : Ref}

theorem SameRights.trans {k1 k2 k3 : Kernel} (h : SameRights k1 k2) (h' : SameRights k2 k3) :
    SameRights k1 k3 := fun r => (h' r).trans (h r)

theorem sameRights_upd {dev : Nat} {f : Vol → Vol}
    (h : ∀ v i, ((f v).fs.inode i).rights = (v.fs.inode i).rights) :
    SameRights k (k.upd dev f) := by
  intro r
  simp only [inode, World.inode, upd, World.setVol]
  by_cases hr : r.1 = dev
  · rw [if_pos hr, h]
    simp [World.vol, hr]
  · rw [if_neg hr]

theorem sameRights_hold : SameRights k (k.hold r) :=
  sameRights_upd fun v i => v.rights_hold r.2 i

theorem sameRights_lose : SameRights k (k.lose r) :=
  sameRights_upd fun v i => v.rights_lose r.2 i

theorem sameRights_truncate : SameRights k (k.truncate r) := by
  have hupd : SameRights k (k.upd r.1 fun v => { v with fs := v.fs.truncate r.2 }) :=
    sameRights_upd fun v i => Vol.rights_truncate v.fs r.2 i
  exact hupd

/-! ## What `doopen` does -/

/-- There is a descriptor for the inode with these flags. -/
def Opens (k : Kernel) (flags : BitVec 32) (r : Ref) : Prop :=
  let i := k.inode r
  if i.isreg || i.isdir then ¬ (i.isdir = true ∧ flags &&& FDWRITE ≠ 0)
  else if i.isblk then major i.rdev < MAXBLKDEV ∧ k.blkdevvec (major i.rdev) = true
  else if i.ischr then
    major i.rdev < MAXCHRDEV ∧ ∃ d, k.chrdevvec (major i.rdev) = some d ∧
      if major i.rdev = TTYMAJOR then k.task.tty = true
      else d = .condev ∨ minor i.rdev = 3 ∨ minor i.rdev = 5
  else False

/-- Opening the inode with these flags empties it. -/
def truncates (k : Kernel) (flags : BitVec 32) (r : Ref) : Bool :=
  ((k.inode r).isreg || (k.inode r).isdir) &&
    !((k.inode r).isdir && (flags &&& FDWRITE != 0)) && (flags &&& OTRUNC != 0)

/-- The changes an open makes but for the descriptor. -/
structure Opened (k : Kernel) (flags : BitVec 32) (r : Ref) (k' : Kernel) : Prop where
  rights : SameRights k k'
  fdvec : k'.task.fdvec = k.task.fdvec
  truncated : k'.truncated = if k.truncates flags r then r :: k.truncated else k.truncated

theorem opened_of_truncates_false (h : k.truncates flags r = false) (hrights : SameRights k k')
    (hfdvec : k'.task.fdvec = k.task.fdvec) (htrunc : k'.truncated = k.truncated) :
    Opened k flags r k' :=
  ⟨hrights, hfdvec, by rw [h]; exact htrunc⟩

theorem chrdevOpen_cases (h : k.truncates flags r = false) (d : Chrdev) :
    (¬ (d = .condev ∨ minor (k.inode r).rdev = 3 ∨ minor (k.inode r).rdev = 5) ∧
      ∃ e, k.chrdevOpen d flags r = .error e) ∨
    ((d = .condev ∨ minor (k.inode r).rdev = 3 ∨ minor (k.inode r).rdev = 5) ∧
      ∃ k', k.chrdevOpen d flags r = .ok (⟨.chrfd, flags, r⟩, k') ∧ Opened k flags r k') := by
  cases d with
  | condev =>
      exact .inr ⟨.inl rfl, _, rfl, opened_of_truncates_false h (fun _ => rfl) rfl rfl⟩
  | memdev =>
      by_cases hm : minor (k.inode r).rdev = 3 ∨ minor (k.inode r).rdev = 5
      · exact .inr ⟨.inr hm, k, if_pos hm, opened_of_truncates_false h (fun _ => rfl) rfl rfl⟩
      · refine .inl ⟨?_, ENODEV, if_neg hm⟩
        rintro (hd | hm')
        · cases hd
        · exact hm hm'

theorem openfdes_cases (k : Kernel) (flags : BitVec 32) (r : Ref) :
    (¬ k.Opens flags r ∧ k.truncates flags r = false ∧
      ∃ e, k.openfdes flags r = .error e) ∨
    (k.Opens flags r ∧ ∃ ty k', k.openfdes flags r = .ok (⟨ty, flags, r⟩, k') ∧
      Opened k flags r k') := by
  unfold openfdes Opens
  by_cases hreg : ((k.inode r).isreg || (k.inode r).isdir) = true
  · rw [if_pos hreg, if_pos hreg]
    by_cases hdir : ((k.inode r).isdir && (flags &&& FDWRITE != 0)) = true
    · left
      have hdir' : (k.inode r).isdir = true ∧ flags &&& FDWRITE ≠ 0 := by simpa using hdir
      refine ⟨not_not.mpr hdir', ?_, EISDIR, if_pos hdir⟩
      rw [truncates, hdir]
      simp
    · right
      have hdir' : ¬ ((k.inode r).isdir = true ∧ flags &&& FDWRITE ≠ 0) := by simpa using hdir
      refine ⟨hdir', .regfd, _, if_neg hdir, ?_⟩
      have hneg : ((k.inode r).isdir && (flags &&& FDWRITE != 0)) = false := by
        simpa using hdir
      have htrunc : k.truncates flags r = (flags &&& OTRUNC != 0) := by
        rw [truncates, hreg, hneg]
        simp
      by_cases hflag : flags &&& OTRUNC ≠ 0
      · rw [if_pos hflag]
        refine ⟨sameRights_truncate.trans sameRights_hold, rfl, ?_⟩
        rw [htrunc, bne_iff_ne.mpr hflag]
        rfl
      · rw [if_neg hflag]
        refine ⟨sameRights_hold, rfl, ?_⟩
        have hzero : (flags &&& OTRUNC != 0) = false := by simpa using hflag
        rw [htrunc, hzero]
        rfl
  · rw [if_neg hreg, if_neg hreg]
    have htrunc : k.truncates flags r = false := by
      rw [truncates, Bool.eq_false_iff.mpr hreg]
      rfl
    by_cases hblk : (k.inode r).isblk = true
    · rw [if_pos hblk, if_pos hblk]
      by_cases hdev : major (k.inode r).rdev < MAXBLKDEV ∧
          k.blkdevvec (major (k.inode r).rdev) = true
      · exact .inr ⟨hdev, .blkfd, _, if_pos hdev,
          opened_of_truncates_false htrunc sameRights_hold rfl rfl⟩
      · exact .inl ⟨hdev, htrunc, EINVAL, if_neg hdev⟩
    · rw [if_neg hblk, if_neg hblk]
      by_cases hchr : (k.inode r).ischr = true
      · rw [if_pos hchr, if_pos hchr]
        simp only [openchrfd]
        by_cases hmajor : MAXCHRDEV ≤ major (k.inode r).rdev
        · rw [if_pos hmajor]
          exact .inl ⟨fun h => Nat.not_lt.mpr hmajor h.1, htrunc, EINVAL, rfl⟩
        · rw [if_neg hmajor]
          cases hd : k.chrdevvec (major (k.inode r).rdev) with
          | none =>
              refine .inl ⟨?_, htrunc, EINVAL, rfl⟩
              rintro ⟨-, d, hnone, -⟩
              cases hnone
          | some d =>
              by_cases htty : major (k.inode r).rdev = TTYMAJOR
              · simp only [if_pos htty]
                by_cases hterm : k.task.tty = true
                · rw [if_pos hterm]
                  exact .inr ⟨⟨Nat.not_le.mp hmajor, d, rfl, hterm⟩, .chrfd, _, rfl,
                    opened_of_truncates_false htrunc (fun _ => rfl) rfl rfl⟩
                · rw [if_neg hterm]
                  refine .inl ⟨?_, htrunc, EPERM, rfl⟩
                  rintro ⟨-, -, -, hterm'⟩
                  exact hterm hterm'
              · simp only [if_neg htty]
                rcases chrdevOpen_cases htrunc d with ⟨hno, e, he⟩ | ⟨hyes, k', hk, ho⟩
                · refine .inl ⟨?_, htrunc, e, he⟩
                  rintro ⟨-, d', hd', hopen⟩
                  cases hd'
                  exact hno hopen
                · exact .inr ⟨⟨Nat.not_le.mp hmajor, d, rfl, hyes⟩, .chrfd, k', hk, ho⟩
      · rw [if_neg hchr, if_neg hchr]
        exact .inl ⟨id, htrunc, EINVAL, rfl⟩

/-- The append and nonblock bits are none of those that matter here. -/
theorem fdflags_and (flags m : BitVec 32) (ha : FDAPPEND &&& m = 0) (hn : FDNONBLOCK &&& m = 0) :
    fdflags flags &&& m = flags &&& m := by
  have hor : ∀ f b : BitVec 32, b &&& m = 0 → (f ||| b) &&& m = f &&& m := by
    intro f b hb
    rw [BitVec.and_or_distrib_right, hb]
    simp
  unfold fdflags
  dsimp only
  split
  · split
    · rw [hor _ _ hn, hor _ _ ha]
    · rw [hor _ _ ha]
  · split
    · rw [hor _ _ hn]
    · rfl

theorem opens_fdflags : k.Opens (fdflags flags) r ↔ k.Opens flags r := by
  unfold Opens
  rw [fdflags_and flags FDWRITE (by decide) (by decide)]

theorem truncates_fdflags : k.truncates (fdflags flags) r = k.truncates flags r := by
  unfold truncates
  rw [fdflags_and flags FDWRITE (by decide) (by decide),
    fdflags_and flags OTRUNC (by decide) (by decide)]

/-- `doopen` puts a descriptor in a free slot of the table or leaves the table
alone. -/
theorem doopen_cases (k : Kernel) (flags : BitVec 32) (r : Ref) :
    SameRights k (k.doopen flags r).2 ∧
    ((k.doopen flags r).2.truncated =
      if k.truncates flags r then r :: k.truncated else k.truncated) ∧
    ((¬ (k.Opens flags r ∧ getslot k.task ≠ none) ∧
        (k.doopen flags r).2.task.fdvec = k.task.fdvec) ∨
      (k.Opens flags r ∧ getslot k.task ≠ none) ∧
        ∃ fd ty, k.task.fdvec fd = none ∧ ∀ i, (k.doopen flags r).2.task.fdvec i =
          if i = fd then some ⟨ty, fdflags flags, r⟩ else k.task.fdvec i) := by
  rcases openfdes_cases k (fdflags flags) r with ⟨hno, htrunc, e, he⟩ | ⟨hyes, ty, k', hk, ho⟩
  · rw [opens_fdflags] at hno
    rw [truncates_fdflags] at htrunc
    have hdo : k.doopen flags r = (e, k) := by rw [doopen, he]
    rw [hdo, htrunc]
    exact ⟨fun _ => rfl, rfl, .inl ⟨fun h => hno h.1, rfl⟩⟩
  · rw [opens_fdflags] at hyes
    have hslot : getslot k'.task = getslot k.task := by rw [getslot, getslot, ho.fdvec]
    have htrunc := ho.truncated
    rw [truncates_fdflags] at htrunc
    cases hs : getslot k.task with
    | none =>
        have hdo : k.doopen flags r = (EMFILE, if ty = .chrfd then k' else k'.lose r) := by
          rw [doopen, hk]
          dsimp only
          rw [hslot, hs]
        rw [hdo, ← htrunc, ← ho.fdvec]
        split
        · exact ⟨ho.rights, rfl, .inl ⟨fun h => h.2 rfl, rfl⟩⟩
        · exact ⟨ho.rights.trans sameRights_lose, rfl, .inl ⟨fun h => h.2 rfl, rfl⟩⟩
    | some fd =>
        have hdo : k.doopen flags r = ((fd : Int), { k' with task := { k'.task with
            fdvec := fun i => if i = fd then some ⟨ty, fdflags flags, r⟩
              else k'.task.fdvec i } }) := by
          rw [doopen, hk]
          dsimp only
          rw [hslot, hs]
        have hfree : k.task.fdvec fd = none := by
          have hnone := List.find?_some hs
          simpa using hnone
        rw [hdo, ← ho.fdvec]
        exact ⟨ho.rights, htrunc, .inr ⟨⟨hyes, Option.some_ne_none fd⟩, fd, ty,
          ho.fdvec ▸ hfree, fun _ => rfl⟩⟩

/-! ## Finding the inode -/

/-- Only file systems change. -/
def Quiet (k k' : Kernel) : Prop := k'.task = k.task ∧ k'.truncated = k.truncated

theorem Quiet.refl (k : Kernel) : Quiet k k := ⟨rfl, rfl⟩

theorem Quiet.trans {k1 k2 k3 : Kernel} (h : Quiet k1 k2) (h' : Quiet k2 k3) : Quiet k1 k3 :=
  ⟨h'.1.trans h.1, h'.2.trans h.2⟩

theorem quiet_upd {dev : Nat} {f : Vol → Vol} : Quiet k (k.upd dev f) := ⟨rfl, rfl⟩

theorem lookup2_quiet {s : Ref} {name : Name} (h : k.lookup2 r name = .ok (s, k')) :
    Quiet k k' := by
  unfold lookup2 at h
  cases hv : (k.world.vol r.1).lookup2 r.2 name with
  | error e =>
      rw [hv] at h
      cases h
  | ok p =>
      rw [hv] at h
      cases h
      exact quiet_upd

theorem lookup_quiet {s : Ref} {name : Name} (h : k.lookup r name = some (.ok (s, k'))) :
    Quiet k k' := by
  unfold lookup at h
  split at h
  · cases h
  split at h
  · cases h
  split at h
  · cases h
  split at h
  · cases h
    exact quiet_upd
  split at h
  · obtain ⟨p, -, hp⟩ := Option.map_eq_some_iff.mp h
    exact lookup2_quiet hp
  split at h
  · cases h
  next sub k1 hk1 =>
  have hquiet := lookup2_quiet hk1
  split at h
  · obtain ⟨p, -, hp⟩ := Option.map_eq_some_iff.mp h
    cases hp
    exact hquiet.trans (quiet_upd.trans quiet_upd)
  · cases h
    exact hquiet

theorem walk_quiet {split : Bool} {toks : List Name} {cwd : Ref} {res : Except Int (Ref × Name)}
    (h : walk split toks cwd k = some (res, k')) : Quiet k k' := by
  induction toks generalizing cwd k with
  | nil =>
      cases h
      exact Quiet.refl _
  | cons tok toks ih =>
      rw [walk] at h
      split at h
      · cases h
        exact quiet_upd
      split at h
      · split at h
        · cases h
        · cases h
          exact Quiet.refl _
      split at h
      · cases h
      · cases h
        exact quiet_upd
      next sub k1 hk1 =>
      exact (lookup_quiet hk1).trans (quiet_upd.trans (ih h))

variable {pathname : Name} {mode : BitVec 16}

theorem namei_quiet {split : Bool} {res : Except Int (Ref × Name)}
    (h : k.namei split pathname = some (res, k')) : Quiet k k' := by
  unfold namei at h
  split at h
  · cases h
  dsimp only at h
  split at h
  · cases h
    exact Quiet.refl _
  exact quiet_upd.trans (walk_quiet h)

theorem openleaf_quiet
    {res : Except Int (Option Ref × Ref)} (h : k.openleaf pathname flags mode = some (res, k')) :
    Quiet k k' := by
  unfold openleaf at h
  split at h
  · obtain ⟨⟨res', k1⟩, hn, h⟩ := Option.map_eq_some_iff.mp h
    cases h
    exact namei_quiet hn
  split at h
  · cases h
  · next e k1 hn =>
      cases h
      exact namei_quiet hn
  next dir basename k1 hn =>
  have hquiet := namei_quiet hn
  split at h
  · cases h
  next e leaf k2 hmk =>
  have hquiet2 : Quiet k1 k2 := by
    obtain ⟨⟨e', ino, v⟩, -, hv⟩ := Option.map_eq_some_iff.mp hmk
    cases hv
    exact quiet_upd
  split at h
  · cases h
    exact hquiet.trans hquiet2
  split at h
  · cases h
    exact hquiet.trans (hquiet2.trans quiet_upd)
  split at h
  · cases h
    exact hquiet.trans (hquiet2.trans quiet_upd)
  split at h
  · cases h
  · cases h
    exact hquiet.trans (hquiet2.trans quiet_upd)
  next leaf' k3 hlook =>
  cases h
  exact hquiet.trans (hquiet2.trans (lookup_quiet hlook))

/-! ## `sysopen` -/

/-- A descriptor that `sysopen` makes has no access its inode denies, and what
`sysopen` truncates may be written. -/
def OpenPermitted (k : Kernel) (pathname : Name) (flags : BitVec 32) (mode : BitVec 16) : Prop :=
  ∀ e k', k.sysopen pathname flags mode = some (e, k') →
    (∀ fd fdes, k.task.fdvec fd = none → k'.task.fdvec fd = some fdes →
      (fdes.fdflags &&& FDREAD ≠ 0 → (k'.inode fdes.inode).deny k.task.cred IR = 0) ∧
      (fdes.fdflags &&& FDWRITE ≠ 0 → (k'.inode fdes.inode).deny k.task.cred IW = 0)) ∧
    ∀ r, k'.truncated = r :: k.truncated → (k'.inode r).deny k.task.cred IW = 0

/-- The inode that the path leads to, found or made, grants what the flags ask
for, unless there will be no descriptor, and can be written if it is emptied. -/
def OpenGranted (k : Kernel) (pathname : Name) (flags : BitVec 32) (mode : BitVec 16) : Prop :=
  ∀ dir leaf k', k.openleaf pathname (flags + 1) mode = some (.ok (dir, leaf), k') →
    (k'.Opens (flags + 1) leaf ∧ getslot k.task ≠ none →
      ((flags + 1) &&& FDREAD ≠ 0 → (k'.inode leaf).deny k.task.cred IR = 0) ∧
      ((flags + 1) &&& FDWRITE ≠ 0 → (k'.inode leaf).deny k.task.cred IW = 0)) ∧
    (k'.truncates (flags + 1) leaf = true → (k'.inode leaf).deny k.task.cred IW = 0)

/-- The handles that `sysopen` gives back at its end. -/
def release (k : Kernel) (dir : Option Ref) (leaf : Ref) : Kernel :=
  (match dir with
    | none => k
    | some dir => k.lose dir).lose leaf

theorem release_frame (k : Kernel) (dir : Option Ref) (leaf : Ref) :
    SameRights k (k.release dir leaf) ∧ Quiet k (k.release dir leaf) := by
  cases dir with
  | none => exact ⟨sameRights_lose, quiet_upd⟩
  | some dir => exact ⟨sameRights_lose.trans sameRights_lose, quiet_upd.trans quiet_upd⟩

theorem sysopen_eq {dir : Option Ref} {leaf : Ref}
    (h : k.openleaf pathname (flags + 1) mode = some (.ok (dir, leaf), k')) :
    k.sysopen pathname flags mode =
      some ((k'.doopen (flags + 1) leaf).1, (k'.doopen (flags + 1) leaf).2.release dir leaf) := by
  simp only [sysopen, h]
  cases dir with
  | none => rfl
  | some dir => rfl

theorem sysopen_error {e : Int} (h : k.openleaf pathname (flags + 1) mode = some (.error e, k')) :
    k.sysopen pathname flags mode = some (e, k') := by
  simp only [sysopen, h]
  rfl

theorem openPermitted_iff (k : Kernel) (pathname : Name) (flags : BitVec 32) (mode : BitVec 16) :
    k.OpenPermitted pathname flags mode ↔ k.OpenGranted pathname flags mode := by
  have hread : fdflags (flags + 1) &&& FDREAD = (flags + 1) &&& FDREAD :=
    fdflags_and _ _ (by decide) (by decide)
  have hwrite : fdflags (flags + 1) &&& FDWRITE = (flags + 1) &&& FDWRITE :=
    fdflags_and _ _ (by decide) (by decide)
  -- the state after the call, when there is an inode to open
  have hstate : ∀ dir leaf k1, k.openleaf pathname (flags + 1) mode = some (.ok (dir, leaf), k1) →
      ∃ e k', k.sysopen pathname flags mode = some (e, k') ∧ SameRights k1 k' ∧
        (k'.truncated = if k1.truncates (flags + 1) leaf then leaf :: k.truncated
          else k.truncated) ∧
        ((¬ (k1.Opens (flags + 1) leaf ∧ getslot k.task ≠ none) ∧
            k'.task.fdvec = k.task.fdvec) ∨
          (k1.Opens (flags + 1) leaf ∧ getslot k.task ≠ none) ∧
            ∃ fd ty, k.task.fdvec fd = none ∧ ∀ i, k'.task.fdvec i =
              if i = fd then some ⟨ty, fdflags (flags + 1), leaf⟩ else k.task.fdvec i) := by
    intro dir leaf k1 hleaf
    have hquiet := openleaf_quiet hleaf
    obtain ⟨hrights, htrunc, hcases⟩ := doopen_cases k1 (flags + 1) leaf
    obtain ⟨hrel, hrelq⟩ := release_frame (k1.doopen (flags + 1) leaf).2 dir leaf
    rw [hquiet.1] at hcases
    rw [hquiet.2] at htrunc
    refine ⟨_, _, sysopen_eq hleaf, hrights.trans hrel, hrelq.2.trans htrunc, ?_⟩
    rw [hrelq.1]
    exact hcases
  constructor
  · intro hperm dir leaf k1 hleaf
    obtain ⟨e, k', hcall, hrights, htrunc, hcases⟩ := hstate dir leaf k1 hleaf
    obtain ⟨hfd, htr⟩ := hperm e k' hcall
    constructor
    · rintro hgoes
      rcases hcases with ⟨hno, -⟩ | ⟨-, fd, ty, hfree, hnew⟩
      · exact absurd hgoes hno
      · have hfdes := hfd fd _ hfree (by rw [hnew, if_pos rfl])
        rw [hread, hwrite, Inode.deny_congr (hrights leaf), Inode.deny_congr (hrights leaf)] at hfdes
        exact hfdes
    · intro ht
      rw [ht, if_pos rfl] at htrunc
      have hdeny := htr leaf htrunc
      rw [Inode.deny_congr (hrights leaf)] at hdeny
      exact hdeny
  · intro hgrant e k' hcall
    cases hleaf : k.openleaf pathname (flags + 1) mode with
    | none =>
        simp only [sysopen, hleaf] at hcall
        cases hcall
    | some p =>
        obtain ⟨res, k1⟩ := p
        cases res with
        | error err =>
            rw [sysopen_error hleaf] at hcall
            cases hcall
            have hquiet := openleaf_quiet hleaf
            constructor
            · intro fd fdes hfree hnew
              rw [hquiet.1, hfree] at hnew
              cases hnew
            · intro r hr
              rw [hquiet.2] at hr
              exact absurd hr.symm (cons_ne_self r _)
        | ok q =>
            obtain ⟨dir, leaf⟩ := q
            obtain ⟨hopen, htr⟩ := hgrant dir leaf k1 hleaf
            obtain ⟨e', k2, hcall', hrights, htrunc, hcases⟩ := hstate dir leaf k1 hleaf
            rw [hcall] at hcall'
            cases hcall'
            constructor
            · intro fd fdes hfree hnew
              rcases hcases with ⟨-, hsame⟩ | ⟨hgoes, fd', ty, -, hupd⟩
              · rw [hsame, hfree] at hnew
                cases hnew
              · rw [hupd] at hnew
                split at hnew
                · cases hnew
                  rw [hread, hwrite, Inode.deny_congr (hrights leaf),
                    Inode.deny_congr (hrights leaf)]
                  exact hopen hgoes
                · rw [hfree] at hnew
                  cases hnew
            · intro r hr
              rw [htrunc] at hr
              split at hr
              · next ht =>
                  obtain rfl : leaf = r := (List.cons.inj hr).1
                  rw [Inode.deny_congr (hrights leaf)]
                  exact htr ht
              · exact absurd hr.symm (cons_ne_self r _)

end Kernel

/-! ## Entries of a directory -/

/-- The live entries. -/
def Filesys.entries (fs : Filesys) (dir : Nat) : List De :=
  (fs.slots dir).filter fun de => de.ino != MINIXFREEINO

namespace Vol

open Filesys

variable {v v' : Vol} {c : Cred} {dir ino k : Nat} {name : Name}

variable {l : List De} {new old : De} {e : Int} {mode : BitVec 16}

theorem length_entries_fill (hold : l[k]? = some old)
    (hfree : old.ino = MINIXFREEINO) (hlive : new.ino ≠ MINIXFREEINO) :
    ((l.set k new).filter fun de => de.ino != MINIXFREEINO).length =
      (l.filter fun de => de.ino != MINIXFREEINO).length + 1 := by
  obtain ⟨hlt, hget⟩ := List.getElem?_eq_some_iff.mp hold
  rw [← countP_eq_length_filter, ← countP_eq_length_filter, countP_set hlt, hget]
  simp [hfree, hlive]

theorem length_entries_clear (hold : l[k]? = some old)
    (hlive : old.ino ≠ MINIXFREEINO) (hfree : new.ino = MINIXFREEINO) :
    ((l.set k new).filter fun de => de.ino != MINIXFREEINO).length + 1 =
      (l.filter fun de => de.ino != MINIXFREEINO).length := by
  obtain ⟨hlt, hget⟩ := List.getElem?_eq_some_iff.mp hold
  have hpos : 0 < l.countP fun de => de.ino != MINIXFREEINO := by
    rw [countP_pos_iff]
    exact ⟨old, mem_of_getElem? hold, bne_iff_ne.mpr hlive⟩
  rw [← countP_eq_length_filter, ← countP_eq_length_filter, countP_set hlt, hget]
  simp [hfree, hlive]
  omega

theorem slots_lose {i j : Nat} (h : j ≠ i ∨ 1 < (v.fs.inode i).refcnt) :
    (v.lose i).fs.slots j = v.fs.slots j := by
  have hdec : (v.fs.upd i fun x => { x with refcnt := x.refcnt - 1 }).slots j =
      v.fs.slots j := by
    rw [slots, slots, upd_inode]
    split
    · rfl
    · rfl
  by_cases hlast : v.Last i
  · have hji : j ≠ i := by
      rcases h with h | h
      · exact h
      · exact absurd hlast.1 (Nat.not_le.mpr h)
    rw [lose_free hlast, slots, upd_inode_ne hji, (freei_inode _ i).1, ← hdec]
    rcases truncate_cases (v.fs.upd i fun x => { x with refcnt := x.refcnt - 1 }) i with
      ⟨-, ht⟩ | ⟨z, ht⟩
    · rw [ht]
      rfl
    · have hupd : (((v.fs.upd i fun x => { x with refcnt := x.refcnt - 1 }).upd i fun x =>
          { x with size := 0, slots := [], zones := 0 }).inode j) =
          (v.fs.upd i fun x => { x with refcnt := x.refcnt - 1 }).inode j := upd_inode_ne hji
      rw [ht]
      exact congrArg Inode.slots hupd
  · rw [lose_keep hlast, hdec]

theorem slots_readi {j : Nat} (h : v.readi ino = .ok v') : v'.fs.slots j = v.fs.slots j :=
  slots_of_tree (tree_readi h)

/-- A directory that is held survives the lookup of an entry. -/
theorem slots_lookup (hhold : (v.fs.inode dir).refcnt ≠ 0) (h : v.readi ino = .ok v') :
    (v'.lose ino).fs.slots dir = v.fs.slots dir := by
  rw [slots_lose, slots_readi h]
  by_cases hd : dir = ino
  · right
    rw [← hd] at h ⊢
    rw [refcnt_readi h, if_pos rfl]
    omega
  · exact .inl hd

theorem rights_readi (h : v.readi ino = .ok v') (j : Nat) :
    (v'.fs.inode j).rights = (v.fs.inode j).rights := by
  rw [readi_ok h]
  exact rights_upd rfl

theorem denyunlink_congr {i j d d' : Inode} (hd : d.rights = d'.rights) (hi : i.rights = j.rights) :
    d.denyunlink c i = d'.denyunlink c j := by
  obtain ⟨hmode, huid, -⟩ : d.mode = d'.mode ∧ d.uid = d'.uid ∧ d.gid = d'.gid := by
    simpa [Inode.rights] using hd
  obtain ⟨-, huid', -⟩ : i.mode = j.mode ∧ i.uid = j.uid ∧ i.gid = j.gid := by
    simpa [Inode.rights] using hi
  rw [Inode.denyunlink, Inode.denyunlink, hmode, huid, huid', Inode.deny_congr hd]

theorem entries_fill {fs fs' : Filesys}
    (hsame : (l.filter fun de => de.ino != MINIXFREEINO) = fs.entries dir)
    (hold : l[k]? = some old) (hfree : old.ino = MINIXFREEINO) (hlive : new.ino ≠ MINIXFREEINO)
    (h : fs'.slots dir = l.set k new) : fs'.entries dir ≠ fs.entries dir := by
  intro heq
  have hlen := length_entries_fill hold hfree hlive
  rw [hsame, ← h, ← entries, heq] at hlen
  omega

theorem entries_clear {fs fs' : Filesys}
    (hold : (fs.slots dir)[k]? = some old) (hlive : old.ino ≠ MINIXFREEINO)
    (hfree : new.ino = MINIXFREEINO) (h : fs'.slots dir = (fs.slots dir).set k new) :
    fs'.entries dir ≠ fs.entries dir := by
  intro heq
  have hlen := length_entries_clear hold hlive hfree
  rw [← h, ← entries, ← entries, heq] at hlen
  omega

/-- `hardlink2` adds an entry. -/
def HardlinkGoes (v : Vol) (dir : Nat) (basename : Name) (oldi : Nat) : Prop :=
  (v.fs.inode oldi).isdir = false ∧ (v.fs.inode oldi).nlink < LINKMAX ∧
    v.addcheck dir basename = 0 ∧ (v.freede dir).isSome = true

theorem hardlink2_stays {oldi : Nat} (hno : ¬ v.HardlinkGoes dir name oldi)
    (h : v.hardlink2 dir name oldi = some (e, v')) : v' = v := by
  unfold hardlink2 at h
  split at h
  · cases h
    rfl
  next hfile =>
  split at h
  · cases h
    rfl
  next hlink =>
  split at h
  · cases h
    rfl
  next hcheck =>
  simp only [addde, Option.map_map, Option.map_eq_some_iff] at h
  obtain ⟨p, hp, -⟩ := h
  refine absurd ⟨?_, Nat.not_le.mp hlink, not_not.mp hcheck, ?_⟩ hno
  · simpa using hfile
  · rw [hp]
    rfl

theorem hardlink2_goes {oldi : Nat} (hgo : v.HardlinkGoes dir name oldi)
    (hold : oldi ≠ MINIXFREEINO) :
    ∃ v', v.hardlink2 dir name oldi = some (0, v') ∧ v'.fs.entries dir ≠ v.fs.entries dir := by
  obtain ⟨hfile, hlink, hcheck, hroom⟩ := hgo
  obtain ⟨⟨k, w⟩, hw⟩ := Option.isSome_iff_exists.mp hroom
  refine ⟨Vol.upd { w with fs := w.fs.setde dir k ⟨oldi, name⟩ } oldi
    fun i => { i with nlink := i.nlink + 1 }, ?_, ?_⟩
  · rw [hardlink2, if_neg (by simp [hfile]), if_neg (Nat.not_le.mpr hlink),
      if_neg (not_not.mpr hcheck), addde, hw]
    rfl
  · obtain ⟨l, z, hl, ⟨old, hk, hfree⟩, -, -, -, hinode⟩ := freede_cases hw
    have hslots : (Vol.upd { w with fs := w.fs.setde dir k ⟨oldi, name⟩ } oldi
        fun i => { i with nlink := i.nlink + 1 }).fs.slots dir = l.set k ⟨oldi, name⟩ := by
      have hset : (w.fs.setde dir k ⟨oldi, name⟩).slots dir = l.set k ⟨oldi, name⟩ := by
        rw [setde, slots, upd_inode_self, hinode, upd_inode_self]
      rw [upd_fs, slots, upd_inode, ← hset]
      split
      · rfl
      · rfl
    have hsame : (l.filter fun de => de.ino != MINIXFREEINO) = v.fs.entries dir := by
      rcases hl with rfl | rfl
      · rfl
      · rw [filter_append]
        simp [De.free, entries]
    exact entries_fill hsame hk hfree hold hslots

/-- `unlink2` takes an entry away. -/
def UnlinkGoes (v : Vol) (c : Cred) (dir : Nat) (name : Name) : Prop :=
  (v.fs.inode dir).isdir = true ∧ ∃ k v', v.fs.findde dir name = some k ∧
    v.readi (v.fs.de dir k).ino = .ok v' ∧
    (v.fs.inode dir).denyunlink c (v.fs.inode (v.fs.de dir k).ino) = 0 ∧
    (v.fs.inode (v.fs.de dir k).ino).isdir = false

theorem unlink2_stays (hhold : (v.fs.inode dir).refcnt ≠ 0) (hno : ¬ v.UnlinkGoes c dir name) :
    (v.unlink2 c dir name).2.fs.entries dir = v.fs.entries dir := by
  unfold unlink2
  split
  · rfl
  next hisdir =>
  split
  · rfl
  next k hk =>
  dsimp only
  split
  · rfl
  next w hw =>
  split
  · rw [entries, slots_lookup hhold hw, entries]
  next hdeny =>
  split
  · rw [entries, slots_lookup hhold hw, entries]
  next hchild =>
  refine absurd ⟨by simpa using hisdir, k, w, hk, hw, ?_, ?_⟩ hno
  · rw [← denyunlink_congr (rights_readi hw dir) (rights_readi hw _)]
    exact not_not.mp hdeny
  · rw [← isdir_of_tree (tree_readi hw)]
    simpa using hchild

/-- The slot that `unlink2` takes the entry out of. -/
theorem unlink2_slots {w : Vol} (hisdir : (v.fs.inode dir).isdir = true)
    (hk : v.fs.findde dir name = some k) (hw : v.readi (v.fs.de dir k).ino = .ok w)
    (hdeny : (v.fs.inode dir).denyunlink c (v.fs.inode (v.fs.de dir k).ino) = 0)
    (hfile : (v.fs.inode (v.fs.de dir k).ino).isdir = false) :
    (v.unlink2 c dir name).2.fs.slots dir =
      (v.fs.slots dir).set k { v.fs.de dir k with ino := MINIXFREEINO } := by
  have htree := tree_readi hw
  have hne : dir ≠ (v.fs.de dir k).ino := by
    intro hd
    rw [← hd, hisdir] at hfile
    cases hfile
  have hdeny' : (w.fs.inode dir).denyunlink c (w.fs.inode (v.fs.de dir k).ino) = 0 := by
    rw [denyunlink_congr (rights_readi hw dir) (rights_readi hw _), hdeny]
  have hfile' : (w.fs.inode (v.fs.de dir k).ino).isdir = false := by
    rw [isdir_of_tree htree, hfile]
  rw [unlink2, if_neg (by simp [hisdir]), hk]
  dsimp only
  rw [hw]
  dsimp only
  rw [if_neg (not_not.mpr hdeny'), if_neg (by simp [hfile'])]
  show (Filesys.setde _ dir k _).slots dir = _
  rw [setde, slots, upd_inode_self]
  have hdec : (w.upd (v.fs.de dir k).ino Inode.decnlink).fs.slots dir = v.fs.slots dir := by
    rw [upd_fs, slots, upd_inode_ne hne]
    exact slots_readi hw
  have hlost := slots_lose (v := w.upd (v.fs.de dir k).ino Inode.decnlink) (.inl hne)
  rw [hdec] at hlost
  exact congrArg (fun l => List.set l k _) hlost

theorem unlink2_goes (hgo : v.UnlinkGoes c dir name) :
    (v.unlink2 c dir name).2.fs.entries dir ≠ v.fs.entries dir := by
  obtain ⟨hisdir, k, w, hk, hw, hdeny, hfile⟩ := hgo
  obtain ⟨hold, hlive, -⟩ := findde_eq_some hk
  exact entries_clear hold hlive rfl (unlink2_slots hisdir hk hw hdeny hfile)

/-- `rmdir2` takes an entry away. -/
def RmdirGoes (v : Vol) (c : Cred) (dir : Nat) (name : Name) : Prop :=
  (v.fs.inode dir).mounted = false ∧ (v.fs.inode dir).isdir = true ∧
    ∃ k v', v.fs.findde dir name = some k ∧ v.readi (v.fs.de dir k).ino = .ok v' ∧
      (v.fs.inode dir).denyunlink c (v.fs.inode (v.fs.de dir k).ino) = 0 ∧
      (v.fs.inode (v.fs.de dir k).ino).isdir = true ∧
      (v.fs.inode (v.fs.de dir k).ino).refcnt = 0 ∧ v.fs.emptydir (v.fs.de dir k).ino = true

theorem rmdir2_stays (hhold : (v.fs.inode dir).refcnt ≠ 0)
    (hno : ¬ v.RmdirGoes c dir name) (h : v.rmdir2 c dir name = some (e, v')) :
    v'.fs.entries dir = v.fs.entries dir := by
  unfold rmdir2 at h
  split at h
  · cases h
  next hmounted =>
  split at h
  · cases h
    rfl
  next hisdir =>
  split at h
  · cases h
    rfl
  next k hk =>
  dsimp only at h
  split at h
  · cases h
    rfl
  next w hw =>
  have hlost : (w.lose (v.fs.de dir k).ino).fs.entries dir = v.fs.entries dir := by
    rw [entries, slots_lookup hhold hw, entries]
  split at h
  · cases h
    exact hlost
  next hdeny =>
  split at h
  · cases h
    exact hlost
  next hchild =>
  split at h
  · cases h
    exact hlost
  next hbusy =>
  split at h
  · cases h
    exact hlost
  next hempty =>
  refine absurd ⟨by simpa using hmounted, by simpa using hisdir, k, w, hk, hw, ?_, ?_, ?_, ?_⟩ hno
  · rw [← denyunlink_congr (rights_readi hw dir) (rights_readi hw _)]
    exact not_not.mp hdeny
  · rw [← isdir_of_tree (tree_readi hw)]
    simpa using hchild
  · rw [refcnt_readi hw, if_pos rfl] at hbusy
    omega
  · rw [← emptydir_of_tree (tree_readi hw)]
    simpa using hempty

/-- The slot that `rmdir2` takes the entry out of. -/
theorem rmdir2_slots {w : Vol} (hhold : (v.fs.inode dir).refcnt ≠ 0)
    (hmounted : (v.fs.inode dir).mounted = false) (hisdir : (v.fs.inode dir).isdir = true)
    (hk : v.fs.findde dir name = some k) (hw : v.readi (v.fs.de dir k).ino = .ok w)
    (hdeny : (v.fs.inode dir).denyunlink c (v.fs.inode (v.fs.de dir k).ino) = 0)
    (hchild : (v.fs.inode (v.fs.de dir k).ino).isdir = true)
    (href : (v.fs.inode (v.fs.de dir k).ino).refcnt = 0)
    (hempty : v.fs.emptydir (v.fs.de dir k).ino = true) :
    ∃ v', v.rmdir2 c dir name = some (0, v') ∧ v'.fs.slots dir =
      (v.fs.slots dir).set k { v.fs.de dir k with ino := MINIXFREEINO } := by
  have htree := tree_readi hw
  -- a directory that is held is not its own child
  have hne : dir ≠ (v.fs.de dir k).ino := by
    intro hd
    rw [← hd] at href
    exact hhold href
  have hdeny' : (w.fs.inode dir).denyunlink c (w.fs.inode (v.fs.de dir k).ino) = 0 := by
    rw [denyunlink_congr (rights_readi hw dir) (rights_readi hw _), hdeny]
  have hchild' : (w.fs.inode (v.fs.de dir k).ino).isdir = true := by
    rw [isdir_of_tree htree, hchild]
  have href' : (w.fs.inode (v.fs.de dir k).ino).refcnt = 1 := by
    rw [refcnt_readi hw, if_pos rfl, href]
  have hempty' : w.fs.emptydir (v.fs.de dir k).ino = true := by
    rw [emptydir_of_tree htree, hempty]
  have hdec : (w.upd dir Inode.decnlink).fs.slots dir = v.fs.slots dir := by
    rw [upd_fs, slots, upd_inode_self, ← slots_readi hw]
    rfl
  have hupd : ((w.upd dir Inode.decnlink).upd (v.fs.de dir k).ino
      fun i => { i with nlink := 0 }).fs.slots dir = v.fs.slots dir := by
    rw [upd_fs, slots, upd_inode_ne hne]
    exact hdec
  let u := (w.upd dir Inode.decnlink).upd (v.fs.de dir k).ino fun i => { i with nlink := 0 }
  let u' : Vol := { u with fs := u.fs.setde dir k { v.fs.de dir k with ino := MINIXFREEINO } }
  refine ⟨u'.lose (v.fs.de dir k).ino, ?_, ?_⟩
  · rw [rmdir2, if_neg (by simp [hmounted]), if_neg (by simp [hisdir]), hk]
    dsimp only
    rw [hw]
    dsimp only
    rw [if_neg (not_not.mpr hdeny'), if_neg (by simp [hchild']),
      if_neg (by rw [href']; omega), if_neg (by simp [hempty'])]
  · have hset : u'.fs.slots dir =
        (u.fs.slots dir).set k { v.fs.de dir k with ino := MINIXFREEINO } := by
      show (u.fs.setde dir k _).slots dir = _
      rw [setde, slots, upd_inode_self]
      rfl
    rw [slots_lose (.inl hne), hset]
    exact congrArg (fun l => List.set l k _) hupd

theorem rmdir2_goes (hhold : (v.fs.inode dir).refcnt ≠ 0) (hgo : v.RmdirGoes c dir name) :
    ∃ v', v.rmdir2 c dir name = some (0, v') ∧ v'.fs.entries dir ≠ v.fs.entries dir := by
  obtain ⟨hmounted, hisdir, k, w, hk, hw, hdeny, hchild, href, hempty⟩ := hgo
  obtain ⟨v', hv', hslots⟩ := rmdir2_slots hhold hmounted hisdir hk hw hdeny hchild href hempty
  obtain ⟨hold, hlive, -⟩ := findde_eq_some hk
  exact ⟨v', hv', entries_clear hold hlive rfl hslots⟩

theorem mkcommon_stays {keep : Bool} {n : Nat} (hdeny : (v.fs.inode dir).deny c IW ≠ 0)
    (h : v.mkcommon c dir name mode keep = some (e, n, v')) : e ≠ 0 ∧ v' = v := by
  unfold mkcommon at h
  split at h
  · cases h
  split at h
  · cases h
    exact ⟨by decide, rfl⟩
  cases h
  exact ⟨by decide, rfl⟩

theorem mkreg_stays {keep : Bool} {n : Nat} (hdeny : (v.fs.inode dir).deny c IW ≠ 0)
    (h : v.mkreg c dir name mode keep = some (e, n, v')) : v'.fs.entries dir = v.fs.entries dir := by
  rw [(mkcommon_stays hdeny h).2]

theorem mkdir_stays (hdeny : (v.fs.inode dir).deny c IW ≠ 0)
    (h : v.mkdir c dir name mode = some (e, v')) : v'.fs.entries dir = v.fs.entries dir := by
  unfold mkdir at h
  split at h
  · cases h
    rfl
  split at h
  · cases h
    rfl
  split at h
  · cases h
    rfl
  obtain ⟨⟨e', n, u⟩, hu, h⟩ := Option.map_eq_some_iff.mp h
  have hstay := mkcommon_stays (v := { v with fs := { v.fs with zfree := v.fs.zfree - 1 } })
    hdeny hu
  dsimp only at h
  rw [if_pos hstay.1] at h
  cases h
  rw [hstay.2]
  rfl

end Vol

/-! ## The calls on directories -/

/-- The directories a directory operation works on, with its caller. -/
def Call.dirs : Call → List (Cred × Ref)
  | .hardlink c dev dir .. => [(c, dev, dir)]
  | .unlink c dev dir _ => [(c, dev, dir)]
  | .mkreg c dev dir .. => [(c, dev, dir)]
  | .mkdir c dev dir .. => [(c, dev, dir)]
  | .rmdir c dev dir _ => [(c, dev, dir)]
  | .rename c dev olddir _ ndev newdir _ => [(c, dev, olddir), (c, ndev, newdir)]
  | _ => []

namespace World

/-- A call changes the entries only of directories that the caller may write. -/
def Permitted (w : World) (a : Call) : Prop :=
  ∀ e w', w.call a = some (e, w') → ∀ p ∈ a.dirs,
    (w'.fs p.2.1).entries p.2.2 ≠ (w.fs p.2.1).entries p.2.2 →
      (w.inode p.2.1 p.2.2).deny p.1 IW = 0

/-- A `hardlink`, `unlink` or `rmdir` that is about to change the directory has
a caller who may write it. -/
def Granted (w : World) : Call → Prop
  | .hardlink c dev dir basename odev oldi =>
      w.held dev dir = true → w.held odev oldi = true → (w.inode dev dir).isdir = true →
        dev = odev → (w.vol dev).HardlinkGoes dir basename oldi →
          (w.inode dev dir).deny c IW = 0
  | .unlink c dev dir name =>
      w.held dev dir = true → (w.vol dev).UnlinkGoes c dir name → (w.inode dev dir).deny c IW = 0
  | .rmdir c dev dir name =>
      w.held dev dir = true → (w.vol dev).RmdirGoes c dir name → (w.inode dev dir).deny c IW = 0
  | _ => True

variable {w w' : World} {c : Cred} {dev dir : Nat} {name : Name} {e : Int}

theorem on_some {f : Vol → Option (Int × Vol)} (h : w.on dev f = some (e, w')) :
    ∃ v, f (w.vol dev) = some (e, v) ∧ w'.fs dev = v.fs := by
  simp only [on, Option.map_eq_some_iff] at h
  obtain ⟨⟨e', v⟩, hv, h⟩ := h
  cases h
  exact ⟨v, hv, if_pos rfl⟩

theorem on_of_some {f : Vol → Option (Int × Vol)} {v : Vol} (h : f (w.vol dev) = some (e, v)) :
    ∃ w', w.on dev f = some (e, w') ∧ w'.fs dev = v.fs := by
  refine ⟨w.setVol dev v, ?_, if_pos rfl⟩
  rw [on, h]
  rfl

theorem hardlink_permitted_iff {basename : Name} {odev oldi : Nat} :
    w.Permitted (.hardlink c dev dir basename odev oldi) ↔
      w.Granted (.hardlink c dev dir basename odev oldi) := by
  constructor
  · intro hperm hdir hold hisdir hdev hgo
    subst hdev
    have hne : oldi ≠ MINIXFREEINO := by
      simp only [held, Bool.and_eq_true, bne_iff_ne] at hold
      exact hold.1
    obtain ⟨v, hv, hchange⟩ := Vol.hardlink2_goes hgo hne
    obtain ⟨w', hw, hfs⟩ := on_of_some (f := fun v => v.hardlink2 dir basename oldi) hv
    refine hperm 0 w' ?_ (c, dev, dir) (mem_singleton_self _) ?_
    · rw [call, if_pos (by simp [hdir, hold]), hardlink2, if_neg (by simp [hisdir]),
        if_neg (by simp), hw]
    · dsimp only
      rw [hfs]
      exact hchange
  · intro hgrant e w' h p hp hchange
    obtain rfl := mem_singleton.mp hp
    simp only [call] at h
    split at h
    · next hheld =>
        rw [Bool.and_eq_true] at hheld
        unfold hardlink2 at h
        split at h
        · cases h
          exact absurd rfl hchange
        next hisdir =>
        split at h
        · cases h
          exact absurd rfl hchange
        next hdev =>
        obtain ⟨v, hv, hfs⟩ := on_some h
        refine hgrant hheld.1 hheld.2 (by simpa using hisdir) (not_not.mp hdev) ?_
        by_contra hno
        refine hchange ?_
        rw [hfs, Vol.hardlink2_stays hno hv]
        rfl
    · cases h

theorem unlink_permitted_iff :
    w.Permitted (.unlink c dev dir name) ↔ w.Granted (.unlink c dev dir name) := by
  constructor
  · intro hperm hdir hgo
    obtain ⟨⟨e, v⟩, hres⟩ : ∃ r, (w.vol dev).unlink2 c dir name = r := ⟨_, rfl⟩
    obtain ⟨w', hw, hfs⟩ := on_of_some (f := fun v => some (v.unlink2 c dir name))
      (congrArg some hres)
    have hcall : w.call (.unlink c dev dir name) = some (e, w') := by
      rw [call, if_pos hdir, hw]
    have hchange := Vol.unlink2_goes hgo
    rw [hres] at hchange
    refine hperm e w' hcall (c, dev, dir) (mem_singleton_self _) ?_
    rw [hfs]
    exact hchange
  · intro hgrant e w' h p hp hchange
    obtain rfl := mem_singleton.mp hp
    simp only [call] at h
    split at h
    · next hheld =>
        obtain ⟨v, hv, hfs⟩ := on_some h
        refine hgrant hheld ?_
        by_contra hno
        have hsame := Vol.unlink2_stays (refcnt_of_held hheld) hno
        rw [Option.some.inj hv] at hsame
        refine hchange ?_
        rw [hfs]
        exact hsame
    · cases h

theorem rmdir_permitted_iff :
    w.Permitted (.rmdir c dev dir name) ↔ w.Granted (.rmdir c dev dir name) := by
  constructor
  · intro hperm hdir hgo
    obtain ⟨v, hv, hchange⟩ := Vol.rmdir2_goes (refcnt_of_held hdir) hgo
    obtain ⟨w', hw, hfs⟩ := on_of_some (f := fun v => v.rmdir2 c dir name) hv
    refine hperm 0 w' ?_ (c, dev, dir) (mem_singleton_self _) ?_
    · rw [call, if_pos hdir, hw]
    · dsimp only
      rw [hfs]
      exact hchange
  · intro hgrant e w' h p hp hchange
    obtain rfl := mem_singleton.mp hp
    simp only [call] at h
    split at h
    · next hheld =>
        obtain ⟨v, hv, hfs⟩ := on_some h
        refine hgrant hheld ?_
        by_contra hno
        refine hchange ?_
        rw [hfs]
        exact Vol.rmdir2_stays (refcnt_of_held hheld) hno hv
    · cases h

theorem mkreg_permitted {mode : BitVec 16} {keep : Bool} :
    w.Permitted (.mkreg c dev dir name mode keep) := by
  intro e w' h p hp hchange
  obtain rfl := mem_singleton.mp hp
  by_contra hdeny
  simp only [call] at h
  split at h
  · obtain ⟨v, hv, hfs⟩ := on_some h
    obtain ⟨⟨e', n, u⟩, hu, hv⟩ := Option.map_eq_some_iff.mp hv
    cases hv
    have hstay := Vol.mkreg_stays (v := w.vol dev) hdeny hu
    refine hchange ?_
    rw [hfs]
    exact hstay
  · cases h

theorem mkdir_permitted {mode : BitVec 16} : w.Permitted (.mkdir c dev dir name mode) := by
  intro e w' h p hp hchange
  obtain rfl := mem_singleton.mp hp
  by_contra hdeny
  simp only [call] at h
  split at h
  · obtain ⟨v, hv, hfs⟩ := on_some h
    refine hchange ?_
    rw [hfs]
    exact Vol.mkdir_stays (v := w.vol dev) hdeny hv
  · cases h

theorem rename_permitted {olddir ndev newdir : Nat} {oldname newname : Name} :
    w.Permitted (.rename c dev olddir oldname ndev newdir newname) := by
  intro e w' h p hp hchange
  simp only [call] at h
  split at h
  · unfold rename2 at h
    split at h
    · cases h
    split at h
    · cases h
      exact absurd rfl hchange
    split at h
    · cases h
      exact absurd rfl hchange
    next hdeny =>
    rw [not_or, not_not, not_not] at hdeny
    rcases mem_pair.mp hp with rfl | rfl
    · exact Inode.deny_write hdeny.1
    · exact Inode.deny_write hdeny.2
  · cases h

/-- `hardlink`, `unlink` and `rmdir` respect the permissions exactly if these
happen to be there; the others always do. -/
theorem permitted_iff (w : World) (a : Call) : w.Permitted a ↔ w.Granted a := by
  cases a with
  | hardlink c dev dir basename odev oldi => exact hardlink_permitted_iff
  | unlink c dev dir name => exact unlink_permitted_iff
  | rmdir c dev dir name => exact rmdir_permitted_iff
  | mkreg c dev dir name mode keep => exact iff_of_true mkreg_permitted trivial
  | mkdir c dev dir name mode => exact iff_of_true mkdir_permitted trivial
  | rename c dev olddir oldname ndev newdir newname =>
      exact iff_of_true rename_permitted trivial
  | _ => exact iff_of_true (fun _ _ _ _ hp => absurd hp not_mem_nil) trivial

end World

def user : Cred := ⟨100, 100, 100, 100, 0o022⟩

/-- The superuser has a file `a`, which nobody else may read or write, and a
directory `b`, which nobody else may write. -/
def secretWorld : World :=
  (exec World.step mkfsWorld [.mkreg superuser 0 1 [0x61] 0o600 true,
    .mkdir superuser 0 1 [0x62] 0o700, .lookup 0 1 [0x62]]).getD mkfsWorld

def secretKernel : Kernel where
  world := secretWorld
  task := ⟨user, (0, 1), (0, 1), false, fun _ => none⟩
  peer := fun _ => none
  blkdevvec := fun _ => false
  chrdevvec := fun _ => none
  truncated := []

end Unixlite.Fs
