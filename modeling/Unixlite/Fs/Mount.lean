import Unixlite.Fs.Buf
import Unixlite.Fs.DirShape

/-!
# Mounting

Port of `fs/mount.cc` and of `fs_t::read`, `freeimap` and `freezmap` of `fs/fs.cc`, with
`tryumount`, `synci` and `invali` of `fs/icache.cc`, for one task.  Of a buffer there is
its reference count.  What the disk answers comes with the call: the superblock and the
blocks that cannot be read.  `none` is a panic, or a use of memory that has been freed.

A mount holds three inodes and gives two of them back; a mount that fails deletes the
file system, whether it has made it or found it (`mount_restores`).
-/

namespace Unixlite.Fs

open Bcache (validdev)
open Option

/-! ## Data -/

/-- `MINIX2MAGIC2`. -/
def MAGIC : BitVec 16 := 0x2478

/-- The fields of the superblock that `fs_t::read` looks at. -/
structure Super where
  magic : BitVec 16
  nimapblock : Nat
  nzmapblock : Nat

/-- A device as `fs_t::read` finds it. -/
structure Disk where
  super : Super
  /-- The block cannot be read. -/
  bad : Nat → Bool
  /-- The block of the root inode cannot be read. -/
  badroot : Bool

/-- `fs_t` of a device; of a buffer of the bitmaps there is the block. -/
structure FsT where
  mount : Option Ref
  root : Option Ref
  imapbuf : List Nat
  zmapbuf : List Nat
  /-- `imapbuf` points at memory that has been freed. -/
  freed : Bool

/-- The kernel with its mounts and the reference counts of its buffers. -/
structure Mounts where
  kern : Kernel
  /-- `fsq`, by device. -/
  fsq : Nat → Option FsT
  bref : Nat → Nat → Nat

namespace Mounts

/-! ## Buffers -/

def setbref (s : Mounts) (dev bno n : Nat) : Mounts :=
  { s with bref := fun d b => if d = dev ∧ b = bno then n else s.bref d b }

def readb (s : Mounts) (disk : Disk) (dev bno : Nat) : Except Int Mounts :=
  if !validdev dev then .error EINVAL
  else if disk.bad bno then .error EIO
  else .ok (s.setbref dev bno (s.bref dev bno + 1))

def loseb (s : Mounts) (dev bno : Nat) : Mounts := s.setbref dev bno (s.bref dev bno - 1)

def losebs (s : Mounts) (dev : Nat) (bnos : List Nat) : Mounts :=
  bnos.foldl (fun s b => s.loseb dev b) s

/-- `readb` of one block after the other, up to an error; with the blocks that are held. -/
def readbs (disk : Disk) (dev : Nat) : List Nat → Mounts → List Nat × Int × Mounts
  | [], s => ([], 0, s)
  | b :: bs, s =>
      match s.readb disk dev b with
      | .error e => ([], e, s)
      | .ok s =>
          let x := readbs disk dev bs s
          (b :: x.1, x.2)

/-! ## `fs_t` -/

def setfs (s : Mounts) (dev : Nat) (f : Option FsT) : Mounts :=
  { s with fsq := fun d => if d = dev then f else s.fsq d }

/-- `readi(this, MINIXROOTINO, &root)`. -/
def readroot (s : Mounts) (disk : Disk) (dev : Nat) : Except Int Mounts :=
  match (s.kern.world.vol dev).readi MINIXROOTINO with
  | .error e => .error e
  | .ok v =>
      if disk.badroot && !(s.kern.inode (dev, MINIXROOTINO)).cached then .error EIO
      else .ok { s with kern := s.kern.upd dev fun _ => v }

/-- `fs_t::read`, behind the superblock.  `freeimap` frees `imapbuf` and leaves the
pointer as it is. -/
def readmaps (s : Mounts) (disk : Disk) (dev : Nat) (f : FsT) : Int × FsT × Mounts :=
  let i := readbs disk dev (List.range' 2 disk.super.nimapblock) s
  let s := i.2.2
  if i.2.1 ≠ 0 then
    (i.2.1, { f with imapbuf := [], zmapbuf := [], freed := true }, s.losebs dev i.1)
  else
    let z := readbs disk dev (List.range' (2 + disk.super.nimapblock) disk.super.nzmapblock) s
    let s := z.2.2
    if z.2.1 ≠ 0 then
      (z.2.1, { f with imapbuf := [], zmapbuf := [], freed := true },
        (s.losebs dev i.1).losebs dev z.1)
    else
      let f := { f with imapbuf := i.1, zmapbuf := z.1 }
      match s.readroot disk dev with
      | .error e => (e, { f with root := none }, s)
      | .ok s => (0, { f with root := some (dev, MINIXROOTINO) }, s)

/-- `fs_t::read`. -/
def fsread (s : Mounts) (disk : Disk) (dev : Nat) (f : FsT) : Int × FsT × Mounts :=
  match s.readb disk dev 1 with
  | .error e => (e, f, s)
  | .ok s =>
      let s := s.loseb dev 1
      if disk.super.magic ≠ MAGIC then (EINVAL, f, s)
      else if 64 < disk.super.nimapblock ∨ 64 < disk.super.nzmapblock then (ENOMEM, f, s)
      else s.readmaps disk dev f

def loseopt (k : Kernel) : Option Ref → Kernel
  | none => k
  | some r => k.lose r

/-- The destructor; it goes through `imapbuf` again. -/
def delete (s : Mounts) (dev : Nat) (f : FsT) : Option Mounts :=
  if f.freed then none
  else
    let s := s.setfs dev none
    let s := { s with kern := loseopt (loseopt s.kern f.mount) f.root }
    some ((s.losebs dev f.imapbuf).losebs dev f.zmapbuf)

/-- `fs_t(dev)`. -/
def newfs : FsT := ⟨none, none, [], [], false⟩

def readfs (s : Mounts) (disk : Disk) (dev : Nat) : Option (Int × Mounts) :=
  let x := s.fsread disk dev ((s.fsq dev).getD newfs)
  if x.1 ≠ 0 then (x.2.2.delete dev x.2.1).map fun s => (x.1, s)
  else some (0, x.2.2.setfs dev (some x.2.1))

/-! ## `sysmount` -/

/-- `domount` up to `readfs`: the directory and the device, both held. -/
def mountargs (s : Mounts) (dev dir : Name) : Option (Except Int (Ref × Ref) × Mounts) :=
  if s.kern.task.cred.euid ≠ 0 then some (.error EPERM, s)
  else
    match s.kern.namei false dir with
    | none => none
    | some (.error e, k) => some (.error e, { s with kern := k })
    | some (.ok (diri, _), k) =>
        if !(k.inode diri).isdir then some (.error EPERM, { s with kern := k.lose diri })
        else
          match k.namei false dev with
          | none => none
          | some (.error e, k) => some (.error e, { s with kern := k.lose diri })
          | some (.ok (devi, _), k) => some (.ok (diri, devi), { s with kern := k })

/-- `getrdev`, which is the first zone of an inode that is no device. -/
def rdevof (s : Mounts) (devi : Ref) : Nat := (s.kern.inode devi).rdev

/-- `IMOUNT` is set or taken away. -/
def setmount (k : Kernel) (r : Ref) (flag : Bool) : Kernel :=
  k.upd r.1 fun v => v.upd r.2 fun i => { i with mounted := flag }

/-- The end of `domount`. -/
def attach (s : Mounts) (dev : Nat) (diri : Ref) : Option Mounts :=
  (s.fsq dev).bind fun f =>
    f.root.map fun root =>
      let s := s.setfs dev (some { f with mount := some diri })
      { s with kern := { setmount s.kern diri true with
        peer := fun r =>
          if r = diri then some root else if r = root then some diri else s.kern.peer r } }

/-- `domount`, under the lock of `sysmount`. -/
def sysmount (s : Mounts) (disk : Disk) (dev dir : Name) : Option (Int × Mounts) :=
  match s.mountargs dev dir with
  | none => none
  | some (.error e, s) => some (e, s)
  | some (.ok (diri, devi), s) =>
      match s.readfs disk (s.rdevof devi) with
      | none => none
      | some (e, t) =>
          if e ≠ 0 then some (e, { t with kern := (t.kern.lose diri).lose devi })
          else (t.attach (s.rdevof devi) diri).map fun t => (0, t)

/-! ## `sysumount` -/

/-- The file system that the argument names; the inode is given back. -/
def umountfs (s : Mounts) (name : Name) : Option (Except Int (Nat × FsT) × Mounts) :=
  if s.kern.task.cred.euid ≠ 0 then some (.error EPERM, s)
  else
    match s.kern.namei false name with
    | none => none
    | some (.error e, k) => some (.error e, { s with kern := k })
    | some (.ok (r, _), k) =>
        let i := k.inode r
        let t : Mounts := { s with kern := k.lose r }
        let found (dev : Nat) : Except Int (Nat × FsT) :=
          match s.fsq dev with
          | some f => .ok (dev, f)
          | none => .error ENODEV
        if i.isdir then
          if r.2 ≠ MINIXROOTINO then some (.error EINVAL, t)
          else if (s.fsq r.1).bind FsT.root ≠ some r then none
          else some (found r.1, t)
        else if i.isblk then some (found i.rdev, t)
        else some (.error EINVAL, t)

/-- `synci(fs)`: every cached inode is held, written and lost. -/
def synci (k : Kernel) (dev : Nat) : Kernel :=
  (List.range (k.world.fs dev).ninode).foldl (fun k ino =>
    if (k.inode (dev, ino)).cached then (k.hold (dev, ino)).lose (dev, ino) else k) k

def tryumount (k : Kernel) (dev : Nat) (f : FsT) : Bool :=
  (List.range (k.world.fs dev).ninode).all fun ino =>
    (k.inode (dev, ino)).refcnt == if f.root = some (dev, ino) then 1 else 0

def invali (k : Kernel) (dev : Nat) : Kernel :=
  k.upd dev fun v => { v with fs := { v.fs with
    inode := fun ino => { v.fs.inode ino with cached := false } } }

/-- `doumount` once the file system is found; `syncb` and `fs_t::write` give back the
buffers that they hold. -/
def umount (s : Mounts) (dev : Nat) (f : FsT) : Option (Int × Mounts) :=
  let k := synci s.kern dev
  if !tryumount k dev f then some (EBUSY, { s with kern := k })
  else
    f.mount.bind fun r =>
      (delete { s with kern := setmount k r false } dev f).map fun s =>
        (0, { s with kern := invali s.kern dev })

/-- `doumount`, under the lock of `sysumount`. -/
def sysumount (s : Mounts) (name : Name) : Option (Int × Mounts) :=
  match s.umountfs name with
  | none => none
  | some (.error e, s) => some (e, s)
  | some (.ok (dev, f), s) => s.umount dev f

end Mounts

/-! ## References -/

theorem Vol.mounted_lose (v : Vol) (i j : Nat) :
    ((v.lose i).fs.inode j).mounted = (v.fs.inode j).mounted ∧
      (v.lose i).fs.ninode = v.fs.ninode := by
  by_cases hlast : v.Last i
  · rw [Vol.lose_free hlast]
    rcases Vol.truncate_cases (v.fs.upd i fun x => { x with refcnt := x.refcnt - 1 }) i with
      ⟨-, h⟩ | ⟨z, h⟩
    all_goals
      rw [h]
      simp only [Filesys.upd_inode, Vol.freei_inode]
      refine ⟨?_, by rw [Filesys.upd, Vol.freei_inode .. |>.2]; rfl⟩
      split
      · rfl
      · rfl
  · rw [Vol.lose_keep hlast, Filesys.upd_inode]
    refine ⟨?_, rfl⟩
    split
    · rfl
    · rfl

namespace Kernel

theorem inode_upd (k : Kernel) (dev : Nat) (g : Vol → Vol) (r : Ref) :
    (k.upd dev g).inode r =
      if r.1 = dev then (g (k.world.vol dev)).fs.inode r.2 else k.inode r := by
  unfold Kernel.inode Kernel.upd World.inode World.setVol
  dsimp only
  split
  · rfl
  · rfl

/-- `k'` is `k` with some references more. -/
structure Holds (k k' : Kernel) (refs : List Ref) : Prop where
  refcnt : ∀ r, (k'.inode r).refcnt = (k.inode r).refcnt + refs.count r
  mounted : ∀ r, (k'.inode r).mounted = (k.inode r).mounted
  peer : k'.peer = k.peer
  ninode : ∀ dev, (k'.world.fs dev).ninode = (k.world.fs dev).ninode

/-- What `namei` returns, held. -/
def leaf : Except Int (Ref × Name) → List Ref
  | .ok (r, _) => [r]
  | .error _ => []

namespace Holds

variable {k k' k'' : Kernel} {refs : List Ref} {r sub cwd : Ref} {name : Name} {e : Int}

theorem refl (k : Kernel) : Holds k k [] := ⟨fun _ => rfl, fun _ => rfl, rfl, fun _ => rfl⟩

variable {refs' : List Ref}

theorem trans (h : Holds k k' refs) (h' : Holds k' k'' refs') : Holds k k'' (refs' ++ refs) where
  refcnt r := by rw [h'.refcnt, h.refcnt, List.count_append]; omega
  mounted r := (h'.mounted r).trans (h.mounted r)
  peer := h'.peer.trans h.peer
  ninode dev := (h'.ninode dev).trans (h.ninode dev)

theorem perm (h : Holds k k' refs) (hp : refs.Perm refs') : Holds k k' refs' :=
  ⟨fun r => by rw [h.refcnt, hp.count_eq], h.mounted, h.peer, h.ninode⟩

/-- One device changes. -/
theorem upd {g : Vol → Vol} {dev : Nat} (h : Holds k k' refs)
    (hrefcnt : ∀ ino, ((g (k'.world.vol dev)).fs.inode ino).refcnt + refs.count (dev, ino) =
      (k'.inode (dev, ino)).refcnt + refs'.count (dev, ino))
    (hother : ∀ r, r.1 ≠ dev → refs'.count r = refs.count r)
    (hmounted : ∀ ino, ((g (k'.world.vol dev)).fs.inode ino).mounted =
      (k'.inode (dev, ino)).mounted)
    (hninode : (g (k'.world.vol dev)).fs.ninode = (k'.world.fs dev).ninode) :
    Holds k (k'.upd dev g) refs' where
  refcnt := by
    rintro ⟨d, ino⟩
    rw [inode_upd]
    split
    · next hd =>
      have hdev : d = dev := hd
      subst hdev
      have hnew := hrefcnt ino
      have hold := h.refcnt (d, ino)
      dsimp only at hnew ⊢
      omega
    · next hd => rw [h.refcnt, hother _ hd]
  mounted := by
    rintro ⟨d, ino⟩
    rw [inode_upd]
    split
    · next hd =>
      have hdev : d = dev := hd
      subst hdev
      exact (hmounted ino).trans (h.mounted _)
    · exact h.mounted _
  peer := h.peer
  ninode d := by
    unfold Kernel.upd World.setVol
    dsimp only
    split
    · next hd =>
      subst hd
      exact hninode.trans (h.ninode d)
    · exact h.ninode d

theorem count_other {x : Ref} (hx : x.1 ≠ r.1) : (r :: refs).count x = refs.count x :=
  List.count_cons_of_ne fun heq => hx (congrArg Prod.fst heq).symm

theorem count_self_or {dev ino j : Nat} :
    ((dev, ino) :: refs).count (dev, j) = refs.count (dev, j) + if j = ino then 1 else 0 := by
  by_cases hj : j = ino
  · rw [hj, List.count_cons_self, if_pos rfl]
  · rw [List.count_cons_of_ne fun heq => hj (congrArg Prod.snd heq).symm, if_neg hj,
      Nat.add_zero]

theorem hold (h : Holds k k' refs) (r : Ref) : Holds k (k'.hold r) (r :: refs) := by
  refine h.upd (fun j => ?_) (fun x hx => count_other hx) (fun j => ?_) rfl
  · rw [count_self_or, Vol.hold, Vol.upd_fs, Filesys.upd_inode]
    split
    · exact Nat.add_right_comm _ _ _
    · rfl
  · rw [Vol.hold, Vol.upd_fs, Filesys.upd_inode]
    split
    · rfl
    · rfl

theorem lose (h : Holds k k' (r :: refs)) : Holds k (k'.lose r) refs := by
  obtain ⟨dev, ino⟩ := r
  refine h.upd (fun j => ?_) (fun x hx => (count_other hx).symm)
    (fun j => (Vol.mounted_lose _ _ _).1) (Vol.mounted_lose _ ino 0).2
  have hcount := h.refcnt (dev, j)
  have hsame : ((k'.world.vol dev).fs.inode j).refcnt = (k'.inode (dev, j)).refcnt := rfl
  rw [count_self_or] at hcount ⊢
  dsimp only
  rw [Vol.refcnt_lose, hsame]
  by_cases hj : j = ino
  · rw [if_pos hj] at hcount ⊢
    omega
  · rw [if_neg hj]
    rfl

theorem readi {dev ino : Nat} {v : Vol} (h : Holds k k' refs)
    (hread : (k'.world.vol dev).readi ino = .ok v) :
    Holds k (k'.upd dev fun _ => v) ((dev, ino) :: refs) := by
  have hv := Vol.readi_ok hread
  refine h.upd (fun j => ?_) (fun x hx => count_other hx) (fun j => ?_) (by rw [hv]; rfl)
  · rw [count_self_or, Vol.refcnt_readi hread]
    exact (Nat.add_right_comm _ _ _).trans (Nat.add_assoc _ _ _)
  · rw [hv, Filesys.upd_inode]
    split
    · rfl
    · rfl

theorem lookup2 (h : Holds k k' refs) (hlookup : k'.lookup2 r name = .ok (sub, k'')) :
    Holds k k'' (sub :: refs) := by
  unfold Kernel.lookup2 Vol.lookup2 at hlookup
  split at hlookup
  · cases hlookup
  · dsimp only at hlookup
    cases hread : (k'.world.vol r.1).readi ((k'.world.vol r.1).fs.de r.2 _).ino with
    | error e =>
        rw [hread] at hlookup
        cases hlookup
    | ok v =>
        rw [hread] at hlookup
        cases hlookup
        exact h.readi hread

theorem lookup (h : Holds k k' refs) (hlookup : k'.lookup r name = some (.ok (sub, k''))) :
    Holds k k'' (sub :: refs) := by
  unfold Kernel.lookup at hlookup
  split at hlookup
  · cases hlookup
  split at hlookup
  · cases hlookup
  split at hlookup
  · cases hlookup
  split at hlookup
  · cases hlookup
    exact h.hold r
  split at hlookup
  · obtain ⟨p, -, hp⟩ := map_eq_some_iff.mp hlookup
    exact h.lookup2 hp
  · split at hlookup
    · cases hlookup
    · next hsub =>
      split at hlookup
      · obtain ⟨p, -, hp⟩ := map_eq_some_iff.mp hlookup
        cases hp
        exact (h.lookup2 hsub).lose.hold _
      · cases hlookup
        exact h.lookup2 hsub

/-- The loop holds the directory it is in, and nothing after an error. -/
theorem walk {split : Bool} {x : Except Int (Ref × Name)} (toks : List Name) :
    ∀ {cwd k'}, Holds k k' (cwd :: refs) → Kernel.walk split toks cwd k' = some (x, k'') →
      Holds k k'' (leaf x ++ refs) := by
  induction toks with
  | nil =>
      intro cwd k' h hwalk
      cases hwalk
      exact h
  | cons tok toks ih =>
      intro cwd k' h hwalk
      unfold Kernel.walk at hwalk
      split at hwalk
      · cases hwalk
        exact h.lose
      split at hwalk
      · split at hwalk
        · cases hwalk
        · cases hwalk
          exact h
      · split at hwalk
        · cases hwalk
        · cases hwalk
          exact h.lose
        · next sub k₂ hlookup =>
          have hsub : Holds k k₂ (cwd :: sub :: refs) :=
            (h.lookup hlookup).perm (List.Perm.swap _ _ _)
          exact ih hsub.lose hwalk

theorem namei {split : Bool} {path : Name} {x : Except Int (Ref × Name)} (h : Holds k k' refs)
    (hnamei : k'.namei split path = some (x, k'')) : Holds k k'' (leaf x ++ refs) := by
  unfold Kernel.namei at hnamei
  split at hnamei
  · cases hnamei
  dsimp only at hnamei
  split at hnamei
  · cases hnamei
    exact h
  · exact walk _ (h.hold _) hnamei

end Holds

end Kernel

namespace Mounts

variable {s s' t : Mounts} {disk : Disk} {dev : Nat} {bnos held : List Nat} {e : Int} {f : FsT}

/-! ## Buffers are given back -/

/-- `s'` is `s` with some buffers more held. -/
structure Pins (s s' : Mounts) (dev : Nat) (bnos : List Nat) : Prop where
  kern : s'.kern = s.kern
  fsq : s'.fsq = s.fsq
  bref : ∀ d b, s'.bref d b = s.bref d b + if d = dev then bnos.count b else 0

theorem Pins.refl (s : Mounts) (dev : Nat) : Pins s s dev [] :=
  ⟨rfl, rfl, fun d b => by rw [List.count_nil, ite_self, Nat.add_zero]⟩

theorem Pins.perm {bnos' : List Nat} (h : Pins s s' dev bnos) (hp : bnos.Perm bnos') :
    Pins s s' dev bnos' :=
  ⟨h.kern, h.fsq, fun d b => by rw [h.bref, hp.count_eq]⟩

theorem Pins.trans (h : Pins s s' dev bnos) (h' : Pins s' t dev held) :
    Pins s t dev (held ++ bnos) where
  kern := h'.kern.trans h.kern
  fsq := h'.fsq.trans h.fsq
  bref d b := by
    rw [h'.bref, h.bref, List.count_append]
    split_ifs <;> omega

theorem setbref_bref (s : Mounts) (dev bno n d b : Nat) :
    (s.setbref dev bno n).bref d b = if d = dev ∧ b = bno then n else s.bref d b := rfl

variable {bno : Nat} {devname dir : Name}

theorem Pins.readb (h : Pins s s' dev bnos) (hread : s'.readb disk dev bno = .ok t) :
    Pins s t dev (bno :: bnos) := by
  unfold Mounts.readb at hread
  split at hread
  · cases hread
  split at hread
  · cases hread
  cases hread
  refine ⟨h.kern, h.fsq, fun d b => ?_⟩
  rw [setbref_bref]
  by_cases hd : d = dev
  · subst hd
    rw [if_pos rfl]
    by_cases hb : b = bno
    · subst hb
      rw [if_pos ⟨rfl, rfl⟩, h.bref, if_pos rfl, List.count_cons_self, Nat.add_assoc]
    · rw [if_neg fun hx => hb hx.2, h.bref, if_pos rfl, List.count_cons_of_ne (Ne.symm hb)]
  · rw [if_neg fun hx => hd hx.1, h.bref, if_neg hd, if_neg hd]

theorem Pins.loseb (h : Pins s s' dev (bno :: bnos)) : Pins s (s'.loseb dev bno) dev bnos := by
  refine ⟨h.kern, h.fsq, fun d b => ?_⟩
  have hbref := h.bref d b
  unfold Mounts.loseb
  rw [setbref_bref]
  by_cases hd : d = dev
  · subst hd
    rw [if_pos rfl] at hbref ⊢
    by_cases hb : b = bno
    · subst hb
      rw [List.count_cons_self] at hbref
      rw [if_pos ⟨rfl, rfl⟩]
      omega
    · rw [List.count_cons_of_ne (Ne.symm hb)] at hbref
      rw [if_neg fun hx => hb hx.2, hbref]
  · rw [if_neg hd] at hbref ⊢
    rw [if_neg fun hx => hd hx.1, hbref]

theorem Pins.losebs (h : Pins s s' dev (held ++ bnos)) : Pins s (s'.losebs dev held) dev bnos := by
  induction held generalizing s' with
  | nil => exact h
  | cons b held ih => exact ih h.loseb

theorem Pins.readbs (disk : Disk) : ∀ (bs : List Nat) {s' bnos}, Pins s s' dev bnos →
    Pins s (readbs disk dev bs s').2.2 dev ((readbs disk dev bs s').1 ++ bnos)
  | [], _, _, h => h
  | _ :: bs, _, _, h => by
      unfold Mounts.readbs
      split
      · exact h
      · next t hread =>
        have hrest := readbs disk bs (h.readb hread)
        exact hrest.perm List.perm_middle

/-- `s` apart from the inodes, `fsq` and the buffers. -/
theorem Pins.eq (h : Pins s s' dev []) : s' = s := by
  obtain ⟨hkern, hfsq, hbref⟩ := h
  obtain ⟨kern, fsq, bref⟩ := s
  obtain ⟨kern', fsq', bref'⟩ := s'
  cases hkern
  cases hfsq
  have hsame : bref' = bref := by
    funext d b
    have h := hbref d b
    rwa [List.count_nil, ite_self, Nat.add_zero] at h
  rw [hsame]

/-! ## What `fs_t::read` does -/

/-- An outcome of `fs_t::read`. -/
inductive Reads (s : Mounts) (dev : Nat) (f : FsT) : Int × FsT × Mounts → Prop
  | early {e : Int} (he : e ≠ 0) : Reads s dev f (e, f, s)
  | freed {e : Int} {f' : FsT} {s' : Mounts} (he : e ≠ 0) (hf : f'.freed = true) :
      Reads s dev f (e, f', s')
  | noroot {e : Int} {i z : List Nat} {s' : Mounts} (he : e ≠ 0) (h : Pins s s' dev (z ++ i)) :
      Reads s dev f (e, { f with imapbuf := i, zmapbuf := z, root := none }, s')
  | done {i z : List Nat} {s' : Mounts} {v : Vol} (h : Pins s s' dev (z ++ i))
      (hroot : (s'.kern.world.vol dev).readi MINIXROOTINO = .ok v) :
      Reads s dev f (0, { f with imapbuf := i, zmapbuf := z, root := some (dev, MINIXROOTINO) },
        { s' with kern := s'.kern.upd dev fun _ => v })

theorem readb_error (h : s.readb disk dev bno = .error e) : e ≠ 0 := by
  unfold readb at h
  split at h
  · cases h
    decide
  split at h
  · cases h
    decide
  · cases h

theorem readroot_error (h : s.readroot disk dev = .error e) : e ≠ 0 := by
  unfold readroot at h
  split at h
  · next hread =>
    cases h
    exact Vol.readi_error hread
  · split at h
    · cases h
      decide
    · cases h

theorem readmaps_reads (s : Mounts) (disk : Disk) (dev : Nat) (f : FsT) :
    Reads s dev f (s.readmaps disk dev f) := by
  unfold readmaps
  dsimp only
  split
  · next he => exact .freed he rfl
  split
  · next he => exact .freed he rfl
  have hi := Pins.readbs disk (List.range' 2 disk.super.nimapblock) (.refl s dev)
  rw [List.append_nil] at hi
  have hz := Pins.readbs disk
    (List.range' (2 + disk.super.nimapblock) disk.super.nzmapblock) hi
  split
  · next e hroot => exact .noroot (readroot_error hroot) hz
  · next t hroot =>
    unfold readroot at hroot
    split at hroot
    · cases hroot
    next v hread =>
    split at hroot
    · cases hroot
    cases hroot
    exact .done hz hread

theorem fsread_reads (s : Mounts) (disk : Disk) (dev : Nat) (f : FsT) :
    Reads s dev f (s.fsread disk dev f) := by
  unfold fsread
  split
  · next e hread => exact .early (readb_error hread)
  · next t hread =>
    have hback : t.loseb dev 1 = s := ((Pins.refl s dev).readb hread).loseb.eq
    rw [hback]
    split
    · exact .early (by decide)
    split
    · exact .early (by decide)
    · exact readmaps_reads s disk dev f

/-! ## `sysmount` -/

/-- Inodes and buffers are as they were. -/
structure Same (s t : Mounts) (p : Ref → Prop) : Prop where
  refcnt : ∀ r, p r → (t.kern.inode r).refcnt = (s.kern.inode r).refcnt
  mounted : ∀ r, p r → (t.kern.inode r).mounted = (s.kern.inode r).mounted
  peer : ∀ r, p r → t.kern.peer r = s.kern.peer r
  bref : t.bref = s.bref

/-- The device that a mount gets to. -/
def fromdev (s : Mounts) (dev dir : Name) : Option Nat :=
  match s.mountargs dev dir with
  | some (.ok (_, devi), s) => some (s.rdevof devi)
  | _ => none

/-- What `mountargs` holds. -/
def argrefs : Except Int (Ref × Ref) → List Ref
  | .ok (diri, devi) => [devi, diri]
  | .error _ => []

theorem mountargs_holds {x : Except Int (Ref × Ref)} (h : s.mountargs devname dir = some (x, t)) :
    s.kern.Holds t.kern (argrefs x) ∧ t.fsq = s.fsq ∧ t.bref = s.bref := by
  have hrefl := Kernel.Holds.refl s.kern
  unfold mountargs at h
  split at h
  · cases h
    exact ⟨hrefl, rfl, rfl⟩
  split at h
  · cases h
  · next hdir =>
    cases h
    exact ⟨hrefl.namei hdir, rfl, rfl⟩
  next diri _ k hdir =>
  have hk : s.kern.Holds k [diri] := hrefl.namei hdir
  split at h
  · cases h
    exact ⟨hk.lose, rfl, rfl⟩
  split at h
  · cases h
  · next hdev =>
    cases h
    exact ⟨(hk.namei hdev).lose, rfl, rfl⟩
  · next hdev =>
    cases h
    exact ⟨hk.namei hdev, rfl, rfl⟩

theorem Same.of_holds (h : s.kern.Holds t.kern []) (hbref : t.bref = s.bref) (p : Ref → Prop) :
    Same s t p :=
  ⟨fun r _ => h.refcnt r, fun r _ => h.mounted r, fun r _ => congrFun h.peer r, hbref⟩

theorem delete_fsq (h : s.delete dev f = some t) (d : Nat) :
    t.fsq d = if d = dev then none else s.fsq d := by
  unfold delete at h
  split at h
  · cases h
  cases h
  have hkeep : ∀ (bs : List Nat) (u : Mounts), (u.losebs dev bs).fsq = u.fsq := by
    intro bs
    induction bs with
    | nil => exact fun u => rfl
    | cons b bs ih => exact fun u => ih (u.loseb dev b)
  rw [hkeep, hkeep]
  rfl

theorem readfs_error (he : e ≠ 0) (h : s.readfs disk dev = some (e, t)) :
    t.fsq dev = none ∧ (s.fsq dev = none → t = s) := by
  unfold readfs at h
  dsimp only at h
  have hreads := fsread_reads s disk dev ((s.fsq dev).getD newfs)
  generalize s.fsread disk dev ((s.fsq dev).getD newfs) = x at h hreads
  split at h
  · obtain ⟨u, hdelete, hu⟩ := map_eq_some_iff.mp h
    cases hu
    refine ⟨(delete_fsq hdelete dev).trans (if_pos rfl), fun hnone => ?_⟩
    rw [hnone] at hreads
    -- what is left of a new file system are the buffers of its bitmaps
    have hback : ∀ {u : Mounts} {i z : List Nat}, Pins s u dev (z ++ i) →
        u.delete dev ⟨none, none, i, z, false⟩ = some t → t = s := by
      intro u i z hpins hu
      have hset : Pins s (u.setfs dev none) dev (i ++ z) := by
        refine ⟨hpins.kern, ?_, (hpins.perm List.perm_append_comm).bref⟩
        funext d
        unfold setfs
        dsimp only
        split
        · next hd => rw [hd, hnone]
        · rw [hpins.fsq]
      cases hu
      have hz : Pins s ((u.setfs dev none).losebs dev i) dev (z ++ []) := by
        rw [List.append_nil]
        exact hset.losebs
      exact hz.losebs.eq
    cases hreads with
    | early => exact hback (Pins.refl s dev) hdelete
    | freed _ hf =>
        unfold delete at hdelete
        rw [if_pos hf] at hdelete
        cases hdelete
    | noroot _ hpins => exact hback hpins hdelete
    | done => exact absurd rfl he
  · cases h
    exact absurd rfl he

theorem readfs_ok (h : s.readfs disk dev = some (0, t)) :
    (∃ f, t.fsq dev = some f ∧ f.root = some (dev, MINIXROOTINO)) ∧
      s.kern.Holds t.kern [(dev, MINIXROOTINO)] := by
  unfold readfs at h
  dsimp only at h
  have hreads := fsread_reads s disk dev ((s.fsq dev).getD newfs)
  generalize s.fsread disk dev ((s.fsq dev).getD newfs) = x at h hreads
  obtain ⟨e', f', s'⟩ := x
  split at h
  · next hne =>
    obtain ⟨u, -, hu⟩ := map_eq_some_iff.mp h
    cases hu
    exact absurd rfl hne
  · next hzero =>
    cases h
    cases hreads with
    | early he => exact absurd he hzero
    | freed he => exact absurd he hzero
    | noroot he => exact absurd he hzero
    | done hpins hroot =>
        refine ⟨⟨_, if_pos rfl, rfl⟩, ?_⟩
        rw [← hpins.kern]
        exact (Kernel.Holds.refl _).readi hroot

/-- A mount that fails. -/
theorem sysmount_error (he : e ≠ 0) (h : s.sysmount disk devname dir = some (e, t)) :
    (Same s t (fun _ => True) ∧ t.fsq = s.fsq) ↔
      ∀ d, s.fromdev devname dir = some d → s.fsq d = none := by
  unfold sysmount at h
  unfold fromdev
  split at h
  · cases h
  · next u hargs =>
    cases h
    obtain ⟨hk, hfsq, hbref⟩ := mountargs_holds hargs
    refine ⟨fun _ d hd => ?_, fun _ => ⟨.of_holds hk hbref _, hfsq⟩⟩
    rw [hargs] at hd
    cases hd
  · next diri devi u hargs =>
    obtain ⟨hk, hfsq, hbref⟩ := mountargs_holds hargs
    rw [hargs]
    split at h
    · cases h
    next err v hread =>
    split at h
    · cases h
      obtain ⟨hgone, hsame⟩ := readfs_error he hread
      constructor
      · rintro ⟨-, hintact⟩ d hd
        cases hd
        rw [← hintact]
        exact hgone
      · intro hcond
        have hv : v = u := hsame (by rw [hfsq]; exact hcond _ rfl)
        subst hv
        have hback : s.kern.Holds ((v.kern.lose diri).lose devi) [] :=
          (hk.perm (List.Perm.swap _ _ _)).lose.lose
        exact ⟨.of_holds (t := { v with kern := _ }) hback hbref _, hfsq⟩
    · obtain ⟨w, -, hw⟩ := map_eq_some_iff.mp h
      cases hw
      exact absurd rfl he

/-- `s` after a mount of device `d`. -/
structure Mounted (s t : Mounts) (d : Nat) (diri devi : Ref) : Prop where
  fsq : ∃ f, t.fsq d = some f ∧ f.mount = some diri ∧ f.root = some (d, MINIXROOTINO)
  refcnt : ∀ r, (t.kern.inode r).refcnt =
    (s.kern.inode r).refcnt + [(d, MINIXROOTINO), devi, diri].count r
  ninode : ∀ dev, (t.kern.world.fs dev).ninode = (s.kern.world.fs dev).ninode

theorem setmount_refcnt (k : Kernel) (r x : Ref) (flag : Bool) :
    ((setmount k r flag).inode x).refcnt = (k.inode x).refcnt := by
  unfold setmount
  rw [Kernel.inode_upd]
  split
  · next hx =>
    rw [Vol.upd_fs, Filesys.upd_inode, ← hx]
    split
    · rfl
    · rfl
  · rfl

theorem setmount_ninode (k : Kernel) (r : Ref) (flag : Bool) (dev : Nat) :
    ((setmount k r flag).world.fs dev).ninode = (k.world.fs dev).ninode := by
  unfold setmount Kernel.upd World.setVol
  dsimp only
  split
  · next hdev => rw [hdev]; rfl
  · rfl

theorem attach_ok {diri root : Ref} (hf : s.fsq dev = some f) (hroot : f.root = some root)
    (h : s.attach dev diri = some t) : t.fsq dev = some { f with mount := some diri } ∧
      (∀ r, (t.kern.inode r).refcnt = (s.kern.inode r).refcnt) ∧
      ∀ d, (t.kern.world.fs d).ninode = (s.kern.world.fs d).ninode := by
  unfold attach at h
  rw [hf, bind_some, hroot, map_some] at h
  cases h
  refine ⟨?_, fun r => setmount_refcnt s.kern diri r true, setmount_ninode s.kern diri true⟩
  rw [hroot]
  exact if_pos rfl

theorem sysmount_ok {diri devi : Ref} {u : Mounts}
    (hargs : s.mountargs devname dir = some (.ok (diri, devi), u))
    (h : s.sysmount disk devname dir = some (0, t)) :
    Mounted s t (u.rdevof devi) diri devi := by
  unfold sysmount at h
  obtain ⟨hk, -, -⟩ := mountargs_holds hargs
  rw [hargs] at h
  dsimp only at h
  split at h
  · cases h
  next err v hread =>
  split at h
  · next hne =>
    cases h
    exact absurd rfl hne
  next hzero =>
  have hzero : err = 0 := not_not.mp hzero
  subst hzero
  obtain ⟨⟨f, hf, hroot⟩, hv⟩ := readfs_ok hread
  have hall := hk.trans hv
  obtain ⟨w, hattach, hw⟩ := map_eq_some_iff.mp h
  cases hw
  obtain ⟨hfsq, hrefcnt, hninode⟩ := attach_ok hf hroot hattach
  refine ⟨⟨_, hfsq, rfl, hroot⟩, fun r => ?_, fun dev => ?_⟩
  · rw [hrefcnt]
    exact hall.refcnt r
  · rw [hninode]
    exact hall.ninode dev

/-! ## `sysumount` -/

/-- Whatever was used since `t` has been given back. -/
structure Settled (t u : Mounts) : Prop extends Same t u (fun _ => True) where
  fsq : u.fsq = t.fsq
  /-- `readi` fails for another number. -/
  range : ∀ dev ino, (u.kern.inode (dev, ino)).refcnt ≠ 0 → ino < (u.kern.world.fs dev).ninode

theorem synci_holds (k : Kernel) (d : Nat) : k.Holds (synci k d) [] := by
  unfold synci
  generalize List.range (k.world.fs d).ninode = inos
  have hfold : ∀ k', k.Holds k' [] → k.Holds (inos.foldl (fun k ino =>
      if (k.inode (d, ino)).cached then (k.hold (d, ino)).lose (d, ino) else k) k') [] := by
    induction inos with
    | nil => exact fun k' h => h
    | cons ino inos ih =>
        intro k' h
        refine ih _ ?_
        dsimp only
        split
        · exact (h.hold _).lose
        · exact h
  exact hfold k (.refl k)

theorem umountfs_holds {name : Name} {x : Except Int (Nat × FsT)}
    (h : s.umountfs name = some (x, t)) :
    s.kern.Holds t.kern [] ∧ t.fsq = s.fsq ∧ ∀ d f, x = .ok (d, f) → s.fsq d = some f := by
  unfold umountfs at h
  split at h
  · cases h
    exact ⟨.refl _, rfl, nofun⟩
  split at h
  · cases h
  · next hnamei =>
    cases h
    exact ⟨(Kernel.Holds.refl _).namei hnamei, rfl, nofun⟩
  next r _ k hnamei =>
  have hk : s.kern.Holds (k.lose r) [] := ((Kernel.Holds.refl _).namei hnamei).lose
  have hfound : ∀ dev, ∀ d f, (match s.fsq dev with
      | some f => (.ok (dev, f) : Except Int (Nat × FsT))
      | none => .error ENODEV) = .ok (d, f) → s.fsq d = some f := by
    intro dev d f hdev
    split at hdev
    · next hf =>
      cases hdev
      exact hf
    · cases hdev
  dsimp only at h
  split at h
  · split at h
    · cases h
      exact ⟨hk, rfl, nofun⟩
    split at h
    · cases h
    · cases h
      exact ⟨hk, rfl, hfound _⟩
  split at h
  · cases h
    exact ⟨hk, rfl, hfound _⟩
  · cases h
    exact ⟨hk, rfl, nofun⟩

theorem tryumount_refcnt {k : Kernel} {ino : Nat} (h : tryumount k dev f = true)
    (hino : ino < (k.world.fs dev).ninode) :
    (k.inode (dev, ino)).refcnt = if f.root = some (dev, ino) then 1 else 0 :=
  beq_iff_eq.mp (List.all_eq_true.mp h ino (List.mem_range.mpr hino))

theorem losebs_kern (bs : List Nat) : ∀ s : Mounts, (s.losebs dev bs).kern = s.kern := by
  induction bs with
  | nil => exact fun _ => rfl
  | cons b bs ih => exact fun s => ih (s.loseb dev b)

theorem lose_refcnt (k : Kernel) (r x : Ref) :
    ((k.lose r).inode x).refcnt = (k.inode x).refcnt - if x = r then 1 else 0 := by
  unfold Kernel.lose
  rw [Kernel.inode_upd]
  by_cases hdev : x.1 = r.1
  · rw [if_pos hdev, Vol.refcnt_lose, ← hdev]
    have hiff : x.2 = r.2 ↔ x = r := ⟨fun h => Prod.ext hdev h, fun h => congrArg Prod.snd h⟩
    rw [if_congr hiff rfl rfl]
    rfl
  · rw [if_neg hdev, if_neg fun h => hdev (congrArg Prod.fst h), Nat.sub_zero]

theorem invali_refcnt (k : Kernel) (dev : Nat) (r : Ref) :
    ((invali k dev).inode r).refcnt = (k.inode r).refcnt := by
  unfold invali
  rw [Kernel.inode_upd]
  split
  · next hr => rw [← hr]; rfl
  · rfl

/-- The mount and the root lose a reference, and no other inode does. -/
theorem umount_ok {diri root : Ref} (hmount : f.mount = some diri) (hroot : f.root = some root)
    (h : s.umount dev f = some (0, t)) : tryumount (synci s.kern dev) dev f = true ∧
      ∀ r, (t.kern.inode r).refcnt =
        (s.kern.inode r).refcnt - (if r = diri then 1 else 0) - if r = root then 1 else 0 := by
  unfold umount at h
  dsimp only at h
  split at h
  · cases h
  next htry =>
  rw [Bool.not_eq_true', Bool.not_eq_false] at htry
  refine ⟨htry, fun r => ?_⟩
  rw [hmount, bind_some] at h
  obtain ⟨u, hdelete, hu⟩ := map_eq_some_iff.mp h
  cases hu
  unfold delete at hdelete
  split at hdelete
  · cases hdelete
  cases hdelete
  rw [hmount, hroot, invali_refcnt, losebs_kern, losebs_kern]
  unfold loseopt
  rw [lose_refcnt, lose_refcnt]
  have hkern : (setfs { s with kern := setmount (synci s.kern dev) diri false } dev none).kern =
      setmount (synci s.kern dev) diri false := rfl
  rw [hkern, setmount_refcnt, (synci_holds s.kern dev).refcnt, List.count_nil, Nat.add_zero]

theorem umount_fsq (h : s.umount dev f = some (e, t)) {d : Nat} (hd : d ≠ dev) :
    t.fsq d = s.fsq d := by
  unfold umount at h
  dsimp only at h
  split at h
  · cases h
    rfl
  · obtain ⟨r, -, hr⟩ := bind_eq_some_iff.mp h
    obtain ⟨u, hdelete, hu⟩ := map_eq_some_iff.mp hr
    cases hu
    exact (delete_fsq hdelete d).trans (if_neg hd)

/-- Nobody but the mount holds an inode of a file system that is unmounted, and the
device is still held afterwards. -/
theorem umounted_devi {u v : Mounts} {d : Nat} {diri devi : Ref} {name : Name}
    (hm : Mounted s t d diri devi) (hu : Settled t u) (h : u.sysumount name = some (0, v))
    (hgone : v.fsq d = none) :
    devi.1 ≠ d ∧ (v.kern.inode devi).refcnt = (s.kern.inode devi).refcnt + 1 := by
  obtain ⟨f, hf, hmount, hroot⟩ := hm.fsq
  have huf : u.fsq d = some f := by rw [hu.fsq, hf]
  unfold sysumount at h
  split at h
  · cases h
  · next hfound =>
    cases h
    rw [(umountfs_holds hfound).2.1, huf] at hgone
    cases hgone
  next d' f' w hfound =>
  obtain ⟨hw, hwfsq, hfs⟩ := umountfs_holds hfound
  have hd : d' = d := by
    by_contra hne
    rw [umount_fsq h (Ne.symm hne), hwfsq, huf] at hgone
    cases hgone
  subst hd
  have hff : f' = f := some.inj ((hfs _ _ rfl).symm.trans huf)
  subst hff
  obtain ⟨htry, hv⟩ := umount_ok hmount hroot h
  have hcount := hm.refcnt devi
  rw [← hu.refcnt devi trivial, ← Nat.add_zero (u.kern.inode devi).refcnt] at hcount
  have hwdevi : (w.kern.inode devi).refcnt = (u.kern.inode devi).refcnt + 0 := hw.refcnt devi
  rw [← hwdevi] at hcount
  have hout : devi.1 ≠ d' := by
    intro hdev
    obtain ⟨d, ino⟩ := devi
    have hdev : d = d' := hdev
    subst hdev
    rw [List.count_cons, List.count_cons_self] at hcount
    have hbusy : (u.kern.inode (d, ino)).refcnt ≠ 0 := by omega
    have hsync := synci_holds w.kern d
    have hrange : ino < ((synci w.kern d).world.fs d).ninode := by
      rw [hsync.ninode, hw.ninode]
      exact hu.range d ino hbusy
    have hfree := tryumount_refcnt htry hrange
    rw [hsync.refcnt, List.count_nil, hroot] at hfree
    by_cases hino : ino = MINIXROOTINO
    · subst hino
      rw [if_pos rfl] at hfree
      rw [if_pos (beq_self_eq_true _)] at hcount
      omega
    · rw [if_neg fun heq => hino (congrArg Prod.snd (some.inj heq)).symm] at hfree
      omega
  refine ⟨hout, ?_⟩
  have hroot' : (d', MINIXROOTINO) ≠ devi := fun heq => hout (heq ▸ rfl)
  rw [List.count_cons_of_ne hroot', List.count_cons_self, List.count_cons, List.count_nil] at hcount
  rw [hv, if_neg (Ne.symm hroot'), hcount]
  by_cases hdiri : diri = devi
  · rw [if_pos (beq_iff_eq.mpr hdiri), if_pos hdiri.symm]
    omega
  · rw [if_neg fun heq => hdiri (beq_iff_eq.mp heq), if_neg (Ne.symm hdiri)]
    omega

/-- The directory `d` and the block device `b` in the root. -/
def nodes : Filesys where
  ninode := 16
  nimap := 16
  imap := fun i => decide (i ≤ 3)
  inode := fun i =>
    if i = MINIXROOTINO then
      { rootInode with
        nlink := 3
        refcnt := 2
        slots := rootInode.slots ++ [⟨2, [0x64]⟩, ⟨3, [0x62]⟩] }
    else if i = 2 then { rootInode with refcnt := 0 }
    else if i = 3 then { blankInode with mode := 0x61C0, nlink := 1, rdev := 1 }
    else blankInode
  zfree := 64

/-- Nothing is mounted but the root. -/
def unmounted : Mounts where
  kern := { Kernel.mkfsKernel with
    world :=
      { fs := fun d =>
          if d = 0 then nodes else mkfs.upd MINIXROOTINO fun i => { i with refcnt := 0 }
        nfree := 8 } }
  fsq _ := none
  bref _ _ := 0

def goodDisk : Disk := ⟨⟨MAGIC, 1, 1⟩, fun _ => false, false⟩

theorem unmounted_range (dev ino : Nat)
    (h : (unmounted.kern.inode (dev, ino)).refcnt ≠ 0) : ino = MINIXROOTINO := by
  by_contra hne
  refine h ?_
  unfold Kernel.inode World.inode unmounted
  dsimp only
  split
  · unfold nodes
    dsimp only
    rw [if_neg hne]
    split
    · rfl
    split
    · rfl
    · rfl
  · rw [Filesys.upd_inode, if_neg hne, mkfs_inode_ne hne]
    rfl

/-- `b` is mounted on `d` and unmounted, with nothing used in between. -/
theorem unmounted_mount : ∃ t v, unmounted.sysmount goodDisk [0x62] [0x64] = some (0, t) ∧
    Settled t t ∧ t.sysumount [0x62] = some (0, v) ∧ v.fsq 1 = none ∧
    (v.kern.inode (0, 3)).refcnt = 1 := by
  have hargs : (unmounted.mountargs [0x62] [0x64]).map (argrefs ∘ Prod.fst) =
      some [(0, 3), (0, 2)] := by
    decide
  have hundo : ((unmounted.sysmount goodDisk [0x62] [0x64]).bind fun x =>
      (x.2.sysumount [0x62]).map fun y =>
        (x.1, y.1, (y.2.fsq 1).isNone, (y.2.kern.inode (0, 3)).refcnt)) =
      some (0, 0, true, 1) := by
    decide
  obtain ⟨⟨e, t⟩, hmount, hrest⟩ := bind_eq_some_iff.mp hundo
  obtain ⟨⟨e', v⟩, humount, hv⟩ := map_eq_some_iff.mp hrest
  simp only [Prod.mk.injEq, isNone_iff_eq_none] at hv
  obtain ⟨rfl, rfl, hgone, hheld⟩ := hv
  refine ⟨t, v, hmount, ⟨⟨fun _ _ => rfl, fun _ _ => rfl, fun _ _ => rfl, rfl⟩, rfl, ?_⟩,
    humount, hgone, hheld⟩
  obtain ⟨⟨x, u⟩, hx, hrefs⟩ := map_eq_some_iff.mp hargs
  cases x with
  | error e => cases hrefs
  | ok p =>
      obtain ⟨diri, devi⟩ := p
      cases hrefs
      have hm := sysmount_ok hx hmount
      intro dev ino hbusy
      rw [hm.ninode]
      have hsmall : ino ≤ 3 := by
        by_contra hbig
        refine hbusy ?_
        have hfree : (unmounted.kern.inode (dev, ino)).refcnt = 0 := by
          by_contra hne
          have hroot := unmounted_range dev ino hne
          rw [hroot, MINIXROOTINO] at hbig
          omega
        rw [hm.refcnt, hfree, Nat.zero_add, List.count_eq_zero]
        intro hmem
        simp only [List.mem_cons, Prod.mk.injEq, MINIXROOTINO, List.not_mem_nil, or_false] at hmem
        rcases hmem with ⟨-, rfl⟩ | ⟨-, rfl⟩ | ⟨-, rfl⟩
        all_goals exact hbig (by decide)
      have hsize : (unmounted.kern.world.fs dev).ninode = 16 := by
        unfold unmounted
        dsimp only
        split
        · rfl
        · rfl
      omega

end Mounts

end Unixlite.Fs
