import Unixlite.Fs.Inode

/-!
# Directory operations

Port of `fs/dir.cc`, for one task and without I/O errors.  `none` is a panic or
a loop without end; an operation that fails returns its error with the state it
leaves.  `hardlink2` and `rename2` name two directories, which may be on
different devices, and so work on the whole `World`.
-/

namespace Unixlite.Fs

/-! ## Entries -/

/-- Zones that `writemap` allocates for a new last block number `logic`: the
block, and each index block that begins with it. -/
def zonecost (logic : Nat) : Nat :=
  if logic < MINIXEND0 then 1
  else if logic < MINIXEND1 then (if logic = MINIXEND0 then 2 else 1)
  else if logic < MINIXEND2 then
    if logic = MINIXEND1 then 3
    else if (logic - MINIXEND1) % 256 = 0 then 2
    else 1
  else if logic = MINIXEND2 then 4
  else if (logic - MINIXEND2) % (256 * 256) = 0 then 3
  else if (logic - MINIXEND2) % 256 = 0 then 2
  else 1

namespace Vol

/-- The entry `addde` makes room for: a free slot, or one more slot at the end.
Without a zone for that, or without any slot, the scan runs off the end and
panics. -/
def freede (v : Vol) (dir : Nat) : Option (Nat × Vol) :=
  let slots := v.fs.slots dir
  match slots.findIdx? fun de => de.ino == MINIXFREEINO with
  | some k => some (k, v)
  | none =>
      let cost :=
        if slots.length % DEPERBLOCK = 0 then zonecost (slots.length / DEPERBLOCK) else 0
      if slots = [] ∨ v.fs.zfree < cost then none
      else
        let fs := v.fs.upd dir fun i =>
          { i with slots := i.slots ++ [⟨MINIXFREEINO, []⟩], zones := i.zones + cost }
        some (slots.length, { v with fs := { fs with zfree := fs.zfree - cost } })

/-- The checks of `addde`. -/
def addcheck (v : Vol) (dir : Nat) (name : Name) : Int :=
  if MINIXNAMELEN < name.length then ENAMETOOLONG
  else if name = [] then EPERM
  else if (v.fs.findde dir name).isSome then EEXIST
  else 0

/-- `addde(name, newino)`, after the checks. -/
def addde (v : Vol) (dir : Nat) (name : Name) (newino : Nat) : Option Vol :=
  (v.freede dir).map fun (k, v) => { v with fs := v.fs.setde dir k ⟨newino, name⟩ }

def lookup2 (v : Vol) (dir : Nat) (name : Name) : Except Int (Nat × Vol) :=
  match v.fs.findde dir name with
  | none => .error ENOENT
  | some k =>
      let ino := (v.fs.de dir k).ino
      (v.readi ino).map fun v => (ino, v)

/-! ## Linking and unlinking -/

/-- `hardlink2` of an inode on the same device. -/
def hardlink2 (v : Vol) (dir : Nat) (basename : Name) (oldi : Nat) : Option (Int × Vol) :=
  if (v.fs.inode oldi).isdir then some (EPERM, v)
  else if LINKMAX ≤ (v.fs.inode oldi).nlink then some (EMLINK, v)
  else if v.addcheck dir basename ≠ 0 then some (v.addcheck dir basename, v)
  else
    (v.addde dir basename oldi).map fun v =>
      (0, v.upd oldi fun i => { i with nlink := i.nlink + 1 })

def unlink2 (v : Vol) (c : Cred) (dir : Nat) (name : Name) : Int × Vol :=
  if !(v.fs.inode dir).isdir then (ENOTDIR, v)
  else
    match v.fs.findde dir name with
    | none => (ENOENT, v)
    | some k =>
        let de := v.fs.de dir k
        match v.readi de.ino with
        | .error e => (e, v)
        | .ok v =>
            let child := v.fs.inode de.ino
            if (v.fs.inode dir).denyunlink c child ≠ 0 then (EPERM, v.lose de.ino)
            else if child.isdir then (EPERM, v.lose de.ino)
            else
              let v := (v.upd de.ino Inode.decnlink).lose de.ino
              (0, { v with fs := v.fs.setde dir k { de with ino := MINIXFREEINO } })

/-! ## Making -/

def typemode (t m : BitVec 16) : BitVec 16 := t ||| (m &&& ~~~SIFMT)

/-- The inode `mkcommon` writes. -/
def newinode (c : Cred) (mode : BitVec 16) (i : Inode) : Inode :=
  { i with
    mode := mode &&& ~~~(c.umask.zeroExtend 16)
    nlink := if mode &&& SIFMT = SIFDIR then 2 else 1
    uid := c.uid
    gid := c.gid
    size := 0
    rdev := 0
    slots := []
    zones := 0 }

/-- `mkcommon`; with `keep` the new inode is returned, held.  The entry is there
before `readi` can fail. -/
def mkcommon (v : Vol) (c : Cred) (dir : Nat) (name : Name) (mode : BitVec 16)
    (keep : Bool) : Option (Int × Nat × Vol) :=
  if (v.fs.inode dir).mounted then none
  else if !(v.fs.inode dir).isdir then some (ENOTDIR, 0, v)
  else if (v.fs.inode dir).deny c IW ≠ 0 then some (EACCES, 0, v)
  else
    match v.fs.alloci with
    | none => some (ENOSPC, 0, v)
    | some (newino, fs) =>
        let v : Vol := { v with fs := fs }
        let back : Vol := { v with fs := fs.freei newino }
        if (fs.inode newino).cached then some (EINVAL, 0, back)
        else if fs.ninode ≤ newino then some (EINVAL, 0, back)
        else if v.addcheck dir name ≠ 0 then some (v.addcheck dir name, 0, back)
        else
          (v.addde dir name newino).map fun v =>
            let v := v.upd newino (newinode c mode)
            if !keep then (0, newino, v)
            else
              match v.readi newino with
              | .error e => (e, newino, v)
              | .ok v => (0, newino, v)

def mkreg (v : Vol) (c : Cred) (dir : Nat) (name : Name) (mode : BitVec 16) (keep : Bool) :
    Option (Int × Nat × Vol) :=
  v.mkcommon c dir name (typemode SIFREG mode) keep

def mkdir (v : Vol) (c : Cred) (dir : Nat) (name : Name) (mode : BitVec 16) :
    Option (Int × Vol) :=
  if !(v.fs.inode dir).isdir then some (ENOTDIR, v)
  else if LINKMAX ≤ (v.fs.inode dir).nlink then some (EMLINK, v)
  else if v.fs.zfree = 0 then some (ENOSPC, v)
  else
    let v := { v with fs := { v.fs with zfree := v.fs.zfree - 1 } }
    (v.mkcommon c dir name (typemode SIFDIR mode) true).map fun (e, ino, v) =>
      if e ≠ 0 then (e, { v with fs := { v.fs with zfree := v.fs.zfree + 1 } })
      else
        let v := (v.upd ino fun i =>
          { i with nlink := 2, slots := [⟨ino, dot⟩, ⟨dir, dotdot⟩], zones := 1 }).lose ino
        (0, v.upd dir fun i => { i with nlink := i.nlink + 1 })

/-! ## Removing a directory -/

def rmdir2 (v : Vol) (c : Cred) (dir : Nat) (name : Name) : Option (Int × Vol) :=
  if (v.fs.inode dir).mounted then none
  else if !(v.fs.inode dir).isdir then some (ENOTDIR, v)
  else
    match v.fs.findde dir name with
    | none => some (ENOENT, v)
    | some k =>
        let de := v.fs.de dir k
        match v.readi de.ino with
        | .error e => some (e, v)
        | .ok v =>
            let child := v.fs.inode de.ino
            if (v.fs.inode dir).denyunlink c child ≠ 0 then some (EPERM, v.lose de.ino)
            else if !child.isdir then some (ENOTDIR, v.lose de.ino)
            else if 1 < child.refcnt then some (EBUSY, v.lose de.ino)
            else if !v.fs.emptydir de.ino then some (ENOTEMPTY, v.lose de.ino)
            else
              let v := v.upd dir Inode.decnlink
              let v := v.upd de.ino fun i => { i with nlink := 0 }
              let v := { v with fs := v.fs.setde dir k { de with ino := MINIXFREEINO } }
              some (0, v.lose de.ino)

/-! ## Renaming -/

/-- The loop of `parentchild`, with `c` held.  A chain longer than the number of
inodes never ends. -/
def climb (p : Nat) : Nat → Nat → Vol → Option (Bool × Vol)
  | 0, _, _ => none
  | fuel + 1, c, v =>
      if c = MINIXROOTINO then some (false, v.lose c)
      else if c = p then some (true, v.lose c)
      else
        match v.lookup2 c dotdot with
        | .error _ => some (false, v.lose c)
        | .ok (sub, v) => climb p fuel sub (v.lose c)

/-- `parentchild`: whether `p` is `c` or above it; false after an error. -/
def parentchild (v : Vol) (p c : Nat) : Option (Bool × Vol) :=
  climb p (v.fs.ninode + 1) c (v.hold c)

/-- `rename2` from the point on where both names have been looked up: `k` is the
old entry, `m` the slot of the new one. -/
def movede (v : Vol) (olddir k newdir m : Nat) (newname : Name) (oldi : Nat) : Vol :=
  let v := if (v.fs.inode oldi).isdir then v.upd olddir Inode.decnlink else v
  let oldino := (v.fs.de olddir k).ino
  let fs := v.fs.setde olddir k ⟨MINIXFREEINO, []⟩
  Vol.lose { v with fs := fs.setde newdir m ⟨oldino, newname⟩ } oldi

/-- `rename2` with an existing `newname` in slot `m`.  On an error `newi` stays
held. -/
def renameOver (v : Vol) (olddir k newdir m : Nat) (newname : Name) (oldi : Nat) :
    Int × Vol :=
  let newino := (v.fs.de newdir m).ino
  match v.readi newino with
  | .error e => (e, v.lose oldi)
  | .ok v =>
      let newi := v.fs.inode newino
      if (v.fs.inode oldi).isdir != newi.isdir then (ENOTDIR, v.lose oldi)
      else if newi.isdir && !v.fs.emptydir newino then (ENOTEMPTY, v.lose oldi)
      else if newi.isdir && decide (1 < newi.refcnt) then (EBUSY, v.lose oldi)
      else
        let v := (v.upd newino fun i => { i with nlink := 0 }).lose newino
        (0, v.movede olddir k newdir m newname oldi)

/-- `rename2` without an existing `newname`.  When `addde` fails, `newdir` loses
a link whether it has been given one or not. -/
def renameNew (v : Vol) (olddir k newdir : Nat) (newname : Name) (oldi : Nat) :
    Option (Int × Vol) :=
  if (v.fs.inode oldi).isdir && decide (LINKMAX ≤ (v.fs.inode newdir).nlink) then
    some (EMLINK, v.lose oldi)
  else
    let v := if (v.fs.inode oldi).isdir then
      v.upd newdir fun i => { i with nlink := i.nlink + 1 } else v
    if v.addcheck newdir newname ≠ 0 then
      some (v.addcheck newdir newname, (v.upd newdir Inode.decnlink).lose oldi)
    else (v.freede newdir).map fun (m, v) => (0, v.movede olddir k newdir m newname oldi)

/-- `rename2` of two directories on the same device. -/
def rename2 (v : Vol) (olddir : Nat) (oldname : Name) (newdir : Nat) (newname : Name) :
    Option (Int × Vol) :=
  if olddir = newdir ∧ oldname = newname then some (EINVAL, v)
  else if oldname = [] ∨ oldname = dot ∨ oldname = dotdot then some (EPERM, v)
  else if newname = [] ∨ newname = dot ∨ newname = dotdot then some (EPERM, v)
  else
    match v.fs.findde olddir oldname with
    | none => some (ENOENT, v)
    | some k =>
        let oldi := (v.fs.de olddir k).ino
        match v.readi oldi with
        | .error e => some (e, v)
        | .ok v =>
            let climbed :=
              if (v.fs.inode oldi).isdir then v.parentchild oldi newdir else some (false, v)
            climbed.bind fun (child, v) =>
              if child then some (EINVAL, v.lose oldi)
              else
                match v.fs.findde newdir newname with
                | some m => some (v.renameOver olddir k newdir m newname oldi)
                | none => v.renameNew olddir k newdir newname oldi

end Vol

/-! ## Several devices -/

/-- All mounted file systems, by device, and the inode cache they share. -/
structure World where
  fs : Nat → Filesys
  nfree : Nat

namespace World

def vol (w : World) (dev : Nat) : Vol := ⟨w.fs dev, w.nfree⟩

def setVol (w : World) (dev : Nat) (v : Vol) : World where
  fs := fun d => if d = dev then v.fs else w.fs d
  nfree := v.nfree

def inode (w : World) (dev ino : Nat) : Inode := (w.fs dev).inode ino

/-- An operation on one device. -/
def on (w : World) (dev : Nat) (f : Vol → Option (Int × Vol)) : Option (Int × World) :=
  (f (w.vol dev)).map fun (e, v) => (e, w.setVol dev v)

def hardlink2 (w : World) (dev dir : Nat) (basename : Name) (odev oldi : Nat) :
    Option (Int × World) :=
  if !(w.inode dev dir).isdir then some (ENOTDIR, w)
  else if dev ≠ odev then some (EXDEV, w)
  else w.on dev fun v => v.hardlink2 dir basename oldi

def rename2 (w : World) (c : Cred) (dev olddir : Nat) (oldname : Name) (ndev newdir : Nat)
    (newname : Name) : Option (Int × World) :=
  if (w.inode dev olddir).mounted || (w.inode ndev newdir).mounted then none
  else if !(w.inode dev olddir).isdir || !(w.inode ndev newdir).isdir then some (ENOTDIR, w)
  else if (w.inode dev olddir).deny c (IR ||| IW ||| IX) ≠ 0
      ∨ (w.inode ndev newdir).deny c (IR ||| IW ||| IX) ≠ 0 then some (EACCES, w)
  else if dev ≠ ndev then some (EXDEV, w)
  else w.on dev fun v => v.rename2 olddir oldname newdir newname

end World

end Unixlite.Fs
