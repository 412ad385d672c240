import Unixlite.Fs.Dir

/-!
# Opening a file

Port of `lookup` of `fs/dir.cc`, `namei` of `fs/namei.cc`, `fs/open.cc`,
`openregfd`, `openblkfd`, `openchrfd` with the `open` of the drivers, and of
`fdvec_t::put`, for one task and without I/O errors.  `none` is a panic, or a
path the C code does not handle.
-/

namespace Unixlite.Fs

/-! ## Constants -/

def NAMEMAX : Nat := 255
def NOPEN : Nat := 64
def PAGESIZE : Nat := 4096
def MAXBLKDEV : Nat := 8
def MAXCHRDEV : Nat := 8
def TTYMAJOR : Nat := 4

def FDREAD : BitVec 32 := 0x0001
def FDWRITE : BitVec 32 := 0x0002
def FDAPPEND : BitVec 32 := 0x0008
def FDNONBLOCK : BitVec 32 := 0x0010

def OCREAT : BitVec 32 := 0o100
def OEXCL : BitVec 32 := 0o200
def OTRUNC : BitVec 32 := 0o1000
def OAPPEND : BitVec 32 := 0o2000
def ONONBLOCK : BitVec 32 := 0o4000

/-- `/`. -/
def sep : BitVec 8 := 0x2f

def major (dev : Nat) : Nat := dev / 256
def minor (dev : Nat) : Nat := dev % 256

/-! ## Data -/

/-- An inode: device and number. -/
abbrev Ref := Nat × Nat

inductive FdType where
  | regfd
  | blkfd
  | chrfd
deriving DecidableEq

/-- `fdes_t`. -/
structure Fdes where
  type : FdType
  fdflags : BitVec 32
  /-- The inode it was opened on, which a character descriptor does not hold. -/
  inode : Ref
deriving DecidableEq

/-- The character devices: the console and the memory devices. -/
inductive Chrdev where
  | condev
  | memdev
deriving DecidableEq

/-- What `curr` has to do with files. -/
structure Task where
  cred : Cred
  root : Ref
  cwd : Ref
  /-- The session has a terminal. -/
  tty : Bool
  fdvec : Nat → Option Fdes

structure Kernel where
  world : World
  task : Task
  /-- Between a mount point and the root mounted on it. -/
  peer : Ref → Option Ref
  blkdevvec : Nat → Bool
  chrdevvec : Nat → Option Chrdev
  /-- The inodes `open` has truncated, the last one first. -/
  truncated : List Ref

namespace Kernel

/-! ## Inodes -/

def inode (k : Kernel) (r : Ref) : Inode := k.world.inode r.1 r.2

/-- Change the file system of one device. -/
def upd (k : Kernel) (dev : Nat) (f : Vol → Vol) : Kernel :=
  { k with world := k.world.setVol dev (f (k.world.vol dev)) }

def hold (k : Kernel) (r : Ref) : Kernel := k.upd r.1 fun v => v.hold r.2

def lose (k : Kernel) (r : Ref) : Kernel := k.upd r.1 fun v => v.lose r.2

def lookup2 (k : Kernel) (r : Ref) (name : Name) : Except Int (Ref × Kernel) :=
  ((k.world.vol r.1).lookup2 r.2 name).map fun (ino, v) => ((r.1, ino), k.upd r.1 fun _ => v)

def lookup (k : Kernel) (r : Ref) (name : Name) : Option (Except Int (Ref × Kernel)) :=
  if !(k.inode r).isdir then some (.error ENOTDIR)
  else if (k.inode r).deny k.task.cred IX ≠ 0 then some (.error EACCES)
  else if (k.inode r).mounted then none
  else if name = dotdot ∧ r = k.task.root then some (.ok (r, k.hold r))
  else if name = dotdot ∧ r.2 = MINIXROOTINO then
    -- cross from root dir to mount point
    (k.peer r).map fun p => k.lookup2 p name
  else
    match k.lookup2 r name with
    | .error e => some (.error e)
    | .ok (sub, k) =>
        -- cross from mount point to root dir
        if (k.inode sub).mounted then
          (k.peer sub).map fun p => .ok (p, (k.lose sub).hold p)
        else some (.ok (sub, k))

/-! ## `namei` -/

/-- `scanstr_t`: the parts of a path between the slashes. -/
def tokens (pathname : Name) : List Name := (pathname.splitOn sep).filter fun tok => tok != []

/-- The loop of `namei`; with `split` it stops at the last name. -/
def walk (split : Bool) : List Name → Ref → Kernel → Option (Except Int (Ref × Name) × Kernel)
  | [], cwd, k => some (.ok (cwd, []), k)
  | tok :: toks, cwd, k =>
      if !(k.inode cwd).isdir then some (.error ENOTDIR, k.lose cwd)
      else if split && toks.isEmpty then
        if NAMEMAX < tok.length then none else some (.ok (cwd, tok), k)
      else
        match k.lookup cwd tok with
        | none => none
        | some (.error e) => some (.error e, k.lose cwd)
        | some (.ok (sub, k)) => walk split toks sub (k.lose cwd)

def namei (k : Kernel) (split : Bool) (pathname : Name) :
    Option (Except Int (Ref × Name) × Kernel) :=
  if PAGESIZE ≤ pathname.length then none
  else
    let toks := tokens pathname
    if toks.isEmpty && split then some (.error ENOENT, k)
    else
      let cwd := if pathname.head? = some sep then k.task.root else k.task.cwd
      walk split toks cwd (k.hold cwd)

/-! ## Descriptors -/

/-- `truncate()` of an inode that `open` empties. -/
def truncate (k : Kernel) (r : Ref) : Kernel :=
  { k.upd r.1 (fun v => { v with fs := v.fs.truncate r.2 }) with
    truncated := r :: k.truncated }

def openregfd (k : Kernel) (flags : BitVec 32) (r : Ref) : Except Int (Fdes × Kernel) :=
  if (k.inode r).isdir && (flags &&& FDWRITE != 0) then .error EISDIR
  else
    let k := if flags &&& OTRUNC ≠ 0 then k.truncate r else k
    .ok (⟨.regfd, flags, r⟩, k.hold r)

def openblkfd (k : Kernel) (flags : BitVec 32) (r : Ref) : Except Int (Fdes × Kernel) :=
  let rdev := (k.inode r).rdev
  if major rdev < MAXBLKDEV ∧ k.blkdevvec (major rdev) = true then
    .ok (⟨.blkfd, flags, r⟩, k.hold r)
  else .error EINVAL

/-- The `open` of a character device. -/
def chrdevOpen (k : Kernel) (d : Chrdev) (flags : BitVec 32) (r : Ref) :
    Except Int (Fdes × Kernel) :=
  match d with
  | .condev => .ok (⟨.chrfd, flags, r⟩, { k with task := { k.task with tty := true } })
  | .memdev =>
      let m := minor (k.inode r).rdev
      if m = 3 ∨ m = 5 then .ok (⟨.chrfd, flags, r⟩, k) else .error ENODEV

/-- `openchrfd`; the terminal device is the one the session has. -/
def openchrfd (k : Kernel) (flags : BitVec 32) (r : Ref) : Except Int (Fdes × Kernel) :=
  let rdev := (k.inode r).rdev
  if MAXCHRDEV ≤ major rdev then .error EINVAL
  else
    match k.chrdevvec (major rdev) with
    | none => .error EINVAL
    | some d =>
        if major rdev = TTYMAJOR then
          if k.task.tty then k.chrdevOpen .condev flags r else .error EPERM
        else k.chrdevOpen d flags r

def getslot (t : Task) : Option Nat := (List.range NOPEN).find? fun fd => (t.fdvec fd).isNone

/-- The flags `doopen` opens with. -/
def fdflags (flags : BitVec 32) : BitVec 32 :=
  let flags := if flags &&& OAPPEND ≠ 0 then flags ||| FDAPPEND else flags
  if flags &&& ONONBLOCK ≠ 0 then flags ||| FDNONBLOCK else flags

/-- The descriptor `doopen` makes, by the kind of inode. -/
def openfdes (k : Kernel) (flags : BitVec 32) (r : Ref) : Except Int (Fdes × Kernel) :=
  if (k.inode r).isreg || (k.inode r).isdir then k.openregfd flags r
  else if (k.inode r).isblk then k.openblkfd flags r
  else if (k.inode r).ischr then k.openchrfd flags r
  else .error EINVAL

def doopen (k : Kernel) (flags : BitVec 32) (r : Ref) : Int × Kernel :=
  match k.openfdes (fdflags flags) r with
  | .error e => (e, k)
  | .ok (fdes, k) =>
      match getslot k.task with
      | none => (EMFILE, if fdes.type = .chrfd then k else k.lose r)
      | some fd =>
          (fd, { k with task := { k.task with
            fdvec := fun i => if i = fd then some fdes else k.task.fdvec i } })

/-! ## `sysopen` -/

/-- `mkreg` of a new file that is kept. -/
def mkreg (k : Kernel) (dir : Ref) (basename : Name) (mode : BitVec 16) :
    Option (Int × Ref × Kernel) :=
  ((k.world.vol dir.1).mkreg k.task.cred dir.2 basename mode true).map fun (e, ino, v) =>
    (e, (dir.1, ino), k.upd dir.1 fun _ => v)

/-- `sysopen` up to the label `open`: the directory it holds, if any, and the
inode to open. -/
def openleaf (k : Kernel) (pathname : Name) (flags : BitVec 32) (mode : BitVec 16) :
    Option (Except Int (Option Ref × Ref) × Kernel) :=
  if flags &&& OCREAT = 0 then
    (k.namei false pathname).map fun (r, k) => (r.map fun (leaf, _) => (none, leaf), k)
  else
    match k.namei true pathname with
    | none => none
    | some (.error e, k) => some (.error e, k)
    | some (.ok (dir, basename), k) =>
        match k.mkreg dir basename mode with
        | none => none
        | some (e, leaf, k) =>
            if e = 0 then some (.ok (some dir, leaf), k)
            else if e ≠ EEXIST then some (.error e, k.lose dir)
            else if flags &&& OEXCL ≠ 0 then some (.error e, k.lose dir)
            else
              match k.lookup dir basename with
              | none => none
              | some (.error e) => some (.error e, k.lose dir)
              | some (.ok (leaf, k)) => some (.ok (some dir, leaf), k)

def sysopen (k : Kernel) (pathname : Name) (flags : BitVec 32) (mode : BitVec 16) :
    Option (Int × Kernel) :=
  let flags := flags + 1
  (k.openleaf pathname flags mode).map fun (r, k) =>
    match r with
    | .error e => (e, k)
    | .ok (dir, leaf) =>
        let (e, k) := k.doopen flags leaf
        let k := match dir with
          | none => k
          | some dir => k.lose dir
        (e, k.lose leaf)

def syscreat (k : Kernel) (pathname : Name) (mode : BitVec 16) : Option (Int × Kernel) :=
  k.sysopen pathname (OCREAT ||| 1 ||| OTRUNC) mode

end Kernel

end Unixlite.Fs
