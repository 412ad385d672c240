import Mathlib.Data.BitVec
import Unixlite.Lib.Errno

/-!
# Inodes and the inode cache

Port of the parts of `fs/inode.h`, `fs/inode.cc`, `fs/icache.cc`, `fs/fs.cc`
and `fs/trunc.cc` that the directory operations rest on, without I/O errors.

An `Inode` is the logical inode: the cached copy if there is one, else the one
on disk.  A directory's content is the list of its 32-byte slots; of a file's
content only its size and the number of zones it takes are kept.  The inode
cache appears as the number of slots nobody holds: `readi` fails with ENFILE
when it needs one and there is none.
-/

namespace Unixlite.Fs

/-! ## Constants -/

def LINKMAX : Nat := 127
def MINIXNAMELEN : Nat := 29
def MINIXROOTINO : Nat := 1
def MINIXFREEINO : Nat := 0
def MINIXEND0 : Nat := 7
def MINIXEND1 : Nat := 263
def MINIXEND2 : Nat := 65799

/-- Directory entries in a block. -/
def DEPERBLOCK : Nat := 32

def SIFMT : BitVec 16 := 0xF000
def SIFREG : BitVec 16 := 0x8000
def SIFBLK : BitVec 16 := 0x6000
def SIFDIR : BitVec 16 := 0x4000
def SIFCHR : BitVec 16 := 0x2000
def SISVTX : BitVec 16 := 0x0200

def IR : BitVec 16 := 4
def IW : BitVec 16 := 2
def IX : BitVec 16 := 1

/-! ## Data -/

/-- A file name, a C string without its terminator. -/
abbrev Name := List (BitVec 8)

def dot : Name := [0x2e]
def dotdot : Name := [0x2e, 0x2e]

/-- `minixde_t`. -/
structure De where
  ino : Nat
  name : Name
deriving DecidableEq

/-- `inode_t`. -/
structure Inode where
  mode : BitVec 16
  nlink : Nat
  uid : BitVec 16
  gid : BitVec 16
  /-- Of a file; a directory has 32 bytes for each slot. -/
  size : Nat
  rdev : Nat
  slots : List De
  zones : Nat
  refcnt : Nat
  /-- The cache has a valid copy. -/
  cached : Bool
  /-- `IMOUNT`. -/
  mounted : Bool
deriving DecidableEq

/-- The identity of `curr`; `sysumask` keeps nine bits of the mask. -/
structure Cred where
  uid : BitVec 16
  gid : BitVec 16
  euid : BitVec 16
  egid : BitVec 16
  umask : BitVec 9

/-- `fs_t`: the inode bitmap, the inodes and the number of free zones. -/
structure Filesys where
  ninode : Nat
  /-- Number of bits of the inode bitmap. -/
  nimap : Nat
  imap : Nat → Bool
  inode : Nat → Inode
  zfree : Nat

/-- A file system and the number of slots of the inode cache nobody holds. -/
structure Vol where
  fs : Filesys
  nfree : Nat

/-! ## Inodes -/

namespace Inode

def isdir (i : Inode) : Bool := i.mode &&& SIFMT == SIFDIR
def isreg (i : Inode) : Bool := i.mode &&& SIFMT == SIFREG
def isblk (i : Inode) : Bool := i.mode &&& SIFMT == SIFBLK
def ischr (i : Inode) : Bool := i.mode &&& SIFMT == SIFCHR

def deny (i : Inode) (c : Cred) (request : BitVec 16) : Int :=
  let granted :=
    if c.euid = i.uid then i.mode >>> 6
    else if c.egid = i.gid then i.mode >>> 3
    else i.mode
  if request &&& (granted &&& 7) = request then 0 else EACCES

def denyunlink (i : Inode) (c : Cred) (child : Inode) : Int :=
  if i.mode &&& SISVTX ≠ 0 then i.deny c IW
  else if c.euid = 0 ∨ (c.euid = i.uid ∧ c.euid = child.uid) then 0
  else EACCES

/-- `decnlink`; at 0 it only warns. -/
def decnlink (i : Inode) : Inode := { i with nlink := i.nlink - 1 }

end Inode

/-! ## File systems -/

namespace Filesys

/-- Change one inode. -/
def upd (fs : Filesys) (ino : Nat) (f : Inode → Inode) : Filesys :=
  { fs with inode := fun x => if x = ino then f (fs.inode x) else fs.inode x }

def slots (fs : Filesys) (ino : Nat) : List De := (fs.inode ino).slots

/-- An inode that exists: its number is in range and its bit is set. -/
def Alloc (fs : Filesys) (ino : Nat) : Prop := 1 ≤ ino ∧ ino < fs.ninode ∧ fs.imap ino = true

/-- `alloci`: the first clear bit. -/
def alloci (fs : Filesys) : Option (Nat × Filesys) :=
  ((List.range fs.nimap).find? fun i => !fs.imap i).map fun ino =>
    (ino, { fs with imap := fun x => if x = ino then true else fs.imap x })

/-- `freei`; a number out of range, or already free, only gives a warning. -/
def freei (fs : Filesys) (ino : Nat) : Filesys :=
  if ino = 0 ∨ fs.ninode ≤ ino then fs
  else { fs with imap := fun x => if x = ino then false else fs.imap x }

/-- `truncate()`. -/
def truncate (fs : Filesys) (ino : Nat) : Filesys :=
  let i := fs.inode ino
  if !i.isreg && !i.isdir then fs
  else
    { fs.upd ino (fun i => { i with size := 0, slots := [], zones := 0 }) with
      zfree := fs.zfree + i.zones }

/-- The entry in slot `k`. -/
def de (fs : Filesys) (dir k : Nat) : De := (fs.slots dir).getD k ⟨MINIXFREEINO, []⟩

/-- Fill slot `k`. -/
def setde (fs : Filesys) (dir k : Nat) (de : De) : Filesys :=
  fs.upd dir fun i => { i with slots := i.slots.set k de }

/-- `findde`: the first live slot with that name. -/
def findde (fs : Filesys) (dir : Nat) (name : Name) : Option Nat :=
  (fs.slots dir).findIdx? fun de => de.ino != MINIXFREEINO && de.name == name

/-- `emptydir`: no live slot after the first two. -/
def emptydir (fs : Filesys) (ino : Nat) : Bool :=
  ((fs.slots ino).drop 2).all fun de => de.ino == MINIXFREEINO

end Filesys

/-! ## The inode cache -/

namespace Vol

def upd (v : Vol) (ino : Nat) (f : Inode → Inode) : Vol := { v with fs := v.fs.upd ino f }

/-- `hold`, of an inode that is held already. -/
def hold (v : Vol) (ino : Nat) : Vol :=
  v.upd ino fun i => { i with refcnt := i.refcnt + 1 }

def readi (v : Vol) (ino : Nat) : Except Int Vol :=
  let i := v.fs.inode ino
  if i.refcnt = 0 ∧ v.nfree = 0 then .error ENFILE
  else if !i.cached && decide (v.fs.ninode ≤ ino) then .error EINVAL
  else
    .ok { v.upd ino (fun i => { i with refcnt := i.refcnt + 1, cached := true }) with
      nfree := if i.refcnt = 0 then v.nfree - 1 else v.nfree }

/-- `lose`.  The last holder of an inode without links releases it. -/
def lose (v : Vol) (ino : Nat) : Vol :=
  let v := v.upd ino fun i => { i with refcnt := i.refcnt - 1 }
  let i := v.fs.inode ino
  if i.refcnt ≠ 0 then v
  else
    let v := { v with nfree := v.nfree + 1 }
    if !i.cached || i.nlink ≠ 0 then v
    else
      { v with
        fs := ((v.fs.truncate ino).freei ino).upd ino fun i => { i with cached := false } }

end Vol

end Unixlite.Fs
