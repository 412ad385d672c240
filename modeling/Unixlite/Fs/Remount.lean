import Unixlite.Fs.Icache

/-!
# The inode cache across mounts

Port of `readi`, `lose`, `write`, `synci`, `tryumount` and `invali` of `fs/icache.cc`, of
`mkcommon` of `fs/dir.cc` and of `readfs`, `domount`, `doumount` and the destructor of
`fs/mount.cc`, as far as they go through the inode cache, for one task.  An `fs_t` is the
address it lives at; the address of one that is deleted may come back.  A block may fail
to be read, and is written in the end.  `none` is a use of freed memory, or an event that
cannot happen.

What an inode is is kept beside the system in `truth`.  A slot outlives the `fs_t` in its
key, and when it is found again for another one at the same address only its contents are
read anew, not its device.
-/

namespace Unixlite.Fs.Remount

open Icache (Key Istate Dinode Slot Cache)

def MINIXROOTINO : Nat := 1

/-! ## Data -/

/-- Who has a reference; a mount of a mounted device forgets two. -/
inductive Owner where
  | task
  | nobody
  /-- `root` and `mount` of the `fs_t` at an address. -/
  | root (addr : Nat)
  | mount (addr : Nat)
deriving DecidableEq

/-- A reference, with the key it was taken under. -/
structure Ref where
  slot : Nat
  key : Key
  owner : Owner
deriving DecidableEq

/-- `fs_t`. -/
structure FsT where
  addr : Nat
  dev : Nat
  root : Option Nat
  mount : Option Nat

structure Sys extends Cache where
  allq : List Nat
  fsq : List FsT
  /-- `dev` of the `fs_t` at an address. -/
  mem : Nat → Option Nat
  refs : List Ref
  disk : Nat → Nat → Dinode
  /-- History: what an inode of a device is. -/
  truth : Nat → Nat → Dinode

inductive Event where
  | readi (addr ino : Nat) (ok : Bool)
  /-- `lose`, of the `k`th reference. -/
  | lose (k : Nat)
  /-- Another `Dinode`, by a task that holds the inode. -/
  | setdirty (k : Nat) (di : Dinode)
  | mkcommon (addr ino : Nat) (di : Dinode)
  | sync
  /-- `readfs`, with the address of an `fs_t` that is new; `read` is what `fs_t::read` comes
  to without the root, and `ok` is the root. -/
  | mountroot (dev addr : Nat) (read ok : Bool)
  /-- `domount` on the `k`th reference. -/
  | mount (dev addr k : Nat) (read ok : Bool)
  | umount (dev : Nat)

namespace Sys

/-! ## Inodes -/

def upd (s : Sys) (i : Nat) (f : Slot → Slot) : Sys := { s with toCache := s.toCache.upd i f }

def put (t : Nat → Nat → Dinode) (dev ino : Nat) (di : Dinode) : Nat → Nat → Dinode :=
  fun d j => if d = dev ∧ j = ino then di else t d j

def hold (s : Sys) (g : Ref) : Sys :=
  { s.upd g.slot (fun x => { x with refcnt := x.refcnt + 1 }) with refs := g :: s.refs }

/-- `inode_t::write`. -/
def write (s : Sys) (i : Nat) : Option Sys :=
  if (s.slot i).state ≠ .dirty then some s
  else
    (s.mem (s.slot i).fs).map fun d =>
      { s.upd i (fun x => { x with state := .clean }) with
        disk := put s.disk d (s.slot i).ino (s.slot i).di }

/-- `freeq.enqtail`, of a slot that is not on the list. -/
def tofree (s : Sys) (i : Nat) : Sys :=
  if i ∈ s.freeq then s else { s with freeq := s.freeq ++ [i] }

/-- The end of `lose`; of a free inode there is what the disk has. -/
def release (s : Sys) (i : Nat) : Option Sys :=
  (s.mem (s.slot i).fs).map fun d =>
    { s.upd i (fun x => { x with state := .inval }) with
      truth := put s.truth d (s.slot i).ino (s.disk d (s.slot i).ino) }

/-- One reference less. -/
def drop (s : Sys) (g : Ref) : Sys :=
  { s.upd g.slot (fun x => { x with refcnt := x.refcnt - 1 }) with refs := s.refs.erase g }

def lose (s : Sys) (g : Ref) : Option Sys :=
  let s := s.drop g
  if (s.slot g.slot).refcnt ≠ 0 then some s
  else
    let s := s.tofree g.slot
    if (s.slot g.slot).state = .inval ∨ (s.slot g.slot).di.nlink ≠ 0 then some s
    else s.release g.slot

/-- The end of `geti`. -/
def take (s : Sys) (i : Nat) (key : Key) : Option Sys :=
  (s.mem key.1).map fun d =>
    { s with toCache := s.toCache.take i key d, refs := ⟨i, key, .task⟩ :: s.refs }

/-- `geti`.  Nobody else runs while a slot is written, so that the next turn takes it
(`Icache.scan_write`). -/
def geti (s : Sys) (key : Key) : Option (Option Nat × Sys) :=
  match s.findi key with
  | some i =>
      some (some i, { s.hold ⟨i, key, .task⟩ with freeq := s.freeq.erase i })
  | none =>
      match Cache.scan s.slot 8 s.freeq with
      | .full => some (none, s)
      | .wait .. => none
      | .write i _ => ((s.write i).bind fun s => s.take i key).map fun s => (some i, s)
      | .take i => (s.take i key).map fun s => (some i, s)

/-- `inode_t::read`, of an inode without contents. -/
def fill (s : Sys) (i : Nat) (key : Key) : Option Sys :=
  (s.mem key.1).map fun d =>
    s.upd i fun x => { x with state := .clean, di := s.disk d key.2 }

def readi (s : Sys) (key : Key) (ok : Bool) : Option (Option Nat × Sys) :=
  match s.geti key with
  | none => none
  | some (none, s) => some (none, s)
  | some (some i, s) =>
      if (s.slot i).state ≠ .inval then some (some i, s)
      else if ok then (s.fill i key).map fun s => (some i, s)
      else (s.lose ⟨i, key, .task⟩).map fun s => (none, s)

/-- `synci`, of these slots. -/
def synci : List Nat → Sys → Option Sys
  | [], s => some s
  | i :: q, s =>
      let g : Ref := ⟨i, (s.slot i).key, .task⟩
      (((s.hold g).write i).bind fun s => s.lose g).bind (synci q)

/-! ## File systems -/

def findfs (s : Sys) (dev : Nat) : Option FsT := s.fsq.find? fun f => f.dev == dev

def setfs (s : Sys) (f : FsT) : Sys :=
  { s with fsq := s.fsq.map fun g => if g.addr = f.addr then f else g }

/-- A reference changes hands. -/
def own (s : Sys) (g : Ref) (o : Owner) : Sys :=
  { s with refs := { g with owner := o } :: s.refs.erase g }

/-- The references of an `fs_t`. -/
def rootref (f : FsT) : Option Ref :=
  f.root.map fun i => ⟨i, (f.addr, MINIXROOTINO), .root f.addr⟩

def mountref (s : Sys) (f : FsT) : Option Ref :=
  f.mount.map fun i => ⟨i, (s.slot i).key, .mount f.addr⟩

def disown (s : Sys) : Option Ref → Sys
  | none => s
  | some g => s.own g .nobody

def loseopt (s : Sys) : Option Ref → Option Sys
  | none => some s
  | some g => s.lose g

/-- The destructor. -/
def delete (s : Sys) (f : FsT) : Option Sys :=
  let s := { s with fsq := s.fsq.filter fun g => g.addr != f.addr }
  ((s.loseopt (s.mountref f)).bind fun s => s.loseopt (rootref f)).map fun s =>
    { s with mem := fun a => if a = f.addr then none else s.mem a }

/-- `findfs`, or a new `fs_t`. -/
def findnew (s : Sys) (dev addr : Nat) : Option (FsT × Sys) :=
  match s.findfs dev with
  | some f => some (f, s)
  | none =>
      if addr = 0 ∨ s.mem addr ≠ none then none
      else
        let f : FsT := ⟨addr, dev, none, none⟩
        some (f, { s with
          fsq := s.fsq ++ [f]
          mem := fun a => if a = addr then some dev else s.mem a })

/-- `readfs` behind `findfs`. -/
def readfs (s : Sys) (f : FsT) (read ok : Bool) : Option (Option FsT × Sys) :=
  if !read then (s.delete f).map fun s => (none, s)
  else
    match s.readi (f.addr, MINIXROOTINO) ok with
    | none => none
    | some (none, s) =>
        ((s.disown (rootref f)).delete { f with root := none }).map fun s => (none, s)
    | some (some i, s) =>
        let s := (s.disown (rootref f)).own ⟨i, (f.addr, MINIXROOTINO), .task⟩ (.root f.addr)
        let f := { f with root := some i }
        some (some f, s.setfs f)

/-- The end of `domount`. -/
def attach (s : Sys) (f : FsT) (root : Nat) (diri : Ref) : Sys :=
  let s := (s.disown (s.mountref f)).own diri (.mount f.addr)
  let s := s.setfs { f with mount := some diri.slot }
  let s := s.upd root fun x => { x with peer := some diri.slot }
  s.upd diri.slot fun x => { x with peer := some root, mount := true }

def tryumount (s : Sys) (f : FsT) : Bool :=
  s.allq.all fun i => (s.slot i).fs != f.addr ||
    (s.slot i).refcnt == if f.root = some i then 1 else 0

/-- `invali`, of an address. -/
def invali (s : Sys) (addr : Nat) : Sys :=
  { s with slot := fun i =>
      if (s.slot i).fs = addr then { s.slot i with state := .inval } else s.slot i }

/-- `doumount`, with the file system found. -/
def doumount (s : Sys) (f : FsT) : Option Sys :=
  match synci (s.allq.filter fun i => (s.slot i).fs == f.addr) s with
  | none => none
  | some s =>
      if !s.tryumount f then some s
      else
        f.mount.bind fun m =>
          ((s.upd m fun x => { x with mount := false }).delete f).map fun s => s.invali f.addr

/-! ## Steps -/

/-- A reference of a task. -/
def taskref (s : Sys) (k : Nat) : Option Ref :=
  (s.refs[k]?).bind fun g => if g.owner = .task then some g else none

def step (s : Sys) : Event → Option Sys
  | .readi a ino ok => if s.mem a = none then none else (s.readi (a, ino) ok).map Prod.snd
  | .lose k => (s.taskref k).bind fun g => s.lose g
  | .setdirty k di =>
      (s.taskref k).bind fun g =>
        (s.mem g.key.1).map fun d =>
          { s.upd g.slot (fun x => { x with state := .dirty, di := di }) with
            truth := put s.truth d g.key.2 di }
  | .mkcommon a ino di =>
      (s.mem a).map fun d =>
        if (s.findi (a, ino)).any fun i => (s.slot i).state != .inval then s
        else { s with disk := put s.disk d ino di, truth := put s.truth d ino di }
  | .sync => synci s.allq s
  | .mountroot d a read ok =>
      (s.findnew d a).bind fun x => (x.2.readfs x.1 read ok).map Prod.snd
  | .mount d a k read ok =>
      (s.taskref k).bind fun diri =>
        if !(s.slot diri.slot).di.isdir then some s
        else
          (s.findnew d a).bind fun x =>
            (x.2.readfs x.1 read ok).map fun y =>
              match y.1 with
              | none => y.2
              | some f => (f.root.map fun root => y.2.attach f root diri).getD y.2
  | .umount d =>
      match s.findfs d with
      | none => some s
      | some f => s.doumount f

/-- No inode is in the cache, and nothing is mounted. -/
def boot (n : Nat) (disk : Nat → Nat → Dinode) : Sys :=
  { Cache.boot n with
    allq := List.range n
    fsq := []
    mem := fun _ => none
    refs := []
    disk := disk
    truth := disk }

/-! ## What is promised -/

/-- What `readi` has returned is the inode asked for, from the device of its file system, and
no two slots are one inode. -/
structure Safe (s : Sys) : Prop where
  refs : ∀ g ∈ s.refs, (s.slot g.slot).key = g.key ∧ ∃ d, s.mem g.key.1 = some d ∧
    (s.slot g.slot).dev = d ∧ (s.slot g.slot).di = s.truth d g.key.2
  unique : ∀ i ∈ s.allq, ∀ j ∈ s.allq, (s.slot i).key = (s.slot j).key → i = j

/-- A call of `readi` that can read its block, with the state it begins in. -/
def enters (s : Sys) : Event → Option (Sys × Key)
  | .readi a ino ok => if s.mem a = none ∨ !ok then none else some (s, (a, ino))
  | .mountroot d a read ok =>
      if !read || !ok then none
      else (s.findnew d a).map fun x => (x.2, (x.1.addr, MINIXROOTINO))
  | .mount d a k read ok =>
      (s.taskref k).bind fun diri =>
        if !(s.slot diri.slot).di.isdir || !read || !ok then none
        else (s.findnew d a).map fun x => (x.2, (x.1.addr, MINIXROOTINO))
  | _ => none

/-- The slot that is found, if any, is not one that an earlier `fs_t` at this address has
left behind for another device. -/
def Fine (s : Sys) (e : Event) : Prop :=
  ∀ t key, s.enters e = some (t, key) → ∀ i, t.findi key = some i →
    t.mem key.1 = some (t.slot i).dev

/-- A mount of a mounted device does not fail. -/
def Remounts (s : Sys) : Event → Prop
  | .mountroot d _ read ok | .mount d _ _ read ok =>
      s.findfs d ≠ none → read = true ∧ ok = true
  | _ => True

end Sys

end Unixlite.Fs.Remount
