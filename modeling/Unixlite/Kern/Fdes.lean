import Mathlib.Data.BitVec
import Unixlite.Lib.Errno
import Unixlite.Verified.Refcount

/-!
# File descriptors

Port of `kern/fdes.h` and `kern/fdes.cc`, of the reference counts of
`kern/pipe.cc` and of `doopen`.  Descriptor objects and pipes are known by
numbers, which are handed out in order and never again; a number that is no
longer in its table stands for a pointer to freed memory.  What happens to
inodes and buffers is left out, and so are the TCP sockets, whose `lose` is not
the one of `fdes_t`.
-/

namespace Unixlite.Files

open Function (update)

/-! ## Data -/

def NOPEN : Nat := 64

def FDREAD : BitVec 32 := 0x0001
def FDWRITE : BitVec 32 := 0x0002
def FDAPPEND : BitVec 32 := 0x0008
def FDNONBLOCK : BitVec 32 := 0x0010

def OAPPEND : BitVec 32 := 0x400
def ONONBLOCK : BitVec 32 := 0x800

def FDUPFD : Int := 0
def FGETFD : Int := 1
def FSETFD : Int := 2
def FGETFL : Int := 3
def FSETFL : Int := 4

/-- What `doopen` can open. -/
inductive Filetype where
  | reg | blk | chr
deriving DecidableEq, Repr

/-- `type` of a descriptor, with the `pipe_t` of a `pipefd_t`. -/
inductive Fdtype where
  | file (t : Filetype)
  | sock
  | pipe (q : Nat)
deriving DecidableEq, Repr

/-- `fdes_t`. -/
structure Fdes where
  type : Fdtype
  fdflags : BitVec 32
  refcnt : Nat
deriving DecidableEq, Repr

/-- The counts of `pipe_t`. -/
structure Pipe where
  nreader : Nat
  nwriter : Nat
deriving DecidableEq, Repr

/-- `fdvec_t`; only the slots below `NOPEN` are used. -/
structure Fdvec where
  vec : Nat → Option Nat
  closemap : Nat → Bool

/-- `fdvec_t::fdvec_t`. -/
def Fdvec.new : Fdvec where
  vec := fun _ => none
  closemap := fun _ => false

/-- The descriptor objects, the pipes and the tables.  Process numbers are
handed out in order as well; the table of a process that is not alive is
empty. -/
structure Sys where
  nproc : Nat
  alive : Nat → Bool
  fdvec : Nat → Fdvec
  nfdes : Nat
  fdes : Nat → Option Fdes
  npipe : Nat
  pipe : Nat → Option Pipe

/-- What the kernel must not do. -/
inductive Fault where
  /-- A deleted object is used. -/
  | freed
  | assertion
  /-- `vec` is read or written outside its bounds. -/
  | outside
deriving DecidableEq, Repr

namespace Sys

/-- Slot `x.2` of process `x.1`. -/
def slot (s : Sys) (x : Nat × Nat) : Option Nat := (s.fdvec x.1).vec x.2

def setVec (s : Sys) (p i : Nat) (v : Option Nat) : Sys :=
  let x := { s.fdvec p with vec := update (s.fdvec p).vec i v }
  { s with fdvec := update s.fdvec p x }

def setClose (s : Sys) (p i : Nat) (b : Bool) : Sys :=
  let x := { s.fdvec p with closemap := update (s.fdvec p).closemap i b }
  { s with fdvec := update s.fdvec p x }

def setFdes (s : Sys) (o : Nat) (d : Option Fdes) : Sys :=
  { s with fdes := update s.fdes o d }

def setPipe (s : Sys) (q : Nat) (x : Option Pipe) : Sys :=
  { s with pipe := update s.pipe q x }

/-- `tstbit`: `sbb` of a register with itself gives minus the bit. -/
def tst (s : Sys) (p i : Nat) : Int := if (s.fdvec p).closemap i then -1 else 0

/-! ## `fdes_t` and `pipe_t` -/

/-- `pipe_t::rlose`; `delete this` leaves nothing. -/
def rlose (s : Sys) (q : Nat) : Except Fault Sys :=
  match s.pipe q with
  | none => .error .freed
  | some x =>
      if x.nreader = 0 then .error .assertion
      else
        let x := { x with nreader := x.nreader - 1 }
        if x.nreader ≠ 0 then .ok (s.setPipe q (some x))
        else if x.nwriter = 0 then .ok (s.setPipe q none)
        else .ok (s.setPipe q (some x))

/-- `pipe_t::wlose`. -/
def wlose (s : Sys) (q : Nat) : Except Fault Sys :=
  match s.pipe q with
  | none => .error .freed
  | some x =>
      if x.nwriter = 0 then .error .assertion
      else
        let x := { x with nwriter := x.nwriter - 1 }
        if x.nwriter ≠ 0 then .ok (s.setPipe q (some x))
        else if x.nreader = 0 then .ok (s.setPipe q none)
        else .ok (s.setPipe q (some x))

/-- `delete` of a descriptor: the destructor of its type. -/
def destroy (s : Sys) (o : Nat) (d : Fdes) : Except Fault Sys :=
  match d.type with
  | .pipe q => do
      let s ← (if d.fdflags &&& FDREAD ≠ 0 then s.rlose q else s.wlose q)
      return s.setFdes o none
  | _ => .ok (s.setFdes o none)

/-- `fdes_t::lose`. -/
def lose (s : Sys) (o : Nat) : Except Fault Sys :=
  match s.fdes o with
  | none => .error .freed
  | some d =>
      if d.refcnt = 0 then .error .assertion
      else if d.refcnt - 1 ≠ 0 then
        .ok (s.setFdes o (some { d with refcnt := d.refcnt - 1 }))
      else s.destroy o d

/-- `fdes_t::hold`, or `refcnt++`. -/
def hold (s : Sys) (o : Nat) : Except Fault Sys :=
  match s.fdes o with
  | none => .error .freed
  | some d => .ok (s.setFdes o (some { d with refcnt := d.refcnt + 1 }))

/-- `new` of a descriptor. -/
def new (s : Sys) (type : Fdtype) (fdflags : BitVec 32) : Nat × Sys :=
  (s.nfdes, { s with
    nfdes := s.nfdes + 1
    fdes := update s.fdes s.nfdes (some ⟨type, fdflags, 1⟩) })

/-- `new pipe_t()`. -/
def newPipe (s : Sys) : Nat × Sys :=
  (s.npipe, { s with
    npipe := s.npipe + 1
    pipe := update s.pipe s.npipe (some ⟨1, 1⟩) })

/-- A pipe with its read end and its write end. -/
def newPipefds (s : Sys) : Nat × Nat × Sys :=
  let (q, s) := s.newPipe
  let (o₁, s) := s.new (.pipe q) FDREAD
  let (o₂, s) := s.new (.pipe q) FDWRITE
  (o₁, o₂, s)

/-! ## `fdvec_t` -/

/-- `fdvec_t::get`. -/
def get (s : Sys) (p : Nat) (fd : Int) : Option Nat :=
  if 0 ≤ fd ∧ fd < NOPEN then s.slot (p, fd.toNat) else none

/-- `fdvec_t::getslot`; `none` is EMFILE. -/
def getslot (s : Sys) (p : Nat) : Option Nat :=
  (List.range NOPEN).find? fun i => (s.slot (p, i)).isNone

/-- `fdvec_t::getpair`. -/
def getpair (s : Sys) (p : Nat) : Option (Nat × Nat) :=
  match (List.range NOPEN).filter fun i => (s.slot (p, i)).isNone with
  | i :: j :: _ => some (i, j)
  | _ => none

/-- `fdvec_t::put`. -/
def put (s : Sys) (p o : Nat) : Int × Sys :=
  match s.getslot p with
  | none => (EMFILE, s)
  | some e => (e, s.setVec p e (some o))

/-- `fdvec_t::putpair`; what it writes to `fd2` is not kept. -/
def putpair (s : Sys) (p o₁ o₂ : Nat) : Int × Sys :=
  match s.getpair p with
  | none => (EMFILE, s)
  | some (i, j) => (0, (s.setVec p i (some o₁)).setVec p j (some o₂))

/-- `(vec[i] = o)->refcnt++`. -/
def holdInto (s : Sys) (p i o : Nat) : Except Fault Sys := do
  let s ← s.hold o
  return s.setVec p i (some o)

/-- `fdvec_t::dup`. -/
def dup (s : Sys) (p : Nat) (oldfd : Int) : Except Fault (Int × Sys) :=
  match s.get p oldfd with
  | none => .ok (EBADF, s)
  | some o =>
      match s.getslot p with
      | none => .ok (EMFILE, s)
      | some e => do
          let s ← s.holdInto p e o
          return ((e : Int), s)

/-- `lose` of what slot `i` holds, which is then cleared. -/
def drop (s : Sys) (p i o : Nat) : Except Fault Sys := do
  let s ← s.lose o
  return s.setVec p i none

/-- `fdvec_t::close`. -/
def close (s : Sys) (p : Nat) (fd : Int) : Except Fault (Int × Sys) :=
  match s.get p fd with
  | none => .ok (EBADF, s)
  | some o => do
      let s ← s.drop p fd.toNat o
      return (0, s.setClose p fd.toNat false)

/-- `fdvec_t::dup2`. -/
def dup2 (s : Sys) (p : Nat) (oldfd newfd : Int) : Except Fault (Int × Sys) :=
  if s.get p oldfd = none ∨ newfd < 0 ∨ newfd ≥ NOPEN then .ok (EBADF, s)
  else if oldfd = newfd then .ok (newfd, s)
  else do
    let (_, s) ← s.close p newfd
    match s.get p oldfd with
    | none => .error .freed
    | some o => do
        let s ← s.holdInto p newfd.toNat o
        return (newfd, s)

/-- `fdvec_t::fdupfd`; `vec` is read at `lowest` first. -/
def fdupfd (s : Sys) (p : Nat) (oldfd lowest : Int) : Except Fault (Int × Sys) :=
  if lowest < 0 then .error .outside
  else
    match s.get p oldfd with
    | none => .error .outside
    | some o =>
        let free := (List.range NOPEN).find? fun i : Nat =>
          lowest ≤ (i : Int) && (s.slot (p, i)).isNone
        match free with
        | none => .ok (EMFILE, s)
        | some i => do
            let s ← s.holdInto p i o
            return ((i : Int), s)

/-- One turn of `fdvec_t::closeonexec`. -/
def closeonexecOne (p : Nat) (s : Sys) (i : Nat) : Except Fault Sys :=
  if s.tst p i ≠ 0 then
    match s.slot (p, i) with
    | none => .error .assertion
    | some o => (s.setClose p i false).drop p i o
  else .ok s

/-- `fdvec_t::closeonexec`. -/
def closeonexec (s : Sys) (p : Nat) : Except Fault Sys :=
  (List.range NOPEN).foldlM (closeonexecOne p) s

/-- One turn of `fdvec_t::closeall`. -/
def closeallOne (p : Nat) (s : Sys) (i : Nat) : Except Fault Sys :=
  match s.slot (p, i) with
  | none => .ok s
  | some o => s.drop p i o

/-- `fdvec_t::closeall`. -/
def closeall (s : Sys) (p : Nat) : Except Fault Sys :=
  (List.range NOPEN).foldlM (closeallOne p) s

/-- One turn of `fdvec_t::clone`. -/
def cloneOne (p child : Nat) (s : Sys) (i : Nat) : Except Fault Sys :=
  match s.slot (p, i) with
  | none => .ok s
  | some o => s.holdInto child i o

/-- A new process with `new fdvec_t()`. -/
def newProc (s : Sys) : Sys :=
  { s with
    nproc := s.nproc + 1
    alive := update s.alive s.nproc true
    fdvec := update s.fdvec s.nproc Fdvec.new }

/-- `fdvec_t::clone`, for the process with the next number. -/
def clone (s : Sys) (p : Nat) : Except Fault Sys :=
  (List.range NOPEN).foldlM (cloneOne p s.nproc) s.newProc

end Sys

/-! ## System calls -/

def utok (u : BitVec 32) : BitVec 32 := u + 1

def ktou (k : BitVec 32) : BitVec 32 := k - 1

namespace Sys

/-- The end of `doopen`, and the end of the calls that make a socket. -/
def putNew (s : Sys) (p : Nat) (type : Fdtype) (fdflags : BitVec 32) :
    Except Fault (Int × Sys) :=
  let (o, s) := s.new type fdflags
  let (e, s) := s.put p o
  if e < 0 then do
    let s ← s.lose o
    return (e, s)
  else .ok (e, s)

/-- The flags `sysopen` and `doopen` make of those of the user. -/
def openflags (flags : BitVec 32) : BitVec 32 :=
  let flags := flags + 1
  let flags := if flags &&& OAPPEND ≠ 0 then flags ||| FDAPPEND else flags
  if flags &&& ONONBLOCK ≠ 0 then flags ||| FDNONBLOCK else flags

/-- `sysopen`; `file` is the type of what is opened, or the error of finding
or opening it. -/
def sysopen (s : Sys) (p : Nat) (flags : BitVec 32) (file : Except Int Filetype) :
    Except Fault (Int × Sys) :=
  match file with
  | .error e => .ok (e, s)
  | .ok t => s.putNew p (.file t) (openflags flags)

/-- `syspipe`; `ver` is what `verw(fd2, ..)` returns. -/
def syspipe (s : Sys) (p : Nat) (ver : Int) : Except Fault (Int × Sys) :=
  if ver ≠ 0 then .ok (ver, s)
  else
    let (o₁, o₂, s) := s.newPipefds
    let (e, s) := s.putpair p o₁ o₂
    if e ≠ 0 then do
      let s ← s.lose o₁
      let s ← s.lose o₂
      return (e, s)
    else .ok (0, s)

/-- `sysfcntl`, once `lowfreepage` has been asked. -/
def fcntl (s : Sys) (p : Nat) (fd cmd : Int) (arg : BitVec 32) : Except Fault (Int × Sys) :=
  match s.get p fd with
  | none => .ok (EBADF, s)
  | some o =>
      if cmd = FDUPFD then s.fdupfd p fd arg.toInt
      else if cmd = FGETFD then .ok (s.tst p fd.toNat, s)
      else if cmd = FSETFD then .ok (0, s.setClose p fd.toNat (arg &&& 1 ≠ 0))
      else if cmd = FGETFL then
        match s.fdes o with
        | none => .error .freed
        | some d => .ok ((ktou d.fdflags).toInt, s)
      else if cmd = FSETFL then
        match s.fdes o with
        | none => .error .freed
        | some d => .ok (0, s.setFdes o (some { d with fdflags := utok arg }))
      else .ok (ENOSYS, s)

/-- `sysread` and `syswrite`, with the flag they ask for, once `lowfreepage`
has been asked.  `ver` is what `verw` or `verr` returns and `n` what the
descriptor's own read or write returns; a `pipefd_t` asks for the flag again. -/
def transfer (s : Sys) (p : Nat) (fd : Int) (flag : BitVec 32) (ver n : Int) :
    Except Fault (Int × Sys) :=
  match s.get p fd with
  | none => .ok (EBADF, s)
  | some o =>
      match s.fdes o with
      | none => .error .freed
      | some d =>
          if d.fdflags &&& flag = 0 then .ok (EBADF, s)
          else if ver ≠ 0 then .ok (ver, s)
          else .ok (n, s)

def sysread (s : Sys) (p : Nat) (fd ver n : Int) : Except Fault (Int × Sys) :=
  s.transfer p fd FDREAD ver n

def syswrite (s : Sys) (p : Nat) (fd ver n : Int) : Except Fault (Int × Sys) :=
  s.transfer p fd FDWRITE ver n

end Sys

/-- A system call of one process.  `low` is the answer of `lowfreepage()`. -/
inductive Call where
  | open (flags : BitVec 32) (file : Except Int Filetype)
  | socket (fdflags : BitVec 32)
  | pipe (ver : Int)
  | dup (low : Bool) (fd : Int)
  | dup2 (low : Bool) (oldfd newfd : Int)
  | fcntl (low : Bool) (fd cmd : Int) (arg : BitVec 32)
  | close (fd : Int)
  | read (low : Bool) (fd ver n : Int)
  | write (low : Bool) (fd ver n : Int)
  /-- `e` is what the rest of `task_t::clone` returns before the table is
  copied. -/
  | fork (e : Int)
  /-- `sysexecve` gets to `flush()`. -/
  | exec
  | exit

/-- The process is gone, and its table with it. -/
def Sys.dispose (s : Sys) (p : Nat) : Sys :=
  { s with
    alive := update s.alive p false
    fdvec := update s.fdvec p Fdvec.new }

/-- One call of process `p`: what it returns, and the state it leaves. -/
def Sys.call (s : Sys) (p : Nat) : Call → Except Fault (Int × Sys)
  | .open flags file => s.sysopen p flags file
  | .socket fdflags => s.putNew p .sock fdflags
  | .pipe ver => s.syspipe p ver
  | .dup low fd => if low then .ok (ENOMEM, s) else s.dup p fd
  | .dup2 low oldfd newfd => if low then .ok (ENOMEM, s) else s.dup2 p oldfd newfd
  | .fcntl low fd cmd arg => if low then .ok (ENOMEM, s) else s.fcntl p fd cmd arg
  | .close fd => s.close p fd
  | .read low fd ver n => if low then .ok (ENOMEM, s) else s.sysread p fd ver n
  | .write low fd ver n => if low then .ok (ENOMEM, s) else s.syswrite p fd ver n
  | .fork e => if e ≠ 0 then .ok (e, s) else do
      let s' ← s.clone p
      return ((s.nproc : Int), s')
  | .exec => do
      let s ← s.closeonexec p
      return (0, s)
  | .exit => do
      let s ← s.closeall p
      return (0, s.dispose p)

/-- Process `p` makes a call. -/
structure Event where
  p : Nat
  call : Call

/-- One call; `none` when the process is not there or the kernel faults. -/
def step (s : Sys) (e : Event) : Option Sys :=
  if s.alive e.p then (s.call e.p e.call).toOption.map Prod.snd else none

/-- The idle task, with an empty table. -/
def init : Sys where
  nproc := 1
  alive := fun p => p = 0
  fdvec := fun _ => Fdvec.new
  nfdes := 0
  fdes := fun _ => none
  npipe := 0
  pipe := fun _ => none

end Unixlite.Files
