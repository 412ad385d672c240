import Unixlite.Kern.SignalRun
import Unixlite.Verified.Layout

/-!
# Signal frames

A task in user mode, with the bytes of its memory: `checksignal` writes a
`sigcontext_t` below the stack pointer, the handler returns to the code that the
context ends with, and that code makes the system call `sigreturn`, which reads
the context back.  What the program does in between is arbitrary, but for the
contexts of the handlers that have not returned.
-/

namespace Unixlite.Kern.SignalFrame

open Unixlite.Verified.Layout Unixlite.Verified.Run

/-! ## The context in memory -/

/-- `sigcontext_t`: the members that are written, at their offsets.  The high halves
of the segment registers are not. -/
def fields (c : Sigcontext) : List Field :=
  [(0, bytes 4 c.retaddr.toNat), (4, bytes 4 c.signo), (8, bytes 2 c.gs.toNat),
    (12, bytes 2 c.fs.toNat), (16, bytes 2 c.es.toNat), (20, bytes 2 c.ds.toNat),
    (24, bytes 4 c.edi.toNat), (28, bytes 4 c.esi.toNat), (32, bytes 4 c.ebp.toNat),
    (36, bytes 4 c.esp.toNat), (40, bytes 4 c.ebx.toNat), (44, bytes 4 c.edx.toNat),
    (48, bytes 4 c.ecx.toNat), (52, bytes 4 c.eax.toNat), (56, bytes 4 c.eip.toNat),
    (60, bytes 2 c.cs.toNat), (64, bytes 4 c.eflags.toNat), (68, bytes 2 c.ss.toNat),
    (72, bytes 4 c.oldsigmask.bits.toNat), (76, c.asmcode)]

/-- The word at an address. -/
def long (mem : Mem 32) (a : BitVec 32) : BitVec 32 := BitVec.ofNat 32 (ofBytes (load mem a 4))

def short (mem : Mem 32) (a : BitVec 32) : BitVec 16 := BitVec.ofNat 16 (ofBytes (load mem a 2))

/-- The context at `sc`. -/
def context (mem : Mem 32) (sc : BitVec 32) : Sigcontext where
  retaddr := long mem sc
  signo := (long mem (sc + 4)).toNat
  gs := short mem (sc + 8)
  fs := short mem (sc + 12)
  es := short mem (sc + 16)
  ds := short mem (sc + 20)
  edi := long mem (sc + 24)
  esi := long mem (sc + 28)
  ebp := long mem (sc + 32)
  esp := long mem (sc + 36)
  ebx := long mem (sc + 40)
  edx := long mem (sc + 44)
  ecx := long mem (sc + 48)
  eax := long mem (sc + 52)
  eip := long mem (sc + 56)
  cs := short mem (sc + 60)
  eflags := long mem (sc + 64)
  ss := short mem (sc + 68)
  oldsigmask := ⟨long mem (sc + 72)⟩
  asmcode := load mem (sc + 76) 8

/-! ## A task in user mode -/

structure User where
  regs : Regs
  mem : Mem 32
  task : Task
  /-- `verr` and `verw` accept the area. -/
  verr : BitVec 32 → Nat → Bool
  verw : BitVec 32 → Nat → Bool

/-- What an instruction comes to. -/
inductive Insn where
  | next (u : User)
  /-- `int $0x80`. -/
  | int80 (u : User)

namespace User

/-- The instruction at `eip`: `ret`, `push %eax`, `mov $n,%eax` or `int $0x80`. -/
def insn (u : User) : Option Insn :=
  let r := u.regs
  match (u.mem r.eip).toNat with
  | 0xc3 => some (.next { u with regs := { r with eip := long u.mem r.esp, esp := r.esp + 4 } })
  | 0x50 => some (.next { u with
      regs := { r with eip := r.eip + 1, esp := r.esp - 4 }
      mem := store u.mem (r.esp - 4) (bytes 4 r.eax.toNat) })
  | 0xb8 => some (.next { u with
      regs := { r with eip := r.eip + 5, eax := long u.mem (r.eip + 1) } })
  | 0xcd =>
      if u.mem (r.eip + 1) = 0x80 then some (.int80 { u with regs := { r with eip := r.eip + 2 } })
      else none
  | _ => none

/-- `checksignal` on the way to user mode, if it builds a frame. -/
def deliver (u : User) : Option (Sigcontext × User) :=
  let sc := u.regs.esp - sigcontextSize
  match checksignal (u.verw sc sigcontextSize.toNat) u.task u.regs with
  | some (.ret t r (some c)) =>
      some (c, { u with regs := r, mem := storeFields sc (fields c) u.mem, task := t })
  | _ => none

/-- `syscallentry` with the number of `sigreturn` in `eax`, up to the `iret`; an
error is the task at `doexit`. -/
def sigreturn (u : User) : Except Task User :=
  let r := { u.regs with origeax := u.regs.eax }
  let sc :=
    if u.verr r.esp sigcontextSize.toNat then some (context u.mem r.esp) else none
  match syssigreturn u.task r sc (u.verr (context u.mem r.esp).eip 1) with
  | .ok (eax, t, r) => .ok { u with regs := { r with eax := eax }, task := t }
  | .error t => .error t

end User

/-! ## Handlers that have not returned -/

/-- Where a handler is. -/
inductive Phase where
  | body
  /-- Its `ret` has been executed; and then the `push`, and the `mov`. -/
  | returned
  | pushed
  | moved
deriving DecidableEq, Repr

def Phase.next : Phase → Phase
  | .body => .returned
  | .returned => .pushed
  | .pushed => .moved
  | .moved => .moved

/-- A delivery: the context, and what there was before. -/
structure Pending where
  sc : BitVec 32
  signo : Nat
  regs : Regs
  sigmask : Sigset
  phase : Phase

namespace Pending

/-- The context that `setupframe` has written. -/
def saved (f : Pending) : Sigcontext := setupframe f.regs f.signo f.sigmask

/-- The saved context, after the return address and the argument of the handler,
which are the handler's own. -/
def keep (f : Pending) : BitVec 32 := f.sc + 8

end Pending

/-- The bytes of a context from `Pending.keep` on. -/
def keepSize : Nat := 76

structure Machine where
  user : User
  /-- The innermost handler first. -/
  pending : List Pending
  exited : Option Nat

inductive Event where
  | deliver
  /-- The program's own code and its system calls, up to any point. -/
  | code (u : User)
  /-- The handler executes its `ret`. -/
  | ret
  /-- An instruction of the code in the context. -/
  | cpu

namespace Machine

/-- A new frame would not cover a saved context. -/
def Room (m : Machine) : Prop :=
  ∀ f ∈ m.pending, Apart (m.user.regs.esp - sigcontextSize) sigcontextSize.toNat f.keep keepSize

instance (m : Machine) : Decidable m.Room := inferInstanceAs (Decidable (∀ f ∈ _, _))

/-- The saved contexts are as they were. -/
def Untouched (m : Machine) (u : User) : Prop :=
  ∀ f ∈ m.pending, load u.mem f.keep keepSize = load m.user.mem f.keep keepSize

instance (m : Machine) (u : User) : Decidable (m.Untouched u) :=
  inferInstanceAs (Decidable (∀ f ∈ _, _))

/-- The innermost handler is in its own code, if there is one. -/
def inbody (m : Machine) : Bool :=
  match m.pending with
  | [] => true
  | f :: _ => f.phase == .body

/-- `checksignal`, with room for the frame. -/
def deliver (m : Machine) : Option Machine :=
  if m.Room then
    match m.user.deliver with
    | some (c, u) =>
        some { m with
          user := u
          pending := ⟨m.user.regs.esp - sigcontextSize, c.signo, m.user.regs,
            m.user.task.sigmask, .body⟩ :: m.pending }
    | none => none
  else none

/-- The `ret` of the innermost handler, at the stack pointer it was called with and
with the return address it was given. -/
def ret (m : Machine) : Option Machine :=
  match m.pending with
  | [] => none
  | f :: rest =>
      if f.phase = .body ∧ m.user.mem m.user.regs.eip = 0xc3 ∧ m.user.regs.esp = f.sc ∧
          long m.user.mem f.sc = f.sc + asmcodeOffset then
        match m.user.insn with
        | some (.next u) => some { m with user := u, pending := { f with phase := .returned } :: rest }
        | _ => none
      else none

/-- The system call `sigreturn` of `u`: back to what the handler interrupted, which
the handlers `rest` are still around, or the end of the task. -/
def sigreturn (m : Machine) (u : User) (rest : List Pending) : Machine :=
  match u.sigreturn with
  | .ok u => { m with user := u, pending := rest }
  | .error t => { m with user := { u with task := t }, exited := some SIGSEGV }

/-- The next instruction after that `ret`. -/
def cpu (m : Machine) : Option Machine :=
  match m.pending with
  | [] => none
  | f :: rest =>
      if f.phase = .body then none
      else
        match m.user.insn with
        | some (.next u) =>
            some { m with user := u, pending := { f with phase := f.phase.next } :: rest }
        | some (.int80 u) => if u.regs.eax = 119 then some (m.sigreturn u rest) else none
        | none => none

/-- One event of the task. -/
def step (m : Machine) (e : Event) : Option Machine :=
  if m.exited ≠ none then none
  else
    match e with
    | .deliver => m.deliver
    | .code u => if m.inbody ∧ m.Untouched u then some { m with user := u } else none
    | .ret => m.ret
    | .cpu => m.cpu

end Machine

end Unixlite.Kern.SignalFrame
