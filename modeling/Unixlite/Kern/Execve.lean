import Unixlite.Fs.Namei
import Unixlite.Fs.Regmap
import Unixlite.Kern.Exec
import Unixlite.Kern.Fdes
import Unixlite.Kern.Signal
import Unixlite.Mm.Initustack

/-!
# Executing a program

Port of `sysexecve` from `kern/exec.cc`, with `check`, `parsescript` and `flush`, over `namei`,
`loadelf` and `initustack`.  What is not known is part of the call: the strings that the user
passes, what the files hold and what can be read of them, and what the requests for pages get.

`scanstrprev_t` is the list of the words that are left, the last one first, and `nlefttok` is its
length; `execname` is left out.
-/

namespace Unixlite.Kern.Execve

open Unixlite.Fs Unixlite.Mm Unixlite.Verified Label Counter

def SISUID : BitVec 16 := 0x800
def SISGID : BitVec 16 := 0x400

/-! ## Files -/

/-- What is read of an inode, besides its attributes. -/
structure File where
  daddr : Fin 10 → Bno
  zone : Bno → BitVec 8 → Bno
  exe : Exe

/-- A buffer, and what it holds. -/
structure Head where
  key : Nat × Bno
  data : Kern.Bytes

def matchscript (head : Kern.Bytes) : Bool := head 0 == 0x23 && head 1 == 0x21

def newline : BitVec 8 := 0x0a

def isblank (c : BitVec 8) : Bool := c == 0x20 || c == 0x09

/-- The line of a script, if there is one in the buffer of `parsescript`. -/
def scriptline (head : Kern.Bytes) : Option Name :=
  let buf := ((List.range 255).map fun i => head (2 + i)).takeWhile fun c => c != 0
  if buf.contains newline then some (buf.takeWhile fun c => c != newline) else none

/-- The words of a line, the last one first. -/
def scriptwords (line : Name) : List Name :=
  ((line.splitOnP isblank).filter fun w => !w.isEmpty).reverse

/-- What follows the last slash. -/
def scriptbase (tok : Name) : Name := tok.rtakeWhile fun c => c != sep

/-! ## The call -/

/-- What `sysexecve` is called with, and what it finds. -/
structure Call where
  /-- `lowfreepage(8)`. -/
  low : Bool
  supply : Supply
  /-- What the stack of the kernel holds where the entries are to be. -/
  before : Int → Nat
  kmem : Nat → BitVec 8
  /-- The pages of others that `freepage` takes. -/
  others : Nat → Bool
  tree : Dirtree
  icount : Counts
  bcount : Nat × Bno → Nat
  /-- None if the kernel cannot read it. -/
  pathname : Option Ustr
  argv : List Slot
  envp : List Slot
  file : Ref → File
  readb : Nat × Bno → Int × Kern.Bytes
  /-- What is in the array of program headers before they are read. -/
  ph : Kern.Bytes
  /-- The page tables and the memory that there are after `flush`. -/
  tables : Nat → Bool
  free : Nat → Bool
  /-- What user memory holds once the file is mapped. -/
  program : Kern.Bytes
  esp : Nat
  tid : Nat

/-- The variables of `sysexecve`, and the counts of the inodes and the buffers. -/
structure Exec where
  ustack : Ustack
  inode : Option Ref
  interp : Option Ref
  head : Option Head
  euid : BitVec 16
  egid : BitVec 16
  icount : Counts
  bcount : Nat × Bno → Nat

/-- What else a task has. -/
structure Caller where
  task : Task
  fds : Files.Sys
  space : Space
  mem : Kern.Bytes

/-- What `sysexecve` comes to. -/
structure Result where
  /-- What it returns; none if it does not come back. -/
  out : Option Int
  exec : Exec
  cred : Cred
  caller : Caller
  /-- The entries that `destroy` goes through, if it is called. -/
  destroyed : Option (List (Int × Nat))
  freed : List Nat
  mapped : List (Nat × Nat)
  umem : Umem
  eip : Nat
  esp : Nat

namespace Exec

/-- What a push comes to. -/
def pushed (x : Exec) (r : Int × Ustack) : Flow Exec :=
  if r.1 ≠ 0 then .error r.1 { x with ustack := r.2 } else .next { x with ustack := r.2 }

def addargc (n : Nat) (x : Exec) : Exec :=
  { x with ustack := { x.ustack with argc := x.ustack.argc + n } }

def setargc (n : Nat) (x : Exec) : Exec := { x with ustack := { x.ustack with argc := n } }

def setenvc (n : Nat) (x : Exec) : Exec := { x with ustack := { x.ustack with envc := n } }

def setinode (r : Ref) (x : Exec) : Exec := { x with inode := some r }

def setinterp (r : Ref) (x : Exec) : Exec := { x with interp := some r }

/-- `head->lose()`. -/
def losehead (x : Exec) : Exec :=
  { x with bcount := x.head.elim x.bcount fun head => lose x.bcount head.key }

/-- `inode->lose()`. -/
def loseinode (x : Exec) : Exec := { x with icount := x.inode.elim x.icount (lose x.icount) }

/-- The interpreter takes the place of the script. -/
def interpret (x : Exec) : Exec :=
  let x := x.losehead.loseinode
  { x with head := none, inode := x.interp }

/-- `matchelf` decides. -/
def accept (x : Exec) : Flow Exec :=
  match x.head with
  | none => .stop x
  | some head => if !matchelf head.data then .error ENOEXEC x else .next x

end Exec

namespace Call

variable (c : Call)

/-- `namei(ISTAT, ..)`, and where the inode goes. -/
def lookup (path : Name) (set : Ref → Exec → Exec) (x : Exec) : Flow Exec :=
  match c.tree.namei x.icount false path c.kmem 0 with
  | none => .stop x
  | some (.error e, icount, _) => .error e { x with icount := icount }
  | some (.ok r, icount, _) => .next (set r { x with icount := icount })

/-- The block map of a file. -/
def map (r : Ref) : Regmap := ⟨(c.tree.inode r).mode, (c.file r).daddr, (c.file r).zone, []⟩

def check (x : Exec) : Flow Exec :=
  match x.inode with
  | none => .stop x
  | some r =>
      let i := c.tree.inode r
      let x := { x with head := none }
      if !i.isreg || i.deny c.tree.cred IX != 0 then .error EACCES x
      else
        let x := { x with
          euid := if i.mode &&& SISUID ≠ 0 then i.uid else c.tree.cred.euid
          egid := if i.mode &&& SISGID ≠ 0 then i.gid else c.tree.cred.egid }
        match (c.map r).readmap 0 with
        | .error e => .error e x
        | .ok phys =>
            if phys = BNOTALLOC then .error ENOEXEC x
            else
              let (e, data) := c.readb (r.1, phys)
              if e ≠ 0 then .error e x
              else
                .next { x with head := some ⟨(r.1, phys), data⟩, bcount := hold x.bcount (r.1, phys) }

/-- The loop of `parsescript`. -/
def parsewords : List Name → Exec → Flow Exec
  | [], x => .next x
  | tok :: toks, x =>
      if toks.isEmpty then
        (c.lookup tok Exec.setinterp x).andThen fun x =>
          (x.pushed (x.ustack.pushkstr c.supply (scriptbase tok))).andThen fun x =>
            parsewords toks (x.addargc 1)
      else
        (x.pushed (x.ustack.pushkstr c.supply tok)).andThen fun x => parsewords toks (x.addargc 1)

def parsescript (head : Head) (x : Exec) : Flow Exec :=
  let x := { x with interp := none }
  match scriptline head.data with
  | none => .error ENOEXEC x
  | some line =>
      if (scriptwords line).isEmpty then .error ENOEXEC x else c.parsewords (scriptwords line) x

/-- The arguments, of a script and of a program. -/
def args (x : Exec) : Flow Exec :=
  match c.pathname, x.head with
  | some path, some head =>
      (x.pushed (x.ustack.pushuvec c.supply c.envp)).andThen fun x =>
        let x := x.setenvc (count c.envp)
        if matchscript head.data then
          (x.pushed (x.ustack.pushuvec c.supply c.argv.tail)).andThen fun x =>
            let x := x.setargc (count c.argv.tail)
            (x.pushed (x.ustack.pushustr c.supply path)).andThen fun x =>
              (c.parsescript head (x.addargc 1)).andThen fun x => c.check x.interpret
        else
          (x.pushed (x.ustack.pushuvec c.supply c.argv)).andThen fun x =>
            .next (x.setargc (count c.argv))
  | _, _ => .stop x

/-- The variables at first. -/
def start : Exec where
  ustack := (Ustack.push c.supply Ustack.AUXSIZE Ustack.AUXSIZE (Ustack.init c.before c.kmem)).2
  inode := none
  interp := none
  head := none
  euid := 0
  egid := 0
  icount := c.icount
  bcount := c.bcount

/-- Up to the first block of the file. -/
def opened : Flow Exec :=
  match c.pathname with
  | none => .stop c.start
  | some path => (c.lookup path.bytes Exec.setinode c.start).andThen c.check

/-- Up to `flush`. -/
def prepare : Flow Exec := c.opened.andThen fun x => (c.args x).andThen Exec.accept

/-- `flush`; the space is empty then. -/
def flush (k : Caller) : Option Caller :=
  match k.fds.closeonexec c.tid with
  | .error _ => none
  | .ok fds => some ⟨k.task.flush, fds, flushed c.tables c.free, c.program⟩

/-- The identity of the new program. -/
def ids (x : Exec) : Ids := ⟨c.tree.cred.uid, x.euid, c.tree.cred.gid, x.egid⟩

/-- `loadelf` and `initustack`, with the entry. -/
def load (r : Ref) (head : Head) (x : Exec) : Flow (Nat × Newstack) :=
  match loadelf (c.file r).exe head.data c.ph (flushed c.tables c.free) with
  | .error _ => .stop (0, ⟨flushed c.tables c.free, [], ⟨c.program, []⟩, 0⟩)
  | .ok (e, entry, space) =>
      if e ≠ 0 then .error e (entry, ⟨space, [], ⟨c.program, []⟩, 0⟩)
      else
        match initustack c.supply x.ustack (c.ids x) c.program c.esp space with
        | .stop y => .stop (entry, y)
        | .error e y => .error e (entry, y)
        | .next y => .next (entry, y)

/-- The call has not come back in this state. -/
def stopped (x : Exec) (cred : Cred) (k : Caller) (y : Newstack) : Result :=
  ⟨none, x, cred, { k with space := y.space, mem := y.umem.mem }, none, [], y.mapped, y.umem, 0, 0⟩

/-- From the label `error` on. -/
def giveup (e : Int) (x : Exec) (cred : Cred) (k : Caller) (y : Newstack) : Result :=
  let x := x.losehead.loseinode
  let k := { k with space := y.space, mem := y.umem.mem }
  match x.ustack.destroy c.supply c.others with
  | none => ⟨none, x, cred, k, some x.ustack.entries, [], y.mapped, y.umem, 0, 0⟩
  | some freed => ⟨some e, x, cred, k, some x.ustack.entries, freed, y.mapped, y.umem, 0, 0⟩

/-- What becomes of the call behind `flush`. -/
def ending (x : Exec) (cred : Cred) (k : Caller) : Flow (Nat × Newstack) → Result
  | .stop (_, y) => stopped x cred k y
  | .error e (_, y) => c.giveup e x cred k y
  | .next (entry, y) =>
      ⟨some 0, x.loseinode.losehead, cred, { k with space := y.space, mem := y.umem.mem }, none, [],
        y.mapped, y.umem, entry, y.initsp⟩

/-- Nothing has been mapped yet. -/
def untouched (k : Caller) : Newstack := ⟨k.space, [], ⟨k.mem, []⟩, 0⟩

/-- There is too little memory. -/
def refused (k : Caller) : Result :=
  ⟨some ENOMEM, { c.start with ustack := Ustack.init c.before c.kmem }, c.tree.cred, k, none, [], [],
    ⟨k.mem, []⟩, 0, 0⟩

end Call

def sysexecve (c : Call) (k : Caller) : Result :=
  if c.low then c.refused k
  else
    match c.prepare with
    | .stop x => Call.stopped x c.tree.cred k (Call.untouched k)
    | .error e x => c.giveup e x c.tree.cred k (Call.untouched k)
    | .next x =>
        let cred := { c.tree.cred with euid := x.euid, egid := x.egid }
        match c.flush k, x.inode, x.head with
        | some k, some r, some head => c.ending x cred k (c.load r head x)
        | _, _, _ => Call.stopped x cred k (Call.untouched k)

/-- The call comes to `loadelf`, with this file. -/
structure Flushes (c : Call) (k : Caller) (x : Exec) (k' : Caller) (r : Ref) (head : Head) : Prop where
  low : c.low = false
  prepare : c.prepare = .next x
  flush : c.flush k = some k'
  inode : x.inode = some r
  head : x.head = some head

theorem Flushes.call {c : Call} {k k' : Caller} {x : Exec} {r : Ref} {head : Head}
    (h : Flushes c k x k' r head) : sysexecve c k =
      c.ending x { c.tree.cred with euid := x.euid, egid := x.egid } k' (c.load r head x) := by
  unfold sysexecve
  simp only [h.low, h.prepare, h.flush, h.inode, h.head, Bool.false_eq_true, if_false]

/-- A call is refused, does not come back, fails before `flush`, or comes to `loadelf`. -/
theorem sysexecve_cases (c : Call) (k : Caller) :
    (c.low = true ∧ sysexecve c k = c.refused k) ∨
    (∃ x cred, (c.prepare = .stop x ∨ c.prepare = .next x) ∧
      sysexecve c k = Call.stopped x cred k (Call.untouched k)) ∨
    (∃ e x, c.low = false ∧ c.prepare = .error e x ∧
      sysexecve c k = c.giveup e x c.tree.cred k (Call.untouched k)) ∨
    ∃ x k' r head, Flushes c k x k' r head ∧ sysexecve c k =
      c.ending x { c.tree.cred with euid := x.euid, egid := x.egid } k' (c.load r head x) := by
  unfold sysexecve
  cases hlow : c.low with
  | true => exact .inl ⟨rfl, rfl⟩
  | false =>
      rw [if_neg Bool.false_ne_true]
      refine .inr ?_
      cases hprepare : c.prepare with
      | stop x => exact .inl ⟨x, _, .inl rfl, rfl⟩
      | error e x => exact .inr (.inl ⟨e, x, rfl, rfl, rfl⟩)
      | next x =>
          dsimp only
          split
          · next k' r head hflush hinode hhead =>
            exact .inr (.inr ⟨x, k', r, head, ⟨hlow, hprepare, hflush, hinode, hhead⟩, rfl⟩)
          · exact .inl ⟨x, _, .inr rfl, rfl⟩

end Unixlite.Kern.Execve
