import Mathlib.Data.Fintype.Basic
import Mathlib.Data.BitVec

/-!
# The buffer cache

Port of `fs/buf.cc`, and of what `dev/blk/req.cc` does to a buffer, for any number of
tasks.  A task is switched only where it sleeps or calls `prempt`; the disk may
interrupt at any time.  Where a request stands in the queue of its device is left out:
any buffer with a request may be the next to be transferred.
-/

namespace Unixlite.Bcache

/-! ## Buffers -/

/-- The state of a buffer; `error` is there only during a transfer. -/
inductive Bstate where
  | inval
  | clean
  | dirty
  | error
deriving DecidableEq

inductive Rw where
  | read
  | write
deriving DecidableEq

/-- The state a buffer is in when it is to be transferred. -/
def Rw.state : Rw → Bstate
  | .read => .inval
  | .write => .dirty

abbrev Bdata := Nat → BitVec 8

def SECTSIZE : Nat := 512

/-- `MINIXBSIZE` in sectors. -/
def SECTPERBLK : Nat := 2

def BNOTALLOC : Int := -1
def NULLMAJOR : Nat := 0
def MAXBLKDEV : Nat := 8
def MAXBUFPERIO : Nat := 32

def major (dev : Nat) : Nat := dev / 2 ^ 8

def validdev (dev : Nat) : Bool := major dev < MAXBLKDEV

/-- `buf_t`; every block has the same size. -/
structure Buf where
  state : Bstate
  /-- A `short`. -/
  refcnt : BitVec 16
  dev : Nat
  bno : Int
  data : Bdata
  locked : Bool

/-- The part of a request that is about one buffer. -/
structure Req where
  cmd : Rw
  /-- How many of its sectors the disk has been given. -/
  sent : Nat
  /-- How many of its sectors are done with. -/
  done : Nat
  /-- What the disk has been given. -/
  copy : Bdata

structure Cache where
  buf : Nat → Buf
  allq : List Nat
  freeq : List Nat
  hashtab : Nat → List Nat
  hsize : Nat
  req : Nat → Option Req
  /-- What is on each device. -/
  disk : Nat → Int → Bdata
  /-- Which devices have a driver (`blkdevvec`). -/
  blkdev : Nat → Bool

namespace Cache

def setBuf (c : Cache) (b : Nat) (x : Buf) : Cache :=
  { c with buf := fun i => if i = b then x else c.buf i }

def setState (c : Cache) (b : Nat) (state : Bstate) : Cache :=
  c.setBuf b { c.buf b with state := state }

def hashfunc (c : Cache) (dev : Nat) (bno : Int) : Nat := ((dev + bno) % c.hsize).toNat

def findb (c : Cache) (dev : Nat) (bno : Int) : Option Nat :=
  (c.hashtab (c.hashfunc dev bno)).find? fun b =>
    decide ((c.buf b).dev = dev ∧ (c.buf b).bno = bno)

/-- `hold`; `none` is an assertion that fails. -/
def hold (c : Cache) (b : Nat) : Option Cache :=
  if (c.buf b).refcnt.toInt < 0 then none
  else some (c.setBuf b { c.buf b with refcnt := (c.buf b).refcnt + 1 })

/-- `buf_t::lose`. -/
def lose (c : Cache) (b : Nat) : Option Cache :=
  if ¬ 0 < (c.buf b).refcnt.toInt then none
  else if (c.findb (c.buf b).dev (c.buf b).bno).isNone then none
  else
    let c := c.setBuf b { c.buf b with refcnt := (c.buf b).refcnt - 1 }
    if (c.buf b).refcnt ≠ 0 then some c
    else if b ∈ c.freeq then some c
    else some { c with freeq := c.freeq ++ [b] }

def ideal (c : Cache) (b : Nat) : Bool := !(c.buf b).locked && (c.buf b).state == .dirty

/-- The neighbours that `writeb` takes on one side, `n` at most. -/
def neighbours (c : Cache) (dev : Nat) (dir : Int) : Nat → Int → List Nat
  | 0, _ => []
  | n + 1, bno =>
      match c.findb dev bno with
      | none => []
      | some b => if c.ideal b then b :: c.neighbours dev dir n (bno + dir) else []

/-- The cluster of `writeb`. -/
def cluster (c : Cache) (core : Nat) : List Nat :=
  let dev := (c.buf core).dev
  let bno := (c.buf core).bno
  let half := MAXBUFPERIO / 2
  (c.neighbours dev (-1) half (bno - 1)).reverse ++ core :: c.neighbours dev 1 (half - 1) (bno + 1)

def holdall (c : Cache) : List Nat → Option Cache
  | [] => some c
  | b :: bs => (c.hold b).bind fun c => c.holdall bs

/-- The end of `getb`: a free buffer gets its new key. -/
def rekey (c : Cache) (b dev : Nat) (bno : Int) : Cache :=
  let h := c.hashfunc dev bno
  let hashtab := fun i => (c.hashtab i).erase b
  { c with
    freeq := c.freeq.erase b
    hashtab := fun i => if i = h then hashtab i ++ [b] else hashtab i
    buf := fun i =>
      if i = b then { c.buf b with state := .inval, dev := dev, bno := bno } else c.buf i }

/-- One turn of the loop of `llrwab`, once the buffer is not locked. -/
def addreq (c : Cache) (rw : Rw) (b : Nat) : Cache :=
  if (c.buf b).state ≠ rw.state then c
  else
    { c.setBuf b { c.buf b with locked := true } with
      req := fun i => if i = b then some ⟨rw, 0, 0, fun _ => 0⟩ else c.req i }

end Cache

/-! ## Tasks -/

/-- Who has called `getb`. -/
inductive Getb where
  | user
  | readb

/-- Who has called `writeb`, and waits to lose the buffer. -/
inductive Writeb where
  | getb (b dev : Nat) (bno : Int) (candidates : Nat) (k : Getb)
  | syncb (b dev : Nat) (rest : List Nat)

/-- Who has called `llrwab`. -/
inductive Llrwab where
  | user
  | readb (b : Nat)
  | writeb (cluster : List Nat) (k : Writeb)

/-- Where a task is in a call. -/
inductive Phase where
  | user
  /-- The label `repeat`. -/
  | getb (dev : Nat) (bno : Int) (candidates : Nat) (k : Getb)
  /-- In `b->wait()`, the buffer having been found. -/
  | found (b dev : Nat) (bno : Int) (k : Getb)
  /-- In the loop over `freeq`. -/
  | scan (rest : List Nat) (dev : Nat) (bno : Int) (candidates : Nat) (k : Getb)
  /-- In `b->wait()`, for a candidate that is locked. -/
  | busy (b dev : Nat) (bno : Int) (candidates : Nat) (k : Getb)
  /-- `getb` returns. -/
  | got (b dev : Nat) (bno : Int) (k : Getb)
  /-- In the loop of `llrwab`, before the buffers of `rest`. -/
  | llrwab (rw : Rw) (head : Nat) (rest : List Nat) (waits : List Nat) (k : Llrwab)
  /-- In the loop that waits for the buffers. -/
  | wait (waits : List Nat) (k : Llrwab)
  /-- In the loop that loses the cluster. -/
  | lose (rest : List Nat) (k : Writeb)
  /-- `writeb` has returned to `getb`. -/
  | wrote (b dev : Nat) (bno : Int) (candidates : Nat) (k : Getb)
  | syncb (dev : Nat) (rest : List Nat)
  | prempt (dev : Nat) (rest : List Nat)

structure Task where
  phase : Phase
  /-- The buffers that it has got and not lost outside of these calls. -/
  held : List Nat

/-- The buffers that are held by a call of `writeb`. -/
def Writeb.holds : Writeb → List Nat
  | .getb b _ _ _ _ => [b]
  | .syncb b _ _ => [b]

def Llrwab.holds : Llrwab → List Nat
  | .user => []
  | .readb b => [b]
  | .writeb cluster k => cluster ++ k.holds

def Phase.holds : Phase → List Nat
  | .found b _ _ _ => [b]
  | .got b _ _ _ => [b]
  | .llrwab _ _ _ _ k => k.holds
  | .wait _ k => k.holds
  | .lose rest k => rest ++ k.holds
  | .wrote b _ _ _ _ => [b]
  | _ => []

/-- All buffers that a task has got and not lost. -/
def Task.holds (x : Task) : List Nat := x.held ++ x.phase.holds

/-- The task sleeps in this phase, or may be preempted. -/
def Phase.sleeps (c : Cache) : Phase → Bool
  | .user => true
  | .found b _ _ _ => (c.buf b).locked
  | .busy b _ _ _ _ => (c.buf b).locked
  | .llrwab _ _ (b :: _) _ _ => (c.buf b).locked
  | .wait (b :: _) _ => (c.buf b).locked
  | .wrote b _ _ candidates _ => candidates == 0 && (c.buf b).locked
  | .prempt _ _ => true
  | _ => false

/-- `llrwab`, up to its loop. -/
def llrwab (c : Cache) (rw : Rw) (bs waits : List Nat) (k : Llrwab) : Phase :=
  match bs with
  | [] => .wait waits k
  | head :: _ =>
      if major (c.buf head).dev = NULLMAJOR then .wait waits k
      else if !c.blkdev (c.buf head).dev then .wait waits k
      else .llrwab rw head bs waits k

/-- `writeb`, up to the loop of `llrwab`. -/
def writeb (c : Cache) (core : Nat) (k : Writeb) : Option (Cache × Phase) :=
  if major (c.buf core).dev = NULLMAJOR then some (c, .lose [] k)
  else
    let cluster := c.cluster core
    (c.holdall cluster).map fun c => (c, llrwab c .write cluster cluster (.writeb cluster k))

/-- A task goes on, up to the next place where it may sleep or may be interrupted;
`none` if it sleeps, or does not go on. -/
def Task.go (c : Cache) (x : Task) : Option (Cache × Task) :=
  match x.phase with
  | .user => none
  | .getb dev bno candidates k =>
      match c.findb dev bno with
      | some b => (c.hold b).map fun c => (c, { x with phase := .found b dev bno k })
      | none => some (c, { x with phase := .scan c.freeq dev bno candidates k })
  | .found b dev bno k =>
      if (c.buf b).locked then none
      else some ({ c with freeq := c.freeq.erase b }, { x with phase := .got b dev bno k })
  | .scan [] _ _ _ _ => none
  | .scan (b :: rest) dev bno candidates k =>
      if (c.buf b).refcnt ≠ 0 then some (c, { x with phase := .scan rest dev bno candidates k })
      else
        let candidates := candidates - 1
        if (c.buf b).locked then
          if candidates ≠ 0 then some (c, { x with phase := .scan rest dev bno candidates k })
          else some (c, { x with phase := .busy b dev bno candidates k })
        else if (c.buf b).state = .dirty then
          (c.hold b).bind fun c =>
            (writeb c b (.getb b dev bno candidates k)).map fun (c, phase) =>
              (c, { x with phase := phase })
        else
          (c.hold b).map fun c => (c.rekey b dev bno, { x with phase := .got b dev bno k })
  | .busy b dev bno candidates k =>
      if (c.buf b).locked then none else some (c, { x with phase := .getb dev bno candidates k })
  | .got b _ _ .user => some (c, { phase := .user, held := b :: x.held })
  | .got b _ _ .readb =>
      if (c.buf b).state ≠ .inval then some (c, { phase := .user, held := b :: x.held })
      else some (c, { x with phase := llrwab c .read [b] [b] (.readb b) })
  | .llrwab _ _ [] waits k => some (c, { x with phase := .wait waits k })
  | .llrwab rw head (b :: rest) waits k =>
      if (c.buf b).dev ≠ (c.buf head).dev then none
      else if ¬ 0 < (c.buf b).refcnt.toInt then none
      else if (c.buf b).locked then none
      else some (c.addreq rw b, { x with phase := .llrwab rw head rest waits k })
  | .wait (b :: waits) k =>
      if (c.buf b).locked then none else some (c, { x with phase := .wait waits k })
  | .wait [] .user => some (c, { x with phase := .user })
  | .wait [] (.readb b) =>
      if (c.buf b).state = .inval then (c.lose b).map fun c => (c, { x with phase := .user })
      else some (c, { phase := .user, held := b :: x.held })
  | .wait [] (.writeb cluster k) => some (c, { x with phase := .lose cluster k })
  | .lose (b :: rest) k => (c.lose b).map fun c => (c, { x with phase := .lose rest k })
  | .lose [] (.getb b dev bno candidates k) =>
      some (c, { x with phase := .wrote b dev bno candidates k })
  | .lose [] (.syncb b dev rest) =>
      (c.lose b).map fun c => (c, { x with phase := .prempt dev rest })
  | .wrote b dev bno candidates k =>
      if candidates = 0 ∧ (c.buf b).locked then none
      else (c.lose b).map fun c => (c, { x with phase := .getb dev bno candidates k })
  | .syncb _ [] => some (c, { x with phase := .user })
  | .syncb dev (b :: rest) =>
      if dev ≠ 0xffff ∧ dev ≠ (c.buf b).dev then some (c, { x with phase := .syncb dev rest })
      else
        (c.hold b).bind fun c =>
          (writeb c b (.syncb b dev rest)).map fun (c, phase) => (c, { x with phase := phase })
  | .prempt dev rest => some (c, { x with phase := .syncb dev rest })

/-- What a task may do outside of a call. -/
inductive Op where
  | getb (dev : Nat) (bno : Int)
  | readb (dev : Nat) (bno : Int)
  | lose (b : Nat)
  | syncb (dev : Nat)
  /-- `llreadab`, `llwriteb` and so on, of buffers that it holds. -/
  | llrwab (rw : Rw) (bs : List Nat) (wait : Bool)
  /-- Some bytes of a buffer are stored, and its state becomes `BDIRTY`. -/
  | modify (b : Nat) (bytes : Nat → Option (BitVec 8))
  /-- Some bytes of a buffer are stored. -/
  | store (b : Nat) (bytes : Nat → Option (BitVec 8))

namespace Cache

def store (c : Cache) (b : Nat) (bytes : Nat → Option (BitVec 8)) : Cache :=
  c.setBuf b { c.buf b with data := fun o => (bytes o).getD ((c.buf b).data o) }

/-- The bytes of one sector are taken from `src`, the others from `dst`. -/
def sector (k : Nat) (src dst : Bdata) : Bdata := fun o => if o / SECTSIZE = k then src o else dst o

/-- A sector is given to the disk. -/
def send (c : Cache) (b : Nat) : Option Cache :=
  match c.req b with
  | none => none
  | some r =>
      if r.cmd = .write ∧ r.sent < SECTPERBLK then
        let r := { r with sent := r.sent + 1, copy := sector r.sent (c.buf b).data r.copy }
        some { c with req := fun i => if i = b then some r else c.req i }
      else none

/-- `nextsect`, in an interrupt that says how the transfer of a sector went; it may also
fail before the disk has been given the sector. -/
def nextsect (c : Cache) (b : Nat) (ok : Bool) : Option Cache :=
  match c.req b with
  | none => none
  | some r =>
      if ¬ r.done < SECTPERBLK then none
      else
        let x := c.buf b
        let req := fun r => fun i => if i = b then some r else c.req i
        if !ok then
          some { c.setState b .error with
            req := req { r with done := r.done + 1, sent := max r.sent (r.done + 1) } }
        else
          match r.cmd with
          | .read =>
              let data := sector r.done (c.disk x.dev x.bno) x.data
              some { c.setBuf b { x with data := data } with
                req := req { r with done := r.done + 1 } }
          | .write =>
              if ¬ r.done < r.sent then none
              else
                let block := sector r.done r.copy (c.disk x.dev x.bno)
                some { c with
                  req := req { r with done := r.done + 1 }
                  disk := fun dev bno =>
                    if dev = x.dev ∧ bno = x.bno then block else c.disk dev bno }

/-- `req_t::~req_t`, for one buffer. -/
def zapreq (c : Cache) (b : Nat) : Option Cache :=
  match c.req b with
  | none => none
  | some r =>
      if r.done ≠ SECTPERBLK then none
      else
        let state := if (c.buf b).state = .error then .inval else .clean
        some { c.setBuf b { c.buf b with state := state, locked := false } with
          req := fun i => if i = b then none else c.req i }

end Cache

/-- A call of a task, up to the first place where it may sleep. -/
def Task.call (c : Cache) (x : Task) : Op → Option (Cache × Task)
  | .getb dev bno =>
      if bno = BNOTALLOC then none else some (c, { x with phase := .getb dev bno 8 .user })
  | .readb dev bno =>
      if !validdev dev then some (c, x)
      else if bno = BNOTALLOC then none
      else some (c, { x with phase := .getb dev bno 8 .readb })
  | .lose b =>
      if b ∈ x.held then (c.lose b).map fun c => (c, { x with held := x.held.erase b })
      else none
  | .syncb dev => some (c, { x with phase := .syncb dev c.allq })
  | .llrwab rw bs wait =>
      if ∀ b ∈ bs, b ∈ x.held then
        some (c, { x with phase := llrwab c rw bs (if wait then bs else []) .user })
      else none
  | .modify b bytes =>
      if b ∈ x.held then some ((c.store b bytes).setState b .dirty, x) else none
  | .store b bytes => if b ∈ x.held then some (c.store b bytes, x) else none

/-! ## Runs -/

structure Sys (Tid : Type*) where
  cache : Cache
  task : Tid → Task
  curr : Tid

inductive Event (Tid : Type*) where
  /-- The scheduler goes to another task. -/
  | sched (t : Tid)
  /-- The current task goes on in its call. -/
  | go
  /-- The current task makes a call. -/
  | call (op : Op)
  /-- A sector is given to the disk. -/
  | send (b : Nat)
  /-- The disk has transferred a sector, or has not. -/
  | nextsect (b : Nat) (ok : Bool)
  /-- The disk is done with a buffer. -/
  | zapreq (b : Nat)

variable {Tid : Type*} [DecidableEq Tid]

/-- The cache and the current task are replaced. -/
def Sys.put (s : Sys Tid) (r : Cache × Task) : Sys Tid :=
  { s with cache := r.1, task := Function.update s.task s.curr r.2 }

/-- One event; `none` when it cannot happen. -/
def Sys.step (s : Sys Tid) : Event Tid → Option (Sys Tid)
  | .sched t => if (s.task s.curr).phase.sleeps s.cache then some { s with curr := t } else none
  | .go => ((s.task s.curr).go s.cache).map s.put
  | .call op =>
      match (s.task s.curr).phase with
      | .user => ((s.task s.curr).call s.cache op).map s.put
      | _ => none
  | .send b => (s.cache.send b).map fun c => { s with cache := c }
  | .nextsect b ok => (s.cache.nextsect b ok).map fun c => { s with cache := c }
  | .zapreq b => (s.cache.zapreq b).map fun c => { s with cache := c }

/-- What the constructor `buffercache` leaves: each buffer has a key of its own, on a
device that does not exist. -/
def buffercache (nbuf : Nat) (data : Nat → Bdata) (disk : Nat → Int → Bdata)
    (blkdev : Nat → Bool) : Cache :=
  let hashfunc := fun b : Nat => ((0 + (b : Int)) % (nbuf : Int)).toNat
  { buf := fun b => ⟨.inval, 0, 0, b, data b, false⟩
    allq := List.range nbuf
    freeq := List.range nbuf
    hashtab := fun i => (List.range nbuf).filter fun b => hashfunc b = i
    hsize := nbuf
    req := fun _ => none
    disk := disk
    blkdev := blkdev }

/-- No task is in a call or holds a buffer. -/
def Sys.boot (t : Tid) (nbuf : Nat) (data : Nat → Bdata) (disk : Nat → Int → Bdata)
    (blkdev : Nat → Bool) : Sys Tid :=
  ⟨buffercache nbuf data disk blkdev, fun _ => ⟨.user, []⟩, t⟩

end Unixlite.Bcache
