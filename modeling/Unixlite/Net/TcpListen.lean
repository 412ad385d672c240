import Unixlite.Net.TcpSndbuf

/-!
# TCP sockets and the tasks that wait for them

Port of the part of `net/inet/tcp.cc`, `net/inet/tcpinput.cc` and `net/inet/tcptimer.cc`
that makes, connects, accepts and deletes sockets, over `Sock` for what happens inside one
of them.  A `tcpsock_t` is known by a number that is used once; what is left of a deleted
one stays readable, as its memory does.

Softirq handlers run on the way back to user mode only, so that a step is a system call up
to its next sleep, one segment, or one timer.
-/

namespace Unixlite.Net

open Unixlite.Verified.Run Option

/-! ## The handshake of one socket -/

/-- The loop of `parseopt` from the option at `o` on: `n` bytes are options, `b` is the
memory from the first of them on.  Every kind but 0 goes on by the length in the next byte;
with length 0 that is the same option again, and the loop never ends. -/
def parseoptFrom (b : List Byte) (n : Nat) : (fuel o mss : Nat) → Option Nat
  | 0, _, _ => none
  | fuel + 1, o, mss =>
      if n ≤ o then some mss
      else do
        let kind ← b[o]?
        if kind = 0 then return mss
        let len ← b[o + 1]?
        let mss ← if kind = 2 ∧ len = 4 then do
            let hi ← b[o + 2]?
            let lo ← b[o + 3]?
            pure (hi.toNat * 256 + lo.toNat)
          else pure mss
        if len = 0 then none else parseoptFrom b n fuel (o + len.toNat) mss

/-- `parseopt`; `behind` is the memory behind the TCP header. -/
def parseopt (opt behind : List Byte) : Option Nat :=
  parseoptFrom (opt ++ behind) opt.length (opt.length + 1) 0 536

namespace Sock

/-- `tcpsock_t()`. -/
def fresh (lport fport : BitVec 16) : Sock where
  state := .closed
  lport := lport
  fport := fport
  mss := 1460
  ndelack := 0
  delacktm := false
  snd := ⟨0, 0, 32768, [], 0, 0, 0, none, 4, []⟩
  rcv := ⟨0, 0, false, 32768, [], [], [], false⟩

def initiss (s : Sock) (iss : Seq) : Sock :=
  { s with snd := { s.snd with sndnxt := iss, lastack := iss } }

def initirs (s : Sock) (th : Tcphdr) (behind : List Byte) : Option Sock :=
  (parseopt th.opt behind).map fun mss =>
    { s with
      mss := mss
      snd := { s.snd with lastseq := th.seq, sndwnd := th.wnd.toNat }
      rcv := { s.rcv with irs := th.seq, rcvnxt := th.seq + 1 } }

/-- `inputsynsent`, when the segment acknowledges the SYN. -/
def inputsynsent (s : Sock) (passedtick : Nat) (seg : Segment) (tail : List Byte)
    (ans : Answer) : Option Sock :=
  (s.initirs seg.hdr (seg.data ++ tail)).map fun s =>
    (s.sendflags passedtick TCPFACK ans).2.change .estab

/-- The socket of `tcpsock_t(l, ih, th)`, after `inputlisten` has answered the SYN. -/
def child (passedtick : Nat) (iss : Seq) (seg : Segment) (tail : List Byte) (ans : Answer) :
    Option Sock :=
  (((fresh seg.hdr.dport seg.hdr.sport).initiss iss).initirs seg.hdr (seg.data ++ tail)).map
    fun s => (s.outflags passedtick (Outargs.ofFlagsmss (TCPFSYN ||| TCPFACK)) ans).change
      .synrecv

/-- What `connect` does to the socket. -/
def startconnect (s : Sock) (passedtick : Nat) (iss : Seq) (fport : BitVec 16) (ans : Answer) :
    Sock :=
  let s := { s with fport := fport }.initiss iss
  let s := { s with snd := { s.snd with sndwnd := 8096 } }
  (s.outflags passedtick (Outargs.ofFlagsmss TCPFSYN) ans).change .synsent

end Sock

/-! ## Sockets and tasks -/

/-- `tcpsock_t` with its links to other sockets. -/
structure Tcb where
  sock : Sock
  laddr : BitVec 32
  faddr : BitVec 32
  refcnt : Nat
  listening : Option Nat
  /-- The socket whose queue `nextincoming` and `previncoming` are in. -/
  incoming : Option Nat
  incomingq : List Nat
  timewaittm : Bool
  destroytm : Bool
  live : Bool

/-- Where a task is. -/
inductive Waiting where
  | idle
  /-- In `accept`. -/
  | accept (i : Nat)
  /-- In `connect`; `reached` says that the socket has been in `SESTAB` since. -/
  | connect (i : Nat) (reached : Bool)
deriving DecidableEq

/-- All sockets and tasks.  `next` is the number of the next socket, `iss` the static variable
of `initiss`.  The rest is history: the sockets that were deleted, the children that came to
`SESTAB`, those that were reset in it, those that `accept` returned, and what `connect` did
each time its task ran, with `none` for going to sleep again. -/
structure Tcpnet where
  tcb : Nat → Option Tcb
  next : Nat
  tasks : Nat → Waiting
  iss : Seq
  passedtick : Nat
  destroyed : List Nat
  done : List Nat
  resets : List Nat
  accepted : List Nat
  connlog : List (Bool × Option Int)

inductive Netevent where
  | socket (lport : BitVec 16) (put : Bool)
  | hold (i : Nat)
  | lose (i : Nat) (ans : Answer)
  | listen (i : Nat)
  /-- `route` is the address of the device that `selectroute` finds. -/
  | connect (tid i : Nat) (route : Option (BitVec 32)) (faddr : BitVec 32) (fport : BitVec 16)
      (ans : Answer)
  /-- `put` says whether `fdvec_t::put` finds a slot. -/
  | accept (tid i : Nat) (put : Bool)
  /-- A waiting task runs again. -/
  | resume (tid : Nat) (sig put : Bool)
  | input (i : Nat) (seg : Segment) (saddr daddr : BitVec 32) (tail : List Byte) (d r : Answer)
  | shutdown (i : Nat) (ans : Answer)
  | timewaitto (i : Nat)
  | destroyto (i : Nat)
  /-- `send`, `recv`, `bind` and the other timers, which leave the state alone. -/
  | other (i : Nat) (sock : Sock)
  | tick

namespace Tcpnet

def set (s : Tcpnet) (i : Nat) (t : Tcb) : Tcpnet :=
  { s with tcb := fun j => if j = i then some t else s.tcb j }

def setTask (s : Tcpnet) (tid : Nat) (w : Waiting) : Tcpnet :=
  { s with tasks := fun j => if j = tid then w else s.tasks j }

/-- A socket that has not been deleted. -/
def obj (s : Tcpnet) (i : Nat) : Option Tcb := (s.tcb i).filter Tcb.live

/-- A socket that a descriptor refers to. -/
def user (s : Tcpnet) (i : Nat) : Option Tcb :=
  (s.obj i).filter fun t => t.refcnt ≠ 0 ∧ t.incoming = none

def stateOf (s : Tcpnet) (i : Nat) : Option Tcpstate := (s.tcb i).map fun t => t.sock.state

/-- `unlinkincoming`: the queue is in the memory of its socket, deleted or not. -/
def unlinkincoming (s : Tcpnet) (i : Nat) : Option Nat → Tcpnet
  | none => s
  | some l => (s.tcb l).elim s fun t => s.set l { t with incomingq := t.incomingq.erase i }

/-- `delete`: the destructors of the socket and of its timers. -/
def delete (s : Tcpnet) (i : Nat) : Tcpnet :=
  (s.tcb i).elim s fun t =>
    let s := s.unlinkincoming i t.incoming
    { s.set i { t with incoming := none, timewaittm := false, destroytm := false, live := false }
      with destroyed := i :: s.destroyed }

/-- A new socket. -/
def new (s : Tcpnet) (t : Tcb) : Tcpnet := { s.set s.next t with next := s.next + 1 }

/-- `inetsocket`. -/
def socket (s : Tcpnet) (lport : BitVec 16) (put : Bool) : Tcpnet :=
  let t : Tcb := ⟨Sock.fresh lport 0, 0, 0, 1, none, none, [], false, false, true⟩
  if put then s.new t else (s.new t).delete s.next

def lose (s : Tcpnet) (i : Nat) (ans : Answer) : Option Tcpnet :=
  (s.user i).map fun t =>
    if t.refcnt ≠ 1 then s.set i { t with refcnt := t.refcnt - 1 }
    else s.set i { t with
      refcnt := 0, sock := (t.sock.shutdown s.passedtick ans).2, destroytm := true }

def listen (s : Tcpnet) (i : Nat) : Option Tcpnet :=
  (s.user i).map fun t =>
    if t.sock.state ≠ .closed then s else s.set i { t with sock := t.sock.change .listen }

/-- `connect` up to its first wait, or to its end where it fails. -/
def connect (s : Tcpnet) (tid i : Nat) (route : Option (BitVec 32)) (faddr : BitVec 32)
    (fport : BitVec 16) (ans : Answer) : Option Tcpnet :=
  (s.user i).bind fun t =>
    if s.tasks tid ≠ .idle then none
    else if t.sock.state ≠ .closed ∨ t.faddr ≠ 0 then some s
    else
      route.elim (some s) fun praddr =>
        let t := { t with
          sock := t.sock.startconnect s.passedtick s.iss fport ans, laddr := praddr
          faddr := faddr }
        some ({ s.set i t with iss := s.iss + BitVec.ofNat 32 s.passedtick }.setTask tid
          (.connect i false))

/-- What `fetchclient` finds. -/
def client (s : Tcpnet) (t : Tcb) : Option Nat :=
  t.incomingq.find? fun c => s.stateOf c = some .estab

/-- The part of `fetchclient` that takes the client `c` from the queue of `l`; `none` when the
assertion fails. -/
def takeclient (s : Tcpnet) (l c : Nat) : Option Tcpnet :=
  (s.tcb c).bind fun t =>
    if t.listening ≠ some l then none
    else
      let s := s.unlinkincoming c t.incoming
      some (s.set c { t with listening := none, incoming := none })

/-- The loop of `accept`: it waits, or it is over. -/
def acceptLoop (s : Tcpnet) (tid l : Nat) (put : Bool) : Option Tcpnet :=
  (s.obj l).bind fun t =>
    (s.client t).elim (some (s.setTask tid (.accept l))) fun c =>
      (s.takeclient l c).map fun s =>
        if put then { s.setTask tid .idle with accepted := c :: s.accepted }
        else (s.delete c).setTask tid .idle

def accept (s : Tcpnet) (tid i : Nat) (put : Bool) : Option Tcpnet :=
  if s.tasks tid ≠ .idle then none else (s.user i).bind fun _ => s.acceptLoop tid i put

/-- One run of the task in `connect`: `WAIT` looks at the signals, the loop at the state. -/
def connectLoop (s : Tcpnet) (tid i : Nat) (reached sig : Bool) : Option Tcpnet :=
  (s.obj i).map fun t =>
    if sig then
      { s.setTask tid .idle with connlog := (reached, some EINTR) :: s.connlog }
    else if t.sock.state = .estab then
      { s.setTask tid .idle with connlog := (reached, some 0) :: s.connlog }
    else { s with connlog := (reached, none) :: s.connlog }

/-- A waiting task runs again. -/
def resume (s : Tcpnet) (tid : Nat) (sig put : Bool) : Option Tcpnet :=
  match s.tasks tid with
  | .idle => none
  | .accept l => if sig then some (s.setTask tid .idle) else s.acceptLoop tid l put
  | .connect i reached => s.connectLoop tid i reached sig

/-- The tasks that connect the socket `i` have something to return. -/
def reach (s : Tcpnet) (i : Nat) : Tcpnet :=
  { s with tasks := fun tid =>
      match s.tasks tid with
      | .connect j reached => .connect j (reached || i == j)
      | w => w }

def inputlisten (s : Tcpnet) (i : Nat) (t : Tcb) (seg : Segment) (saddr daddr : BitVec 32)
    (tail : List Byte) (ans : Answer) : Option Tcpnet :=
  if !seg.hdr.has TCPFSYN then some (s.set i t)
  else (Sock.child s.passedtick s.iss seg tail ans).map fun sock =>
    let c : Tcb := ⟨sock, daddr, saddr, 1, some i, some i, [], false, false, true⟩
    let s := s.set i { t with incomingq := t.incomingq ++ [s.next] }
    { s.new c with iss := s.iss + BitVec.ofNat 32 s.passedtick }

/-- `input` of the socket `i`. -/
def input (s : Tcpnet) (i : Nat) (seg : Segment) (saddr daddr : BitVec 32) (tail : List Byte)
    (d r : Answer) : Option Tcpnet :=
  (s.obj i).bind fun t =>
    let th := seg.hdr
    let t' := { t with sock := { t.sock with snd := t.sock.sndupdate s.passedtick th } }
    match t.sock.state with
    | .listen =>
        if !Sock.handles seg then some s else s.inputlisten i t' seg saddr daddr tail r
    | .synsent =>
        if !Sock.handles seg then some s
        else if !th.has TCPFSYN || !th.ackeq t'.sock.snd.sndnxt then some (s.set i t')
        else (t'.sock.inputsynsent s.passedtick seg tail r).map fun sock =>
          (s.set i { t' with sock := sock }).reach i
    | .synrecv =>
        if !Sock.handles seg then some s
        else if !th.ackeq t'.sock.snd.sndnxt then some (s.set i t')
        else some { s.set i { t' with sock := t'.sock.change .estab } with done := i :: s.done }
    | state =>
        (t.sock.input s.passedtick seg d r).map fun sock =>
          { s.set i { t with
              sock := sock
              timewaittm := t.timewaittm || state != .timewait && sock.state == .timewait }
            with resets := if state = .estab ∧ sock.state = .closed then i :: s.resets
              else s.resets }

/-- `timewaitto` and `destroyto`, for the timer that `stop` takes off the wheel. -/
def expire (s : Tcpnet) (i : Nat) (active : Tcb → Bool) (stop : Tcb → Tcb) : Option Tcpnet :=
  ((s.tcb i).filter active).map fun t =>
    let s := s.set i (stop t)
    if t.refcnt = 0 then s.delete i else s

def timewaitto (s : Tcpnet) (i : Nat) : Option Tcpnet :=
  s.expire i Tcb.timewaittm fun t => { t with timewaittm := false }

def destroyto (s : Tcpnet) (i : Nat) : Option Tcpnet :=
  s.expire i Tcb.destroytm fun t => { t with destroytm := false }

/-- One step; `none` when it cannot happen, or when the kernel does not come back from it. -/
def step (s : Tcpnet) : Netevent → Option Tcpnet
  | .socket lport put => some (s.socket lport put)
  | .hold i => (s.user i).map fun t => s.set i { t with refcnt := t.refcnt + 1 }
  | .lose i ans => s.lose i ans
  | .listen i => s.listen i
  | .connect tid i route faddr fport ans => s.connect tid i route faddr fport ans
  | .accept tid i put => s.accept tid i put
  | .resume tid sig put => s.resume tid sig put
  | .input i seg saddr daddr tail d r => s.input i seg saddr daddr tail d r
  | .shutdown i ans =>
      (s.user i).map fun t => s.set i { t with sock := (t.sock.shutdown s.passedtick ans).2 }
  | .timewaitto i => s.timewaitto i
  | .destroyto i => s.destroyto i
  | .other i sock =>
      (s.obj i).map fun t => s.set i { t with sock := { sock with state := t.sock.state } }
  | .tick => some { s with passedtick := s.passedtick + 1 }

/-- No socket has been made yet. -/
def boot (iss : Seq) (passedtick : Nat) : Tcpnet where
  tcb := fun _ => none
  next := 0
  tasks := fun _ => .idle
  iss := iss
  passedtick := passedtick
  destroyed := []
  done := []
  resets := []
  accepted := []
  connlog := []

/-! ## What a segment can do -/

variable {s s' : Tcpnet} {i : Nat} {t : Tcb}

theorem obj_eq_some : s.obj i = some t ↔ s.tcb i = some t ∧ t.live = true := by
  unfold obj
  rw [filter_eq_some_iff]

theorem user_eq_some : s.user i = some t ↔
    s.tcb i = some t ∧ t.live = true ∧ t.refcnt ≠ 0 ∧ t.incoming = none := by
  unfold user
  rw [filter_eq_some_iff, obj_eq_some]
  simp [and_assoc]

theorem set_self : (s.set i t).tcb i = some t := if_pos rfl

theorem set_ne {j : Nat} (h : j ≠ i) : (s.set i t).tcb j = s.tcb j := if_neg h

theorem set_set (s : Tcpnet) (i : Nat) (t t' : Tcb) : (s.set i t).set i t' = s.set i t' := by
  unfold set
  congr 1
  funext j
  by_cases hj : j = i
  · rw [if_pos hj, if_pos hj]
  · rw [if_neg hj, if_neg hj]
    exact if_neg hj

theorem new_next (s : Tcpnet) (t : Tcb) : (s.new t).tcb s.next = some t := set_self

theorem new_ne (s : Tcpnet) (t : Tcb) {j : Nat} (h : j ≠ s.next) :
    (s.new t).tcb j = s.tcb j := set_ne h

/-- During the handshake a segment is dropped, makes a child, or completes the handshake of
either side; behind it, it is for the socket alone. -/
inductive Inputs (s : Tcpnet) (i : Nat) (t : Tcb) (seg : Segment) (d r : Answer) :
    Tcpnet → Prop where
  | ignored : Inputs s i t seg d r s
  | dropped (sock : Sock) : sock.state = t.sock.state → t.sock.state.beforeEstab = true →
      Inputs s i t seg d r (s.set i { t with sock := sock })
  | child (sock csock : Sock) (laddr faddr : BitVec 32) (iss : Seq) :
      t.sock.state = .listen → sock.state = .listen → csock.state = .synrecv →
      Inputs s i t seg d r
        { (s.set i { t with sock := sock, incomingq := t.incomingq ++ [s.next] }).new
          ⟨csock, laddr, faddr, 1, some i, some i, [], false, false, true⟩ with iss := iss }
  | synsent (sock : Sock) : t.sock.state = .synsent → sock.state = .estab →
      Inputs s i t seg d r ((s.set i { t with sock := sock }).reach i)
  | synrecv (sock : Sock) : t.sock.state = .synrecv → sock.state = .estab →
      Sock.handles seg = true → seg.hdr.ackeq t.sock.snd.sndnxt = true →
      Inputs s i t seg d r { s.set i { t with sock := sock } with done := i :: s.done }
  | connected (sock : Sock) (timewaittm : Bool) :
      t.sock.state ≠ .listen → t.sock.state ≠ .synsent → t.sock.state ≠ .synrecv →
      t.sock.input s.passedtick seg d r = some sock →
      Inputs s i t seg d r
        { s.set i { t with sock := sock, timewaittm := timewaittm } with
          resets := if t.sock.state = .estab ∧ sock.state = .closed then i :: s.resets
            else s.resets }

theorem input_cases {seg : Segment} {saddr daddr : BitVec 32} {tail : List Byte} {d r : Answer}
    (ht : s.input i seg saddr daddr tail d r = some s') :
    ∃ t, s.tcb i = some t ∧ t.live = true ∧ Inputs s i t seg d r s' := by
  obtain ⟨t, hobj, ht⟩ := bind_eq_some_iff.mp ht
  obtain ⟨htcb, hlive⟩ := obj_eq_some.mp hobj
  refine ⟨t, htcb, hlive, ?_⟩
  dsimp only at ht
  split at ht
  case h_1 hstate =>
    split at ht
    · cases ht
      exact .ignored
    unfold inputlisten at ht
    split at ht
    · cases ht
      exact .dropped _ rfl (by rw [hstate]; rfl)
    · obtain ⟨sock, hsock, ht⟩ := map_eq_some_iff.mp ht
      cases ht
      refine .child _ sock daddr saddr _ hstate hstate ?_
      obtain ⟨-, -, rfl⟩ := map_eq_some_iff.mp hsock
      rfl
  case h_2 hstate =>
    split at ht
    · cases ht
      exact .ignored
    split at ht
    · cases ht
      exact .dropped _ rfl (by rw [hstate]; rfl)
    · obtain ⟨sock, hsock, ht⟩ := map_eq_some_iff.mp ht
      cases ht
      refine .synsent sock hstate ?_
      obtain ⟨-, -, rfl⟩ := map_eq_some_iff.mp hsock
      rfl
  case h_3 hstate =>
    split at ht
    · cases ht
      exact .ignored
    next hhandles =>
    split at ht
    · cases ht
      exact .dropped _ rfl (by rw [hstate]; rfl)
    next hack =>
      cases ht
      rw [Bool.not_eq_true', Bool.not_eq_false] at hhandles hack
      rw [Sock.sndupdate_sndnxt] at hack
      exact .synrecv _ hstate rfl hhandles hack
  case h_4 hlisten hsynsent hsynrecv =>
    obtain ⟨sock, hsock, ht⟩ := map_eq_some_iff.mp ht
    cases ht
    exact .connected sock _ hlisten hsynsent hsynrecv hsock

end Tcpnet

end Unixlite.Net
