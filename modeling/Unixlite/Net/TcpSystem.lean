import Unixlite.Verified.Run
import Unixlite.Net.TcpInput

/-!
# One TCP socket and everything that acts on it

Any number of tasks in `send`, readers, `shutdown`, arriving segments and the
timers, all on one connected socket.  A step is a stretch of kernel code that
runs without sleeping.  `send` calls `output` once for each piece of its buffer;
every such call is a step of its own, so that more can happen between two calls
here than in the kernel.

A packet that is deleted while it is linked may be handed out again by the
packet pool.  What the queue looks like from then on is not modelled: there are
no steps after that.
-/

namespace Unixlite.Net

open Unixlite.Verified Unixlite.Verified.Run

/-! ## States and steps -/

/-- Where a task is in `send`. -/
inductive Sender where
  | idle
  /-- About to call `output` for the first piece of `rest`. -/
  | next (rest : List Byte)
  /-- In `output` for the first piece of `rest`, waiting for buffer room. -/
  | sndbuf (rest : List Byte)
  /-- In `output`, waiting for the window; `before` is the send side when the
  packet was built. -/
  | sndwnd (pkt : Pkt) (before : Sent) (rest : List Byte)

structure Tcpsys where
  sock : Sock
  senders : Nat → Sender
  passedtick : Nat
  /-- History: a FIN has arrived in order. -/
  fin : Bool

inductive Tcpevent where
  | send (tid : Nat) (buf : List Byte)
  | output (tid : Nat) (ans : Answer)
  /-- A sleeping sender runs again; `sig` says that a signal is pending. -/
  | resume (tid : Nat) (sig : Bool) (ans : Answer)
  | shutdown (ans : Answer)
  | rexmitto (ans : Answer)
  | delackto (ans : Answer)
  | input (seg : Segment) (d r : Answer)
  | recv (len : Nat)
  | tick

namespace Tcpsys

def setSender (s : Tcpsys) (tid : Nat) (x : Sender) : Tcpsys :=
  { s with senders := fun i => if i = tid then x else s.senders i }

def setSock (s : Tcpsys) (sock : Sock) : Tcpsys := { s with sock := sock }

/-- The arguments `send` gives to `output`: `min(mss, left)` bytes. -/
def pieceArgs (s : Tcpsys) (rest : List Byte) : Outargs :=
  ⟨.user, TCPFACK ||| TCPFPSH, rest.take s.sock.mss, []⟩

/-- What `send` does after `output` has returned `e` with `rest` left. -/
def afterOutput (e : Int) (rest : List Byte) : Sender :=
  if e ≠ 0 ∨ rest = [] then .idle else .next rest

/-- One stretch of `output` for the first piece of `rest`. -/
def outputPiece (s : Tcpsys) (tid : Nat) (rest : List Byte) (ans : Answer) : Tcpsys :=
  match s.sock.output s.passedtick (s.pieceArgs rest) ans with
  | .sleepbuf => s.setSender tid (.sndbuf rest)
  | .sleepwnd pkt sock =>
      (s.setSock sock).setSender tid
        (.sndwnd pkt s.sock.snd.sent (rest.drop s.sock.mss))
  | .ret e sock => (s.setSock sock).setSender tid (afterOutput e (rest.drop s.sock.mss))

/-- A sleeping sender runs again. -/
def resume (s : Tcpsys) (tid : Nat) (sig : Bool) (ans : Answer) : Option Tcpsys :=
  match s.senders tid with
  | .idle | .next _ => none
  | .sndbuf rest =>
      if sig then
        some ((s.setSock (s.sock.logret s.sock.snd.sent EINTR)).setSender tid .idle)
      else some (s.outputPiece tid rest ans)
  | .sndwnd pkt before rest =>
      if sig then some ((s.setSock (s.sock.logret before EINTR)).setSender tid .idle)
      else if s.sock.wndfull .user then some s
      else
        let r := s.sock.outputBuilt pkt ans
        some ((s.setSock (r.2.logret before r.1)).setSender tid (afterOutput r.1 rest))

/-- The states in which `input` hands the segment to `inputdata`. -/
def takesdata : Tcpstate → Bool
  | .estab | .finwait1 | .finwait2 | .closewait | .closing => true
  | _ => false

/-- The segment carries a FIN, and nothing is missing before its FIN byte once
the segment itself has been taken. -/
def finInOrder (s : Sock) (seg : Segment) : Bool :=
  takesdata s.state && !seg.hdr.has TCPFRST && seg.hdr.has TCPFFIN
    && !Serial.lt s.rcv.rcvnxt seg.hdr.seq
    && !Serial.lt (seg.hdr.seq + BitVec.ofNat 32 seg.data.length) s.rcv.rcvnxt

/-- One step; `none` when it cannot happen. -/
def step (s : Tcpsys) (a : Tcpevent) : Option Tcpsys :=
  if s.sock.snd.unackedq.any fun p => !p.live then none
  else
    match a with
    | .send tid buf =>
        match s.senders tid with
        | .idle =>
            if s.sock.state.beforeEstab || buf.isEmpty then some s
            else some (s.setSender tid (.next buf))
        | _ => none
    | .output tid ans =>
        match s.senders tid with
        | .next rest => some (s.outputPiece tid rest ans)
        | _ => none
    | .resume tid sig ans => s.resume tid sig ans
    | .shutdown ans => some (s.setSock (s.sock.shutdown s.passedtick ans).2)
    | .rexmitto ans =>
        if s.sock.snd.rexmittm = none then none else some (s.setSock (s.sock.rexmitto ans))
    | .delackto ans =>
        if s.sock.delacktm then some (s.setSock (s.sock.delackto s.passedtick ans)) else none
    | .input seg d r => do
        let sock ← s.sock.input s.passedtick seg d r
        return { s with sock := sock, fin := s.fin || finInOrder s.sock seg }
    | .recv len =>
        if len = 0 then none
        else do
          let r ← s.sock.recv len
          return s.setSock r.2
    | .tick => some { s with passedtick := s.passedtick + 1 }

/-- A connected socket with no task inside it. -/
def start (base : Sock) (passedtick : Nat) : Tcpsys where
  sock := base.established
  senders := fun _ => .idle
  passedtick := passedtick
  fin := false

/-! ## What a step can do -/

/-- A step, with what has led to it. -/
inductive Steps (s : Tcpsys) : Tcpevent → Tcpsys → Prop where
  | nosend {tid buf} : Steps s (.send tid buf) s
  | send {tid buf} : s.senders tid = .idle → Steps s (.send tid buf) (s.setSender tid (.next buf))
  | output {tid ans rest} : s.senders tid = .next rest →
      Steps s (.output tid ans) (s.outputPiece tid rest ans)
  | bufsig {tid ans rest} : s.senders tid = .sndbuf rest → Steps s (.resume tid true ans)
      ((s.setSock (s.sock.logret s.sock.snd.sent EINTR)).setSender tid .idle)
  | buf {tid ans rest} : s.senders tid = .sndbuf rest →
      Steps s (.resume tid false ans) (s.outputPiece tid rest ans)
  | wndsig {tid ans pkt before rest} : s.senders tid = .sndwnd pkt before rest →
      Steps s (.resume tid true ans) ((s.setSock (s.sock.logret before EINTR)).setSender tid .idle)
  | wndfull {tid ans pkt before rest} : s.senders tid = .sndwnd pkt before rest →
      s.sock.wndfull .user = true → Steps s (.resume tid false ans) s
  | wnd {tid ans pkt before rest} : s.senders tid = .sndwnd pkt before rest →
      s.sock.wndfull .user = false → Steps s (.resume tid false ans)
        ((s.setSock ((s.sock.outputBuilt pkt ans).2.logret before
          (s.sock.outputBuilt pkt ans).1)).setSender tid
            (afterOutput (s.sock.outputBuilt pkt ans).1 rest))
  | shutdown {ans} : Steps s (.shutdown ans) (s.setSock (s.sock.shutdown s.passedtick ans).2)
  | rexmitto {ans} : s.sock.snd.rexmittm ≠ none →
      Steps s (.rexmitto ans) (s.setSock (s.sock.rexmitto ans))
  | delackto {ans} : s.sock.delacktm = true →
      Steps s (.delackto ans) (s.setSock (s.sock.delackto s.passedtick ans))
  | input {seg d r sock} : s.sock.input s.passedtick seg d r = some sock →
      Steps s (.input seg d r) { s with sock := sock, fin := s.fin || finInOrder s.sock seg }
  | recv {len r} : len ≠ 0 → s.sock.recv len = some r → Steps s (.recv len) (s.setSock r.2)
  | tick : Steps s .tick { s with passedtick := s.passedtick + 1 }

theorem step_cases {s t : Tcpsys} {a : Tcpevent} (ht : s.step a = some t) : Steps s a t := by
  unfold step at ht
  split at ht
  · cases ht
  cases a with
  | send tid buf =>
      dsimp only at ht
      split at ht
      · next hsender =>
        split at ht
        · cases ht
          exact .nosend
        · cases ht
          exact .send hsender
      · cases ht
  | output tid ans =>
      dsimp only at ht
      split at ht
      · next rest hsender =>
        cases ht
        exact .output hsender
      · cases ht
  | resume tid sig ans =>
      dsimp only at ht
      unfold resume at ht
      split at ht
      · cases ht
      · cases ht
      · next rest hsender =>
        cases sig with
        | true =>
            cases ht
            exact .bufsig hsender
        | false =>
            cases ht
            exact .buf hsender
      · next pkt before rest hsender =>
        cases sig with
        | true =>
            cases ht
            exact .wndsig hsender
        | false =>
            cases hwnd : s.sock.wndfull .user with
            | true =>
                rw [hwnd] at ht
                cases ht
                exact .wndfull hsender hwnd
            | false =>
                rw [hwnd] at ht
                cases ht
                exact .wnd hsender hwnd
  | shutdown ans =>
      cases ht
      exact .shutdown
  | rexmitto ans =>
      dsimp only at ht
      split at ht
      · cases ht
      · next hactive =>
        cases ht
        exact .rexmitto hactive
  | delackto ans =>
      dsimp only at ht
      split at ht
      · next hactive =>
        cases ht
        exact .delackto hactive
      · cases ht
  | input seg d r =>
      obtain ⟨sock, hsock, ht⟩ := Option.bind_eq_some_iff.mp ht
      cases ht
      exact .input hsock
  | recv len =>
      dsimp only at ht
      split at ht
      · cases ht
      · next hlen =>
        obtain ⟨r, hr, ht⟩ := Option.bind_eq_some_iff.mp ht
        cases ht
        exact .recv hlen hr
  | tick =>
      cases ht
      exact .tick

end Tcpsys

/-- A socket with an open window. -/
def sockOfWindow : Sock where
  state := .estab
  lport := 0
  fport := 0
  mss := 1460
  ndelack := 0
  delacktm := false
  snd := ⟨1, 8192, 32768, [], 0, 0, 0, none, 4, []⟩
  rcv := ⟨0, 1, false, 32768, [], [], [], false⟩

end Unixlite.Net
