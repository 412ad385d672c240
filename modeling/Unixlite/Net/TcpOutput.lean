import Unixlite.Net.TcpSock

/-!
# TCP output

Port of `net/inet/tcpoutput.cc`, of the timers of `net/inet/tcptimer.cc` and of
`shutdown`.  `output` can sleep in two places, for room in the send buffer and
for the send window; it is cut there, and `outputBuilt` is what runs when the
second wait is over.
-/

namespace Unixlite.Net

open Unixlite.Verified

/-- The arguments of `output`. -/
structure Outargs where
  priority : Priority
  flags : BitVec 8
  data : List Byte
  opt : List Byte

namespace Outargs

/-- `LINKIPHLEN + tcpheadlen + datalen`. -/
def roomlen (a : Outargs) : Nat := LINKIPHLEN + (Tcphdr.size + a.opt.length + a.data.length)

/-- `sendflags`: the arguments of a packet without data. -/
def ofFlags (flags : BitVec 8) : Outargs := ⟨.kern, flags ||| TCPFPSH, [], []⟩

end Outargs

/-- How far a stretch of `output` gets: it waits for buffer room with nothing
changed, it waits for the window with the packet built, or it returns. -/
inductive Outstep where
  | sleepbuf
  | sleepwnd (pkt : Pkt) (s : Sock)
  | ret (e : Int) (s : Sock)

namespace Sock

/-- `flags != AKERN && cursndbuf < roomlen`, the condition of the wait in
`allocsndbuf`. -/
def sndbuffull (s : Sock) (a : Outargs) : Bool :=
  a.priority != .kern && s.snd.cursndbuf < a.roomlen

/-- `sndwnd < mss && priority != AKERN`, the condition of the second wait. -/
def wndfull (s : Sock) (priority : Priority) : Bool :=
  s.snd.sndwnd < s.mss && priority != .kern

/-- The packet that `output` fills in. -/
def buildpkt (s : Sock) (passedtick : Nat) (a : Outargs) : Pkt :=
  let th : Tcphdr := {
    sport := s.lport
    dport := s.fport
    seq := s.snd.sndnxt
    ack := if a.flags &&& TCPFACK != 0 then s.rcv.rcvnxt else 0
    flags := a.flags
    wnd := BitVec.ofInt 16 s.rcvwnd
    urgptr := 0
    opt := a.opt }
  { hdr := th
    data := a.data
    roomlen := a.roomlen
    sendtick := passedtick
    startseq := s.snd.sndnxt
    endseq := s.snd.sndnxt + BitVec.ofNat 32 (a.data.length + th.synfinbyte)
    live := true }

/-- The socket after the packet is built: the room is taken, a pending
acknowledgement is being sent, and the sequence space is used up. -/
def take (s : Sock) (pkt : Pkt) (a : Outargs) : Sock :=
  { s with
    ndelack := if a.flags &&& TCPFACK != 0 then 0 else s.ndelack
    delacktm := if a.flags &&& TCPFACK != 0 then false else s.delacktm
    snd := { s.snd with
      cursndbuf := s.snd.cursndbuf - a.roomlen
      sndnxt := s.snd.sndnxt + pkt.seqlen
      sndwnd := s.snd.sndwnd - a.data.length } }

/-- Record a return from `output`. -/
def logret (s : Sock) (before : Sent) (e : Int) : Sock :=
  { s with snd := { s.snd with outlog := ⟨e, before, s.snd.sent⟩ :: s.snd.outlog } }

/-- A packet that acknowledges and nothing more is not kept for retransmission. -/
def pureack (pkt : Pkt) : Bool :=
  pkt.startseq == pkt.endseq && !(pkt.hdr.has TCPFSYN || pkt.hdr.has TCPFFIN)

/-- `output` from the end of the wait for the window on. -/
def outputBuilt (s : Sock) (pkt : Pkt) (ans : Answer) : Int × Sock :=
  if pureack pkt then (ans.ipoutput, s)
  else if !ans.clone then
    -- the packet is deleted while the queue still links it
    (ENOMEM, { s with snd := { s.snd with
      unackedq := s.snd.unackedq ++ [{ pkt with live := false }] } })
  else
    (ans.ipoutput, { s with snd := { s.snd with
      unackedq := s.snd.unackedq ++ [pkt]
      rexmittm := if s.snd.rexmittm = none then some s.snd.rto else s.snd.rexmittm } })

/-- `output`, from its beginning or from the wait for buffer room. -/
def output (s : Sock) (passedtick : Nat) (a : Outargs) (ans : Answer) : Outstep :=
  if s.sndbuffull a then .sleepbuf
  else if !ans.newpkt then .ret ENOMEM (s.logret s.snd.sent ENOMEM)
  else
    let pkt := s.buildpkt passedtick a
    let s' := s.take pkt a
    if s'.wndfull a.priority then .sleepwnd pkt s'
    else
      let r := s'.outputBuilt pkt ans
      .ret r.1 (r.2.logret s.snd.sent r.1)

/-- `sendflags`.  With kernel priority `output` never sleeps. -/
def sendflags (s : Sock) (passedtick : Nat) (flags : BitVec 8) (ans : Answer) : Int × Sock :=
  match s.output passedtick (Outargs.ofFlags flags) ans with
  | .ret e s' => (e, s')
  | .sleepbuf => (0, s)
  | .sleepwnd _ s' => (0, s')

/-! ## Timers and shutdown -/

/-- `rexmitto`; the timer has just been taken off the wheel. -/
def rexmitto (s : Sock) (ans : Answer) : Sock :=
  let s := { s with snd := { s.snd with nrexmit := s.snd.nrexmit + 1, rexmittm := none } }
  if MAXREXMIT ≤ s.snd.nrexmit then s
  else if s.snd.unackedq = [] then s
  else if !ans.clone then
    -- the head of the queue is deleted while the queue still links it
    { s with snd := { s.snd with unackedq := delheadpkt s.snd.unackedq } }
  else { s with snd := { s.snd with rexmittm := some s.snd.rto } }

def delackto (s : Sock) (passedtick : Nat) (ans : Answer) : Sock :=
  ({ s with delacktm := false }.sendflags passedtick TCPFACK ans).2

/-- The state `shutdown` changes to. -/
def shutdownState (s : Sock) : Option Tcpstate :=
  match s.state with
  | .estab => some .finwait1
  | .closewait => some .lastack
  | _ => none

def shutdown (s : Sock) (passedtick : Nat) (ans : Answer) : Int × Sock :=
  match s.shutdownState with
  | none => (ENOTCONN, s)
  | some newstate => (0, (s.sendflags passedtick (TCPFFIN ||| TCPFACK) ans).2.change newstate)

/-! ## What output leaves alone -/

theorem not_sndbuffull_kern (s : Sock) (flags : BitVec 8) :
    s.sndbuffull (Outargs.ofFlags flags) = false := by
  simp [sndbuffull, Outargs.ofFlags]

theorem not_wndfull_kern (s : Sock) : s.wndfull .kern = false := by
  simp [wndfull]

/-- A call of `sendflags` either fails in `newpkt` or runs through. -/
theorem sendflags_eq (s : Sock) (passedtick : Nat) (flags : BitVec 8) (ans : Answer) :
    s.sendflags passedtick flags ans =
      if !ans.newpkt then (ENOMEM, s.logret s.snd.sent ENOMEM)
      else
        let a := Outargs.ofFlags flags
        let pkt := s.buildpkt passedtick a
        let r := (s.take pkt a).outputBuilt pkt ans
        (r.1, r.2.logret s.snd.sent r.1) := by
  have hprio : (Outargs.ofFlags flags).priority = .kern := rfl
  unfold sendflags output
  simp only [not_sndbuffull_kern, hprio, not_wndfull_kern]
  cases ans.newpkt <;> rfl

theorem outputBuilt_rcv (s : Sock) (pkt : Pkt) (ans : Answer) :
    (s.outputBuilt pkt ans).2.rcv = s.rcv ∧ (s.outputBuilt pkt ans).2.state = s.state := by
  unfold outputBuilt
  split_ifs <;> exact ⟨rfl, rfl⟩

/-- Sending never touches the receive side or the state of the connection. -/
theorem sendflags_rcv (s : Sock) (passedtick : Nat) (flags : BitVec 8) (ans : Answer) :
    (s.sendflags passedtick flags ans).2.rcv = s.rcv ∧
      (s.sendflags passedtick flags ans).2.state = s.state := by
  rw [sendflags_eq]
  split
  · exact ⟨rfl, rfl⟩
  · exact outputBuilt_rcv _ _ _

end Sock

end Unixlite.Net
