import Unixlite.Net.TcpOutput

/-!
# TCP input

Port of `net/inet/tcpinput.cc` for a connected socket, and of `recv`.  The
states before `SESTAB` belong to the handshake, where other sockets and their
waiters take part; `input` has no result there.

Passing a segment on can make the socket send up to two acknowledgements, the
delayed one and the reply of the state; each has its own `Answer`.
-/

namespace Unixlite.Net

open Unixlite.Verified

/-- A received segment, with both headers stripped: `totlen` is the total
length in the IP header, `data` the bytes after the TCP header. -/
structure Segment where
  totlen : BitVec 16
  hdr : Tcphdr
  data : List Byte
  roomlen : Nat

/-- `movestartseqto`, forwards or backwards.  Moving backwards uncovers bytes of
the head room, which are whatever was there. -/
def Pkt.movestartseqto (p : Pkt) (newstartseq : Seq) : Pkt :=
  if Serial.lt p.startseq newstartseq then
    { p.delhead (newstartseq - p.startseq).toNat with startseq := newstartseq }
  else { p with startseq := newstartseq }

/-- The packets `inputdata` takes from the head of the out-of-sequence queue:
they are appended to `recvq`, and `rcvnxt` becomes the end of the packet that
has just arrived, each time. -/
def drainoos (endseq : Seq) : Seq → List Pkt → List Pkt × List Pkt × Seq
  | rcvnxt, [] => ([], [], rcvnxt)
  | rcvnxt, p :: q =>
      if rcvnxt = p.startseq then
        let r := drainoos endseq endseq q
        (p :: r.1, r.2.1, r.2.2)
      else ([], p :: q, rcvnxt)

/-- The insertion into the out-of-sequence queue: with a predecessor the packet
is trimmed and forgotten, else it becomes the first one. -/
def insertoos (q : List Pkt) (pkt : Pkt) : List Pkt :=
  let prev := (q.takeWhile fun p => !Serial.lt pkt.endseq p.startseq).getLast?
  let next := (q.dropWhile fun p => !Serial.lt pkt.endseq p.startseq).head?
  match prev, next with
  | some _, _ => q
  | none, some _ => pkt :: q
  | none, none => q ++ [pkt]

namespace Rcvside

/-- `allocrcvbuf` succeeds. -/
def hasroom (r : Rcvside) (pkt : Pkt) : Bool := pkt.roomlen ≤ r.currcvbuf

/-- `inputdata` from the room check on. -/
def enqueue (r : Rcvside) (pkt : Pkt) : Rcvside :=
  if !r.hasroom pkt then r
  else
    let r := { r with currcvbuf := r.currcvbuf - pkt.roomlen }
    if r.rcvnxt = pkt.startseq then
      let d := drainoos pkt.endseq pkt.endseq r.oosrecvq
      { r with recvq := r.recvq ++ pkt :: d.1, oosrecvq := d.2.1, rcvnxt := d.2.2 }
    else { r with oosrecvq := insertoos r.oosrecvq pkt }

/-- `inputdata` from the first sequence comparison on. -/
def accept (r : Rcvside) (pkt : Pkt) : Rcvside :=
  if Serial.lt pkt.endseq r.rcvnxt then r
  else
    let pkt := if Serial.lt pkt.startseq r.rcvnxt then pkt.movestartseqto r.rcvnxt else pkt
    if pkt.startseq = pkt.endseq then r else r.enqueue pkt

/-- The receive side after `inputdata`.  The result of `seqsub(pkt->endseq, 1)`
is not used, so a FIN keeps its place in `endseq`. -/
def inputdata (r : Rcvside) (pkt : Pkt) : Rcvside :=
  if pkt.hdr.has TCPFFIN then
    if r.finrecved then r
    else
      let r := { r with finrecved := true }
      if pkt.startseq + 1 = pkt.endseq then { r with rcvnxt := r.rcvnxt + 1 }
      else r.accept pkt
  else r.accept pkt

end Rcvside

namespace Sock

def inputdata (s : Sock) (passedtick : Nat) (pkt : Pkt) (ans : Answer) : Sock :=
  let s := { s with ndelack := s.ndelack + 1 }
  let s := if s.ndelack = MAXDELACK then (s.sendflags passedtick TCPFACK ans).2 else s
  { s with rcv := s.rcv.inputdata pkt }

/-- The packet as `input` sees it.  The data length is counted from the first
option on. -/
def inpkt (seg : Segment) : Pkt where
  hdr := seg.hdr
  data := seg.data
  roomlen := seg.roomlen
  sendtick := 0
  startseq := seg.hdr.seq
  endseq := seg.hdr.seq +
    BitVec.ofInt 32 (seg.totlen.toNat - (IPHLEN + Tcphdr.size) + seg.hdr.synfinbyte)
  live := true

/-- The handler of the state; `d` answers the acknowledgement inside
`inputdata`, `r` the one the state sends itself. -/
def inputstate (s : Sock) (passedtick : Nat) (pkt : Pkt) (d r : Answer) : Option Sock :=
  let ackfin := pkt.hdr.ackeq s.snd.sndnxt
  let ack (s : Sock) : Sock := (s.sendflags passedtick TCPFACK r).2
  match s.state with
  | .closed => some s
  | .listen | .synsent | .synrecv => none
  | .estab =>
      let s := s.inputdata passedtick pkt d
      some (if s.rcv.finrecved then s.change .closewait else s)
  | .finwait1 =>
      let s := s.inputdata passedtick pkt d
      if s.rcv.finrecved && ackfin then some (ack s).entertimewait
      else if s.rcv.finrecved then some ((ack s).change .closing)
      else if ackfin then some (s.change .finwait2)
      else some s
  | .finwait2 =>
      let s := s.inputdata passedtick pkt d
      some (if s.rcv.finrecved then (ack s).entertimewait else s)
  | .timewait => some s
  | .closewait =>
      let s := s.inputdata passedtick pkt d
      some (if s.rcv.finrecved then ack s else s)
  | .lastack => some (if ackfin then (ack s).change .closed else s)
  | .closing =>
      let s := s.inputdata passedtick pkt d
      some (if ackfin then (ack s).entertimewait else s)

/-- What `input` does to the send side: the window, then the acknowledgement. -/
def sndupdate (s : Sock) (passedtick : Nat) (th : Tcphdr) : Sndside :=
  let snd := if s.state.beforeEstab then s.snd else s.snd.updatesndwnd th
  if th.has TCPFACK then snd.ackarrived passedtick th.ack else snd

def input (s : Sock) (passedtick : Nat) (seg : Segment) (d r : Answer) : Option Sock :=
  let pkt := inpkt seg
  if Serial.gt pkt.startseq pkt.endseq then some s
  else if pkt.hdr.has TCPFRST then some s.abort
  else
    { s with snd := s.sndupdate passedtick pkt.hdr }.inputstate passedtick pkt d r

/-! ## Reading -/

/-- `recv` of `len` bytes, at least one, without `MSGPEEK`; `none` while it has
to wait.  Nothing is kept across its waits. -/
def recv (s : Sock) (len : Nat) : Option (Except Int (List Byte) × Sock) :=
  if s.state.beforeEstab then some (.error ENOTCONN, s)
  else if s.rcv.recvq = [] then
    if s.rcv.finrecved then some (.ok [], { s with rcv := { s.rcv with eof := true } })
    else none
  else
    let f := fetch s.rcv.recvq len
    some (.ok f.buf, { s with rcv := { s.rcv with
      recvq := f.q
      currcvbuf := s.rcv.currcvbuf + f.freedroom
      rcvd := s.rcv.rcvd ++ f.buf
      eof := s.rcv.eof || f.buf.isEmpty } })

end Sock

end Unixlite.Net
