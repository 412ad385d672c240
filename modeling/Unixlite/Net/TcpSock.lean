import Unixlite.Lib.Errno
import Unixlite.Net.Pkt

/-!
# TCP sockets

Port of the data of `net/inet/tcp.h` and `net/lib/sock.h`, with the functions
both directions use.  The fields of a socket are grouped by direction; the
grouping is the only change to the layout.

Three fields are history variables, which no function reads: `outlog` lists
what the calls of `output` returned, `rcvd` and `eof` what `recv` returned.
-/

namespace Unixlite.Net

open Unixlite.Verified

/-! ## Constants -/

/-- `sizeof(iphdr_t)`. -/
def IPHLEN : Nat := 20

/-- `LINKIPHLEN`: link and IP header. -/
def LINKIPHLEN : Nat := 36

def LINKIPTCPHLEN : Nat := 56

def MAXREXMIT : Nat := 8
def MAXDELACK : Nat := 2
def MINRTT : Nat := 4
def MAXRTT : Nat := 200

/-- `AUSER` and `AKERN`. -/
inductive Priority where
  | user | kern
deriving DecidableEq

/-- `tcpstate_t`, in the order of the source. -/
inductive Tcpstate where
  | closed | listen | synsent | synrecv | estab | finwait1 | finwait2 | timewait
  | closewait | lastack | closing
deriving DecidableEq

/-- `state < SESTAB`. -/
def Tcpstate.beforeEstab : Tcpstate → Bool
  | .closed | .listen | .synsent | .synrecv => true
  | _ => false

/-- What memory and routing answer to one call of `output`: whether `newpkt`
and `clone` find memory, and what `ipoutput` returns. -/
structure Answer where
  newpkt : Bool
  clone : Bool
  ipoutput : Int

/-! ## Socket -/

/-- The send side as a caller of `output` sees it. -/
structure Sent where
  sndnxt : Seq
  unackedq : List Pkt
  cursndbuf : Int
deriving DecidableEq

/-- One return from `output`: the result, and the send side before and after.
"Before" is when the call last had the processor without having changed
anything, so that what other tasks do during its sleeps is not counted. -/
structure Outret where
  e : Int
  before : Sent
  after : Sent
deriving DecidableEq

/-- The send variables. -/
structure Sndside where
  sndnxt : Seq
  sndwnd : Int
  cursndbuf : Int
  unackedq : List Pkt
  lastseq : Seq
  lastack : Seq
  nrexmit : Nat
  /-- The period of `rexmittm` while it is active. -/
  rexmittm : Option Nat
  rtt : Nat
  outlog : List Outret

/-- The receive variables. -/
structure Rcvside where
  irs : Seq
  rcvnxt : Seq
  finrecved : Bool
  currcvbuf : Int
  recvq : List Pkt
  oosrecvq : List Pkt
  rcvd : List Byte
  eof : Bool

/-- `tcpsock_t`. -/
structure Sock where
  state : Tcpstate
  lport : BitVec 16
  fport : BitVec 16
  mss : Nat
  ndelack : Nat
  /-- `delacktm.active()`. -/
  delacktm : Bool
  snd : Sndside
  rcv : Rcvside

namespace Sndside

def sent (s : Sndside) : Sent := ⟨s.sndnxt, s.unackedq, s.cursndbuf⟩

def rto (s : Sndside) : Nat := s.rtt * 2

def updatertt (rtt newrtt : Nat) : Nat := max MINRTT (min ((rtt + newrtt) / 2) MAXRTT)

/-- `ackarrived`.  The loop stops at the first packet with `ack < endseq`, a
comparison of unsigned words. -/
def ackarrived (s : Sndside) (passedtick : Nat) (ack : Seq) : Sndside :=
  let acked := s.unackedq.takeWhile fun p => !(ack < p.endseq)
  let left := s.unackedq.dropWhile fun p => !(ack < p.endseq)
  if acked = [] then s
  else
    let s := { s with
      unackedq := left
      rtt := acked.foldl (fun rtt (p : Pkt) => updatertt rtt (passedtick - p.sendtick)) s.rtt
      cursndbuf := s.cursndbuf + (acked.map Pkt.roomlen).sum
      nrexmit := 0 }
    { s with rexmittm := if left = [] then none else some s.rto }

def updatesndwnd (s : Sndside) (th : Tcphdr) : Sndside :=
  if Serial.lt s.lastseq th.seq
      || s.lastseq == th.seq && th.has TCPFACK && Serial.lt s.lastack th.ack
      || th.has TCPFACK && s.lastack == th.ack && s.sndwnd < th.wnd.toNat then
    { s with lastseq := th.seq, lastack := th.ack, sndwnd := th.wnd.toNat }
  else s

end Sndside

namespace Sock

def rcvwnd (s : Sock) : Int :=
  if s.rcv.currcvbuf < LINKIPTCPHLEN + s.mss then 0 else s.rcv.currcvbuf

def abort (s : Sock) : Sock :=
  if s.state ≠ .estab then s
  else { s with state := .closed, delacktm := false, snd := { s.snd with rexmittm := none } }

def entertimewait (s : Sock) : Sock :=
  { s with state := .timewait, delacktm := false, snd := { s.snd with rexmittm := none } }

def change (s : Sock) (newstate : Tcpstate) : Sock := { s with state := newstate }

/-- An established connection on which nothing is in flight and nothing has
been received yet; the other values are those of `base`. -/
def established (base : Sock) : Sock :=
  { base with
    state := .estab
    snd := { base.snd with unackedq := [], outlog := [] }
    rcv := { base.rcv with
      rcvnxt := base.rcv.irs + 1, finrecved := false, recvq := [], oosrecvq := [],
      rcvd := [], eof := false } }

end Sock

end Unixlite.Net
