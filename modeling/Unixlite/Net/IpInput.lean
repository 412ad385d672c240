import Unixlite.Net.NetrxMoves
import Unixlite.Net.TcpListen
import Unixlite.Verified.Partial

/-!
# Input over the bytes of a frame

Port of `ipinput`, `tcpinput`, `udpinput`, `icmpinput` and `tcpsock_t::input` as far as
they read the bytes of a received frame and cut its data area.  `touch` stands before each
access: it fails when the access leaves the bytes that were received.  What is read there
is in the headers that `decode` gives.  What a segment does to its socket is
`Unixlite.Net.Sock.input`.
-/

namespace Unixlite.Net.IpInput

open Unixlite.Verified Unixlite.Verified.Partial Unixlite.Net.Netrx

/-! ## Bytes -/

def at8 (v : List Byte) (o : Nat) : Byte := v.getD o 0

def at16 (v : List Byte) (o : Nat) : BitVec 16 := word (at8 v o) (at8 v (o + 1))

def at32 (v : List Byte) (o : Nat) : BitVec 32 := at16 v (o + 2) ++ at16 v o

/-- `totlen`, in host byte order. -/
def totlen (v : List Byte) : Nat := (ntohs (at16 v 2)).toNat

/-- The length that `ipchksumpseudo` is given, a `u16_t`. -/
def sumlen (v : List Byte) : BitVec 16 := BitVec.ofInt 16 (totlen v - IPHLEN)

/-- `getheadlen`. -/
def tcphlen (v : List Byte) : Nat := 4 * ((at8 v 32).toNat / 16)

/-- The TCP segment behind an IP header without options. -/
def segment (roomlen : Nat) (v : List Byte) : Segment where
  totlen := ntohs (at16 v 2)
  hdr :=
    { sport := ntohs (at16 v 20)
      dport := ntohs (at16 v 22)
      seq := ntohl (at32 v 24)
      ack := ntohl (at32 v 28)
      flags := at8 v 33
      wnd := ntohs (at16 v 34)
      urgptr := ntohs (at16 v 38)
      opt := (v.drop 40).take (tcphlen v - Tcphdr.size) }
  data := (v.drop (IPHLEN + tcphlen v)).take (totlen v - IPHLEN - tcphlen v)
  roomlen := roomlen

/-- The headers of a packet with the data area `v`. -/
def decode (roomlen : Nat) (v : List Byte) : Iphdr where
  ver := (at8 v 0).toNat / 16
  headlen := 4 * ((at8 v 0).toNat % 16)
  ipchksum := ipchksum (v.take IPHLEN)
  saddr := at32 v 12
  daddr := at32 v 16
  proto := at8 v 9
  sport := ntohs (at16 v 20)
  dport := ntohs (at16 v 22)
  chksum := at16 v 26
  udpchksum := ipchksumpseudo (at32 v 12) (at32 v 16) IPPROTOUDP (sumlen v)
    ((v.drop IPHLEN).take (sumlen v).toNat)
  type := at8 v 20
  icmpchksum := ipchksum ((v.drop IPHLEN).take (totlen v - IPHLEN))
  seg := segment roomlen v
  tcpchksum := ipchksumpseudo (at32 v 12) (at32 v 16) IPPROTOTCP (sumlen v)
    ((v.drop IPHLEN).take (sumlen v).toNat)

/-! ## Faults and results -/

inductive Fault where
  /-- An access outside the data area of a packet. -/
  | bounds
  /-- A negative `datalen`. -/
  | negative
  | assertion
  /-- `parseopt` reads behind the frame, or does not end. -/
  | options
deriving DecidableEq

/-- What becomes of the packet.  It is dropped when it is deleted before a socket has acted
on it, and taken when a socket has it, the state of a TCP socket is given it, or an echo
request is answered. -/
inductive Verdict where
  | dropped | forwarded | taken
deriving DecidableEq

/-- An access to `len` bytes at `o`. -/
def touch (v : List Byte) (o len : Nat) : Except Fault Unit :=
  if o + len ≤ v.length then .ok () else .error .bounds

def assert (b : Bool) : Except Fault Unit := if b then .ok () else .error .assertion

/-! ## The data area -/

/-- `data`, as an offset from the first byte of the IP header, and `datalen`. -/
structure Area where
  data : Int
  datalen : Int

namespace Area

/-- `check`, when the frame has `n` bytes, with `LINKHLEN` bytes of head room before them. -/
def check (n : Nat) (p : Area) : Except Fault Area :=
  if p.data < -16 ∨ (n : Int) < p.data + p.datalen then .error .assertion
  else if p.datalen < 0 then .error .negative
  else .ok p

def addhead (n : Nat) (p : Area) (delta : Int) : Except Fault Area :=
  check n ⟨p.data - delta, p.datalen + delta⟩

def delhead (n : Nat) (p : Area) (delta : Int) : Except Fault Area :=
  check n ⟨p.data + delta, p.datalen - delta⟩

def trimto (n : Nat) (p : Area) (len : Int) : Except Fault Area := check n ⟨p.data, len⟩

def movestartseqto (n : Nat) (p : Area) (startseq newstartseq : Seq) : Except Fault Area :=
  if Serial.lt startseq newstartseq then p.delhead n (newstartseq - startseq).toInt
  else p.addhead n (startseq - newstartseq).toInt

end Area

/-! ## The host -/

/-- A connected socket with its addresses. -/
structure Conn where
  laddr : BitVec 32
  faddr : BitVec 32
  sock : Sock

/-- Devices, routes and sockets; the TCP sockets in `fhashtab` are in `conns`. -/
structure Host where
  net : Netstate
  conns : List Conn
  passedtick : Nat

/-- What memory answers: the `i`-th `newpkt` and the `i`-th `clone`. -/
structure Memory where
  newpkt : Nat → Bool
  clone : Nat → Bool

namespace Host

/-- `ipoutput` of a packet that has `len` bytes with its IP header. -/
def ipoutput (h : Host) (len : Nat) (daddr : BitVec 32) : Except Fault Unit :=
  match h.net.route daddr with
  | none => .ok ()
  | some (dev, _) => assert ((len : Int) ≤ dev.mtu.toInt)

/-- A packet that the host makes, if there is memory for it. -/
def reply (h : Host) (newpkt : Bool) (len : Nat) (daddr : BitVec 32) : Except Fault Unit :=
  if newpkt then h.ipoutput len daddr else .ok ()

end Host

/-! ## TCP -/

/-- `initirs`; the bytes behind the options are those of the frame. -/
def initirs (v : List Byte) : Except Fault Unit :=
  if (parseopt ((v.drop 40).take (tcphlen v - Tcphdr.size))
      ((v.drop 40).drop (tcphlen v - Tcphdr.size))).isSome then .ok ()
  else .error .options

/-- The insertion into `oosrecvq`: behind another packet the start is moved to its end. -/
def insertoos (n : Nat) (p : Area) (oosrecvq : List Pkt) (pkt : Pkt) : Except Fault Unit :=
  match (oosrecvq.takeWhile fun q => !Serial.lt pkt.endseq q.startseq).getLast? with
  | none => .ok ()
  | some prev =>
      if Serial.lt pkt.startseq prev.endseq then do
        let _ ← p.movestartseqto n pkt.startseq prev.endseq
      else .ok ()

/-- `inputdata` from the first sequence comparison on. -/
def accept (n : Nat) (p : Area) (r : Rcvside) (pkt : Pkt) : Except Fault Unit :=
  if Serial.lt pkt.endseq r.rcvnxt then .ok ()
  else if Serial.lt pkt.startseq r.rcvnxt then do
    -- from here on the packet starts at `rcvnxt`
    let _ ← p.movestartseqto n pkt.startseq r.rcvnxt
  else if pkt.startseq = pkt.endseq then .ok ()
  else if !r.hasroom pkt then .ok ()
  else if r.rcvnxt = pkt.startseq then .ok ()
  else insertoos n p r.oosrecvq pkt

/-- `inputdata` behind the acknowledgement. -/
def inputdata (n : Nat) (p : Area) (r : Rcvside) (pkt : Pkt) : Except Fault Unit :=
  if pkt.hdr.has TCPFFIN then
    if r.finrecved then .ok ()
    else if pkt.startseq + 1 = pkt.endseq then .ok ()
    else accept n p r pkt
  else accept n p r pkt

namespace Conn

/-- `localmatch` and `foreignmatch`, in a state that the loop does not pass over. -/
def perfectmatch (c : Conn) (ih : Iphdr) : Bool :=
  !(c.sock.state == .closed || c.sock.state == .timewait) &&
    (c.laddr == Netrx.INADDRANY || c.laddr == ih.daddr) && c.sock.lport == ih.seg.hdr.dport &&
    c.faddr == ih.saddr && c.sock.fport == ih.seg.hdr.sport

/-- The packets that `ackarrived` takes off `unackedq` were sent before. -/
def ontime (c : Conn) (passedtick : Nat) (ack : Seq) : Bool :=
  (c.sock.snd.unackedq.takeWhile fun p => !(ack < p.endseq)).all fun p =>
    p.sendtick ≤ passedtick

/-- `sendflags(TCPFACK)`. -/
def sendack (c : Conn) (h : Host) (newpkt : Bool) : Except Fault Unit :=
  h.reply newpkt (IPHLEN + Tcphdr.size) c.faddr

/-- An acknowledgement, when one is due. -/
def ackif (c : Conn) (h : Host) (due newpkt : Bool) : Except Fault Unit :=
  if due then c.sendack h newpkt else .ok ()

/-- The handler of the state. -/
def inputstate (c : Conn) (h : Host) (env : Memory) (v : List Byte) (p : Area) (seg : Segment) :
    Except Fault Unit :=
  let pkt := Sock.inpkt seg
  match c.sock.state with
  | .closed | .listen | .timewait | .synrecv => .ok ()
  | .synsent =>
      if !pkt.hdr.has TCPFSYN || !pkt.hdr.ackeq c.sock.snd.sndnxt then .ok ()
      else do
        initirs v
        c.sendack h (env.newpkt 1)
  | .lastack => c.ackif h (c.sock.acks seg) (env.newpkt 1)
  | .estab | .finwait1 | .finwait2 | .closewait | .closing => do
      c.ackif h c.sock.delacks (env.newpkt 0)
      inputdata v.length p c.sock.rcv pkt
      c.ackif h (c.sock.acks seg) (env.newpkt 1)

def updatesndwnd (c : Conn) (v : List Byte) : Except Fault Unit :=
  if c.sock.state.beforeEstab then .ok ()
  else do
    touch v 28 4
    touch v 34 2

def ackarrived (c : Conn) (h : Host) (v : List Byte) (seg : Segment) : Except Fault Unit :=
  if seg.hdr.has TCPFACK then do
    touch v 28 4
    assert (c.ontime h.passedtick seg.hdr.ack)
  else .ok ()

/-- `input` from the handling of a reset on. -/
def inputsegment (c : Conn) (h : Host) (env : Memory) (v : List Byte) (p : Area)
    (seg : Segment) : Except Fault Unit :=
  if seg.hdr.has TCPFRST then .ok ()
  else do
    c.updatesndwnd v
    c.ackarrived h v seg
    c.inputstate h env v p seg

end Conn

/-- `input` and `inputlisten` of a listening socket, from the handling of a reset on.  It has
no packets that could be acknowledged. -/
def inputlisten (h : Host) (env : Memory) (v : List Byte) (ih : Iphdr) : Except Fault Unit :=
  if ih.seg.hdr.has TCPFRST then .ok ()
  else if !ih.seg.hdr.has TCPFSYN then do
    touch v 28 4
    h.reply (env.newpkt 0) (IPHLEN + Tcphdr.size) ih.saddr
  else do
    touch v 34 2
    initirs v
    h.reply (env.newpkt 0 && env.clone 0) (IPHLEN + Tcphdr.size + 4) ih.saddr

/-- `tcpsock_t::input`; `rest` is what it does with a segment whose numbers are in order. -/
def inputseq (v : List Byte) (seg : Segment) (rest : Except Fault Unit) :
    Except Fault Verdict := do
  touch v 24 4
  touch v 33 1
  if Serial.gt (Sock.inpkt seg).startseq (Sock.inpkt seg).endseq then return .dropped
  else do
    rest
    return .taken

def tcpinput (h : Host) (env : Memory) (v : List Byte) (p : Area) (ih : Iphdr) :
    Except Fault Verdict := do
  let p ← p.delhead v.length ih.headlen
  touch v 32 1
  let p ← p.delhead v.length (tcphlen v)
  touch v IPHLEN (sumlen v).toNat
  if ih.tcpchksum ≠ 0 then return .dropped
  else do
    touch v 20 4
    match h.conns.find? fun c => c.perfectmatch ih with
    | some c => inputseq v ih.seg (c.inputsegment h env v p ih.seg)
    | none =>
        if h.net.halfmatch ih then inputseq v ih.seg (inputlisten h env v ih)
        else return .dropped

/-! ## UDP, ICMP and raw sockets -/

/-- A socket that accepts the datagram. -/
def udpsock (h : Host) (ih : Iphdr) : Option Udpsock :=
  h.net.udps.find? fun s =>
    (s.laddr == Netrx.INADDRANY || s.laddr == ih.daddr) && s.lport == ih.dport &&
      (s.faddr == Netrx.INADDRANY || s.faddr == ih.saddr && s.fport == ih.sport)

/-- The demultiplexing of `udpinput`. -/
def udpdemux (h : Host) (v : List Byte) (ih : Iphdr) : Except Fault Verdict := do
  touch v 20 4
  return if (udpsock h ih).isSome then .taken else .dropped

def udpinput (h : Host) (v : List Byte) (ih : Iphdr) : Except Fault Verdict := do
  touch v 26 2
  if ih.chksum = 0 then udpdemux h v ih
  else do
    touch v IPHLEN (sumlen v).toNat
    if ih.udpchksum ≠ 0 then return .dropped
    else udpdemux h v ih

/-- The result of `rawinput`, when `k` sockets accept the packet. -/
def rawcount (clone : Nat → Bool) (k : Nat) : Nat :=
  if (List.range (k - 1)).all clone then k else 0

/-- `icmpoutput`: the reply holds the IP header and eight bytes more. -/
def icmpoutput (h : Host) (env : Memory) (v : List Byte) (ih : Iphdr) : Except Fault Unit :=
  if env.newpkt 0 then do
    touch v 0 (IPHLEN + 8)
    h.ipoutput (IPHLEN + 32) ih.saddr
  else .ok ()

/-- `ipinput` from `rawinput` on. -/
def toraw (h : Host) (env : Memory) (v : List Byte) (ih : Iphdr) : Except Fault Verdict := do
  let k := (takers h.net.raws ih).length
  (if rawcount env.clone k = 0 then icmpoutput h env v ih else .ok ())
  return if 0 < k then .taken else .dropped

/-- `icmpechorequest`; the header of the reply is written into a packet of `len` bytes. -/
def icmpechorequest (h : Host) (env : Memory) (len : Nat) (ih : Iphdr) : Except Fault Unit :=
  if env.newpkt 0 then
    if len < 4 then .error .bounds else h.ipoutput (IPHLEN + len) ih.saddr
  else .ok ()

/-- `icmpinput`, and what `ipinput` does behind it.  With a negative length `ipchksum` does
not stop at the end of the packet. -/
def icmpinput (h : Host) (env : Memory) (v : List Byte) (ih : Iphdr) : Except Fault Verdict :=
  if totlen v < IPHLEN then .error .bounds
  else do
    touch v IPHLEN (totlen v - IPHLEN)
    if ih.icmpchksum ≠ 0 then return .dropped
    else do
      touch v IPHLEN 1
      if ih.type = ICTECHOREQUEST then do
        icmpechorequest h env (totlen v - IPHLEN) ih
        return .taken
      else toraw h env v ih

/-! ## IP -/

def ipforward (h : Host) (ih : Iphdr) : Verdict :=
  match h.net.route ih.daddr with
  | none => .dropped
  | some _ => .forwarded

/-- `ipinput` from the comparison of the addresses on. -/
def deliver (h : Host) (env : Memory) (v : List Byte) (p : Area) (ih : Iphdr) :
    Except Fault Verdict :=
  if !h.net.tothishost ih.daddr then return ipforward h ih
  else if ih.proto = IPPROTOTCP then tcpinput h env v p ih
  else if ih.proto = IPPROTOUDP then udpinput h v ih
  else if ih.proto = IPPROTOICMP then icmpinput h env v ih
  else toraw h env v ih

/-- `ipinput` of a packet with the data area `v`; `roomlen` is that of its buffer. -/
def ipinput (h : Host) (env : Memory) (roomlen : Nat) (v : List Byte) : Except Fault Verdict :=
  let ih := decode roomlen v
  let p : Area := ⟨0, v.length⟩
  do
    touch v 0 1
    if ih.ver ≠ 4 then return .dropped
    else if ih.headlen ≠ IPHLEN then return .dropped
    else do
      touch v 0 IPHLEN
      if ih.ipchksum ≠ 0 then return .dropped
      else if (totlen v : Int) < p.datalen then do
        let p ← p.trimto v.length (totlen v)
        deliver h env v p ih
      else deliver h env v p ih

end Unixlite.Net.IpInput
