import Unixlite.Net.Ip
import Unixlite.Net.TcpRcvbuf

/-!
# The way of a received packet

Port of `netsoftisr` and of what it calls: `netrx` and the devices' `output`, `ipinput`,
`ipforward`, `rawinput`, `icmpinput`, `udpinput`, `tcpinput` and the `input` of a TCP
socket, and the ARP table, in which packets wait as well.  The packets are numbered, and
the state says for each queue which of them are linked to it and which have been passed to
`delpkt`.

What these functions send in answer is another packet.  It goes out in a step of its own
(`Softevent.ipoutput`).
-/

namespace Unixlite.Net.Netrx

open Unixlite.Verified

/-! ## Devices and packets -/

def ETHPIP : BitVec 16 := 0x0800
def ETHPARP : BitVec 16 := 0x0806
def ICTECHOREQUEST : Byte := 8
def ARPOPREQUEST : BitVec 16 := 1
def ARPOPREPLY : BitVec 16 := 2
def INADDRANY : BitVec 32 := 0

def ntohl (x : BitVec 32) : BitVec 32 :=
  x.extractLsb' 0 8 ++ x.extractLsb' 8 8 ++ x.extractLsb' 16 8 ++ x.extractLsb' 24 8

/-- `netdev_t`: the loopback device, or an `ne2kdev_t`. -/
structure Netdev extends Unixlite.Net.Netdev where
  name : Nat
  loop : Bool

/-- What is read in a packet that is taken for an IP packet: the addresses in network byte
order, as the sockets and devices have them, the rest in host byte order.  `ipchksum`,
`udpchksum`, `tcpchksum` and `icmpchksum` are the results of these functions over it. -/
structure Iphdr where
  ver : Nat
  headlen : Nat
  ipchksum : BitVec 16
  saddr : BitVec 32
  daddr : BitVec 32
  proto : Byte
  /-- `udphdr_t`. -/
  sport : BitVec 16
  dport : BitVec 16
  chksum : BitVec 16
  udpchksum : BitVec 16
  /-- `icmphdr_t`. -/
  type : Byte
  icmpchksum : BitVec 16
  /-- The TCP segment. -/
  seg : Segment
  tcpchksum : BitVec 16

/-- What is read in one that is taken for an ARP packet. -/
structure Arphdr where
  prtype : BitVec 16
  praddrlen : Byte
  opcode : BitVec 16
  spa : BitVec 32
  tpa : BitVec 32

/-- `pkt_t` on its way through `netsoftisr`; `proto` is the one in its Ethernet header. -/
structure Frame where
  id : Nat
  inputdev : Netdev
  proto : BitVec 16
  ih : Iphdr
  ah : Arphdr

/-! ## Queues, sockets and the ARP table -/

/-- The packet queues of the sockets that keep whole packets, of the ARP entries and of the
devices. -/
inductive Pktq where
  | raw (i : Nat)
  | udp (i : Nat)
  | waitreplyq (i : Fin 32)
  | dev (name : Nat)
deriving DecidableEq

/-- `rawsock_t`; `i` is its place in memory. -/
structure Rawsock where
  i : Nat
  proto : Byte
  laddr : BitVec 32
  faddr : BitVec 32

/-- `udpsock_t`. -/
structure Udpsock where
  i : Nat
  laddr : BitVec 32
  lport : BitVec 16
  faddr : BitVec 32
  fport : BitVec 16

/-- `tcpsock_t`, as far as the way of a packet depends on it. -/
structure Tcpsock where
  laddr : BitVec 32
  lport : BitVec 16
  faddr : BitVec 32
  fport : BitVec 16
  state : Tcpstate
  sndnxt : Seq
  rcv : Rcvqs

/-- A socket in `listenhashtab`. -/
structure Listener where
  laddr : BitVec 32
  lport : BitVec 16

/-- `AEINVAL`, `AEWAITING` and `AERESOLVED`. -/
inductive Arpstat where
  | inval | waiting | resolved
deriving DecidableEq

/-- `arpent_t`. -/
structure Arpent where
  stat : Arpstat
  prtype : BitVec 16
  praddrlen : Byte
  praddr : BitVec 32
  hwaddrlen : Byte

/-- The entries in the order of their last use.  All of them are in this list at all times. -/
structure Lruq where
  order : List (Fin 32)
  nonempty : order ≠ []

namespace Lruq

def head (q : Lruq) : Fin 32 := q.order.head q.nonempty

/-- `unlink` and `enqtail`. -/
def touch (q : Lruq) (i : Fin 32) : Lruq := ⟨q.order.erase i ++ [i], by simp⟩

end Lruq

/-- What memory and hardware answer during one call of `netrx`: whether the `i`-th `clone`
finds memory, whether the `i`-th `hardwareoutput` finds the transmitter busy, and the first
sequence number behind the SYN that a new socket sends. -/
structure Answers where
  clone : Nat → Bool
  busy : Nat → Bool
  sndnxt : Seq

/-- The network code.  `hashq` has the entries of all chains of the ARP table in one list;
those of one chain are in the order of that chain.  So have `udps`, `fhash` and
`listenhash`.  `linked` lists the links to the queues, `issued` is the number of the next
packet. -/
structure Netstate where
  netdevq : List Netdev
  /-- `selectroute`. -/
  route : BitVec 32 → Option (Netdev × BitVec 32)
  arptab : Fin 32 → Arpent
  hashq : List (Fin 32)
  lruq : Lruq
  raws : List Rawsock
  udps : List Udpsock
  fhash : List Tcpsock
  listenhash : List Listener
  backlog : List Frame
  linked : List (Pktq × Nat)
  freed : List Nat
  issued : Nat

namespace Netstate

/-! ## Packet queues -/

def delpkt (w : Netstate) (id : Nat) : Netstate := { w with freed := w.freed ++ [id] }

def enqtail (w : Netstate) (q : Pktq) (id : Nat) : Netstate :=
  { w with linked := w.linked ++ [(q, id)] }

/-- The packets of a queue. -/
def onqueue (w : Netstate) (q : Pktq) : List Nat :=
  (w.linked.filter fun x => x.1 = q).map Prod.snd

/-- All packets leave the queue. -/
def drain (w : Netstate) (q : Pktq) : Netstate :=
  { w with linked := w.linked.filter fun x => x.1 ≠ q }

/-! ## Devices -/

/-- `netdev_t::input`. -/
def input (w : Netstate) (dev : Netdev) (f : Frame) : Netstate :=
  { w with backlog := w.backlog ++ [{ f with inputdev := dev }] }

/-- `hardwareoutput`.  That of `netdev_t`, which the loopback device has, does nothing. -/
def hardwareoutput (w : Netstate) (dev : Netdev) (id : Nat) (busy : Bool) : Netstate :=
  if dev.loop then w
  else if busy then w.enqtail (.dev dev.name) id
  else w.delpkt id

def tothishost (w : Netstate) (daddr : BitVec 32) : Bool :=
  w.netdevq.any fun dev => dev.praddr == INADDRANY || dev.praddr == daddr

/-! ## ARP -/

def setent (w : Netstate) (i : Fin 32) (ae : Arpent) : Netstate :=
  { w with arptab := Function.update w.arptab i ae }

def invalidate (w : Netstate) (i : Fin 32) : Netstate :=
  if (w.arptab i).stat = .inval then w
  else
    let w := w.setent i { w.arptab i with stat := .inval }
    { w.drain (.waitreplyq i) with freed := w.freed ++ w.onqueue (.waitreplyq i) }

def lookup (w : Netstate) (prtype : BitVec 16) (praddrlen : Byte) (praddr : BitVec 32) :
    Option (Fin 32) :=
  w.hashq.find? fun i =>
    (w.arptab i).stat != .inval && (w.arptab i).prtype == prtype &&
      (w.arptab i).praddrlen == praddrlen && (w.arptab i).praddr == praddr

/-- The entry of an address, or the least recently used one. -/
def get (w : Netstate) (prtype : BitVec 16) (praddrlen : Byte) (praddr : BitVec 32) :
    Fin 32 × Netstate :=
  match w.lookup prtype praddrlen praddr with
  | some i => (i, { w with lruq := w.lruq.touch i })
  | none =>
      let i := w.lruq.head
      let w := { w with lruq := w.lruq.touch i, hashq := i :: w.hashq.erase i }.invalidate i
      (i, w.setent i { w.arptab i with prtype, praddrlen, praddr })

def arpoutput (w : Netstate) (id : Nat) (praddr : BitVec 32) (dev : Netdev) (busy : Bool) :
    Netstate :=
  let i := (w.get ETHPIP 4 praddr).1
  let w := (w.get ETHPIP 4 praddr).2
  match (w.arptab i).stat with
  | .inval =>
      (w.enqtail (.waitreplyq i) id).setent i
        { w.arptab i with stat := .waiting, prtype := ETHPIP, praddrlen := 4, praddr }
  | .waiting => w.enqtail (.waitreplyq i) id
  | .resolved => w.hardwareoutput dev id busy

/-- The loop of `replyarrive`, over the packets that have left the queue; `n` of them have
been passed on. -/
def replyloop (dev : Netdev) (busy : Nat → Bool) : List Nat → Nat → Netstate → Netstate
  | [], _, w => w
  | id :: rest, n, w => replyloop dev busy rest (n + 1) (w.hardwareoutput dev id (busy n))

def replyarrive (w : Netstate) (i : Fin 32) (dev : Netdev) (busy : Nat → Bool) : Netstate :=
  replyloop dev busy (w.onqueue (.waitreplyq i)) 0 (w.drain (.waitreplyq i))

/-- `arpinput`; `arpreply` is its `hardwareoutput`. -/
def arpinput (w : Netstate) (env : Answers) (f : Frame) : Netstate :=
  let i := (w.get f.ah.prtype f.ah.praddrlen f.ah.spa).1
  let w := (w.get f.ah.prtype f.ah.praddrlen f.ah.spa).2
  if (w.arptab i).praddrlen ≠ 4 ∨ (w.arptab i).hwaddrlen ≠ 6 then w.delpkt f.id
  else
    let w := w.setent i ⟨.resolved, ETHPIP, 4, f.ah.spa, 6⟩
    if f.ah.opcode = ARPOPREQUEST then
      if !w.tothishost f.ah.tpa then w.delpkt f.id
      else w.hardwareoutput f.inputdev f.id (env.busy 0)
    else if f.ah.opcode = ARPOPREPLY then (w.replyarrive i f.inputdev env.busy).delpkt f.id
    else w.delpkt f.id

/-! ## IP -/

/-- `loopnetdev_t::output` and `netdev_t::output`. -/
def output (w : Netstate) (env : Answers) (dev : Netdev) (f : Frame) (daddr : BitVec 32) :
    Netstate :=
  if dev.loop then w.input dev { f with proto := ETHPIP }
  else if daddr ≠ dev.praddr then w.arpoutput f.id daddr dev (env.busy 0)
  else w.input dev { f with proto := ETHPIP }

/-- `ipforward`, and `ipoutput` from `selectroute` on. -/
def ipforward (w : Netstate) (env : Answers) (f : Frame) : Netstate :=
  match w.route f.ih.daddr with
  | none => w.delpkt f.id
  | some (dev, nexthop) => w.output env dev f nexthop

end Netstate

/-! ## Raw sockets, ICMP and UDP -/

/-- `belongtome`, which compares both addresses the wrong way round. -/
def Rawsock.belongtome (s : Rawsock) (ih : Iphdr) : Bool :=
  (s.proto == 0 || s.proto == ih.proto) &&
    (s.laddr == INADDRANY || s.laddr != ntohl ih.daddr) &&
    (s.faddr == INADDRANY || s.faddr != ntohl ih.saddr)

namespace Netstate

/-- The loop of `rawinput`; `count` sockets have the packet or a clone of it.  A clone is a
packet of its own. -/
def rawloop (clone : Nat → Bool) (f : Frame) : List Rawsock → Nat → Netstate → Nat × Netstate
  | [], count, w => (count, w)
  | s :: rest, count, w =>
      if !s.belongtome f.ih then rawloop clone f rest count w
      else if count = 0 then rawloop clone f rest (count + 1) (w.enqtail (.raw s.i) f.id)
      else if clone (count - 1) then
        rawloop clone f rest (count + 1)
          ({ w with issued := w.issued + 1 }.enqtail (.raw s.i) w.issued)
      else (0, w)

/-- `rawinput`, with the number of sockets that accept the packet. -/
def rawinput (w : Netstate) (env : Answers) (f : Frame) : Nat × Netstate :=
  rawloop env.clone f w.raws 0 w

/-- `icmpinput`; the first component says that the packet has been deleted. -/
def icmpinput (w : Netstate) (f : Frame) : Bool × Netstate :=
  if f.ih.icmpchksum ≠ 0 then (true, w.delpkt f.id)
  else if f.ih.type = ICTECHOREQUEST then (true, w.delpkt f.id)
  else (false, w)

def udpinput (w : Netstate) (f : Frame) : Netstate :=
  if f.ih.chksum ≠ 0 ∧ f.ih.udpchksum ≠ 0 then w.delpkt f.id
  else
    match w.udps.find? fun s =>
      (s.laddr == INADDRANY || s.laddr == f.ih.daddr) && s.lport == f.ih.dport &&
        (s.faddr == INADDRANY || s.faddr == f.ih.saddr && s.fport == f.ih.sport) with
    | some s => w.enqtail (.udp s.i) f.id
    | none => w.delpkt f.id

end Netstate

/-! ## TCP -/

namespace Tcpsock

/-- The socket, and the packets that are deleted. -/
abbrev Result := Tcpsock × List Nat

def change (s : Tcpsock) (newstate : Tcpstate) : Tcpsock := { s with state := newstate }

def abort (s : Tcpsock) : Tcpsock := if s.state ≠ .estab then s else s.change .closed

/-- The receive side, ready for the packet `id`. -/
def rcvfor (s : Tcpsock) (id : Nat) : Rcvqs := { s.rcv with arrived := id, deleted := [] }

def inputdata (s : Tcpsock) (id : Nat) (pkt : Pkt) : Result :=
  let r := (s.rcvfor id).inputdata pkt
  ({ s with rcv := r }, r.deleted)

/-- The handler of the state.  A listening socket is not in `fhashtab`, and those in the
states `SCLOSED` and `STIMEWAIT` are passed over there; their handlers delete the packet. -/
def inputstate (s : Tcpsock) (id : Nat) (pkt : Pkt) : Result :=
  let ackfin := pkt.hdr.ackeq s.sndnxt
  match s.state with
  | .closed | .listen | .timewait => (s, [id])
  | .synsent =>
      if !pkt.hdr.has TCPFSYN || !ackfin then (s, [id])
      else ({ s with state := .estab, rcv := { s.rcv with rcvnxt := pkt.hdr.seq + 1 } }, [id])
  | .synrecv => if !ackfin then (s, [id]) else (s.change .estab, [id])
  | .estab =>
      let r := s.inputdata id pkt
      (if r.1.rcv.finrecved then r.1.change .closewait else r.1, r.2)
  | .finwait1 =>
      let r := s.inputdata id pkt
      (if r.1.rcv.finrecved && ackfin then r.1.change .timewait
        else if r.1.rcv.finrecved then r.1.change .closing
        else if ackfin then r.1.change .finwait2
        else r.1, r.2)
  | .finwait2 =>
      let r := s.inputdata id pkt
      (if r.1.rcv.finrecved then r.1.change .timewait else r.1, r.2)
  | .closewait => s.inputdata id pkt
  | .lastack => (if ackfin then s.change .closed else s, [id])
  | .closing =>
      let r := s.inputdata id pkt
      (if ackfin then r.1.change .timewait else r.1, r.2)

/-- `input`.  Behind a reset the packet is not deleted. -/
def input (s : Tcpsock) (id : Nat) (seg : Segment) : Result :=
  let pkt := Sock.inpkt seg
  if Serial.gt pkt.startseq pkt.endseq then (s, [id])
  else if pkt.hdr.has TCPFRST then (s.abort, [])
  else s.inputstate id pkt

/-- `localmatch` and `foreignmatch`, in a state that the loop does not pass over. -/
def perfectmatch (s : Tcpsock) (ih : Iphdr) : Bool :=
  !(s.state == .closed || s.state == .timewait) &&
    (s.laddr == INADDRANY || s.laddr == ih.daddr) && s.lport == ih.seg.hdr.dport &&
    s.faddr == ih.saddr && s.fport == ih.seg.hdr.sport

/-- `tcpsock_t(l, ih, th)`, when `inputlisten` has sent the SYN. -/
def child (ih : Iphdr) (sndnxt : Seq) : Tcpsock where
  laddr := ih.daddr
  lport := ih.seg.hdr.dport
  faddr := ih.saddr
  fport := ih.seg.hdr.sport
  state := .synrecv
  sndnxt := sndnxt
  rcv := Rcvqs.unused (ih.seg.hdr.seq + 1) 32768

end Tcpsock

namespace Netstate

/-- `input` and `inputlisten` of a listening socket. -/
def inputlisten (w : Netstate) (env : Answers) (f : Frame) : Netstate :=
  let pkt := Sock.inpkt f.ih.seg
  if Serial.gt pkt.startseq pkt.endseq then w.delpkt f.id
  else if pkt.hdr.has TCPFRST then w
  else if !pkt.hdr.has TCPFSYN then w.delpkt f.id
  else { w with fhash := w.fhash ++ [Tcpsock.child f.ih env.sndnxt] }.delpkt f.id

/-- A listening socket matches. -/
def halfmatch (w : Netstate) (ih : Iphdr) : Bool :=
  w.listenhash.any fun s =>
    (s.laddr == INADDRANY || s.laddr == ih.daddr) && s.lport == ih.seg.hdr.dport

def tcpinput (w : Netstate) (env : Answers) (f : Frame) : Netstate :=
  if f.ih.tcpchksum ≠ 0 then w.delpkt f.id
  else
    match w.fhash.find? fun s => s.perfectmatch f.ih with
    | some s =>
        { w with
          fhash := w.fhash.replaceF fun s =>
            if s.perfectmatch f.ih then some (s.input f.id f.ih.seg).1 else none
          freed := w.freed ++ (s.input f.id f.ih.seg).2 }
    | none => if w.halfmatch f.ih then w.inputlisten env f else w.delpkt f.id

/-! ## The soft interrupt -/

/-- `ipinput` for a packet to this host that neither TCP nor UDP nor ICMP has taken. -/
def toraw (w : Netstate) (env : Answers) (f : Frame) : Netstate :=
  let r := w.rawinput env f
  if 0 < r.1 then r.2 else r.2.delpkt f.id

/-- `ipinput`.  `ipreass` returns the packet that it is given. -/
def ipinput (w : Netstate) (env : Answers) (f : Frame) : Netstate :=
  if f.ih.ver ≠ 4 then w.delpkt f.id
  else if f.ih.headlen ≠ IPHLEN then w.delpkt f.id
  else if f.ih.ipchksum ≠ 0 then w.delpkt f.id
  else if !w.tothishost f.ih.daddr then w.ipforward env f
  else if f.ih.proto = IPPROTOTCP then w.tcpinput env f
  else if f.ih.proto = IPPROTOUDP then w.udpinput f
  else if f.ih.proto = IPPROTOICMP then
    let r := w.icmpinput f
    if r.1 then r.2 else r.2.toraw env f
  else w.toraw env f

/-- `netrx`.  A packet of another protocol is neither linked nor deleted. -/
def netrx (w : Netstate) (env : Answers) (f : Frame) : Netstate :=
  if f.proto = ETHPIP then w.ipinput env f
  else if f.proto = ETHPARP then w.arpinput env f
  else w

end Netstate

/-! ## Steps -/

inductive Softevent where
  /-- An Ethernet device has received a packet. -/
  | receive (f : Frame)
  /-- The host sends a packet. -/
  | ipoutput (env : Answers) (f : Frame)
  /-- One turn of the loop of `netsoftisr`. -/
  | netsoftisr (env : Answers)

namespace Netstate

/-- One step; `none` when there is nothing on `backlog`, or the device is not one that
receives. -/
def step (w : Netstate) : Softevent → Option Netstate
  | .receive f =>
      if f.inputdev.loop then none
      else some ({ w with issued := w.issued + 1 }.input f.inputdev { f with id := w.issued })
  | .ipoutput env f =>
      some ({ w with issued := w.issued + 1 }.ipforward env { f with id := w.issued })
  | .netsoftisr env =>
      match w.backlog with
      | [] => none
      | f :: rest => some ({ w with backlog := rest }.netrx env f)

end Netstate

end Unixlite.Net.Netrx
