import Unixlite.Lib.Errno
import Unixlite.Net.Inet
import Unixlite.Net.TcpSock
import Unixlite.Verified.Chains
import Unixlite.Verified.Run

/-!
# Local ports

Port of what `net/inet/tcp.cc` and `net/inet/udp.cc` do with the local addresses of sockets.
Both files have the same functions; what differs is said by `Proto`.  Addresses and ports are
as the sockets hold them, in network byte order.
-/

namespace Unixlite.Net

open Unixlite.Verified Unixlite.Verified.Run

/-! ## Sockets -/

def INADDRANY : BitVec 32 := 0
def USERSOCK : BitVec 16 := 1024

/-- The part of `tcpsock_t` and of `udpsock_t` that has to do with addresses. -/
structure Portsock where
  laddr : BitVec 32
  lport : BitVec 16
  faddr : BitVec 32
  fport : BitVec 16
  state : Tcpstate
  soreuseaddr : Bool

/-- A new socket with this local port. -/
def Portsock.init (lport : BitVec 16) : Portsock where
  laddr := INADDRANY
  lport := lport
  faddr := INADDRANY
  fport := 0
  state := .closed
  soreuseaddr := false

/-- The test in `exist`. -/
def Portsock.conflicts (t : Portsock) (laddr : BitVec 32) (lport : BitVec 16)
    (reuseaddr : Bool) : Bool :=
  (t.laddr == INADDRANY || laddr == INADDRANY || t.laddr == laddr) && t.lport == lport &&
    !(reuseaddr && t.state == .timewait)

/-- The protocol; `nphysmeg` is the size of the memory. -/
inductive Proto where
  | tcp
  | udp (nphysmeg : Nat)

namespace Proto

/-- `hashmask` and `hmask`. -/
def hmask : Proto → Nat
  | .tcp => 31
  | .udp nphysmeg => min 32 nphysmeg - 1

/-- `lhashfunc` and `hashfunc`: the index of the chain. -/
def hashfunc (proto : Proto) (lport : BitVec 16) : Nat := (ntohs lport).toNat &&& proto.hmask

/-- What `bind` passes on for `reuseaddr`; UDP does not know it. -/
def reuseaddr (t : Portsock) : Proto → Bool
  | .tcp => t.soreuseaddr
  | .udp _ => false

/-- What `bind` looks at first; `ok` says that the length of the address is right, or for UDP
that it can be written. -/
def refuses (t : Portsock) (port : BitVec 16) (suser ok : Bool) : Proto → Option Int
  | .tcp =>
      if t.state ≠ .closed then some EINVAL
      else if !ok then some EINVAL
      else if port.toNat < USERSOCK.toNat && !suser then some EACCES
      else none
  | .udp _ =>
      if !ok then some EFAULT
      else if (ntohs port).toNat < USERSOCK.toNat && !suser then some EACCES
      else none

/-- What `connect` makes of a socket; `route` is the address of the device that `selectroute`
finds, `ok` says that the address can be read. -/
def connect (t : Portsock) (route : Option (BitVec 32)) (ok : Bool) (faddr : BitVec 32)
    (fport : BitVec 16) : Proto → Portsock
  | .tcp =>
      if t.state ≠ .closed ∨ t.faddr ≠ 0 then t
      else route.elim t fun praddr =>
        { t with laddr := praddr, faddr := faddr, fport := fport, state := .synsent }
  | .udp _ => if !ok then t else { t with faddr := faddr, fport := fport }

end Proto

/-! ## The table of sockets -/

/-- All sockets of a protocol, their chains, and the static variable of `newtcpport` or
`newudpport`.  `next` is the number of the next socket. -/
structure Ports where
  sock : Nat → Option Portsock
  next : Nat
  chain : Nat → List Nat
  begin : BitVec 16

inductive Portevent where
  | create
  /-- A SYN comes to the listening socket `l`. -/
  | child (l : Nat) (daddr saddr : BitVec 32) (sport : BitVec 16)
  | bind (i : Nat) (addr : BitVec 32) (port : BitVec 16) (suser ok : Bool)
  | connect (i : Nat) (route : Option (BitVec 32)) (ok : Bool) (faddr : BitVec 32)
      (fport : BitVec 16)
  /-- A TCP socket changes its state. -/
  | change (i : Nat) (state : Tcpstate)
  | setsocketopt (i : Nat) (soreuseaddr : Bool)
  | destroy (i : Nat)

namespace Ports

variable (proto : Proto)

def exist (s : Ports) (laddr : BitVec 32) (lport : BitVec 16) (reuseaddr : Bool) : Bool :=
  (s.chain (proto.hashfunc lport)).any fun i =>
    (s.sock i).any fun t => t.conflicts laddr lport reuseaddr

/-- The next value of `begin`. -/
def nextport (b : BitVec 16) : BitVec 16 := if b + 1 = 0 then USERSOCK else b + 1

/-- Where the loop of `newtcpport` and `newudpport` stops; `none` when it never does. -/
def newport (s : Ports) : Option (BitVec 16) := go 65536 s.begin
where
  go : Nat → BitVec 16 → Option (BitVec 16)
    | 0, _ => none
    | fuel + 1, b => if s.exist proto INADDRANY b false then go fuel (nextport b) else some b

def newtcpport (s : Ports) : Option (BitVec 16) := (s.newport .tcp).map htons

def newudpport (nphysmeg : Nat) (s : Ports) : Option (BitVec 16) :=
  (s.newport (.udp nphysmeg)).map htons

/-- Another value of the socket `i`, on the same chain. -/
def set (s : Ports) (i : Nat) (t : Portsock) : Ports :=
  { s with sock := Function.update s.sock i (some t) }

/-- `initaddr` of a new socket. -/
def initaddr (s : Ports) (t : Portsock) : Ports :=
  { s with
    sock := Function.update s.sock s.next (some t)
    next := s.next + 1
    chain := Chains.enqtail s.chain (proto.hashfunc t.lport) s.next }

/-- `tcpsock_t()` and `udpsock_t()`. -/
def create (s : Ports) : Option Ports :=
  (s.newport proto).map fun b =>
    { s with begin := b }.initaddr proto (.init (htons b))

def changelocal (s : Ports) (i : Nat) (t : Portsock) (addr : BitVec 32) (port : BitVec 16) :
    Ports :=
  { s with
    sock := Function.update s.sock i (some { t with laddr := addr, lport := port })
    chain := Chains.enqtail (Chains.unlink s.chain i) (proto.hashfunc port) i }

def bind (s : Ports) (i : Nat) (addr : BitVec 32) (port : BitVec 16) (suser ok : Bool) :
    Option (Int × Ports) :=
  (s.sock i).map fun t =>
    (proto.refuses t port suser ok).elim
      (if s.exist proto addr port (proto.reuseaddr t) then (EADDRINUSE, s)
        else (0, s.changelocal proto i t addr port))
      fun e => (e, s)

/-- `~tcpsock_t` and `~udpsock_t`. -/
def destroy (s : Ports) (i : Nat) : Ports :=
  { s with sock := Function.update s.sock i none, chain := Chains.unlink s.chain i }

def isTcp : Proto → Bool
  | .tcp => true
  | .udp _ => false

def step (s : Ports) : Portevent → Option Ports
  | .create => s.create proto
  | .child l daddr saddr sport =>
      (s.sock l).bind fun t =>
        if isTcp proto ∧ t.state = .listen ∧ (t.laddr = INADDRANY ∨ t.laddr = daddr) then
          some (s.initaddr proto ⟨daddr, t.lport, saddr, sport, .synrecv, false⟩)
        else none
  | .bind i addr port suser ok => (s.bind proto i addr port suser ok).map Prod.snd
  | .connect i route ok faddr fport =>
      (s.sock i).map fun t => s.set i (proto.connect t route ok faddr fport)
  | .change i state =>
      if isTcp proto then (s.sock i).map fun t => s.set i { t with state := state } else none
  | .setsocketopt i soreuseaddr =>
      (s.sock i).map fun t => s.set i { t with soreuseaddr := soreuseaddr }
  | .destroy i => (s.sock i).map fun _ => s.destroy i

/-- No socket has been made yet. -/
def boot : Ports where
  sock := fun _ => none
  next := 0
  chain := fun _ => []
  begin := USERSOCK

end Ports

end Unixlite.Net
