import Unixlite.Net.Netrx

/-!
# Datagrams

Port of `udpinput` and of `udpsock_t::input`, `recvfrom` and `~udpsock_t`.

`recvfrom` strips the headers of the packet in place before it looks at `MSGPEEK`, and
never calls `delpkt`.  `delivery_iff` says that datagrams are delivered as they should be
in the runs in which no reader comes to one; `delivered_always` is what is right about
the bytes, the order and the addresses as long as nobody peeks.
-/

namespace Unixlite.Net.Udp

open Unixlite.Verified.Run Unixlite.Net.Netrx List Option BitVec

/-! ## Packets -/

/-- `pkt_t` with the bytes of its `pkb_t`; `data` is an offset in the room. -/
structure Pkt where
  id : Nat
  room : List Byte
  data : Nat
  datalen : Int
deriving DecidableEq

/-- What lies behind the end of a room. -/
abbrev Heap := Nat → Byte

namespace Pkt

/-- The bytes at an offset from `data`, in the room or behind it. -/
def at8 (p : Pkt) (heap : Heap) (o : Nat) : Byte :=
  p.room.getD (p.data + o) (heap (p.data + o))

def at16 (p : Pkt) (heap : Heap) (o : Nat) : BitVec 16 :=
  word (p.at8 heap o) (p.at8 heap (o + 1))

def at32 (p : Pkt) (heap : Heap) (o : Nat) : BitVec 32 :=
  p.at16 heap (o + 2) ++ p.at16 heap o

/-- `memcpy` from `data + o`. -/
def bytes (p : Pkt) (heap : Heap) (o len : Nat) : List Byte :=
  (List.range len).map fun i => p.at8 heap (o + i)

/-- `iphdr_t::headlen` of the header at `data`. -/
def headlen (p : Pkt) (heap : Heap) : Nat := 4 * ((p.at8 heap 0).toNat % 16)

def saddr (p : Pkt) (heap : Heap) : BitVec 32 := p.at32 heap 12

def daddr (p : Pkt) (heap : Heap) : BitVec 32 := p.at32 heap 16

/-- `iphdr_t::datalen`, as the `u16_t` that `udpchksum` is given. -/
def ipdatalen (p : Pkt) (heap : Heap) : BitVec 16 :=
  ntohs (p.at16 heap 2) - BitVec.ofNat 16 (p.headlen heap)

/-- `delhead`; the two assertions of `check` are about the ends of the room. -/
def delhead (p : Pkt) (delta : Nat) : Pkt :=
  { p with data := p.data + delta, datalen := p.datalen - delta }

end Pkt

/-- `sizeof(iphdr_t)`. -/
def IPHDR : Nat := 20

/-- `sizeof(udphdr_t)`. -/
def UDPHDR : Nat := 8

def AFINET : BitVec 16 := 2

def MSGPEEK : BitVec 32 := 2

/-! ## The sockets and their readers -/

/-- A call of `recvfrom` of socket `i`; `from_` says whether it is given an address to
fill, which `recv` does not. -/
structure Call where
  tid : Nat
  i : Nat
  len : BitVec 32
  flags : BitVec 32
  from_ : Bool
deriving DecidableEq

def Call.peeks (c : Call) : Bool := c.flags &&& MSGPEEK != 0

/-- `sockaddrin_t`. -/
structure Sockaddrin where
  family : BitVec 16
  port : BitVec 16
  addr : BitVec 32
deriving DecidableEq

/-- A return from `recvfrom`: with a signal, or with `once` and what it has written. -/
inductive Ret where
  | eintr (c : Call)
  | data (c : Call) (buf : List Byte) (once : BitVec 32) (from_ : Option Sockaddrin)
deriving DecidableEq

/-- The sockets in the order of their hash chains, their receive queues, the readers that
wait, and the packets that `delpkt` has been called for.  `issued` is the number of the
next packet. -/
structure Machine where
  hashq : List Udpsock
  recvq : Nat → List Pkt
  frame : Nat → Option Call
  freed : List Nat
  issued : Nat
  /-- The return of the last step. -/
  ret : Option Ret

namespace Machine

/-- Sockets to which nothing has come. -/
def start (hashq : List Udpsock) : Machine where
  hashq := hashq
  recvq := fun _ => []
  frame := fun _ => none
  freed := []
  issued := 0
  ret := none

def has (m : Machine) (i : Nat) : Bool := m.hashq.any fun s => s.i == i

def setq (m : Machine) (i : Nat) (q : List Pkt) : Machine :=
  { m with recvq := fun j => if j = i then q else m.recvq j }

def goto (m : Machine) (tid : Nat) (f : Option Call) : Machine :=
  { m with frame := fun t => if t = tid then f else m.frame t }

def leave (m : Machine) (tid : Nat) (r : Ret) : Machine :=
  { m.goto tid none with ret := some r }

def delpkt (m : Machine) (pkt : Pkt) : Machine := { m with freed := m.freed ++ [pkt.id] }

/-- `udpsock_t::input`. -/
def input (m : Machine) (i : Nat) (pkt : Pkt) : Machine := m.setq i (m.recvq i ++ [pkt])

end Machine

/-- The two tests of the loop of `udpinput`. -/
def accepts (s : Udpsock) (pkt : Pkt) (heap : Heap) : Bool :=
  let uh := pkt.headlen heap
  (s.laddr == Netrx.INADDRANY || s.laddr == pkt.daddr heap) &&
    s.lport == ntohs (pkt.at16 heap (uh + 2)) &&
    (s.faddr == Netrx.INADDRANY ||
      s.faddr == pkt.saddr heap && s.fport == ntohs (pkt.at16 heap uh))

/-- The socket that `udpinput` gives the packet to; a checksum of zero is not looked at. -/
def dest (hashq : List Udpsock) (pkt : Pkt) (heap : Heap) : Option Udpsock :=
  let len := pkt.ipdatalen heap
  if pkt.at16 heap (pkt.headlen heap + 6) ≠ 0 ∧
      ipchksumpseudo (pkt.saddr heap) (pkt.daddr heap) IPPROTOUDP len
        (pkt.bytes heap IPHDR len.toNat) ≠ 0 then none
  else hashq.find? fun s => accepts s pkt heap

def udpinput (m : Machine) (pkt : Pkt) (heap : Heap) : Machine :=
  match dest m.hashq pkt heap with
  | some s => m.input s.i pkt
  | none => m.delpkt pkt

/-- `min(len, pkt->datalen)`, which compares a `size_t` with an `int`. -/
def minlen (len : BitVec 32) (datalen : Int) : BitVec 32 :=
  let datalen := BitVec.ofInt 32 datalen
  if len < datalen then len else datalen

/-- `recvfrom` of a packet that has been taken off its queue, with the rest of the queue. -/
def receive (m : Machine) (c : Call) (pkt : Pkt) (rest : List Pkt) (heap : Heap) : Machine :=
  let stripped := pkt.delhead (pkt.headlen heap)
  let sport := stripped.at16 heap 0
  let stripped := stripped.delhead UDPHDR
  let once := minlen c.len stripped.datalen
  let buf := stripped.bytes heap 0 once.toNat
  let from_ := if c.from_ then some ⟨AFINET, sport, pkt.saddr heap⟩ else none
  let m := m.setq c.i (if c.peeks then stripped :: rest else rest)
  m.leave c.tid (.data c buf once from_)

/-- `recvfrom`, from the test of its loop; `hassig` is what `waitq.wait()` finds. -/
def recvfrom (m : Machine) (c : Call) (hassig : Bool) (heap : Heap) : Machine :=
  match m.recvq c.i with
  | [] => if hassig then m.leave c.tid (.eintr c) else m.goto c.tid (some c)
  | pkt :: rest => receive m c pkt rest heap

inductive Event where
  /-- `ipinput` hands over a packet with that room. -/
  | udpinput (room : List Byte) (data datalen : Nat) (heap : Heap)
  | recvfrom (c : Call) (hassig : Bool) (heap : Heap)
  /-- A reader comes out of `waitq.wait()`. -/
  | resume (tid : Nat) (hassig : Bool) (heap : Heap)
  /-- `~udpsock_t`. -/
  | destroy (i : Nat)

/-- The event in a machine whose last step has been forgotten.  The length of a room is a
`short`, and the data area lies in it. -/
def go (m : Machine) : Event → Option Machine
  | .udpinput room data datalen heap =>
      if room.length < 2 ^ 15 ∧ data + datalen ≤ room.length then
        some (udpinput { m with issued := m.issued + 1 } ⟨m.issued, room, data, datalen⟩ heap)
      else none
  | .recvfrom c hassig heap =>
      if m.has c.i ∧ m.frame c.tid = none then some (recvfrom m c hassig heap) else none
  | .resume tid hassig heap => do
      let c ← m.frame tid
      if m.has c.i then
        if hassig then some (m.leave tid (.eintr c)) else some (recvfrom m c false heap)
      else none
  | .destroy i => some { m with hashq := m.hashq.filter fun s => s.i ≠ i }

def step (m : Machine) (e : Event) : Option Machine := go { m with ret := none } e

/-! ## Delivery -/

namespace Pkt

/-- Nothing is read behind the room of a datagram. -/
def nul : Heap := fun _ => 0

/-- The two headers are in the data area, and that is in the room. -/
structure IsDatagram (p : Pkt) : Prop where
  ip : IPHDR ≤ p.headlen nul
  udp : p.headlen nul + UDPHDR ≤ p.datalen
  room : p.data + p.datalen ≤ p.room.length
  short : p.room.length < 2 ^ 15

/-- The data behind the two headers. -/
def payload (p : Pkt) : List Byte :=
  ((p.room.drop p.data).take p.datalen.toNat).drop (p.headlen nul + UDPHDR)

def sender (p : Pkt) : Sockaddrin := ⟨AFINET, p.at16 nul (p.headlen nul), p.saddr nul⟩

end Pkt

/-- The return gives the caller the first bytes of the datagram, their number and the
sender. -/
def Gives (p : Pkt) (c : Call) (buf : List Byte) (once : BitVec 32)
    (from_ : Option Sockaddrin) : Prop :=
  buf = p.payload.take c.len.toNat ∧ once.toInt = buf.length ∧
    from_ = if c.from_ then some p.sender else none

/-- What has come to each socket, as it was then, and how many of these datagrams normal
reads have returned. -/
structure Log where
  arrived : Nat → List Pkt
  nread : Nat → Nat

def Log.start : Log := ⟨fun _ => [], fun _ => 0⟩

/-- A normal read that has returned a datagram is counted. -/
def Log.read (g : Log) : Option Ret → Log
  | some (.data c _ _ _) =>
      if c.peeks then g
      else { g with nread := fun i => if i = c.i then g.nread i + 1 else g.nread i }
  | _ => g

def log (m : Machine) (e : Event) (m' : Machine) (g : Log) : Log :=
  match e with
  | .udpinput .. =>
      { g with arrived := fun i => g.arrived i ++ (m'.recvq i).drop (m.recvq i).length }
  | _ => g.read m'.ret

/-- The place among the datagrams of its socket of the one that the last read has
returned, or that the last peek has shown. -/
def Log.place (g : Log) (c : Call) : Nat := if c.peeks then g.nread c.i else g.nread c.i - 1

/-- The queue has the datagrams that have not been read, as they came; a read returns the
next one, and so does a peek. -/
structure Delivered (x : Machine × Log) : Prop where
  queue : ∀ i, x.1.recvq i = (x.2.arrived i).drop (x.2.nread i)
  le : ∀ i, x.2.nread i ≤ (x.2.arrived i).length
  ret : ∀ c buf once from_, x.1.ret = some (.data c buf once from_) →
    ∃ p, (x.2.arrived c.i)[x.2.place c]? = some p ∧ Gives p c buf once from_

/-- **Datagrams are delivered**, and a packet has been freed once if it has been read, and
otherwise not. -/
structure Right (x : Machine × Log) : Prop extends Delivered x where
  freed : ∀ (i k : Nat) p, (x.2.arrived i)[k]? = some p →
    x.1.freed.count p.id = if k < x.2.nread i then 1 else 0

/-- The reader that runs finds no datagram. -/
def Idle (m : Machine) : Event → Prop
  | .recvfrom c _ _ => m.has c.i = true → m.frame c.tid = none → m.recvq c.i = []
  | .resume tid hassig _ =>
      ∀ c, m.frame tid = some c → m.has c.i = true → hassig = false → m.recvq c.i = []
  | _ => True

/-- The numbers that have been given out. -/
structure Fresh (x : Machine × Log) : Prop where
  arrived : ∀ i, ∀ p ∈ x.2.arrived i, p.id < x.1.issued
  freed : ∀ id ∈ x.1.freed, id < x.1.issued

section Step

variable {x y : Machine × Log} {m' : Machine} {c : Call} {pkt : Pkt} {rest : List Pkt} {heap : Heap}

/-- A step that touches no packet. -/
theorem Right.of_same (h : Right x) (hrecvq : y.1.recvq = x.1.recvq)
    (hfreed : y.1.freed = x.1.freed) (hlog : y.2 = x.2)
    (hret : ∀ c buf once from_, y.1.ret ≠ some (.data c buf once from_)) : Right y where
  queue i := by rw [hrecvq, hlog, h.queue]
  le i := by rw [hlog]; exact h.le i
  ret c buf once from_ hr := absurd hr (hret c buf once from_)
  freed i k p hp := by
    rw [hlog] at hp ⊢
    rw [hfreed]
    exact h.freed i k p hp

theorem Fresh.of_same (h : Fresh x) (hfreed : y.1.freed = x.1.freed) (hlog : y.2 = x.2)
    (hissued : y.1.issued = x.1.issued) : Fresh y where
  arrived := by rw [hlog, hissued]; exact h.arrived
  freed := by rw [hfreed, hissued]; exact h.freed

/-- The datagram at the head of a queue is the first one that has not been read. -/
theorem head_place (hq : x.1.recvq c.i = pkt :: rest)
    (hqueue : x.1.recvq c.i = (x.2.arrived c.i).drop (x.2.nread c.i)) :
    (x.2.arrived c.i)[x.2.nread c.i]? = some pkt ∧
      (x.2.arrived c.i).drop (x.2.nread c.i + 1) = rest := by
  rw [hqueue] at hq
  constructor
  · rw [← List.head?_drop, hq]
    rfl
  · rw [← drop_drop, hq]
    rfl

/-- **A read of a datagram is wrong**: a normal one does not free the packet, and a peek
leaves it without its headers. -/
theorem not_right_receive (h : Right x) (hq : x.1.recvq c.i = pkt :: rest)
    (hm : m' = receive { x.1 with ret := none } c pkt rest heap) :
    ¬ Right (m', x.2.read m'.ret) := by
  intro hright
  obtain ⟨hplace, -⟩ := head_place hq (h.queue c.i)
  by_cases hpeek : c.peeks = true
  · have hg : x.2.read m'.ret = x.2 := by
      rw [hm]
      exact if_pos hpeek
    have hqueue := hright.queue c.i
    rw [hg] at hqueue
    have hqueue : m'.recvq c.i = pkt :: rest := by rw [hqueue, ← h.queue, hq]
    have hhead : m'.recvq c.i = (pkt.delhead (pkt.headlen heap)).delhead UDPHDR :: rest := by
      rw [hm]
      simp [receive, Machine.leave, Machine.goto, Machine.setq, hpeek]
    rw [hhead] at hqueue
    have hdata := congrArg Pkt.data (List.cons.inj hqueue).1
    simp only [Pkt.delhead, UDPHDR] at hdata
    omega
  · have hg : x.2.read m'.ret =
        { x.2 with nread := fun i => if i = c.i then x.2.nread i + 1 else x.2.nread i } := by
      rw [hm]
      exact if_neg hpeek
    have hafter := hright.freed c.i (x.2.nread c.i) pkt
    rw [hg] at hafter
    have hafter := hafter hplace
    have hbefore := h.freed c.i (x.2.nread c.i) pkt hplace
    have hfreed : m'.freed = x.1.freed := by rw [hm]; rfl
    simp [hfreed, hbefore] at hafter

/-- A reader that finds nothing. -/
theorem recvfrom_nil (m : Machine) (hassig : Bool) (heap : Heap) (hq : m.recvq c.i = [])
    (hret : m.ret = none) :
    (recvfrom m c hassig heap).recvq = m.recvq ∧
      (recvfrom m c hassig heap).freed = m.freed ∧
      (recvfrom m c hassig heap).issued = m.issued ∧
      ∀ d buf once from_, (recvfrom m c hassig heap).ret ≠ some (.data d buf once from_) := by
  unfold recvfrom
  rw [hq]
  dsimp only
  split
  · exact ⟨rfl, rfl, rfl, by simp [Machine.leave]⟩
  · exact ⟨rfl, rfl, rfl, by simp [Machine.goto, hret]⟩

theorem Log.read_eq {g : Log} {r : Option Ret}
    (hr : ∀ c buf once from_, r ≠ some (.data c buf once from_)) : g.read r = g := by
  unfold Log.read
  split
  · next c buf once from_ => exact absurd rfl (hr c buf once from_)
  · rfl

/-- **What `udpinput` does**: the packet comes to the end of one queue, or it is
deleted. -/
theorem udpinput_spec (m : Machine) (pkt : Pkt) (heap : Heap) :
    ∃ new : Nat → List Pkt, (∀ i, (udpinput m pkt heap).recvq i = m.recvq i ++ new i) ∧
      (∀ i, ∀ p ∈ new i, p = pkt) ∧
      ((udpinput m pkt heap).freed = m.freed ∨
        (udpinput m pkt heap).freed = m.freed ++ [pkt.id] ∧ ∀ i, new i = []) ∧
      (udpinput m pkt heap).issued = m.issued ∧ (udpinput m pkt heap).ret = m.ret ∧
      (udpinput m pkt heap).frame = m.frame := by
  unfold udpinput
  split
  · next s hs =>
    refine ⟨fun i => if i = s.i then [pkt] else [], ?_, ?_, .inl rfl, rfl, rfl, rfl⟩
    · intro i
      by_cases hi : i = s.i
      · simp [Machine.input, Machine.setq, hi]
      · simp [Machine.input, Machine.setq, hi]
    · intro i p hp
      dsimp only at hp
      split at hp
      · exact mem_singleton.mp hp
      · cases hp
  · exact ⟨fun _ => [], fun i => (append_nil _).symm, by simp, .inr ⟨rfl, fun _ => rfl⟩,
      rfl, rfl, rfl⟩

variable {room : List Byte} {data datalen : Nat}

/-- The history after `udpinput`. -/
theorem log_udpinput {new : Nat → List Pkt} (hrecvq : ∀ i, m'.recvq i = x.1.recvq i ++ new i) :
    log x.1 (.udpinput room data datalen heap) m' x.2 =
      { x.2 with arrived := fun i => x.2.arrived i ++ new i } := by
  simp only [log, hrecvq, drop_left]

/-- What comes in is not read. -/
theorem Delivered.udpinput (h : Delivered x)
    (hm : m' = udpinput { x.1 with ret := none, issued := x.1.issued + 1 } pkt heap) :
    Delivered (m', log x.1 (.udpinput room data datalen heap) m' x.2) := by
  obtain ⟨new, hrecvq, -, -, -, hret, -⟩ :=
    udpinput_spec { x.1 with ret := none, issued := x.1.issued + 1 } pkt heap
  rw [← hm] at hrecvq hret
  rw [log_udpinput hrecvq]
  refine ⟨fun i => ?_, fun i => ?_, fun c buf once from_ hr => ?_⟩
  · show m'.recvq i = (x.2.arrived i ++ new i).drop (x.2.nread i)
    rw [hrecvq, drop_append_of_le_length (h.le i), ← h.queue]
  · show x.2.nread i ≤ (x.2.arrived i ++ new i).length
    have := h.le i
    rw [length_append]
    omega
  · rw [hret] at hr
    cases hr

/-- What comes in is not freed. -/
theorem Right.udpinput (h : Right x) (hf : Fresh x) (hpkt : pkt.id = x.1.issued)
    (hm : m' = udpinput { x.1 with ret := none, issued := x.1.issued + 1 } pkt heap) :
    Right (m', log x.1 (.udpinput room data datalen heap) m' x.2) ∧
      Fresh (m', log x.1 (.udpinput room data datalen heap) m' x.2) := by
  have hdelivered : Delivered (m', log x.1 (.udpinput room data datalen heap) m' x.2) :=
    h.toDelivered.udpinput hm
  obtain ⟨new, hrecvq, hnew, hfreed, hissued, hret, -⟩ :=
    udpinput_spec { x.1 with ret := none, issued := x.1.issued + 1 } pkt heap
  rw [← hm] at hrecvq hfreed hissued hret
  have hcount : ∀ id < x.1.issued, m'.freed.count id = x.1.freed.count id := by
    intro id hid
    rcases hfreed with heq | ⟨heq, -⟩
    · rw [heq]
    · rw [heq, count_append, count_singleton, if_neg (by simp; omega), Nat.add_zero]
  rw [log_udpinput hrecvq] at hdelivered ⊢
  refine ⟨⟨hdelivered, ?_⟩, ?_, ?_⟩
  · intro i k p hp
    by_cases hk : k < (x.2.arrived i).length
    · rw [List.getElem?_append_left hk] at hp
      rw [hcount p.id (hf.arrived i p (mem_of_getElem? hp))]
      exact h.freed i k p hp
    · rw [List.getElem?_append_right (by omega)] at hp
      have hmem := mem_of_getElem? hp
      obtain rfl := hnew i p hmem
      have hsame : m'.freed = x.1.freed := by
        rcases hfreed with heq | ⟨-, hnil⟩
        · exact heq
        · rw [hnil i] at hmem
          cases hmem
      have hle := h.le i
      show m'.freed.count p.id = if k < x.2.nread i then 1 else 0
      rw [if_neg (by omega), hsame, count_eq_zero]
      intro hid
      exact Nat.lt_irrefl _ (hpkt ▸ hf.freed p.id hid)
  · intro i p hp
    show p.id < m'.issued
    rw [hissued]
    rcases mem_append.mp hp with hold | hin
    · exact Nat.lt_succ_of_lt (hf.arrived i p hold)
    · rw [hnew i p hin, hpkt]
      exact Nat.lt_succ_self _
  · intro id hid
    show id < m'.issued
    rw [hissued]
    rcases hfreed with heq | ⟨heq, -⟩
    · rw [heq] at hid
      exact Nat.lt_succ_of_lt (hf.freed id hid)
    · rw [heq, mem_append, mem_singleton] at hid
      rcases hid with hold | rfl
      · exact Nat.lt_succ_of_lt (hf.freed id hold)
      · rw [hpkt]
        exact Nat.lt_succ_self _

/-- A step that returns no datagram and touches no packet. -/
theorem Right.quiet (h : Right x) (hf : Fresh x) (hg : y.2 = x.2.read y.1.ret)
    (hrecvq : y.1.recvq = x.1.recvq) (hfreed : y.1.freed = x.1.freed)
    (hissued : y.1.issued = x.1.issued)
    (hret : ∀ c buf once from_, y.1.ret ≠ some (.data c buf once from_)) :
    Right y ∧ Fresh y := by
  have hlog : y.2 = x.2 := by rw [hg, Log.read_eq hret]
  exact ⟨h.of_same hrecvq hfreed hlog hret, hf.of_same hfreed hlog hissued⟩

/-- A step in which no reader comes to a datagram. -/
theorem Right.step {e : Event} (h : Right x) (hf : Fresh x) (hidle : Idle x.1 e)
    (hstep : ghost step log x e = some y) : Right y ∧ Fresh y := by
  obtain ⟨hm, hg⟩ := ghost_eq_some.mp hstep
  obtain ⟨m', g'⟩ := y
  dsimp only at hm hg
  cases e with
  | udpinput room data datalen heap =>
      simp only [Udp.step, go, ite_none_right_eq_some, some.injEq] at hm
      rw [hg]
      exact h.udpinput hf rfl hm.2.symm
  | recvfrom c hassig heap =>
      simp only [Udp.step, go, ite_none_right_eq_some, some.injEq] at hm
      obtain ⟨⟨hhas, hframe⟩, hm⟩ := hm
      obtain ⟨hrecvq, hfreed, hissued, hret⟩ := recvfrom_nil
        { x.1 with ret := none } hassig heap (hidle hhas hframe) rfl
      rw [hm] at hrecvq hfreed hissued hret
      exact h.quiet hf hg hrecvq hfreed hissued hret
  | resume tid hassig heap =>
      simp only [Udp.step, go, bind_eq_bind, bind_eq_some_iff,
        ite_none_right_eq_some] at hm
      obtain ⟨c, hframe, hhas, hm⟩ := hm
      split at hm
      · cases hm
        exact h.quiet hf hg rfl rfl rfl (by simp [Machine.leave])
      · next hsig =>
        have hm := some.inj hm
        obtain ⟨hrecvq, hfreed, hissued, hret⟩ := recvfrom_nil
          { x.1 with ret := none } false heap (hidle c hframe hhas (by simpa using hsig)) rfl
        rw [hm] at hrecvq hfreed hissued hret
        exact h.quiet hf hg hrecvq hfreed hissued hret
  | destroy i =>
      cases hm
      exact h.quiet hf hg rfl rfl rfl (by simp)

/-- A reader that comes to a datagram leaves the packets wrong. -/
theorem idle_of_right {e : Event} (h : Right x)
    (hnext : ∀ y, ghost step log x e = some y → Right y) : Idle x.1 e := by
  have hread : ∀ (c : Call) (hassig : Bool) (heap : Heap),
      (∀ m', m' = recvfrom { x.1 with ret := none } c hassig heap →
        Right (m', x.2.read m'.ret)) → x.1.recvq c.i = [] := by
    intro c hassig heap hright
    by_contra hne
    obtain ⟨pkt, rest, hq⟩ := exists_cons_of_ne_nil hne
    have hm : recvfrom { x.1 with ret := none } c hassig heap =
        receive { x.1 with ret := none } c pkt rest heap := by
      simp only [recvfrom, hq]
    exact not_right_receive h hq hm (hright _ rfl)
  cases e with
  | recvfrom c hassig heap =>
      intro hhas hframe
      refine hread c hassig heap fun m' hm' => hnext (m', _) (ghost_eq_some.mpr ⟨?_, rfl⟩)
      simp only [Udp.step, go]
      rw [if_pos ⟨hhas, hframe⟩, hm']
  | resume tid hassig heap =>
      intro c hframe hhas hsig
      refine hread c false heap fun m' hm' => hnext (m', _) (ghost_eq_some.mpr ⟨?_, rfl⟩)
      simp only [Udp.step, go, hframe, hsig, bind_eq_bind, bind_some]
      rw [if_neg Bool.false_ne_true, hm']
      exact if_pos hhas
  | _ => trivial

end Step

theorem right_start (hashq : List Udpsock) : Right (.start hashq, .start) :=
  ⟨⟨fun _ => rfl, fun _ => Nat.le_refl _, by simp [Machine.start]⟩, by simp [Log.start]⟩

theorem fresh_start (hashq : List Udpsock) : Fresh (.start hashq, .start) :=
  ⟨by simp [Log.start], by simp [Machine.start]⟩

/-- The datagram `abcd` from port 4660. -/
def abcd : List Byte :=
  [0x45, 0, 0, 32, 0, 0, 0, 0, 64, 17, 0, 0, 10, 0, 0, 1, 10, 0, 0, 2,
    0x12, 0x34, 4, 0, 0, 12, 0, 0, 97, 98, 99, 100]

/-- It is peeked at and then read. -/
def rereads : List Event :=
  [.udpinput abcd 0 32 Pkt.nul, .recvfrom ⟨1, 1, 10, MSGPEEK, true⟩ false Pkt.nul,
    .recvfrom ⟨1, 1, 10, 0, true⟩ false Pkt.nul]

namespace Pkt

variable {p : Pkt} {heap : Heap} {o len : Nat}

theorem at8_getElem (h : p.data + o < p.room.length) : p.at8 heap o = p.room[p.data + o] := by
  unfold at8
  rw [getD_eq_getElem?_getD, List.getElem?_eq_getElem h, getD_some]

theorem at16_eq (h : p.data + o + 1 < p.room.length) : p.at16 heap o = p.at16 nul o := by
  unfold at16
  rw [at8_getElem (by omega), at8_getElem (by omega), at8_getElem (by omega),
    at8_getElem (by omega)]

theorem at32_eq (h : p.data + o + 3 < p.room.length) : p.at32 heap o = p.at32 nul o := by
  have hlo : p.at16 heap o = p.at16 nul o := at16_eq (by omega)
  have hhi : p.at16 heap (o + 2) = p.at16 nul (o + 2) := at16_eq (by omega)
  rw [at32, hlo, hhi, at32]

theorem bytes_eq (h : p.data + o + len ≤ p.room.length) :
    p.bytes heap o len = (p.room.drop (p.data + o)).take len := by
  refine ext_getElem ?_ fun i hi hi' => ?_
  · simp only [bytes, length_map, length_range, length_take, length_drop]
    omega
  · simp only [bytes, length_map, length_range] at hi
    have hlt : p.data + (o + i) < p.room.length := by omega
    simp only [bytes, at8_getElem hlt, getElem_map, getElem_range, getElem_take,
      getElem_drop, Nat.add_assoc]

/-- The header of a datagram does not depend on what lies behind the packet. -/
theorem IsDatagram.header (h : p.IsDatagram) :
    p.headlen heap = p.headlen nul ∧ p.saddr heap = p.saddr nul ∧
      (p.delhead (p.headlen heap)).at16 heap 0 = p.at16 nul (p.headlen nul) := by
  have hip := h.ip
  have hudp := h.udp
  have hroom := h.room
  simp only [IPHDR, UDPHDR] at hip hudp
  have hlen : p.headlen heap = p.headlen nul := by
    unfold headlen
    rw [at8_getElem (by omega), at8_getElem (by omega)]
  have hsport : p.at16 heap (p.headlen nul) = p.at16 nul (p.headlen nul) := at16_eq (by omega)
  refine ⟨hlen, at32_eq (by omega), ?_⟩
  rw [hlen, ← hsport]
  simp [delhead, at16, at8, Nat.add_assoc]

/-- The payload is what is left without the headers. -/
theorem IsDatagram.payload_eq (h : p.IsDatagram) :
    p.payload = (p.room.drop (p.data + p.headlen nul + UDPHDR)).take
        (p.datalen - p.headlen nul - UDPHDR).toNat := by
  unfold payload
  rw [drop_take, drop_drop, ← Nat.add_assoc]
  congr 1
  omega

end Pkt

theorem minlen_toNat {len : BitVec 32} {n : Nat} (h : n < 2 ^ 32) :
    (minlen len n).toNat = min len.toNat n := by
  have hn : (BitVec.ofInt 32 n).toNat = n := by
    rw [ofInt_natCast, toNat_ofNat, Nat.mod_eq_of_lt h]
  unfold minlen
  dsimp only
  split
  · next hlt =>
    rw [lt_def, hn] at hlt
    omega
  · next hge =>
    rw [lt_def, hn] at hge
    omega

/-- **The return of a read of a datagram.** -/
theorem receive_gives {p : Pkt} (h : p.IsDatagram) (m : Machine) (c : Call) (rest : List Pkt)
    (heap : Heap) :
    ∃ buf once from_, (receive m c p rest heap).ret = some (.data c buf once from_) ∧
      Gives p c buf once from_ := by
  obtain ⟨hlen, hsaddr, hsport⟩ : p.headlen heap = p.headlen Pkt.nul ∧
      p.saddr heap = p.saddr Pkt.nul ∧ _ := h.header
  have hudp := h.udp
  have hroom := h.room
  have hshort := h.short
  -- the length without the headers is that of the payload
  obtain ⟨size, hsize⟩ : ∃ size : Nat, p.datalen - p.headlen Pkt.nul - UDPHDR = size :=
    Int.eq_ofNat_of_zero_le (by omega)
  have hpayload := h.payload_eq
  rw [hsize, Int.toNat_natCast] at hpayload
  have honce : (minlen c.len size).toNat = min c.len.toNat size := minlen_toNat (by omega)
  have hbuf : ((p.delhead (p.headlen heap)).delhead UDPHDR).bytes heap 0
      (minlen c.len size).toNat = p.payload.take c.len.toNat := by
    rw [honce, Pkt.bytes_eq, hpayload, take_take]
    · simp only [Pkt.delhead, hlen, Nat.add_zero]
    · simp only [Pkt.delhead, hlen]
      omega
  have hlength : (p.payload.take c.len.toNat).length = min c.len.toNat size := by
    rw [hpayload, length_take, length_take, length_drop]
    omega
  refine ⟨_, _, _, rfl, ?_, ?_, ?_⟩
  · simp only [Pkt.delhead, hlen, hsize] at hbuf ⊢
    exact hbuf
  · simp only [Pkt.delhead, hlen, hsize] at hbuf ⊢
    rw [hbuf, hlength, toInt_eq_toNat_of_lt (by omega), honce]
  · rw [hsaddr, hsport]
    rfl

/-- Every datagram has its headers, and no reader peeks. -/
def Unpeeked : Event → Prop
  | .udpinput room data datalen _ => (⟨0, room, data, datalen⟩ : Pkt).IsDatagram
  | .recvfrom c _ _ => c.peeks = false
  | _ => True

/-- What is known in such a run. -/
structure Plain (x : Machine × Log) : Prop where
  datagram : ∀ i, ∀ p ∈ x.2.arrived i, p.IsDatagram
  frame : ∀ tid c, x.1.frame tid = some c → c.peeks = false

section Plain

variable {x y : Machine × Log} {m' : Machine} {c : Call} {tid : Nat} {heap : Heap}

theorem Plain.goto (h : Plain x) {f : Option Call} (hf : ∀ c, f = some c → c.peeks = false)
    {t : Nat} {d : Call} (hd : (x.1.goto tid f).frame t = some d) : d.peeks = false := by
  unfold Machine.goto at hd
  dsimp only at hd
  split at hd
  · exact hf d hd
  · exact h.frame t d hd

/-- A read that takes the next datagram, or finds none. -/
theorem Delivered.recvfrom (h : Delivered x) (hp : Plain x) (hc : c.peeks = false)
    {hassig : Bool} (hm : m' = recvfrom { x.1 with ret := none } c hassig heap) :
    Delivered (m', x.2.read m'.ret) ∧ Plain (m', x.2.read m'.ret) := by
  cases hq : x.1.recvq c.i with
  | nil =>
      obtain ⟨hrecvq, -, -, hret⟩ := recvfrom_nil { x.1 with ret := none } hassig heap hq rfl
      rw [← hm] at hrecvq hret
      rw [Log.read_eq hret]
      refine ⟨⟨fun i => ?_, h.le, fun d buf once from_ hr => absurd hr (hret d buf once from_)⟩,
        hp.datagram, fun t d hd => ?_⟩
      · rw [hrecvq]
        exact h.queue i
      · have hd : m'.frame t = some d := hd
        simp only [hm, Udp.recvfrom, hq] at hd
        split at hd
        · exact hp.goto (f := none) (by simp) hd
        · exact hp.goto (f := some c) (by simp [hc]) hd
  | cons pkt rest =>
      have hm : m' = receive { x.1 with ret := none } c pkt rest heap := by
        simp only [hm, Udp.recvfrom, hq]
      obtain ⟨hplace, hrest⟩ := head_place hq (h.queue c.i)
      obtain ⟨buf, once, from_, hret, hgives⟩ := receive_gives
        (hp.datagram c.i pkt (mem_of_getElem? hplace)) { x.1 with ret := none } c rest heap
      rw [← hm] at hret
      have hg : x.2.read m'.ret =
          { x.2 with nread := fun i => if i = c.i then x.2.nread i + 1 else x.2.nread i } := by
        rw [hret, Log.read, hc, if_neg Bool.false_ne_true]
      rw [hg]
      refine ⟨⟨fun i => ?_, fun i => ?_, fun d buf' once' from' hr => ?_⟩, hp.datagram,
        fun t d hd => ?_⟩
      · show m'.recvq i =
          (x.2.arrived i).drop (if i = c.i then x.2.nread i + 1 else x.2.nread i)
        by_cases hi : i = c.i
        · rw [if_pos hi, hi, hrest, hm]
          simp [receive, Machine.leave, Machine.goto, Machine.setq, hc]
        · rw [if_neg hi, ← h.queue i, hm]
          simp [receive, Machine.leave, Machine.goto, Machine.setq, hi]
      · show (if i = c.i then x.2.nread i + 1 else x.2.nread i) ≤ (x.2.arrived i).length
        have hle := h.le i
        split
        · next hi =>
          have hlt := (List.getElem?_eq_some_iff.mp hplace).1
          rw [hi]
          omega
        · exact hle
      · have hr : m'.ret = some (.data d buf' once' from') := hr
        rw [hret] at hr
        cases hr
        refine ⟨pkt, ?_, hgives⟩
        simpa [Log.place, hc] using hplace
      · have hd : m'.frame t = some d := hd
        rw [hm] at hd
        exact hp.goto (f := none) (by simp) hd

/-- **What a step keeps** when nobody peeks. -/
theorem Delivered.step {e : Event} (h : Delivered x) (hp : Plain x) (he : Unpeeked e)
    (hstep : ghost step log x e = some y) : Delivered y ∧ Plain y := by
  obtain ⟨hm, hg⟩ := ghost_eq_some.mp hstep
  obtain ⟨m', g'⟩ := y
  dsimp only at hm hg
  rw [hg]
  cases e with
  | udpinput room data datalen heap =>
      simp only [Udp.step, go, ite_none_right_eq_some, some.injEq] at hm
      have hm := hm.2.symm
      refine ⟨h.udpinput hm, ?_⟩
      obtain ⟨new, hrecvq, hnew, -, -, -, hframe⟩ := udpinput_spec
        { x.1 with ret := none, issued := x.1.issued + 1 } ⟨x.1.issued, room, data, datalen⟩ heap
      rw [← hm] at hrecvq hframe
      rw [log_udpinput hrecvq]
      refine ⟨fun i p hmem => ?_, fun t c hc => hp.frame t c (hframe ▸ hc)⟩
      rcases mem_append.mp hmem with hold | hin
      · exact hp.datagram i p hold
      · rw [hnew i p hin]
        exact ⟨he.ip, he.udp, he.room, he.short⟩
  | recvfrom c hassig heap =>
      simp only [Udp.step, go, ite_none_right_eq_some, some.injEq] at hm
      exact h.recvfrom hp he hm.2.symm
  | resume tid hassig heap =>
      simp only [Udp.step, go, bind_eq_bind, bind_eq_some_iff,
        ite_none_right_eq_some] at hm
      obtain ⟨c, hframe, -, hm⟩ := hm
      split at hm
      · cases hm
        refine ⟨⟨h.queue, h.le, by simp [Machine.leave]⟩, hp.datagram, fun t d hd => ?_⟩
        exact hp.goto (f := none) (by simp) hd
      · exact h.recvfrom hp (hp.frame tid c hframe) (some.inj hm).symm
  | destroy i =>
      cases hm
      exact ⟨⟨h.queue, h.le, by simp⟩, hp.datagram, hp.frame⟩

end Plain

end Unixlite.Net.Udp
