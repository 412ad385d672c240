import Unixlite.Verified.Serial

/-!
# Packets and packet queues

Port of `net/lib/pkt.h` and `net/lib/pkt.cc` as far as a TCP socket uses them.
A `Pkt` is a packet together with the TCP header in its room: `data` is what
follows that header.  `live` is the magic number: `delpkt` clears it, and a
deleted packet that is still linked keeps its place in the queue.
-/

namespace Unixlite.Net

open List

/-- A sequence number, `u32_t`. -/
abbrev Seq := BitVec 32

abbrev Byte := BitVec 8

/-! ## Header -/

def TCPFFIN : BitVec 8 := 0x01
def TCPFSYN : BitVec 8 := 0x02
def TCPFRST : BitVec 8 := 0x04
def TCPFPSH : BitVec 8 := 0x08
def TCPFACK : BitVec 8 := 0x10

/-- `tcphdr_t` in host byte order, without the checksum. -/
structure Tcphdr where
  sport : BitVec 16
  dport : BitVec 16
  seq : Seq
  ack : Seq
  flags : BitVec 8
  wnd : BitVec 16
  urgptr : BitVec 16
  opt : List Byte
deriving DecidableEq

namespace Tcphdr

/-- `th->flags & flag`. -/
def has (th : Tcphdr) (flag : BitVec 8) : Bool := th.flags &&& flag != 0

/-- `sizeof(tcphdr_t)`. -/
def size : Nat := 20

/-- `getheadlen`, options included. -/
def getheadlen (th : Tcphdr) : Nat := size + th.opt.length

def synfinbyte (th : Tcphdr) : Nat :=
  (if th.has TCPFSYN then 1 else 0) + (if th.has TCPFFIN then 1 else 0)

def ackeq (th : Tcphdr) (seq : Seq) : Bool := th.has TCPFACK && seq == th.ack

end Tcphdr

/-! ## Packets -/

/-- `pkt_t` with the part of its `pkb_t` that the socket layer looks at. -/
structure Pkt where
  hdr : Tcphdr
  data : List Byte
  roomlen : Nat
  sendtick : Nat
  startseq : Seq
  endseq : Seq
  live : Bool
deriving DecidableEq

namespace Pkt

/-- `seqlen()`, as the word added to `sndnxt`. -/
def seqlen (p : Pkt) : Seq := p.endseq - p.startseq

/-- `delhead(int delta)`. -/
def delhead (p : Pkt) (delta : Nat) : Pkt := { p with data := p.data.drop delta }

end Pkt

/-- `delpkt` of a packet that is the head of a queue: it stays linked. -/
def delheadpkt : List Pkt → List Pkt
  | [] => []
  | p :: q => { p with live := false } :: q

/-! ## Queues -/

/-- The bytes of a queue. -/
def contents (q : List Pkt) : List Byte := q.flatMap Pkt.data

/-- `pktq_t::peek`. -/
def peek : List Pkt → Nat → List Byte
  | [], _ => []
  | p :: q, len =>
      let once := min len p.data.length
      if len - once = 0 then p.data.take once
      else p.data.take once ++ peek q (len - once)

/-- What `pktq_t::fetch` returns: the bytes, the queue and the freed room. -/
structure Fetched where
  buf : List Byte
  q : List Pkt
  freedroom : Nat

/-- A packet without data is unlinked and deleted. -/
def Pkt.keep (p : Pkt) : List Pkt := if p.data = [] then [] else [p]

/-- `pktq_t::fetch`. -/
def fetch : List Pkt → Nat → Fetched
  | [], _ => ⟨[], [], 0⟩
  | p :: q, len =>
      let once := min len p.data.length
      let p' := p.delhead once
      let freed := if p'.data = [] then p.roomlen else 0
      if len - once = 0 then ⟨p.data.take once, p'.keep ++ q, freed⟩
      else
        let r := fetch q (len - once)
        ⟨p.data.take once ++ r.buf, p'.keep ++ r.q, freed + r.freedroom⟩

/-! ### What the queue functions compute -/

@[simp] theorem contents_nil : contents [] = [] := rfl

@[simp] theorem contents_cons (p : Pkt) (q : List Pkt) :
    contents (p :: q) = p.data ++ contents q := rfl

@[simp] theorem contents_append (q r : List Pkt) :
    contents (q ++ r) = contents q ++ contents r := by
  simp [contents]

@[simp] theorem contents_keep (p : Pkt) : contents p.keep = p.data := by
  unfold Pkt.keep
  by_cases h : p.data = [] <;> simp [h]

/-- `fetch` takes the first bytes of the queue and leaves the rest. -/
theorem fetch_spec (q : List Pkt) (len : Nat) :
    (fetch q len).buf = (contents q).take len ∧
      contents (fetch q len).q = (contents q).drop len := by
  induction q generalizing len with
  | nil => simp [fetch]
  | cons p q ih =>
      obtain ⟨ihbuf, ihq⟩ := ih (len - min len p.data.length)
      rcases Nat.le_total len p.data.length with hle | hge
      · have honce : min len p.data.length = len := Nat.min_eq_left hle
        have hzero : len - p.data.length = 0 := by omega
        simp [fetch, honce, Pkt.delhead, take_append, drop_append, hzero]
      · have honce : min len p.data.length = p.data.length := Nat.min_eq_right hge
        rw [honce] at ihbuf ihq
        by_cases hzero : len - p.data.length = 0
        · have hlen : len = p.data.length := by omega
          simp [fetch, hlen, Pkt.delhead]
        · have htake : p.data.take len = p.data := take_of_length_le hge
          have hdrop : p.data.drop len = [] := drop_eq_nil_of_le hge
          simp [fetch, honce, hzero, Pkt.delhead, take_append, drop_append,
            ihbuf, ihq, htake, hdrop]

/-- A packet left by `fetch` is one of the queue, possibly with fewer bytes;
one without bytes was there before. -/
theorem fetch_mem {q : List Pkt} {len : Nat} {p : Pkt} (h : p ∈ (fetch q len).q)
    (hp : p.data = []) : p ∈ q := by
  induction q generalizing len with
  | nil => simp [fetch] at h
  | cons r q ih =>
      have hkept : p ∉ (r.delhead (min len r.data.length)).keep := by
        unfold Pkt.keep
        split
        · simp
        · next hne =>
            intro hmem
            rw [mem_singleton] at hmem
            exact hne (hmem ▸ hp)
      simp only [fetch] at h
      split at h
      · rcases mem_append.mp h with hk | hq
        · exact absurd hk hkept
        · exact mem_cons_of_mem r hq
      · rcases mem_append.mp h with hk | hq
        · exact absurd hk hkept
        · exact mem_cons_of_mem r (ih hq)

end Unixlite.Net
