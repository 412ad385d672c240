import Unixlite.Net.IpInput
import Unixlite.Net.NetrxRun

/-!
# Malformed packets

A received frame is processed safely (`Safe`) when no access leaves its bytes, no packet gets
a negative `datalen`, no assertion fails, the processing comes to an end, and a frame whose
lengths do not fit (`Misfit`) is dropped.  Each of the input functions is safe exactly under
a condition on the lengths in the frame and on the sockets it finds; together they are
`Host.Fits` (`ipinput_safe_iff`).
-/

namespace Unixlite.Net.IpInput

open Unixlite.Verified Unixlite.Verified.Partial Unixlite.Net.Netrx
open Serial
open List

/-! ## The property -/

/-- The total length covers the IP header, and the frame covers the total length. -/
def LenFits (v : List Byte) : Prop := IPHLEN ≤ totlen v ∧ totlen v ≤ v.length

/-- The TCP header has its fixed part, and the total length covers it. -/
def TcphlenFits (v : List Byte) : Prop :=
  Tcphdr.size ≤ tcphlen v ∧ IPHLEN + tcphlen v ≤ totlen v

/-- A header length or a total length does not fit the received bytes.  The TCP header of a
packet for another host is nobody's business. -/
def Misfit (h : Host) (v : List Byte) : Prop :=
  (decode 0 v).headlen < IPHLEN ∨ ¬ LenFits v ∨
    h.net.tothishost (at32 v 16) = true ∧ at8 v 9 = IPPROTOTCP ∧ ¬ TcphlenFits v

/-- The processing comes to its end without a fault, and a misfit is dropped. -/
def Safe (h : Host) (v : List Byte) (x : Except Fault Verdict) : Prop :=
  Meets (fun verdict => Misfit h v → verdict = .dropped) x

/-! ## The condition -/

/-- The start of a packet with `datalen` bytes of data can be moved to `newstartseq`. -/
def TrimFits (startseq newstartseq : Seq) (datalen : Nat) : Prop :=
  (newstartseq - startseq).toNat ≤ datalen

/-- The first packets of `oosrecvq`, up to the one that starts behind `endseq`: the last. -/
def prevoos (r : Rcvside) (endseq : Seq) : Option Pkt :=
  (r.oosrecvq.takeWhile fun q => !lt endseq q.startseq).getLast?

/-- The condition on a segment that comes to the first sequence comparison of `inputdata`:
what is cut off in front of `rcvnxt`, or in front of the end of the packet before it on
`oosrecvq`, is not longer than the data. -/
def CutFits (r : Rcvside) (pkt : Pkt) (datalen : Nat) : Prop :=
  lt pkt.endseq r.rcvnxt = false →
    (lt pkt.startseq r.rcvnxt = true → TrimFits pkt.startseq r.rcvnxt datalen) ∧
      (lt pkt.startseq r.rcvnxt = false → pkt.startseq ≠ pkt.endseq →
        r.hasroom pkt = true → r.rcvnxt ≠ pkt.startseq →
          ∀ prev ∈ prevoos r pkt.endseq, lt pkt.startseq prev.endseq = true →
            TrimFits pkt.startseq prev.endseq datalen)

/-- The condition on the data of a segment: a FIN that has come before, or that comes
without data, leads nowhere. -/
def DataFits (r : Rcvside) (pkt : Pkt) (datalen : Nat) : Prop :=
  (pkt.hdr.has TCPFFIN = true → r.finrecved = false ∧ pkt.startseq + 1 ≠ pkt.endseq) →
    CutFits r pkt datalen

/-- What lies from `o` on, as far as `parseopt` walks over it until the byte `n`: each option
but the last one has a length, of at least one byte, and a segment size is there when its
option says so. -/
inductive Walk (b : List Byte) (n : Nat) : Nat → Prop where
  | stop {o : Nat} (h : n ≤ o) : Walk b n o
  | eol {o : Nat} (h : b[o]? = some 0) : Walk b n o
  | next {o : Nat} {kind len : Byte} (hkind : b[o]? = some kind) (hlen : b[o + 1]? = some len)
      (hpos : len ≠ 0) (hmss : kind = 2 → len = 4 → o + 3 < b.length)
      (rest : Walk b n (o + len.toNat)) : Walk b n o

/-- The options of the TCP header can be walked over. -/
def OptFits (v : List Byte) : Prop := Walk (v.drop 40) (tcphlen v - Tcphdr.size) 0

namespace Host

/-- A packet of `len` bytes for `daddr`, if it is made, is not larger than the device takes. -/
def Sends (h : Host) (newpkt : Bool) (len : Nat) (daddr : BitVec 32) : Prop :=
  newpkt = true → ∀ hop ∈ h.net.route daddr, (len : Int) ≤ hop.1.mtu.toInt

end Host

namespace Conn

/-- The condition on a segment for the handler of the state. -/
def StateFits (c : Conn) (h : Host) (env : Memory) (v : List Byte) (seg : Segment) : Prop :=
  (c.sock.state = .synsent → seg.hdr.has TCPFSYN = true →
      seg.hdr.ackeq c.sock.snd.sndnxt = true →
        OptFits v ∧ h.Sends (env.newpkt 1) (IPHLEN + Tcphdr.size) c.faddr) ∧
    (Tcpsys.takesdata c.sock.state = true →
      DataFits c.sock.rcv (Sock.inpkt seg) (totlen v - IPHLEN - tcphlen v)) ∧
    (c.sock.delacks = true → h.Sends (env.newpkt 0) (IPHLEN + Tcphdr.size) c.faddr) ∧
    (c.sock.acks seg = true → h.Sends (env.newpkt 1) (IPHLEN + Tcphdr.size) c.faddr)

/-- The condition on a segment whose numbers are in order. -/
def Fits (c : Conn) (h : Host) (env : Memory) (v : List Byte) (seg : Segment) : Prop :=
  seg.hdr.has TCPFRST = false →
    (seg.hdr.has TCPFACK = true → c.ontime h.passedtick seg.hdr.ack = true) ∧
      c.StateFits h env v seg

end Conn

namespace Host

/-- The same for a listening socket. -/
def ListenFits (h : Host) (env : Memory) (v : List Byte) (ih : Iphdr) : Prop :=
  ih.seg.hdr.has TCPFRST = false →
    if ih.seg.hdr.has TCPFSYN then
      OptFits v ∧ h.Sends (env.newpkt 0 && env.clone 0) (IPHLEN + Tcphdr.size + 4) ih.saddr
    else h.Sends (env.newpkt 0) (IPHLEN + Tcphdr.size) ih.saddr

/-- The condition on a segment that finds a socket: its flags have been received, and if its
numbers are in order, so has the fixed part of its header, and `rest` holds. -/
def SeqFits (v : List Byte) (seg : Segment) (rest : Prop) : Prop :=
  34 ≤ v.length ∧ (gt (Sock.inpkt seg).startseq (Sock.inpkt seg).endseq = false →
    Tcphdr.size ≤ tcphlen v ∧ rest)

/-- The condition on a TCP packet for this host. -/
def TcpFits (h : Host) (env : Memory) (v : List Byte) (ih : Iphdr) : Prop :=
  LenFits v ∧ 33 ≤ v.length ∧ IPHLEN + tcphlen v ≤ totlen v ∧
    (ih.tcpchksum = 0 →
      match h.conns.find? fun c => c.perfectmatch ih with
      | some c => SeqFits v ih.seg (c.Fits h env v ih.seg)
      | none => h.net.halfmatch ih = true → SeqFits v ih.seg (h.ListenFits env v ih))

/-- The condition on a UDP packet for this host.  Without a checksum nothing but a socket
makes the total length matter. -/
def UdpFits (h : Host) (v : List Byte) (ih : Iphdr) : Prop :=
  IPHLEN + 8 ≤ v.length ∧ (ih.chksum ≠ 0 → IPHLEN + (sumlen v).toNat ≤ v.length) ∧
    ((ih.chksum = 0 ∨ ih.udpchksum = 0) → (udpsock h ih).isSome = true → LenFits v)

/-- The condition on a packet for the raw sockets.  When none of them has it, or there is no
memory for all of them, the reply holds the first bytes behind the header. -/
def RawFits (h : Host) (env : Memory) (v : List Byte) (ih : Iphdr) : Prop :=
  (takers h.net.raws ih ≠ [] → LenFits v) ∧
    ((takers h.net.raws ih = [] ∨ ∃ i < (takers h.net.raws ih).length - 1, env.clone i = false) →
      env.newpkt 0 = true →
        IPHLEN + 8 ≤ v.length ∧ h.Sends true (IPHLEN + 32) ih.saddr)

/-- The condition on an ICMP packet for this host. -/
def IcmpFits (h : Host) (env : Memory) (v : List Byte) (ih : Iphdr) : Prop :=
  LenFits v ∧ (ih.icmpchksum = 0 →
    IPHLEN + 1 ≤ v.length ∧
      if ih.type = ICTECHOREQUEST then
        env.newpkt 0 = true → IPHLEN + 4 ≤ totlen v ∧ h.Sends true (totlen v) ih.saddr
      else h.RawFits env v ih)

/-- The condition on a packet that passes the checks of `ipinput`. -/
def IpFits (h : Host) (env : Memory) (v : List Byte) (ih : Iphdr) : Prop :=
  if h.net.tothishost ih.daddr = false then LenFits v ∨ h.net.route ih.daddr = none
  else if ih.proto = IPPROTOTCP then h.TcpFits env v ih
  else if ih.proto = IPPROTOUDP then h.UdpFits v ih
  else if ih.proto = IPPROTOICMP then h.IcmpFits env v ih
  else h.RawFits env v ih

/-- The condition on a frame. -/
def Fits (h : Host) (env : Memory) (roomlen : Nat) (v : List Byte) : Prop :=
  let ih := decode roomlen v
  0 < v.length ∧ (ih.ver = 4 → ih.headlen = IPHLEN →
    IPHLEN ≤ v.length ∧ (ih.ipchksum = 0 → h.IpFits env v ih))

end Host

/-! ## Accesses and replies -/

theorem returns_touch {v : List Byte} {o len : Nat} :
    Returns (touch v o len) ↔ o + len ≤ v.length := by
  unfold touch
  by_cases hle : o + len ≤ v.length
  · rw [if_pos hle]
    exact iff_of_true ⟨(), rfl, trivial⟩ hle
  · rw [if_neg hle]
    exact iff_of_false (fun h => by obtain ⟨a, ha, -⟩ := h; cases ha) hle

/-- What stands behind an access is reached when the access stays inside. -/
theorem meets_touch {α : Type} {P : α → Prop} {v : List Byte} {o len : Nat}
    {f : Unit → Except Fault α} :
    Meets P (touch v o len >>= f) ↔ o + len ≤ v.length ∧ Meets P (f ()) := by
  rw [meets_bind, ← returns_touch]
  exact meets_const (p := Meets P (f ()))

/-- The same for anything else that has no result. -/
theorem meets_unit {α : Type} {P : α → Prop} {x : Except Fault Unit}
    {f : Unit → Except Fault α} : Meets P (x >>= f) ↔ Returns x ∧ Meets P (f ()) := by
  rw [meets_bind]
  exact meets_const (p := Meets P (f ()))

theorem returns_assert {b : Bool} : Returns (assert b) ↔ b = true := by
  cases b with
  | false => exact iff_of_false (fun h => by obtain ⟨a, ha, -⟩ := h; cases ha) (by decide)
  | true => exact iff_of_true ⟨(), rfl, trivial⟩ rfl

theorem returns_reply {h : Host} {newpkt : Bool} {len : Nat} {daddr : BitVec 32} :
    Returns (h.reply newpkt len daddr) ↔ h.Sends newpkt len daddr := by
  unfold Host.reply Host.Sends Host.ipoutput
  cases newpkt with
  | false => exact iff_of_true ⟨(), rfl, trivial⟩ fun hn => by cases hn
  | true =>
      rw [if_pos rfl, forall_prop_of_true rfl]
      cases h.net.route daddr with
      | none => exact iff_of_true ⟨(), rfl, trivial⟩ fun hop hhop => by cases hhop
      | some hop =>
          rw [returns_assert, decide_eq_true_eq]
          exact ⟨fun hle hop' hhop => by cases hhop; exact hle, fun hall => hall hop rfl⟩

/-! ## The options -/

/-- An option that has a length. -/
theorem walk_iff {b : List Byte} {n o : Nat} {kind len : Byte} (hstop : ¬ n ≤ o)
    (hkind : b[o]? = some kind) (heol : kind ≠ 0) (hlen : b[o + 1]? = some len) :
    Walk b n o ↔
      (kind = 2 → len = 4 → o + 3 < b.length) ∧ len ≠ 0 ∧ Walk b n (o + len.toNat) := by
  constructor
  · intro h
    cases h with
    | stop h => exact absurd h hstop
    | eol h =>
        rw [hkind] at h
        cases h
        exact absurd rfl heol
    | next hkind' hlen' hpos hmss rest =>
        rw [hkind] at hkind'
        rw [hlen] at hlen'
        cases hkind'
        cases hlen'
        exact ⟨hmss, hpos, rest⟩
  · rintro ⟨hmss, hpos, rest⟩
    exact .next hkind hlen hpos hmss rest

/-- `parseopt` gets to the end of the options from `o` on, with fuel for every byte. -/
theorem parseoptFrom_iff (b : List Byte) (n : Nat) (fuel o mss : Nat) (hfuel : n - o < fuel) :
    (parseoptFrom b n fuel o mss).isSome = true ↔ Walk b n o := by
  induction fuel generalizing o mss with
  | zero => omega
  | succ fuel ih =>
      unfold parseoptFrom
      by_cases hstop : n ≤ o
      · rw [if_pos hstop]
        exact iff_of_true rfl (.stop hstop)
      rw [if_neg hstop]
      cases hkind : b[o]? with
      | none =>
          refine iff_of_false (by simp) fun h => ?_
          cases h with
          | stop h => exact hstop h
          | eol h => rw [hkind] at h; cases h
          | next h => rw [hkind] at h; cases h
      | some kind =>
          simp only [Option.bind_eq_bind, Option.bind_some]
          by_cases heol : kind = 0
          · rw [if_pos heol]
            exact iff_of_true rfl (.eol (heol ▸ hkind))
          rw [if_neg heol]
          cases hlen : b[o + 1]? with
          | none =>
              refine iff_of_false (by simp) fun h => ?_
              cases h with
              | stop h => exact hstop h
              | eol h => rw [hkind] at h; cases h; exact heol rfl
              | next _ h => rw [hlen] at h; cases h
          | some len =>
              have hrest : ∀ mss', (if len = 0 then none
                  else parseoptFrom b n fuel (o + len.toNat) mss').isSome = true ↔
                    len ≠ 0 ∧ Walk b n (o + len.toNat) := by
                intro mss'
                by_cases hzero : len = 0
                · rw [if_pos hzero]
                  exact iff_of_false (by simp) fun h => h.1 hzero
                · have hpos : 0 < len.toNat := by
                    rw [Nat.pos_iff_ne_zero]
                    exact fun h => hzero (BitVec.eq_of_toNat_eq h)
                  rw [if_neg hzero, ih _ mss' (by omega)]
                  exact (and_iff_right hzero).symm
              rw [Option.bind_some, walk_iff hstop hkind heol hlen]
              by_cases hmss : kind = 2 ∧ len = 4
              · rw [if_pos hmss]
                by_cases hin : o + 3 < b.length
                · rw [List.getElem?_eq_getElem (by omega), List.getElem?_eq_getElem hin]
                  exact (hrest _).trans (and_iff_right fun _ _ => hin).symm
                · refine iff_of_false ?_ fun h => hin (h.1 hmss.1 hmss.2)
                  rw [List.getElem?_eq_none (by omega : b.length ≤ o + 3)]
                  cases b[o + 2]? <;> simp
              · rw [if_neg hmss]
                exact (hrest mss).trans (and_iff_right fun hk hl => absurd ⟨hk, hl⟩ hmss).symm

theorem returns_initirs {v : List Byte} (h : IPHLEN + tcphlen v ≤ v.length) :
    Returns (initirs v) ↔ OptFits v := by
  have hlen : ((v.drop 40).take (tcphlen v - Tcphdr.size)).length = tcphlen v - Tcphdr.size := by
    rw [length_take, length_drop]
    unfold IPHLEN at h
    unfold Tcphdr.size
    omega
  unfold initirs parseopt OptFits
  rw [take_append_drop, hlen, ← parseoptFrom_iff _ _ (tcphlen v - Tcphdr.size + 1) 0 536
    (by omega)]
  split_ifs with hparse
  · exact iff_of_true ⟨(), rfl, trivial⟩ hparse
  · exact iff_of_false (by simp) hparse

/-! ## The data -/

/-- The data area of a packet in a frame of `n` bytes. -/
structure Area.Ok (n : Nat) (p : Area) : Prop where
  data : 0 ≤ p.data
  datalen : 0 ≤ p.datalen
  fits : p.data + p.datalen ≤ n
  small : p.data + p.datalen ≤ 65535

namespace Area

variable {n : Nat} {p : Area}

theorem meets_check {P : Area → Prop} (hdata : -16 ≤ p.data) (hfits : p.data + p.datalen ≤ n) :
    Meets P (check n p) ↔ 0 ≤ p.datalen ∧ P p := by
  unfold check
  rw [if_neg (by omega)]
  by_cases hneg : p.datalen < 0
  · rw [if_pos hneg]
    exact iff_of_false (by simp) fun h => by omega
  · rw [if_neg hneg, meets_ok]
    exact (and_iff_right (by omega)).symm

theorem meets_delhead {P : Area → Prop} (hp : p.Ok n) {delta : Nat} :
    Meets P (p.delhead n delta) ↔
      (delta : Int) ≤ p.datalen ∧ P ⟨p.data + delta, p.datalen - delta⟩ := by
  have hdata := hp.data
  have hfits := hp.fits
  unfold delhead
  rw [meets_check (by dsimp only; omega) (by dsimp only; omega)]
  rw [Int.sub_nonneg]

/-- A word that is not less than half the number space, but whose negation is negative, is
half the number space. -/
theorem toNat_of_lt {a b : Seq} (hlt : lt a b = true) (hbig : 2 ^ 31 ≤ (b - a).toNat) :
    (b - a).toNat = 2 ^ 31 := by
  have hneg : a - b = -(b - a) := by bv_omega
  unfold lt at hlt
  rw [hneg, show (0 : Seq) = 0#32 from rfl, BitVec.slt_zero_eq_msb, BitVec.msb_eq_decide, decide_eq_true_eq,
    BitVec.toNat_neg] at hlt
  omega

/-- What lies in front of the new start is cut off, if there is as much. -/
theorem returns_movestartseqto (hp : p.Ok n) {startseq newstartseq : Seq}
    (hlt : lt startseq newstartseq = true) :
    Returns (p.movestartseqto n startseq newstartseq) ↔
      TrimFits startseq newstartseq p.datalen.toNat := by
  have hdata := hp.data
  have hlen := hp.datalen
  have hsmall := hp.small
  unfold movestartseqto TrimFits
  rw [if_pos hlt]
  by_cases hbig : (newstartseq - startseq).toNat < 2 ^ 31
  · rw [BitVec.toInt_eq_toNat_of_lt (by omega)]
    refine (meets_delhead hp).trans ?_
    rw [and_iff_left trivial]
    omega
  · -- half the number space away, the start would move backwards
    have hhalf := toNat_of_lt hlt (by omega)
    refine iff_of_false ?_ (by omega)
    rw [BitVec.toInt_eq_toNat_cond, if_neg (by omega), hhalf]
    unfold delhead check
    rw [if_pos (by dsimp only; omega)]
    simp

end Area

section

variable {n : Nat} {p : Area} {r : Rcvside} {pkt : Pkt}

theorem returns_insertoos (hp : p.Ok n) : Returns (insertoos n p r.oosrecvq pkt) ↔
    ∀ prev ∈ prevoos r pkt.endseq, lt pkt.startseq prev.endseq = true →
      TrimFits pkt.startseq prev.endseq p.datalen.toNat := by
  unfold insertoos
  rw [show (r.oosrecvq.takeWhile fun q => !lt pkt.endseq q.startseq).getLast? =
    prevoos r pkt.endseq from rfl]
  cases prevoos r pkt.endseq with
  | none => exact iff_of_true ⟨(), rfl, trivial⟩ fun prev hprev => by cases hprev
  | some prev =>
      dsimp only
      rw [show (∀ q ∈ some prev, lt pkt.startseq q.endseq = true →
          TrimFits pkt.startseq q.endseq p.datalen.toNat) ↔
        (lt pkt.startseq prev.endseq = true →
          TrimFits pkt.startseq prev.endseq p.datalen.toNat) from
        ⟨fun h => h prev rfl, fun h q hq => by cases hq; exact h⟩]
      by_cases hlt : lt pkt.startseq prev.endseq = true
      · rw [if_pos hlt, forall_prop_of_true hlt, ← Area.returns_movestartseqto hp hlt, Returns,
          meets_bind]
        exact meets_congr fun q _ => meets_ok
      · rw [if_neg hlt]
        exact iff_of_true ⟨(), rfl, trivial⟩ fun h => absurd h hlt

theorem returns_accept (hp : p.Ok n) :
    Returns (accept n p r pkt) ↔ CutFits r pkt p.datalen.toNat := by
  unfold accept CutFits
  by_cases hold : lt pkt.endseq r.rcvnxt = true
  · rw [if_pos hold]
    exact iff_of_true ⟨(), rfl, trivial⟩ fun h => by rw [hold] at h; cases h
  rw [if_neg hold, forall_prop_of_true (by simpa using hold)]
  by_cases hcut : lt pkt.startseq r.rcvnxt = true
  · rw [if_pos hcut, and_iff_left (fun h => by rw [hcut] at h; cases h),
      forall_prop_of_true hcut, ← Area.returns_movestartseqto hp hcut, Returns, meets_bind]
    exact meets_congr fun q _ => meets_ok
  rw [if_neg hcut, and_iff_right (fun h => absurd h hcut), forall_prop_of_true (by simpa using hcut)]
  by_cases hempty : pkt.startseq = pkt.endseq
  · rw [if_pos hempty]
    exact iff_of_true ⟨(), rfl, trivial⟩ fun h => absurd hempty h
  rw [if_neg hempty, forall_prop_of_true hempty]
  by_cases hroom : r.hasroom pkt = true
  · rw [if_neg (by simp [hroom]), forall_prop_of_true hroom]
    by_cases hseq : r.rcvnxt = pkt.startseq
    · rw [if_pos hseq]
      exact iff_of_true ⟨(), rfl, trivial⟩ fun h => absurd hseq h
    · rw [if_neg hseq, forall_prop_of_true hseq]
      exact returns_insertoos hp
  · rw [if_pos (by simp [hroom])]
    exact iff_of_true ⟨(), rfl, trivial⟩ fun h => absurd h hroom

theorem returns_inputdata (hp : p.Ok n) :
    Returns (inputdata n p r pkt) ↔ DataFits r pkt p.datalen.toNat := by
  unfold inputdata DataFits
  by_cases hfin : pkt.hdr.has TCPFFIN = true
  · rw [if_pos hfin, forall_prop_of_true hfin]
    by_cases hdup : r.finrecved = true
    · rw [if_pos hdup]
      exact iff_of_true ⟨(), rfl, trivial⟩ fun h => by rw [hdup] at h; cases h.1
    · rw [if_neg hdup]
      by_cases hone : pkt.startseq + 1 = pkt.endseq
      · rw [if_pos hone]
        exact iff_of_true ⟨(), rfl, trivial⟩ fun h => absurd hone h.2
      · rw [if_neg hone, forall_prop_of_true ⟨by simpa using hdup, hone⟩]
        exact returns_accept hp
  · rw [if_neg hfin, forall_prop_of_true (fun h => absurd h hfin)]
    exact returns_accept hp

end

/-! ## TCP -/

/-- The area behind both headers. -/
theorem area_ok {v : List Byte} (hfits : LenFits v) (htcp : IPHLEN + tcphlen v ≤ totlen v) :
    Area.Ok v.length
      ⟨(IPHLEN : Int) + tcphlen v, (totlen v : Int) - IPHLEN - tcphlen v⟩ := by
  obtain ⟨-, hlen⟩ := hfits
  have hmax : totlen v < 65536 := (ntohs (at16 v 2)).isLt
  constructor <;> dsimp only <;> omega

section

variable {h : Host} {env : Memory} {v : List Byte} {c : Conn} {seg : Segment} {ih : Iphdr}
  {p : Area}

theorem returns_ok {α : Type} {a : α} : Returns (.ok a : Except Fault α) := meets_ok.mpr trivial

theorem returns_sendack {newpkt : Bool} : Returns (c.sendack h newpkt) ↔
    h.Sends newpkt (IPHLEN + Tcphdr.size) c.faddr := returns_reply

theorem returns_ackif {due newpkt : Bool} : Returns (c.ackif h due newpkt) ↔
    (due = true → h.Sends newpkt (IPHLEN + Tcphdr.size) c.faddr) := by
  unfold Conn.ackif
  cases due with
  | false => exact iff_of_true returns_ok fun h => by cases h
  | true =>
      rw [if_pos rfl, forall_prop_of_true rfl]
      exact returns_sendack

theorem returns_inputstate (hp : p.Ok v.length) (hopt : IPHLEN + tcphlen v ≤ v.length)
    (hlen : p.datalen.toNat = totlen v - IPHLEN - tcphlen v) :
    Returns (c.inputstate h env v p seg) ↔ c.StateFits h env v seg := by
  unfold Conn.inputstate Conn.StateFits
  dsimp only
  rw [show (Sock.inpkt seg).hdr = seg.hdr from rfl]
  cases hstate : c.sock.state with
  | closed | listen | timewait | synrecv =>
      have hdel : c.sock.delacks = false := by simp [Sock.delacks, hstate, Tcpsys.takesdata]
      have hacks : c.sock.acks seg = false := by simp [Sock.acks, hstate]
      simp [hdel, hacks, Tcpsys.takesdata]
  | synsent =>
      have hdel : c.sock.delacks = false := by simp [Sock.delacks, hstate, Tcpsys.takesdata]
      have hacks : c.sock.acks seg = false := by simp [Sock.acks, hstate]
      have hrest : (OptFits v ∧ h.Sends (env.newpkt 1) (IPHLEN + Tcphdr.size) c.faddr) ↔
          Returns (initirs v >>= fun _ => c.sendack h (env.newpkt 1)) := by
        rw [Returns, meets_unit, returns_initirs hopt]
        exact and_congr_right fun _ => returns_sendack.symm
      rw [hdel, hacks, hrest]
      by_cases hbad : (!seg.hdr.has TCPFSYN || !seg.hdr.ackeq c.sock.snd.sndnxt) = true
      · rw [if_pos hbad]
        refine iff_of_true returns_ok ⟨fun _ hsyn hack => ?_, ?_⟩
        · rw [hsyn, hack] at hbad
          cases hbad
        · simp [Tcpsys.takesdata]
      · rw [if_neg hbad]
        have hgood : seg.hdr.has TCPFSYN = true ∧ seg.hdr.ackeq c.sock.snd.sndnxt = true := by
          simpa using hbad
        simp [hgood, Tcpsys.takesdata]
  | lastack =>
      have hdel : c.sock.delacks = false := by simp [Sock.delacks, hstate, Tcpsys.takesdata]
      rw [returns_ackif, hdel]
      simp [Tcpsys.takesdata]
  | estab | finwait1 | finwait2 | closewait | closing =>
      rw [Returns, meets_unit, meets_unit, returns_inputdata hp, hlen, returns_ackif]
      simp only [Tcpsys.takesdata, reduceCtorEq, false_implies, forall_true_left, true_and]
      exact and_left_comm.trans (and_congr_right fun _ => and_congr_right fun _ => returns_ackif)

/-- The flags and the acknowledgement are in the fixed part of the header. -/
theorem returns_updatesndwnd (hlen : 40 ≤ v.length) : Returns (c.updatesndwnd v) := by
  unfold Conn.updatesndwnd
  split_ifs
  · exact returns_ok
  · exact meets_touch.mpr ⟨by omega, returns_touch.mpr (by omega)⟩

theorem returns_ackarrived (hlen : 40 ≤ v.length) : Returns (c.ackarrived h v seg) ↔
    (seg.hdr.has TCPFACK = true → c.ontime h.passedtick seg.hdr.ack = true) := by
  unfold Conn.ackarrived
  by_cases hack : seg.hdr.has TCPFACK = true
  · rw [if_pos hack, forall_prop_of_true hack, Returns, meets_touch, and_iff_right (by omega)]
    exact returns_assert
  · rw [if_neg hack]
    exact iff_of_true returns_ok fun h => absurd h hack

theorem returns_inputsegment (hp : p.Ok v.length) (hopt : IPHLEN + tcphlen v ≤ v.length)
    (hlen : p.datalen.toNat = totlen v - IPHLEN - tcphlen v) (hhead : 40 ≤ v.length) :
    Returns (c.inputsegment h env v p seg) ↔ c.Fits h env v seg := by
  unfold Conn.inputsegment Conn.Fits
  by_cases hrst : seg.hdr.has TCPFRST = true
  · rw [if_pos hrst]
    exact iff_of_true returns_ok fun h => by rw [hrst] at h; cases h
  · rw [if_neg hrst, forall_prop_of_true (by simpa using hrst), Returns, meets_unit,
      and_iff_right (returns_updatesndwnd hhead), meets_unit, returns_ackarrived hhead]
    exact and_congr_right fun _ => returns_inputstate hp hopt hlen

theorem returns_inputlisten (hopt : IPHLEN + tcphlen v ≤ v.length) (hhead : 40 ≤ v.length) :
    Returns (inputlisten h env v ih) ↔ h.ListenFits env v ih := by
  unfold inputlisten Host.ListenFits
  by_cases hrst : ih.seg.hdr.has TCPFRST = true
  · rw [if_pos hrst]
    exact iff_of_true returns_ok fun h => by rw [hrst] at h; cases h
  rw [if_neg hrst, forall_prop_of_true (by simpa using hrst)]
  by_cases hsyn : ih.seg.hdr.has TCPFSYN = true
  · rw [if_neg (by simp [hsyn]), if_pos hsyn, Returns, meets_touch, and_iff_right (by omega),
      meets_unit, returns_initirs hopt]
    exact and_congr_right fun _ => returns_reply
  · rw [if_pos (by simp [hsyn]), if_neg hsyn, Returns, meets_touch, and_iff_right (by omega)]
    exact returns_reply

/-- What comes of a packet that reaches a socket is right when its lengths fit. -/
theorem meets_inputseq {P : Verdict → Prop} {rest : Except Fault Unit} {fits : Prop}
    (hdropped : P .dropped) (htaken : P .taken ↔ Tcphdr.size ≤ tcphlen v)
    (hrest : Tcphdr.size ≤ tcphlen v → (Returns rest ↔ fits)) :
    Meets P (inputseq v seg rest) ↔ Host.SeqFits v seg fits := by
  unfold inputseq Host.SeqFits
  rw [meets_touch, meets_touch, ← and_assoc, show (24 + 4 ≤ v.length ∧ 33 + 1 ≤ v.length) ↔
    34 ≤ v.length from by omega]
  refine and_congr_right fun _ => ?_
  by_cases hgt : gt (Sock.inpkt seg).startseq (Sock.inpkt seg).endseq = true
  · rw [if_pos hgt]
    exact iff_of_true (meets_ok.mpr hdropped) fun h => by rw [hgt] at h; cases h
  · rw [if_neg hgt, forall_prop_of_true (by simpa using hgt), meets_unit]
    refine Iff.trans ?_ and_comm
    exact (and_congr_right fun _ => meets_ok.trans htaken).trans
      (and_congr_left fun hlen => hrest hlen)

/-- What the IP layer leaves of a packet: its total length, if there is as much. -/
def ipdata (v : List Byte) : Area := ⟨0, min (totlen v) v.length⟩

theorem ipdata_ok : (ipdata v).Ok v.length := by
  have hmax : totlen v < 65536 := (ntohs (at16 v 2)).isLt
  unfold ipdata
  constructor <;> dsimp only <;> omega

/-- Both headers are cut off, and the sum goes over the rest, when the lengths fit. -/
theorem meets_heads {α : Type} {P : α → Prop} {f : Area → Except Fault α} :
    Meets P ((ipdata v).delhead v.length IPHLEN >>= fun q => touch v 32 1 >>= fun _ =>
        q.delhead v.length (tcphlen v) >>= fun q =>
          touch v IPHLEN (sumlen v).toNat >>= fun _ => f q) ↔
      LenFits v ∧ 33 ≤ v.length ∧ IPHLEN + tcphlen v ≤ totlen v ∧
        Meets P (f ⟨(IPHLEN : Int) + tcphlen v, (totlen v : Int) - IPHLEN - tcphlen v⟩) := by
  have hsum : IPHLEN ≤ totlen v → (sumlen v).toNat = totlen v - IPHLEN := by
    intro hle
    have hmax : totlen v < 65536 := (ntohs (at16 v 2)).isLt
    unfold sumlen
    rw [BitVec.toNat_ofInt]
    omega
  have hdata : (ipdata v).datalen = min (totlen v : Int) v.length := rfl
  have hstart : (ipdata v).data = 0 := rfl
  by_cases hhead : IPHLEN ≤ totlen v ∧ IPHLEN ≤ v.length
  · have hok : Area.Ok v.length
        ⟨(ipdata v).data + IPHLEN, (ipdata v).datalen - IPHLEN⟩ := by
      have h := ipdata_ok (v := v)
      have := h.small
      constructor <;> dsimp only <;> omega
    rw [meets_bind, Area.meets_delhead ipdata_ok, meets_touch, meets_bind,
      Area.meets_delhead hok, meets_touch, hsum hhead.1, hdata, hstart]
    dsimp only
    constructor
    · rintro ⟨-, h33, hcut, hlen, hf⟩
      have hle : totlen v ≤ v.length := by omega
      refine ⟨⟨hhead.1, hle⟩, by omega, by omega, ?_⟩
      rwa [min_eq_left (by omega), zero_add] at hf
    · rintro ⟨⟨-, hle⟩, h33, hcut, hf⟩
      refine ⟨by omega, by omega, by omega, by omega, ?_⟩
      rwa [min_eq_left (by omega), zero_add]
  · rw [meets_bind, Area.meets_delhead ipdata_ok, hdata]
    unfold LenFits
    exact iff_of_false (fun h => by omega) fun h => by omega

/-- The verdict for a packet for this host with a header of the right length. -/
def Right (h : Host) (v : List Byte) (verdict : Verdict) : Prop :=
  Misfit h v → verdict = .dropped

theorem right_dropped : Right h v .dropped := fun _ => rfl

variable {roomlen : Nat}

theorem returns_tcpinput (hhead : (decode roomlen v).headlen = IPHLEN)
    (hhost : h.net.tothishost (decode roomlen v).daddr = true)
    (hproto : (decode roomlen v).proto = IPPROTOTCP) :
    Meets (Right h v) (tcpinput h env v (ipdata v) (decode roomlen v)) ↔
      h.TcpFits env v (decode roomlen v) := by
  unfold tcpinput Host.TcpFits
  rw [hhead]
  refine meets_heads.trans ?_
  refine and_congr_right fun hfits => and_congr_right fun h33 => and_congr_right fun htcp => ?_
  have htaken : Right h v .taken ↔ Tcphdr.size ≤ tcphlen v := by
    constructor
    · intro hright
      by_contra hshort
      cases hright (.inr (.inr ⟨hhost, hproto, fun h => hshort h.1⟩))
    · rintro hlen (hmis | hmis | ⟨-, -, hmis⟩)
      · exact absurd hmis (by rw [show (decode 0 v).headlen = IPHLEN from hhead]; omega)
      · exact absurd hfits hmis
      · exact absurd ⟨hlen, htcp⟩ hmis
  have hopt : IPHLEN + tcphlen v ≤ v.length := htcp.trans hfits.2
  have h40 : Tcphdr.size ≤ tcphlen v → 40 ≤ v.length := by
    intro hlen
    unfold Tcphdr.size at hlen
    unfold IPHLEN at hopt
    omega
  by_cases hsum : (decode roomlen v).tcpchksum = 0
  · rw [if_neg (by simpa using hsum), forall_prop_of_true hsum, meets_touch,
      and_iff_right (by omega)]
    cases h.conns.find? fun c => c.perfectmatch (decode roomlen v) with
    | some c =>
        refine meets_inputseq right_dropped htaken fun hlen => ?_
        exact returns_inputsegment (area_ok hfits htcp) hopt (by dsimp only; omega) (h40 hlen)
    | none =>
        by_cases hhalf : h.net.halfmatch (decode roomlen v) = true
        · rw [if_pos hhalf, forall_prop_of_true hhalf]
          exact meets_inputseq right_dropped htaken fun hlen =>
            returns_inputlisten hopt (h40 hlen)
        · rw [if_neg hhalf]
          exact iff_of_true (meets_ok.mpr right_dropped) fun h => absurd h hhalf
  · rw [if_pos (by simpa using hsum)]
    exact iff_of_true (meets_ok.mpr right_dropped) fun h => absurd h hsum

/-! ## UDP, ICMP and the raw sockets -/

/-- Outside TCP a packet is a misfit when its total length does not fit. -/
theorem right_taken (hhead : (decode roomlen v).headlen = IPHLEN)
    (hproto : (decode roomlen v).proto ≠ IPPROTOTCP) : Right h v .taken ↔ LenFits v := by
  constructor
  · intro hright
    by_contra hlen
    cases hright (.inr (.inl hlen))
  · rintro hlen (hmis | hmis | ⟨-, htcp, -⟩)
    · exact absurd hmis (by rw [show (decode 0 v).headlen = IPHLEN from hhead]; omega)
    · exact absurd hlen hmis
    · exact absurd htcp hproto

theorem meets_udpdemux (htaken : Right h v .taken ↔ LenFits v) (hlen : 28 ≤ v.length) :
    Meets (Right h v) (udpdemux h v ih) ↔ ((udpsock h ih).isSome = true → LenFits v) := by
  unfold udpdemux
  rw [meets_touch, and_iff_right (by omega)]
  cases (udpsock h ih).isSome with
  | false => exact iff_of_true (meets_ok.mpr right_dropped) fun h => by cases h
  | true => exact (meets_ok.trans htaken).trans ⟨fun h _ => h, fun h => h rfl⟩

theorem meets_udpinput (htaken : Right h v .taken ↔ LenFits v) :
    Meets (Right h v) (udpinput h v ih) ↔ h.UdpFits v ih := by
  unfold udpinput Host.UdpFits
  rw [meets_touch]
  refine and_congr_right fun hlen => ?_
  by_cases hsum : ih.chksum = 0
  · rw [if_pos hsum, meets_udpdemux htaken (by omega)]
    simp [hsum]
  · rw [if_neg hsum, meets_touch, forall_prop_of_true hsum]
    refine and_congr_right fun _ => ?_
    by_cases hgood : ih.udpchksum = 0
    · rw [if_neg (by simpa using hgood), forall_prop_of_true (.inr hgood)]
      exact meets_udpdemux htaken (by omega)
    · rw [if_pos (by simpa using hgood)]
      exact iff_of_true (meets_ok.mpr right_dropped) fun h =>
        absurd h (not_or.mpr ⟨hsum, hgood⟩)

theorem rawcount_eq_zero {clone : Nat → Bool} {k : Nat} :
    rawcount clone k = 0 ↔ k = 0 ∨ ∃ i < k - 1, clone i = false := by
  unfold rawcount
  by_cases hall : (List.range (k - 1)).all clone = true
  · rw [if_pos hall]
    rw [all_eq_true] at hall
    constructor
    · exact .inl
    · rintro (hk | ⟨i, hi, hno⟩)
      · exact hk
      · rw [hall i (mem_range.mpr hi)] at hno
        cases hno
  · rw [if_neg hall]
    refine iff_of_true rfl (.inr ?_)
    simpa using hall

theorem returns_icmpoutput : Returns (icmpoutput h env v ih) ↔ (env.newpkt 0 = true →
    IPHLEN + 8 ≤ v.length ∧ h.Sends true (IPHLEN + 32) ih.saddr) := by
  unfold icmpoutput
  by_cases hnew : env.newpkt 0 = true
  · rw [if_pos hnew, forall_prop_of_true hnew, Returns, meets_touch, Nat.zero_add]
    exact and_congr_right fun _ => @returns_reply h true _ _
  · rw [if_neg hnew]
    exact iff_of_true returns_ok fun h => absurd h hnew

theorem meets_toraw (htaken : Right h v .taken ↔ LenFits v) :
    Meets (Right h v) (toraw h env v ih) ↔ h.RawFits env v ih := by
  unfold toraw Host.RawFits
  rw [meets_unit, and_comm]
  refine and_congr ?_ ?_
  · cases takers h.net.raws ih with
    | nil => exact iff_of_true (meets_ok.mpr right_dropped) fun h => absurd rfl h
    | cons s rest => exact meets_ok.trans (htaken.trans (by simp))
  · rw [show (takers h.net.raws ih = [] ∨ _ ↔ rawcount env.clone (takers h.net.raws ih).length = 0)
      from (rawcount_eq_zero.trans (by rw [length_eq_zero_iff])).symm]
    by_cases hnone : rawcount env.clone (takers h.net.raws ih).length = 0
    · rw [if_pos hnone, forall_prop_of_true hnone]
      exact returns_icmpoutput
    · rw [if_neg hnone]
      exact iff_of_true returns_ok fun h => absurd h hnone

theorem returns_icmpechorequest {len : Nat} : Returns (icmpechorequest h env len ih) ↔
    (env.newpkt 0 = true → 4 ≤ len ∧ h.Sends true (IPHLEN + len) ih.saddr) := by
  unfold icmpechorequest
  by_cases hnew : env.newpkt 0 = true
  · rw [if_pos hnew, forall_prop_of_true hnew]
    by_cases hlen : len < 4
    · rw [if_pos hlen]
      exact iff_of_false (by simp) fun h => by omega
    · rw [if_neg hlen, and_iff_right (by omega)]
      exact @returns_reply h true _ _
  · rw [if_neg hnew]
    exact iff_of_true returns_ok fun h => absurd h hnew

theorem meets_icmpinput (htaken : Right h v .taken ↔ LenFits v) :
    Meets (Right h v) (icmpinput h env v ih) ↔ h.IcmpFits env v ih := by
  unfold icmpinput Host.IcmpFits
  by_cases hshort : totlen v < IPHLEN
  · rw [if_pos hshort]
    exact iff_of_false (by simp) fun h => by have := h.1.1; omega
  rw [if_neg hshort, meets_touch, show (IPHLEN + (totlen v - IPHLEN) ≤ v.length ↔ LenFits v) from
    ⟨fun h => ⟨by omega, by omega⟩, fun h => by have := h.2; omega⟩]
  refine and_congr_right fun hfits => ?_
  by_cases hsum : ih.icmpchksum = 0
  · rw [if_neg (by simpa using hsum), forall_prop_of_true hsum, meets_touch]
    refine and_congr_right fun _ => ?_
    by_cases hecho : ih.type = ICTECHOREQUEST
    · rw [if_pos hecho, if_pos hecho, meets_unit, returns_icmpechorequest,
        show IPHLEN + (totlen v - IPHLEN) = totlen v from by omega]
      refine (and_iff_left (meets_ok.mpr (htaken.mpr hfits))).trans ?_
      exact imp_congr_right fun _ => and_congr_left fun _ => by omega
    · rw [if_neg hecho, if_neg hecho]
      exact meets_toraw htaken
  · rw [if_pos (by simpa using hsum)]
    exact iff_of_true (meets_ok.mpr right_dropped) fun h => absurd h hsum

/-! ## IP -/

theorem meets_deliver (hhead : (decode roomlen v).headlen = IPHLEN) :
    Meets (Right h v) (deliver h env v (ipdata v) (decode roomlen v)) ↔
      h.IpFits env v (decode roomlen v) := by
  unfold deliver Host.IpFits
  by_cases hhost : h.net.tothishost (decode roomlen v).daddr = true
  · rw [if_neg (show ¬ (!h.net.tothishost (decode roomlen v).daddr) = true from by simp [hhost]),
      if_neg (show ¬ h.net.tothishost (decode roomlen v).daddr = false from by simp [hhost])]
    by_cases htcp : (decode roomlen v).proto = IPPROTOTCP
    · rw [if_pos htcp, if_pos htcp]
      exact returns_tcpinput hhead hhost htcp
    rw [if_neg htcp, if_neg htcp]
    have htaken := right_taken (h := h) hhead htcp
    by_cases hudp : (decode roomlen v).proto = IPPROTOUDP
    · rw [if_pos hudp, if_pos hudp]
      exact meets_udpinput htaken
    rw [if_neg hudp, if_neg hudp]
    by_cases hicmp : (decode roomlen v).proto = IPPROTOICMP
    · rw [if_pos hicmp, if_pos hicmp]
      exact meets_icmpinput htaken
    · rw [if_neg hicmp, if_neg hicmp]
      exact meets_toraw htaken
  · rw [if_pos (show (!h.net.tothishost (decode roomlen v).daddr) = true from by simpa using hhost),
      if_pos (show h.net.tothishost (decode roomlen v).daddr = false from by simpa using hhost)]
    refine meets_ok.trans ?_
    unfold ipforward
    cases h.net.route (decode roomlen v).daddr with
    | none => exact iff_of_true right_dropped (.inr rfl)
    | some hop =>
        constructor
        · intro hright
          refine .inl (by_contra fun hlen => ?_)
          cases hright (.inr (.inl hlen))
        · rintro (hlen | hno) (hmis | hmis | ⟨hthis, -⟩)
          · exact absurd hmis (by rw [show (decode 0 v).headlen = IPHLEN from hhead]; omega)
          · exact absurd hlen hmis
          · exact absurd hthis hhost
          all_goals cases hno

/-- `ipinput` cuts a packet to its total length, if there is more. -/
theorem meets_trim {P : Verdict → Prop} :
    Meets P (if (totlen v : Int) < (v.length : Int) then
        (Area.trimto v.length ⟨0, v.length⟩ (totlen v)) >>= fun p =>
          deliver h env v p (decode roomlen v)
      else deliver h env v ⟨0, v.length⟩ (decode roomlen v)) ↔
      Meets P (deliver h env v (ipdata v) (decode roomlen v)) := by
  unfold ipdata
  by_cases hlt : (totlen v : Int) < (v.length : Int)
  · rw [if_pos hlt, meets_bind, Area.trimto, Area.meets_check (by dsimp only; omega)
      (by dsimp only; omega), and_iff_right (by dsimp only; omega), min_eq_left hlt.le]
  · rw [if_neg hlt, min_eq_right (not_lt.mp hlt)]

end

/-! ## A total length shorter than the header -/

/-- A host that has the address 192.168.0.1, without TCP sockets. -/
def shorthost : Host := ⟨Netrx.pinghost, [], 0⟩

/-- The IP header says TCP and a total length of 10 bytes; its checksum is right, and the
frame is padded to the size of an Ethernet frame. -/
def shortframe : List Byte :=
  [0x45, 0, 0, 10, 0, 0, 0, 0, 64, 6, 0xf9, 0x9a, 192, 168, 0, 2, 192, 168, 0, 1] ++
    List.replicate 26 0

end Unixlite.Net.IpInput
