import Unixlite.Net.Inet
import Unixlite.Net.TcpSock

/-!
# IP headers and checksums

Port of `ipaddhead` and `ipoutput` from `net/inet/ip.cc`, and of the checks that `ipinput`,
`tcpinput` and `udpinput` make before they look at anything else.  A packet is the bytes of
its data area; a check has no result when it reads behind them.
-/

namespace Unixlite.Net

open List Option

/-! ## Header -/

def IPPROTOICMP : Byte := 1
def IPPROTOTCP : Byte := 6
def IPPROTOUDP : Byte := 17

/-- `iphdr_t` without options as `ipaddhead` writes it. -/
def iphdr (totlen id : BitVec 16) (proto : Byte) (chksum : BitVec 16) (saddr daddr : BitVec 32) :
    List Byte :=
  0x45 :: 0 :: (le16 (htons totlen) ++ (le16 (htons id) ++ (le16 (htons 0) ++
    255 :: proto :: (le16 chksum ++ (le32 saddr ++ le32 daddr)))))

/-- `ver`, `headlen()` and `datalen()`. -/
def ipver (v : List Byte) : Option Nat := v[0]?.map fun b => b.toNat / 16

def headlen (v : List Byte) : Option Nat := v[0]?.map fun b => 4 * (b.toNat % 16)

def totlen (v : List Byte) : Option Nat := (u16At v 2).map fun x => (ntohs x).toNat

def datalen (v : List Byte) : Option Int :=
  (totlen v).bind fun n => (headlen v).map fun h => (n : Int) - h

/-! ## Sending -/

/-- The part of `netdev_t` that `ipoutput` reads. -/
structure Netdev where
  praddr : BitVec 32
  mtu : BitVec 16

/-- `ipaddhead`, for the packet number `id`. -/
def ipaddhead (id : BitVec 16) (proto : Byte) (saddr daddr : BitVec 32) (data : List Byte) :
    List Byte :=
  let totlen := BitVec.ofNat 16 (IPHLEN + data.length)
  iphdr totlen id proto (ipchksum (iphdr totlen id proto 0 saddr daddr)) saddr daddr ++ data

/-- `ipoutput` up to `netdev->output`, on the device that `selectroute` finds; `chksum` is the
offset of the checksum, if there is one.  There is no result when an assertion fails. -/
def ipoutput (netdev : Netdev) (id : BitVec 16) (data : List Byte) (proto : Byte)
    (saddr daddr : BitVec 32) (chksum : Option Nat) : Option (List Byte) :=
  let saddr := if saddr = 0 then netdev.praddr else saddr
  let data := match chksum with
    | none => some data
    | some o =>
        if u16At data o = some 0 then
          some (setU16 data o
            (ipchksumpseudo saddr daddr proto (BitVec.ofNat 16 data.length) data))
        else none
  data.bind fun data =>
    let pkt := ipaddhead id proto saddr daddr data
    if (pkt.length : Int) ≤ netdev.mtu.toInt then some pkt else none

/-! ## Receiving -/

/-- The header is one that `ipinput` goes on with. -/
def ipverify (v : List Byte) : Option Bool := do
  let ver ← ipver v
  if ver ≠ 4 then return false
  let hlen ← headlen v
  if hlen ≠ IPHLEN then return false
  let hdr ← bytesAt v 0 hlen
  return ipchksum hdr == 0

/-- `ipchksumpseudo` over what follows an IP header without options; the length is passed as
a `u16_t`. -/
def pseudoverify (proto : Byte) (v : List Byte) : Option Bool := do
  let saddr ← u32At v 12
  let daddr ← u32At v 16
  let datalen := BitVec.ofInt 16 (← datalen v)
  let data ← bytesAt v IPHLEN datalen.toNat
  return ipchksumpseudo saddr daddr proto datalen data == 0

/-- The check of `tcpinput`. -/
def tcpverify (v : List Byte) : Option Bool := pseudoverify IPPROTOTCP v

/-- The check of `udpinput`. -/
def udpverify (v : List Byte) : Option Bool := do
  let chksum ← u16At v ((← headlen v) + 6)
  if chksum = 0 then return true
  pseudoverify IPPROTOUDP v

/-! ## The header that `ipaddhead` writes -/

section

variable (t id : BitVec 16) (proto : Byte) (chksum : BitVec 16) (saddr daddr : BitVec 32)
  (data : List Byte)

theorem length_iphdr : (iphdr t id proto chksum saddr daddr).length = IPHLEN := rfl

theorem headlen_iphdr : headlen (iphdr t id proto chksum saddr daddr ++ data) = some IPHLEN := rfl

theorem totlen_iphdr : totlen (iphdr t id proto chksum saddr daddr ++ data) = some t.toNat := by
  have hread : u16At (iphdr t id proto chksum saddr daddr ++ data) 2 =
      some (word ((htons t).setWidth 8) ((htons t >>> 8).setWidth 8)) := rfl
  rw [totlen, hread, word_le16, map_some, ntohs_htons]

theorem saddr_iphdr : u32At (iphdr t id proto chksum saddr daddr ++ data) 12 = some saddr :=
  congrArg some (word_le32 saddr)

theorem daddr_iphdr : u32At (iphdr t id proto chksum saddr daddr ++ data) 16 = some daddr :=
  congrArg some (word_le32 daddr)

/-- The checksum is the only word that differs. -/
theorem total_iphdr : total (iphdr t id proto chksum saddr daddr) =
    total (iphdr t id proto 0 saddr daddr) + chksum.toNat := by
  have hset : iphdr t id proto chksum saddr daddr =
      setU16 (iphdr t id proto 0 saddr daddr) 10 chksum := rfl
  rw [hset]
  exact total_setU16 (by decide) rfl chksum

end

/-- The checksum of the header is accepted. -/
theorem ipchksum_iphdr (t id : BitVec 16) (proto : Byte) (saddr daddr : BitVec 32) :
    ipchksum (iphdr t id proto (ipchksum (iphdr t id proto 0 saddr daddr)) saddr daddr) = 0 := by
  have hbefore : (sumup (iphdr t id proto 0 saddr daddr)).toNat =
      total (iphdr t id proto 0 saddr daddr) := sumup_toNat (by rw [length_iphdr]; decide)
  have hle := total_le (iphdr t id proto 0 saddr daddr)
  rw [length_iphdr] at hle
  refine convert_complement (sumup (iphdr t id proto 0 saddr daddr)) ?_ ?_
  · rw [hbefore]
    unfold IPHLEN at hle
    omega
  · rw [sumup_toNat (by rw [length_iphdr]; decide), total_iphdr, hbefore]
    rfl

/-- The header of `ipaddhead` passes the checks of `ipinput`. -/
theorem ipverify_ipaddhead (id : BitVec 16) (proto : Byte) (saddr daddr : BitVec 32)
    (data : List Byte) :
    bytesAt (ipaddhead id proto saddr daddr data) 0 IPHLEN =
        some (iphdr (BitVec.ofNat 16 (IPHLEN + data.length)) id proto
          (ipchksum (iphdr (BitVec.ofNat 16 (IPHLEN + data.length)) id proto 0 saddr daddr))
          saddr daddr) ∧
      ipverify (ipaddhead id proto saddr daddr data) = some true := by
  have hbytes : bytesAt (ipaddhead id proto saddr daddr data) 0 IPHLEN =
      some (iphdr (BitVec.ofNat 16 (IPHLEN + data.length)) id proto
        (ipchksum (iphdr (BitVec.ofNat 16 (IPHLEN + data.length)) id proto 0 saddr daddr))
        saddr daddr) := by
    unfold bytesAt ipaddhead
    rw [if_pos (by rw [length_append, length_iphdr]; omega), drop_zero,
      take_left' (length_iphdr ..)]
  refine ⟨hbytes, ?_⟩
  unfold ipverify
  rw [show ipver (ipaddhead id proto saddr daddr data) = some 4 from rfl,
    show headlen (ipaddhead id proto saddr daddr data) = some IPHLEN from rfl]
  simp only [bind, bind_some, pure, ne_eq, not_true_eq_false, if_false, hbytes]
  rw [ipchksum_iphdr]
  rfl

/-- What the receiver sums up is what the sender did, and the checksum. -/
theorem pseudoverify_ipaddhead (id : BitVec 16) (proto : Byte) (saddr daddr : BitVec 32)
    {data : List Byte} {o : Nat} (hlen : IPHLEN + data.length ≤ 65535) (heven : Even o)
    (h : u16At data o = some 0) :
    pseudoverify proto (ipaddhead id proto saddr daddr (setU16 data o
      (ipchksumpseudo saddr daddr proto (BitVec.ofNat 16 data.length) data))) = some true := by
  have haccept := ipchksumpseudo_setU16 (by omega) heven h saddr daddr proto
  have hroom := u16At_length h
  have hset := length_setU16 hroom
    (ipchksumpseudo saddr daddr proto (BitVec.ofNat 16 data.length) data)
  generalize setU16 data o (ipchksumpseudo saddr daddr proto (BitVec.ofNat 16 data.length) data)
    = sent at haccept hset ⊢
  have hdatalen : datalen (ipaddhead id proto saddr daddr sent) = some (sent.length : Int) := by
    unfold datalen ipaddhead
    rw [totlen_iphdr, headlen_iphdr, BitVec.toNat_ofNat, Nat.mod_eq_of_lt (by omega)]
    exact congrArg some (by push_cast; omega)
  have hofNat : (BitVec.ofNat 16 sent.length).toNat = sent.length := by
    rw [BitVec.toNat_ofNat, Nat.mod_eq_of_lt (by omega)]
  have hbytes : bytesAt (ipaddhead id proto saddr daddr sent) IPHLEN sent.length = some sent := by
    unfold bytesAt ipaddhead
    rw [if_pos (by rw [length_append, length_iphdr]), drop_left' (length_iphdr ..),
      take_length]
  unfold pseudoverify
  rw [show u32At (ipaddhead id proto saddr daddr sent) 12 = some saddr from saddr_iphdr ..,
    show u32At (ipaddhead id proto saddr daddr sent) 16 = some daddr from daddr_iphdr ..,
    hdatalen]
  simp only [bind, bind_some, pure, BitVec.ofInt_natCast, hofNat, hbytes]
  rw [hset, haccept]
  rfl

/-! ## The round trip -/

/-- A packet that is not larger than the device takes, with no checksum yet, goes out. -/
theorem ipoutput_chksum (netdev : Netdev) (id : BitVec 16) (proto : Byte) (saddr daddr : BitVec 32)
    {data : List Byte} {o : Nat} (hmtu : ((IPHLEN + data.length : Nat) : Int) ≤ netdev.mtu.toInt)
    (h : u16At data o = some 0) :
    ipoutput netdev id data proto saddr daddr (some o) =
      some (ipaddhead id proto (if saddr = 0 then netdev.praddr else saddr) daddr
        (setU16 data o (ipchksumpseudo (if saddr = 0 then netdev.praddr else saddr) daddr proto
          (BitVec.ofNat 16 data.length) data))) := by
  have hroom := u16At_length h
  unfold ipoutput
  dsimp only
  rw [if_pos h, bind_some, if_pos]
  unfold ipaddhead
  rw [length_append, length_iphdr, length_setU16 hroom]
  exact hmtu

/-- **The checksums that are sent are accepted**: the one of the IP header, for every packet,
and the one that `ipoutput` fills in, by `tcpinput` and by `udpinput`. -/
theorem chksum_roundtrip (netdev : Netdev) (id : BitVec 16) (saddr daddr : BitVec 32)
    (data : List Byte) (hmtu : ((IPHLEN + data.length : Nat) : Int) ≤ netdev.mtu.toInt) :
    (∀ proto, (bytesAt (ipaddhead id proto saddr daddr data) 0 IPHLEN).map ipchksum = some 0) ∧
      (u16At data 16 = some 0 →
        ∃ pkt, ipoutput netdev id data IPPROTOTCP saddr daddr (some 16) = some pkt ∧
          ipverify pkt = some true ∧ tcpverify pkt = some true) ∧
      (u16At data 6 = some 0 →
        ∃ pkt, ipoutput netdev id data IPPROTOUDP saddr daddr (some 6) = some pkt ∧
          ipverify pkt = some true ∧ udpverify pkt = some true) := by
  have hlen : IPHLEN + data.length ≤ 65535 := by
    have hmax := netdev.mtu.toInt_lt
    omega
  refine ⟨fun proto => ?_, fun h => ?_, fun h => ?_⟩
  · rw [(ipverify_ipaddhead id proto saddr daddr data).1, Option.map_some, ipchksum_iphdr]
  · exact ⟨_, ipoutput_chksum netdev id IPPROTOTCP saddr daddr hmtu h,
      (ipverify_ipaddhead ..).2, pseudoverify_ipaddhead _ _ _ _ hlen (by decide) h⟩
  · refine ⟨_, ipoutput_chksum netdev id IPPROTOUDP saddr daddr hmtu h,
      (ipverify_ipaddhead ..).2, ?_⟩
    have hverify := pseudoverify_ipaddhead id IPPROTOUDP
      (if saddr = 0 then netdev.praddr else saddr) daddr hlen (by decide) h
    have hroom := u16At_length h
    obtain ⟨c, hc⟩ := exists_u16At (v := setU16 data 6 (ipchksumpseudo
      (if saddr = 0 then netdev.praddr else saddr) daddr IPPROTOUDP
        (BitVec.ofNat 16 data.length) data)) (by rw [length_setU16 hroom]; exact hroom)
    unfold udpverify
    rw [show headlen (ipaddhead ..) = some IPHLEN from rfl]
    simp only [bind, Option.bind_some]
    rw [show u16At (ipaddhead ..) (IPHLEN + 6) = some c from (u16At_append _ _ 6).trans hc]
    -- a checksum that comes out as 0 is not checked
    by_cases hzero : c = 0
    · rw [Option.bind_some, if_pos hzero]
      rfl
    · rw [Option.bind_some, if_neg hzero]
      exact hverify

/-- A UDP packet without data. -/
theorem chksum_roundtrip_udp :
    u16At [4, 0, 0, 7, 0, 8, 0, 0] 6 = some 0 ∧
      ∃ pkt, ipoutput ⟨0x0100007f, 1500⟩ 0 [4, 0, 0, 7, 0, 8, 0, 0] IPPROTOUDP 0 0x0100007f
          (some 6) = some pkt ∧
        ipverify pkt = some true ∧ udpverify pkt = some true :=
  ⟨rfl, (chksum_roundtrip ⟨0x0100007f, 1500⟩ 0 0 0x0100007f [4, 0, 0, 7, 0, 8, 0, 0]
    (by decide)).2.2 rfl⟩

end Unixlite.Net
