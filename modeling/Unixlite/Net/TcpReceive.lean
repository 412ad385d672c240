import Unixlite.Net.TcpSystem

/-!
# The received stream

What has been read plus what waits in `recvq` is a prefix of the stream the
peer sends, and `rcvnxt` is the number of the next byte (`run_recvOk`).  Three
places of `inputdata` break this: draining the out-of-sequence queue sets
`rcvnxt` to the wrong packet's end, a FIN is recorded wherever it arrives, and
the data length counts the TCP options.  The condition keeps away from them.
-/

namespace Unixlite.Net

open Unixlite.Verified Unixlite.Verified.Run List
open Serial
open Sock
open Tcpsys

/-! ## The property -/

/-- The stream as far as it has arrived: read, or in `recvq`. -/
def Rcvside.got (r : Rcvside) : List Byte := r.rcvd ++ contents r.recvq

/-- The receive side agrees with the stream `S` that starts at `irs + 1`. -/
structure Tcpsys.RecvOk (S : List Byte) (irs : Seq) (s : Tcpsys) : Prop where
  stream : s.sock.rcv.got <+: S
  rcvnxt : s.sock.rcv.rcvnxt =
    num (irs + 1) (s.sock.rcv.got.length + if s.fin then 1 else 0)
  eof : s.sock.rcv.eof = true → s.sock.rcv.rcvd = S

/-! ## Segments of the stream -/

/-- The segment carries the bytes of `S` from offset `off` on, and a FIN only at
the end of `S`.  A segment with neither data nor FIN may have any number. -/
structure Cut (S : List Byte) (irs : Seq) (seg : Segment) (off : Nat) : Prop where
  nosyn : seg.hdr.has TCPFSYN = false
  totlen : seg.totlen.toNat = IPHLEN + seg.hdr.getheadlen + seg.data.length
  seq : seg.hdr.seq = num (irs + 1) off
  data : seg.data ≠ [] ∨ seg.hdr.has TCPFFIN = true →
    off + seg.data.length ≤ S.length ∧ seg.data = (S.drop off).take seg.data.length
  fin : seg.hdr.has TCPFFIN = true → off + seg.data.length = S.length

/-- Every segment that arrives is cut from `S`. -/
def Tcpevent.FromStream (S : List Byte) (irs : Seq) : Tcpevent → Prop
  | .input seg _ _ => ∃ off, Cut S irs seg off
  | _ => True

/-- The number of sequence numbers the segment takes up. -/
def Segment.seqspan (seg : Segment) : Nat :=
  seg.data.length + if seg.hdr.has TCPFFIN then 1 else 0

/-- The condition on a segment at offset `off` that `inputdata` is given while
the receive side is `r`. -/
structure Segcond (r : Rcvside) (seg : Segment) (off : Nat) : Prop where
  /-- The numbers are compared the right way round: less than half the number
  space lies between the segment and the next byte expected. -/
  near : seg.data ≠ [] ∨ seg.hdr.has TCPFFIN = true →
    off + seg.seqspan < r.got.length + 2 ^ 31 ∧ r.got.length + 1 < off + 2 ^ 31
  noopt : seg.hdr.opt = []
  /-- The first FIN arrives in order, and finds room if it carries data. -/
  fin : seg.hdr.has TCPFFIN = true → r.finrecved = false →
    off ≤ r.got.length ∧ (seg.data = [] ∨ r.hasroom (inpkt seg) = true)
  /-- A segment with new data that is next in order, and finds room, does not
  close the gap before the first packet of the out-of-sequence queue. -/
  gap : off ≤ r.got.length → r.got.length < off + seg.seqspan → seg.data ≠ [] →
    r.hasroom (inpkt seg) = true →
    ∀ p, r.oosrecvq.head? = some p → p.startseq ≠ (inpkt seg).endseq

/-- The condition on one event: segments are cut from `S`, and those that reach
`inputdata` meet `Segcond`. -/
def Tcpsys.RecvCond (S : List Byte) (irs : Seq) (s : Tcpsys) : Tcpevent → Prop
  | .input seg _ _ => ∃ off, Cut S irs seg off ∧
      (takesdata s.sock.state = true → seg.hdr.has TCPFRST = false →
        Segcond s.sock.rcv seg off)
  | _ => True

/-! ## One packet -/

namespace Pkt

theorem movestartseqto_startseq (p : Pkt) (n : Seq) : (p.movestartseqto n).startseq = n := by
  unfold movestartseqto
  split_ifs <;> rfl

/-- Everything but the start and the data stays. -/
theorem movestartseqto_frame (p : Pkt) (n : Seq) :
    (p.movestartseqto n).endseq = p.endseq ∧ (p.movestartseqto n).roomlen = p.roomlen := by
  unfold movestartseqto
  split_ifs <;> exact ⟨rfl, rfl⟩

theorem movestartseqto_data {p : Pkt} {n : Seq} (h : lt p.startseq n = true) :
    (p.movestartseqto n).data = p.data.drop (n - p.startseq).toNat := by
  unfold movestartseqto
  rw [if_pos h]
  rfl

end Pkt

namespace Rcvside

/-- What `accept` does to a packet that covers the positions from `off` up to
`fin`, when position `nxt` is expected: nothing that shows in `recvq`, or the
part from `nxt` on is appended and `fin` is expected next. -/
theorem accept_cases (r : Rcvside) (pkt : Pkt) (x : Seq) {off fin nxt : Nat}
    (hnxt : r.rcvnxt = num x nxt) (hstart : pkt.startseq = num x off)
    (hend : pkt.endseq = num x fin) (hle : off ≤ fin)
    (hfin : fin < nxt + 2 ^ 31) (hoff : nxt ≤ off + 2 ^ 31)
    (hgap : off ≤ nxt → nxt < fin → r.hasroom pkt = true →
      ∀ p, r.oosrecvq.head? = some p → p.startseq ≠ pkt.endseq) :
    ((r.accept pkt).recvq = r.recvq ∧ (r.accept pkt).rcvnxt = r.rcvnxt ∧
        (nxt < off ∨ fin ≤ nxt ∨ r.hasroom pkt = false)) ∨
      (off ≤ nxt ∧ nxt < fin ∧
        ∃ p, (r.accept pkt).recvq = r.recvq ++ [p] ∧ p.data = pkt.data.drop (nxt - off) ∧
          (r.accept pkt).rcvnxt = num x fin) := by
  have hltend : lt pkt.endseq r.rcvnxt = decide (fin < nxt) := by
    rw [hend, hnxt]
    exact lt_num x (by omega) (by omega) (by decide)
  have hltstart : lt pkt.startseq r.rcvnxt = decide (off < nxt) := by
    rw [hstart, hnxt]
    exact lt_num x (by omega) (by omega) (by decide)
  unfold accept
  rw [hltend, hltstart]
  by_cases hold : fin < nxt
  · left
    rw [if_pos (decide_eq_true hold)]
    exact ⟨rfl, rfl, .inr (.inl hold.le)⟩
  · rw [if_neg (by simpa using hold)]
    -- the packet once its old bytes are gone
    obtain ⟨p, hp⟩ : ∃ p, p =
      if decide (off < nxt) = true then pkt.movestartseqto r.rcvnxt else pkt := ⟨_, rfl⟩
    rw [← hp]
    have hpkt : p.endseq = pkt.endseq ∧ p.roomlen = pkt.roomlen ∧
        p.startseq = num x (max off nxt) ∧ p.data = pkt.data.drop (nxt - off) := by
      by_cases hlt : off < nxt
      · have hval : (r.rcvnxt - pkt.startseq).toNat = nxt - off := by
          rw [hnxt, hstart, num_sub_num x hlt.le, BitVec.toNat_ofNat]
          exact Nat.mod_eq_of_lt (by omega)
        rw [if_pos (decide_eq_true hlt)] at hp
        rw [hp, Pkt.movestartseqto_data (by rw [hltstart]; exact decide_eq_true hlt), hval,
          Pkt.movestartseqto_startseq, hnxt, Nat.max_eq_right hlt.le]
        obtain ⟨he, hr⟩ := Pkt.movestartseqto_frame pkt (num x nxt)
        exact ⟨he, hr, rfl, rfl⟩
      · rw [if_neg (by simpa using hlt)] at hp
        rw [hp, hstart, Nat.max_eq_left (Nat.le_of_not_lt hlt),
          Nat.sub_eq_zero_of_le (Nat.le_of_not_lt hlt)]
        exact ⟨rfl, rfl, rfl, rfl⟩
    obtain ⟨hpend, hproom, hpstart, hpdata⟩ := hpkt
    have hsame : p.startseq = p.endseq ↔ max off nxt = fin := by
      rw [hpend, hpstart, hend]
      exact num_inj (by omega) (by omega)
    have horder : r.rcvnxt = p.startseq ↔ off ≤ nxt := by
      rw [hpstart, hnxt, num_inj (by omega) (by omega)]
      omega
    have hroomeq : r.hasroom p = r.hasroom pkt := by rw [hasroom, hasroom, hproom]
    by_cases hempty : max off nxt = fin
    · left
      rw [if_pos (hsame.mpr hempty)]
      exact ⟨rfl, rfl, by omega⟩
    · rw [if_neg fun h => hempty (hsame.mp h)]
      unfold enqueue
      rw [hroomeq]
      cases hroom : r.hasroom pkt with
      | false =>
          left
          exact ⟨rfl, rfl, .inr (.inr rfl)⟩
      | true =>
          by_cases hord : off ≤ nxt
          · right
            have hhead := hgap hord (by omega) hroom
            have hdrain : drainoos p.endseq p.endseq r.oosrecvq =
                ([], r.oosrecvq, p.endseq) := by
              cases hq : r.oosrecvq with
              | nil => rfl
              | cons q qs =>
                  have hne : pkt.endseq ≠ q.startseq := fun h =>
                    hhead q (by simp [hq]) h.symm
                  simp [drainoos, hpend, hne]
            rw [if_pos (horder.mpr hord), hdrain]
            exact ⟨hord, by omega, p, rfl, hpdata, hpend.trans hend⟩
          · left
            rw [if_neg fun h => hord (horder.mp h)]
            exact ⟨rfl, rfl, .inl (by omega)⟩

/-- The history and the FIN mark. -/
theorem enqueue_frame (r : Rcvside) (pkt : Pkt) :
    (r.enqueue pkt).rcvd = r.rcvd ∧ (r.enqueue pkt).eof = r.eof ∧
      (r.enqueue pkt).finrecved = r.finrecved := by
  unfold enqueue
  dsimp only
  split_ifs <;> exact ⟨rfl, rfl, rfl⟩

theorem accept_frame (r : Rcvside) (pkt : Pkt) :
    (r.accept pkt).rcvd = r.rcvd ∧ (r.accept pkt).eof = r.eof ∧
      (r.accept pkt).finrecved = r.finrecved := by
  unfold accept
  dsimp only
  split_ifs <;> first | exact ⟨rfl, rfl, rfl⟩ | exact enqueue_frame _ _

/-! ## The invariant -/

/-- `RecvOk` with the FIN mark in place of the history, and what it needs to
last: after the FIN nothing is missing, and only a FIN leaves a packet without
data in `recvq`. -/
structure Inv (S : List Byte) (irs : Seq) (r : Rcvside) : Prop where
  stream : r.got <+: S
  rcvnxt : r.rcvnxt = num (irs + 1) (r.got.length + if r.finrecved then 1 else 0)
  fin : r.finrecved = true → r.got = S
  eof : r.eof = true → r.rcvd = S
  nodata : ∀ p ∈ r.recvq, p.data = [] → r.finrecved = true

variable {S : List Byte} {irs : Seq} {r : Rcvside} {seg : Segment} {off : Nat}

/-- Where a segment without options ends. -/
theorem endseq_num (hcut : Cut S irs seg off) (hopt : seg.hdr.opt = []) :
    (inpkt seg).endseq = num (irs + 1) (off + seg.seqspan) := by
  have hsyn : seg.hdr.synfinbyte = if seg.hdr.has TCPFFIN then 1 else 0 := by
    simp [Tcphdr.synfinbyte, hcut.nosyn]
  have hlen : ((seg.totlen.toNat : Int) - (IPHLEN + Tcphdr.size) + seg.hdr.synfinbyte : Int) =
      (seg.seqspan : Nat) := by
    rw [hcut.totlen, hsyn, Tcphdr.getheadlen, hopt, Segment.seqspan]
    simp only [length_nil]
    omega
  rw [inpkt, ← num_add, ← hcut.seq]
  simp only [num]
  rw [← BitVec.ofInt_natCast, ← hlen]

/-- The bytes that extend the stream when a segment overlaps its end. -/
theorem append_segment (hpre : r.got <+: S) (hdata : off + seg.data.length ≤ S.length ∧
      seg.data = (S.drop off).take seg.data.length)
    (hle : off ≤ r.got.length) (hnew : r.got.length ≤ off + seg.data.length) :
    r.got ++ seg.data.drop (r.got.length - off) = S.take (off + seg.data.length) := by
  obtain ⟨hlen, heq⟩ := hdata
  have hgot : r.got = S.take r.got.length := prefix_iff_eq_take.mp hpre
  obtain ⟨k, hk⟩ := Nat.exists_eq_add_of_le hle
  obtain ⟨m, hm⟩ : ∃ m, seg.data.length = k + m := Nat.exists_eq_add_of_le (by omega)
  have hdrop : seg.data.drop k = (S.drop r.got.length).take m := by
    rw [heq, hm, drop_take, drop_drop, ← hk]
    congr 1
    omega
  have hsum : off + seg.data.length = r.got.length + m := by omega
  rw [hsum, take_add, ← hgot, hk, Nat.add_sub_cancel_left, ← hk, hdrop]

/-- A packet that takes up no numbers is dropped wherever it is. -/
theorem accept_empty (r : Rcvside) {pkt : Pkt} (h : pkt.startseq = pkt.endseq) :
    r.accept pkt = r := by
  unfold accept
  rw [h]
  split
  · rfl
  · simp [h]

/-- A segment with data and without FIN. -/
theorem Inv.accept_data (h : Inv S irs r) (hcut : Cut S irs seg off)
    (hcond : Segcond r seg off) (hnofin : seg.hdr.has TCPFFIN = false)
    (hne : seg.data ≠ []) : Inv S irs (r.accept (inpkt seg)) := by
  have hspan : seg.seqspan = seg.data.length := by simp [Segment.seqspan, hnofin]
  have hnear := hcond.near (.inl hne)
  have hdata := hcut.data (.inl hne)
  have hbit : (if r.finrecved then 1 else 0) ≤ 1 := by split <;> omega
  obtain ⟨hrcvd, heof, hfinr⟩ := accept_frame r (inpkt seg)
  rcases accept_cases r (inpkt seg) (irs + 1) h.rcvnxt hcut.seq
      (endseq_num hcut hcond.noopt) (by omega) (by omega) (by omega)
      (fun h1 h2 hroom => by
        rcases Nat.lt_or_ge r.got.length off with hlt | hge
        · -- only a segment after the FIN could start beyond the stream
          intro p hp
          cases hfin : r.finrecved with
          | false => simp [hfin] at h1; omega
          | true =>
              have hS := congrArg List.length (h.fin hfin)
              omega
        · exact hcond.gap hge (by omega) hne hroom) with
    ⟨hq, hnxt, -⟩ | ⟨hle, hlt, p, hq, hp, hnxt⟩
  · have hgot : (r.accept (inpkt seg)).got = r.got := by rw [got, got, hrcvd, hq]
    exact ⟨hgot ▸ h.stream, by rw [hnxt, hgot, hfinr, h.rcvnxt],
      fun hf => hgot.trans (h.fin (hfinr ▸ hf)), fun he => hrcvd.trans (h.eof (heof ▸ he)),
      fun p hp hd => hfinr ▸ h.nodata p (hq ▸ hp) hd⟩
  · have hfin : r.finrecved = false := by
      cases hf : r.finrecved with
      | false => rfl
      | true =>
          have hS := congrArg List.length (h.fin hf)
          omega
    simp only [hfin, Bool.false_eq_true, if_false, Nat.add_zero] at hle hlt hp
    have hgot : (r.accept (inpkt seg)).got = S.take (off + seg.data.length) := by
      rw [got, hrcvd, hq, contents_append, ← append_assoc, ← got]
      simp only [contents_cons, contents_nil, append_nil, hp]
      exact append_segment h.stream hdata hle (by omega)
    have hlen : (S.take (off + seg.data.length)).length = off + seg.seqspan := by
      rw [length_take, hspan]
      omega
    refine ⟨hgot ▸ take_prefix _ _, ?_, ?_, fun he => hrcvd.trans (h.eof (heof ▸ he)), ?_⟩
    · rw [hnxt, hfinr, hfin, hgot, hlen]
      simp
    · intro hf
      rw [hfinr, hfin] at hf
      cases hf
    · intro q hq' hd
      rw [hq, mem_append, mem_singleton] at hq'
      rcases hq' with hq' | rfl
      · exact hfinr ▸ h.nodata q hq' hd
      · have hzero := congrArg List.length (hp.symm.trans hd)
        simp only [length_drop, length_nil, inpkt] at hzero
        omega

/-- The first FIN, with or without data. -/
theorem Inv.inputdata_fin (h : Inv S irs r) (hcut : Cut S irs seg off)
    (hcond : Segcond r seg off) (hhas : seg.hdr.has TCPFFIN = true)
    (hfin : r.finrecved = false) : Inv S irs (r.inputdata (inpkt seg)) := by
  have hspan : seg.seqspan = seg.data.length + 1 := by simp [Segment.seqspan, hhas]
  have hnear := hcond.near (.inr hhas)
  obtain ⟨hoff, hroom⟩ := hcond.fin hhas hfin
  have hlen := hcut.fin hhas
  have hdata := hcut.data (.inr hhas)
  have hgotle : r.got.length ≤ S.length := h.stream.length_le
  have hend := endseq_num hcut hcond.noopt
  have hnxt := h.rcvnxt
  simp only [hfin, Bool.false_eq_true, if_false, Nat.add_zero] at hnxt
  have hpure : (inpkt seg).startseq + 1 = (inpkt seg).endseq ↔ seg.data = [] := by
    have hone : (inpkt seg).startseq + 1 = num (irs + 1) (off + 1) := by
      rw [← num_add, ← hcut.seq]
      rfl
    rw [hone, hend, num_inj (by omega) (by omega), hspan, ← length_eq_zero_iff]
    omega
  have heofS : r.eof = true → r.rcvd = S := h.eof
  unfold inputdata
  rw [if_pos (show (inpkt seg).hdr.has TCPFFIN = true from hhas),
    if_neg (by simp [hfin])]
  by_cases hnil : seg.data = []
  · rw [if_pos (hpure.mpr hnil)]
    have hfull : r.got.length = S.length := by
      simp only [hnil, length_nil] at hlen
      omega
    have hgot : r.got = S := h.stream.eq_of_length hfull
    refine ⟨h.stream, ?_, fun _ => hgot, heofS, fun _ _ _ => rfl⟩
    show r.rcvnxt + 1 = num (irs + 1) (r.got.length + 1)
    rw [hnxt, ← num_add]
    rfl
  · rw [if_neg fun hp => hnil (hpure.mp hp)]
    have hroom' := hroom.resolve_left hnil
    obtain ⟨hrcvd, heof, hfinr⟩ := accept_frame { r with finrecved := true } (inpkt seg)
    rcases accept_cases { r with finrecved := true } (inpkt seg) (irs + 1) hnxt hcut.seq
        hend (by omega) (by omega) (by omega)
        (fun h1 h2 hr => hcond.gap h1 h2 hnil hr) with
      ⟨-, -, hbad⟩ | ⟨hle, hlt, p, hq, hp, hnxt'⟩
    · -- in order, with room and with the FIN byte still to come: not refused
      have hroom'' : ({ r with finrecved := true } : Rcvside).hasroom (inpkt seg) =
          true := hroom'
      rw [hroom''] at hbad
      rcases hbad with hbad | hbad | hbad
      · omega
      · omega
      · cases hbad
    · have hgot : (accept { r with finrecved := true } (inpkt seg)).got = S := by
        rw [got, hrcvd, hq, contents_append, ← append_assoc]
        simp only [contents_cons, contents_nil, append_nil, hp]
        have happ := append_segment h.stream hdata hle (by omega)
        rw [hlen, take_length] at happ
        exact happ
      refine ⟨hgot ▸ prefix_refl _, ?_, fun _ => hgot,
        fun he => hrcvd.trans (heofS (heof ▸ he)), fun _ _ _ => hfinr⟩
      rw [hnxt', hfinr, hgot, hspan, ← hlen, Nat.add_assoc]
      simp

/-- **Step lemma.**  `inputdata` keeps the invariant. -/
theorem Inv.inputdata (h : Inv S irs r) (hcut : Cut S irs seg off)
    (hcond : Segcond r seg off) : Inv S irs (r.inputdata (inpkt seg)) := by
  cases hhas : seg.hdr.has TCPFFIN with
  | false =>
      unfold Rcvside.inputdata
      rw [if_neg (by simp [inpkt, hhas])]
      by_cases hnil : seg.data = []
      · have hempty : (inpkt seg).startseq = (inpkt seg).endseq := by
          have hspan : seg.seqspan = 0 := by simp [Segment.seqspan, hhas, hnil]
          rw [endseq_num hcut hcond.noopt, hspan]
          exact hcut.seq
        rw [accept_empty r hempty]
        exact h
      · exact h.accept_data hcut hcond hhas hnil
  | true =>
      cases hfin : r.finrecved with
      | false => exact h.inputdata_fin hcut hcond hhas hfin
      | true =>
          unfold Rcvside.inputdata
          rw [if_pos (show (inpkt seg).hdr.has TCPFFIN = true from hhas), if_pos hfin]
          exact h

/-- The FIN mark is set by any FIN. -/
theorem inputdata_finrecved (r : Rcvside) (pkt : Pkt) :
    (r.inputdata pkt).finrecved = (r.finrecved || pkt.hdr.has TCPFFIN) := by
  unfold inputdata
  split_ifs with hhas hfin hpure
  · simp [hfin]
  · simp [hhas]
  · simp [(accept_frame { r with finrecved := true } pkt).2.2, hhas]
  · simp [(accept_frame r pkt).2.2, hhas]

/-- Reading moves bytes from `recvq` to the reader. -/
theorem Inv.fetch (h : Inv S irs r) (hne : r.recvq ≠ []) {len : Nat} (hlen : len ≠ 0) :
    Inv S irs { r with
      recvq := (fetch r.recvq len).q
      currcvbuf := r.currcvbuf + (fetch r.recvq len).freedroom
      rcvd := r.rcvd ++ (fetch r.recvq len).buf
      eof := r.eof || (fetch r.recvq len).buf.isEmpty } := by
  obtain ⟨hbuf, hq⟩ := fetch_spec r.recvq len
  have hgot : r.rcvd ++ (Net.fetch r.recvq len).buf ++
      contents (Net.fetch r.recvq len).q = r.got := by
    rw [hbuf, hq, append_assoc, take_append_drop, got]
  refine ⟨?_, ?_, fun hf => hgot.trans (h.fin hf), ?_, ?_⟩
  · show r.rcvd ++ _ ++ _ <+: S
    exact hgot.symm ▸ h.stream
  · show r.rcvnxt = _
    rw [h.rcvnxt]
    exact congrArg (fun b : List Byte => num (irs + 1)
      (b.length + if r.finrecved then 1 else 0)) hgot.symm
  · intro he
    show r.rcvd ++ (Net.fetch r.recvq len).buf = S
    rcases Bool.or_eq_true_iff.mp he with he | he
    · -- everything was read before
      have hS := h.eof he
      have hlenle := h.stream.length_le
      rw [got, hS, length_append] at hlenle
      have hnil : contents r.recvq = [] := length_eq_zero_iff.mp (by omega)
      rw [hbuf, hnil, hS]
      simp
    · -- nothing to read although there is a packet: it is what a FIN left
      have hbnil : (Net.fetch r.recvq len).buf = [] := isEmpty_iff.mp he
      have hnil : contents r.recvq = [] := by
        rw [hbuf] at hbnil
        rcases take_eq_nil_iff.mp hbnil with h0 | h0
        · exact absurd h0 hlen
        · exact h0
      obtain ⟨p, q, hpq⟩ := exists_cons_of_ne_nil hne
      have hp : p.data = [] := by
        rw [hpq, contents_cons, append_eq_nil_iff] at hnil
        exact hnil.1
      have hS := h.fin (h.nodata p (by simp [hpq]) hp)
      rw [hbnil, append_nil, ← hS, got, hnil, append_nil]
  · intro p hp hd
    exact h.nodata p (fetch_mem hp hd) hd

end Rcvside

/-! ## The socket -/

namespace Sock

theorem inputdata_rcv (s : Sock) (passedtick : Nat) (pkt : Pkt) (ans : Answer) :
    (s.inputdata passedtick pkt ans).rcv = s.rcv.inputdata pkt := by
  unfold inputdata
  dsimp only
  split
  · exact congrArg (·.inputdata pkt)
      (sendflags_rcv { s with ndelack := s.ndelack + 1 } passedtick TCPFACK ans).1
  · rfl

variable {s t : Sock} {passedtick : Nat}

theorem inputstate_rcv {pkt : Pkt} {d r : Answer} (ht : s.inputstate passedtick pkt d r = some t) :
    t.rcv = if takesdata s.state then s.rcv.inputdata pkt else s.rcv := by
  have hdata := inputdata_rcv s passedtick pkt d
  have hack := (sendflags_rcv (s.inputdata passedtick pkt d) passedtick TCPFACK r).1.trans
    hdata
  unfold inputstate at ht
  dsimp only at ht
  split at ht
  case h_2 => cases ht
  case h_3 => cases ht
  case h_4 => cases ht
  case h_1 hs => cases ht; simp [takesdata, hs]
  case h_5 hs =>
    cases ht
    rw [if_pos (show takesdata s.state = true by rw [hs]; rfl)]
    split <;> exact hdata
  case h_6 hs =>
    rw [if_pos (show takesdata s.state = true by rw [hs]; rfl)]
    split_ifs at ht <;> cases ht
    · exact hack
    · exact hack
    · exact hdata
    · exact hdata
  case h_7 hs =>
    cases ht
    rw [if_pos (show takesdata s.state = true by rw [hs]; rfl)]
    split
    · exact hack
    · exact hdata
  case h_8 hs => cases ht; simp [takesdata, hs]
  case h_9 hs =>
    cases ht
    rw [if_pos (show takesdata s.state = true by rw [hs]; rfl)]
    split
    · exact hack
    · exact hdata
  case h_10 hs =>
    cases ht
    rw [if_neg (show ¬ takesdata s.state = true by rw [hs]; decide)]
    split
    · exact (sendflags_rcv s passedtick TCPFACK r).1
    · rfl
  case h_11 hs =>
    cases ht
    rw [if_pos (show takesdata s.state = true by rw [hs]; rfl)]
    split
    · exact hack
    · exact hdata

/-- A segment reaches `inputdata` in the states that take data, unless it is a
reset or its numbers do not fit together. -/
theorem input_rcv {seg : Segment} {d r : Answer} (ht : s.input passedtick seg d r = some t) :
    t.rcv =
      if gt (inpkt seg).startseq (inpkt seg).endseq = false ∧
          seg.hdr.has TCPFRST = false ∧ takesdata s.state = true
      then s.rcv.inputdata (inpkt seg) else s.rcv := by
  unfold input at ht
  dsimp only at ht
  split at ht
  · next hgt => cases ht; simp [hgt]
  · next hgt =>
      split at ht
      · next hrst =>
          cases ht
          rw [if_neg fun h => by simp [show seg.hdr.has TCPFRST = true from hrst] at h]
          unfold abort
          split <;> rfl
      · next hrst =>
          have hrst' : seg.hdr.has TCPFRST = false := by
            simpa using (show ¬ seg.hdr.has TCPFRST = true from hrst)
          rw [inputstate_rcv ht]
          simp only [hgt, hrst', true_and]

theorem rexmitto_rcv (s : Sock) (ans : Answer) : (s.rexmitto ans).rcv = s.rcv := by
  unfold rexmitto
  dsimp only
  split_ifs <;> rfl

theorem shutdown_rcv (s : Sock) (passedtick : Nat) (ans : Answer) :
    (s.shutdown passedtick ans).2.rcv = s.rcv := by
  unfold shutdown
  split
  · rfl
  · exact (sendflags_rcv s passedtick _ ans).1

/-- However far `output` gets, it leaves the receive side alone. -/
theorem output_sleepwnd_rcv {a : Outargs} {ans : Answer}
    {pkt : Pkt} (h : s.output passedtick a ans = .sleepwnd pkt t) : t.rcv = s.rcv := by
  unfold output at h
  split at h
  · cases h
  · split at h
    · cases h
    · dsimp only at h
      split at h
      · injection h with _ hsock
        rw [← hsock]
        rfl
      · cases h

theorem output_ret_rcv {a : Outargs} {ans : Answer}
    {e : Int} (h : s.output passedtick a ans = .ret e t) : t.rcv = s.rcv := by
  unfold output at h
  split at h
  · cases h
  · split at h
    · injection h with _ hsock
      rw [← hsock]
      rfl
    · dsimp only at h
      split at h
      · cases h
      · injection h with _ hsock
        rw [← hsock]
        exact (outputBuilt_rcv _ _ ans).1

end Sock

/-! ## Runs -/

namespace Tcpsys

variable {S : List Byte} {irs : Seq}

/-- The receive side is in order, and the FIN mark tells whether the FIN has
arrived in order. -/
structure RecvInv (S : List Byte) (irs : Seq) (s : Tcpsys) : Prop where
  inv : s.sock.rcv.Inv S irs
  fin : s.sock.rcv.finrecved = s.fin

variable {s : Tcpsys}

theorem RecvInv.recvOk (h : s.RecvInv S irs) : s.RecvOk S irs where
  stream := h.inv.stream
  rcvnxt := by rw [h.inv.rcvnxt, h.fin]
  eof := h.inv.eof

/-- Steps that leave the receive side alone. -/
theorem RecvInv.of_eq {t : Tcpsys} (h : s.RecvInv S irs)
    (hrcv : t.sock.rcv = s.sock.rcv) (hfin : t.fin = s.fin) : t.RecvInv S irs where
  inv := hrcv ▸ h.inv
  fin := by rw [hrcv, hfin, h.fin]

theorem outputPiece_rcv (s : Tcpsys) (tid : Nat) (rest : List Byte) (ans : Answer) :
    (s.outputPiece tid rest ans).sock.rcv = s.sock.rcv ∧
      (s.outputPiece tid rest ans).fin = s.fin := by
  unfold outputPiece
  split
  · exact ⟨rfl, rfl⟩
  · next pkt sock hout => exact ⟨output_sleepwnd_rcv hout, rfl⟩
  · next e sock hout => exact ⟨output_ret_rcv hout, rfl⟩

/-- A segment that meets the condition. -/
theorem RecvInv.input (h : s.RecvInv S irs) {seg : Segment} {off : Nat}
    {d r : Answer} {sock : Sock} (hcut : Cut S irs seg off)
    (hcond : takesdata s.sock.state = true → seg.hdr.has TCPFRST = false →
      Segcond s.sock.rcv seg off) (hsock : s.sock.input s.passedtick seg d r = some sock) :
    RecvInv S irs { s with sock := sock, fin := s.fin || finInOrder s.sock seg } := by
  have hrcv := input_rcv hsock
  by_cases htake : takesdata s.sock.state = true ∧ seg.hdr.has TCPFRST = false
  · have hseg := hcond htake.1 htake.2
    have hgt : gt (inpkt seg).startseq (inpkt seg).endseq = false := by
      have hspan : seg.seqspan ≤ 2 ^ 31 := by
        have htot := hcut.totlen
        have hbit : (if seg.hdr.has TCPFFIN then 1 else 0) ≤ 1 := by split <;> omega
        unfold Segment.seqspan
        omega
      rw [Rcvside.endseq_num hcut hseg.noopt, ← num_add, ← hcut.seq]
      exact gt_add_eq_false _ hspan (by decide)
    rw [if_pos ⟨hgt, htake.2, htake.1⟩] at hrcv
    refine ⟨hrcv ▸ h.inv.inputdata hcut hseg, ?_⟩
    show sock.rcv.finrecved = (s.fin || finInOrder s.sock seg)
    rw [hrcv, Rcvside.inputdata_finrecved, h.fin]
    cases hfin : s.fin with
    | true => rfl
    | false =>
        show (false || seg.hdr.has TCPFFIN) = (false || finInOrder s.sock seg)
        cases hhas : seg.hdr.has TCPFFIN with
        | false => simp [finInOrder, hhas]
        | true =>
            have hnear := hseg.near (.inr hhas)
            have hnofin : s.sock.rcv.finrecved = false := h.fin.trans hfin
            have hoff := (hseg.fin hhas hnofin).1
            have hend := hcut.fin hhas
            have hgot := h.inv.stream.length_le
            have hspan : seg.seqspan = seg.data.length + 1 := by
              simp [Segment.seqspan, hhas]
            have hnxt := h.inv.rcvnxt
            simp only [hnofin, Bool.false_eq_true, if_false, Nat.add_zero] at hnxt
            have hstart : lt s.sock.rcv.rcvnxt seg.hdr.seq = false := by
              rw [hnxt, hcut.seq, lt_num _ (by omega) (by omega) (by decide)]
              exact decide_eq_false (by omega)
            have hlast : lt (seg.hdr.seq + BitVec.ofNat 32 seg.data.length)
                s.sock.rcv.rcvnxt = false := by
              have hnum : seg.hdr.seq + BitVec.ofNat 32 seg.data.length =
                  num (irs + 1) (off + seg.data.length) := by
                rw [hcut.seq, ← num_add]
                rfl
              rw [hnxt, hnum, lt_num _ (by omega) (by omega) (by decide)]
              exact decide_eq_false (by omega)
            simp [finInOrder, htake.1, htake.2, hhas, hstart, hlast]
  · rw [if_neg fun hall => htake ⟨hall.2.2, hall.2.1⟩] at hrcv
    refine h.of_eq hrcv ?_
    have hno : finInOrder s.sock seg = false := by
      simp only [not_and, Bool.not_eq_false] at htake
      unfold finInOrder
      cases hstate : takesdata s.sock.state with
      | false => rfl
      | true => simp [htake hstate]
    simp [hno]

/-- **Step lemma.**  Every step keeps the receive side in order, provided the
segments meet the condition. -/
theorem step_recvInv (s : Tcpsys) (a : Tcpevent) (t : Tcpsys) (h : s.RecvInv S irs)
    (hcond : s.RecvCond S irs a) (ht : s.step a = some t) : t.RecvInv S irs := by
  cases step_cases ht with
  | nosend => exact h
  | send | bufsig | wndsig | wndfull | tick => exact h.of_eq rfl rfl
  | output | buf => exact h.of_eq (outputPiece_rcv ..).1 (outputPiece_rcv ..).2
  | wnd => exact h.of_eq (outputBuilt_rcv ..).1 rfl
  | shutdown => exact h.of_eq (shutdown_rcv ..) rfl
  | rexmitto => exact h.of_eq (rexmitto_rcv ..) rfl
  | delackto => exact h.of_eq (sendflags_rcv ..).1 rfl
  | input hsock =>
      obtain ⟨off, hcut, hseg⟩ := hcond
      exact h.input hcut hseg hsock
  | recv hlen hx =>
      unfold recv at hx
      split_ifs at hx with hstate hempty hfin
      · cases hx; exact h
      · cases hx
        refine ⟨⟨h.inv.stream, h.inv.rcvnxt, h.inv.fin, fun _ => ?_, h.inv.nodata⟩, h.fin⟩
        have hS := h.inv.fin hfin
        rw [Rcvside.got, hempty, contents_nil, append_nil] at hS
        exact hS
      · cases hx
        exact ⟨h.inv.fetch hempty hlen, h.fin⟩

theorem start_recvInv (S : List Byte) (base : Sock) (passedtick : Nat) :
    (start base passedtick).RecvInv S base.rcv.irs where
  inv :=
    { stream := by simp [start, established, Rcvside.got]
      rcvnxt := by simp [start, established, Rcvside.got]
      fin := by simp [start, established]
      eof := by simp [start, established]
      nodata := by simp [start, established] }
  fin := rfl

end Tcpsys

/-! ## Where it fails -/

/-- A segment with number `seq` and these flags and bytes, without options. -/
def segmentOf (seq : Seq) (flags : BitVec 8) (data : List Byte) : Segment where
  totlen := BitVec.ofNat 16 (40 + data.length)
  hdr := ⟨0, 0, seq, 0, flags, 8192, 0, []⟩
  data := data
  roomlen := 100

end Unixlite.Net
