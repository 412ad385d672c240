import Mathlib.Data.List.Chain
import Unixlite.Net.TcpSystem

/-!
# The retransmission queue

`output` takes its share of the sequence space and of the send buffer before it
may sleep for the window, before it allocates the copy that goes out, and
before the packet is routed.  As long as none of these goes wrong the queue of
unacknowledged packets is consecutive up to `sndnxt`, and a call that fails has
changed nothing (`run_sendOk`).
-/

namespace Unixlite.Net

open Unixlite.Verified.Run List

/-! ## The property -/

/-- `q` starts where `p` ends. -/
def Follows (p q : Pkt) : Prop := q.startseq = p.endseq

/-- The send side is in order: the queue holds live packets only, they are
consecutive, the last one ends at `sndnxt`, and every call of `output` that
returned an error left the send side as it was. -/
structure Sndside.Ok (s : Sndside) : Prop where
  live : ∀ p ∈ s.unackedq, p.live = true
  chain : s.unackedq.IsChain Follows
  last : ∀ p, s.unackedq.getLast? = some p → p.endseq = s.sndnxt
  log : ∀ r ∈ s.outlog, r.e ≠ 0 → r.before = r.after

def Tcpsys.SendOk (s : Tcpsys) : Prop := s.sock.snd.Ok

/-! ## The condition -/

/-- Nothing goes wrong in a call of `output` once `newpkt` has found memory: it
need not wait for the window, the clone of a packet to be kept is allocated, and
`ipoutput` sends the packet. -/
def Sock.Runs (s : Sock) (passedtick : Nat) (a : Outargs) (ans : Answer) : Prop :=
  ans.newpkt = true →
    (a.priority = .kern ∨ s.mss ≤ s.snd.sndwnd - a.data.length) ∧
      (Sock.pureack (s.buildpkt passedtick a) = true ∨ ans.clone = true) ∧ ans.ipoutput = 0

/-- The same for a packet that only acknowledges. -/
def Answer.AckSent (ans : Answer) : Prop := ans.newpkt = true → ans.ipoutput = 0

/-- The same for a FIN. -/
def Answer.FinSent (ans : Answer) : Prop :=
  ans.newpkt = true → ans.clone = true ∧ ans.ipoutput = 0

/-- The condition on one event. -/
def Tcpsys.SendCond (s : Tcpsys) : Tcpevent → Prop
  | .output tid ans =>
      ∀ rest, s.senders tid = .next rest →
        s.sock.sndbuffull (s.pieceArgs rest) = false →
        s.sock.Runs s.passedtick (s.pieceArgs rest) ans
  | .resume tid sig ans =>
      ∀ rest, s.senders tid = .sndbuf rest → sig = false →
        s.sock.sndbuffull (s.pieceArgs rest) = false →
        s.sock.Runs s.passedtick (s.pieceArgs rest) ans
  | .shutdown ans => s.sock.shutdownState ≠ none → ans.FinSent
  | .rexmitto ans =>
      s.sock.snd.nrexmit + 1 < MAXREXMIT → s.sock.snd.unackedq ≠ [] → ans.clone = true
  | .delackto ans => ans.AckSent
  -- the answers to acknowledgements that are not sent are nobody's, and free
  | .input _ d r => d.AckSent ∧ r.AckSent
  | _ => True

/-! ## The queue -/

namespace Sndside
variable {s t : Sndside}


/-- Only three fields matter. -/
theorem Ok.of_eq (h : s.Ok) (hq : t.unackedq = s.unackedq)
    (hnxt : t.sndnxt = s.sndnxt) (hlog : t.outlog = s.outlog) : t.Ok where
  live := hq ▸ h.live
  chain := hq ▸ h.chain
  last := by rw [hq, hnxt]; exact h.last
  log := hlog ▸ h.log

/-- A new packet that starts at `sndnxt` extends the queue. -/
theorem Ok.enqueue (h : s.Ok) {pkt : Pkt} (hlive : pkt.live = true)
    (hstart : pkt.startseq = s.sndnxt)
    (hq : t.unackedq = s.unackedq ++ [pkt]) (hnxt : t.sndnxt = pkt.endseq)
    (hlog : t.outlog = s.outlog) : t.Ok where
  live := by
    intro p hp
    rw [hq, mem_append, mem_singleton] at hp
    rcases hp with hp | rfl
    · exact h.live p hp
    · exact hlive
  chain := by
    rw [hq, isChain_append]
    refine ⟨h.chain, isChain_singleton pkt, ?_⟩
    intro p hp q hq
    simp only [List.head?_cons, Option.mem_def, Option.some.injEq] at hq
    subst hq
    exact hstart.trans (h.last p hp).symm
  last := by
    intro p hp
    rw [hq, List.getLast?_concat, Option.some.injEq] at hp
    rw [hnxt, hp]
  log := hlog ▸ h.log

/-- Dropping acknowledged packets from the front keeps the rest in order. -/
theorem Ok.dropWhile (h : s.Ok) (f : Pkt → Bool)
    (hq : t.unackedq = s.unackedq.dropWhile f) (hnxt : t.sndnxt = s.sndnxt)
    (hlog : t.outlog = s.outlog) : t.Ok where
  live := by
    intro p hp
    rw [hq] at hp
    exact h.live p (dropWhile_sublist f |>.mem hp)
  chain := by
    rw [hq]
    exact h.chain.suffix (dropWhile_suffix f)
  last := by
    intro p hp
    rw [hq] at hp
    rw [hnxt]
    refine h.last p ?_
    obtain ⟨pre, hpre⟩ := dropWhile_suffix f (l := s.unackedq)
    rw [← hpre, List.getLast?_append, hp]
    rfl
  log := hlog ▸ h.log

theorem Ok.ackarrived (h : s.Ok) (passedtick : Nat) (ack : Seq) :
    (s.ackarrived passedtick ack).Ok := by
  unfold Sndside.ackarrived
  dsimp only
  split
  · exact h
  · exact h.dropWhile _ rfl rfl rfl

theorem Ok.updatesndwnd (h : s.Ok) (th : Tcphdr) : (s.updatesndwnd th).Ok := by
  unfold Sndside.updatesndwnd
  split
  · exact h.of_eq rfl rfl rfl
  · exact h

end Sndside

/-! ## Output -/

namespace Sock
variable {s : Sock} {ans : Answer}


/-- Recording a return that is no error, or one that changed nothing. -/
theorem logret_ok (h : s.snd.Ok) (before : Sent) (e : Int)
    (he : e ≠ 0 → before = s.snd.sent) : (s.logret before e).snd.Ok where
  live := h.live
  chain := h.chain
  last := h.last
  log := by
    intro r hr hne
    rcases mem_cons.mp hr with rfl | hr
    · exact he hne
    · exact h.log r hr hne

/-- From the built packet on, when the clone is allocated. -/
theorem take_outputBuilt_ok (h : s.snd.Ok) (passedtick : Nat) (a : Outargs)
    (hclone : pureack (s.buildpkt passedtick a) = true ∨ ans.clone = true) :
    (((s.take (s.buildpkt passedtick a) a).outputBuilt
      (s.buildpkt passedtick a) ans).2).snd.Ok := by
  unfold outputBuilt
  by_cases hpure : pureack (s.buildpkt passedtick a) = true
  · have hseq : (s.buildpkt passedtick a).startseq = (s.buildpkt passedtick a).endseq := by
      simp only [pureack, Bool.and_eq_true, beq_iff_eq] at hpure
      exact hpure.1
    rw [if_pos hpure]
    refine h.of_eq rfl ?_ rfl
    simp [take, Pkt.seqlen, hseq]
  · have hcl : ans.clone = true := hclone.resolve_left hpure
    simp only [if_neg hpure, hcl, Bool.not_true, Bool.false_eq_true, if_false]
    refine h.enqueue rfl rfl rfl ?_ rfl
    show s.snd.sndnxt + ((s.buildpkt passedtick a).endseq - s.snd.sndnxt) = _
    rw [BitVec.add_comm, BitVec.sub_add_cancel]

/-- The result is what `ipoutput` returns when nothing goes wrong before. -/
theorem outputBuilt_fst {pkt : Pkt} (hclone : pureack pkt = true ∨ ans.clone = true) :
    (s.outputBuilt pkt ans).1 = ans.ipoutput := by
  unfold outputBuilt
  rcases hclone with h | h <;> simp only [h]
  · rfl
  · split <;> rfl

/-- **`output`.**  A call in which nothing goes wrong sleeps with nothing
changed, or returns with the send side in order. -/
theorem output_ok (h : s.snd.Ok) (passedtick : Nat) (a : Outargs) (ans : Answer)
    (hrun : s.sndbuffull a = false → s.Runs passedtick a ans) :
    s.output passedtick a ans = .sleepbuf ∨
      ∃ e s', s.output passedtick a ans = .ret e s' ∧ s'.snd.Ok := by
  cases hfull : s.sndbuffull a with
  | true => left; simp [output, hfull]
  | false =>
      right
      cases hnew : ans.newpkt with
      | false =>
          refine ⟨ENOMEM, s.logret s.snd.sent ENOMEM, ?_, logret_ok h _ _ fun _ => rfl⟩
          simp [output, hfull, hnew]
      | true =>
          obtain ⟨hwnd, hclone, hip⟩ := hrun hfull hnew
          have hroom : (s.take (s.buildpkt passedtick a) a).wndfull a.priority = false := by
            rcases hwnd with hk | hw
            · simp [wndfull, hk]
            · have : ¬ s.snd.sndwnd - (a.data.length : Int) < s.mss := by omega
              simp [wndfull, take, this]
          refine ⟨_, _, by simp [output, hfull, hnew, hroom]; exact ⟨rfl, rfl⟩, ?_⟩
          refine logret_ok (take_outputBuilt_ok h passedtick a hclone) _ _ ?_
          rw [outputBuilt_fst hclone, hip]
          exact fun hne => absurd rfl hne

theorem sendflags_ok (h : s.snd.Ok) (passedtick : Nat) (flags : BitVec 8)
    (ans : Answer) (hrun : s.Runs passedtick (Outargs.ofFlags flags) ans) :
    (s.sendflags passedtick flags ans).2.snd.Ok := by
  unfold sendflags
  rcases output_ok h passedtick (Outargs.ofFlags flags) ans (fun _ => hrun) with
    hsleep | ⟨e, s', hret, hok⟩
  · rw [hsleep]; exact h
  · rw [hret]; exact hok

/-- An acknowledgement without data is never kept. -/
theorem pureack_ack (s : Sock) (passedtick : Nat) :
    pureack (s.buildpkt passedtick (Outargs.ofFlags TCPFACK)) = true := by
  have hsyn : (TCPFACK ||| TCPFPSH) &&& TCPFSYN = 0 := by decide
  have hfin : (TCPFACK ||| TCPFPSH) &&& TCPFFIN = 0 := by decide
  simp [pureack, buildpkt, Outargs.ofFlags, Tcphdr.has, Tcphdr.synfinbyte, hsyn, hfin]

theorem sendAck_ok (h : s.snd.Ok) (passedtick : Nat)
    (hans : ans.AckSent) : (s.sendflags passedtick TCPFACK ans).2.snd.Ok :=
  sendflags_ok h passedtick TCPFACK ans fun hnew =>
    ⟨.inl rfl, .inl (pureack_ack s passedtick), hans hnew⟩

theorem shutdown_ok (h : s.snd.Ok) (passedtick : Nat)
    (hans : s.shutdownState ≠ none → ans.FinSent) :
    (s.shutdown passedtick ans).2.snd.Ok := by
  unfold shutdown
  split
  · exact h
  · next newstate hstate =>
      have hfin : ans.FinSent := hans (by simp [hstate])
      exact sendflags_ok h passedtick _ ans fun hnew =>
        ⟨.inl rfl, .inr (hfin hnew).1, (hfin hnew).2⟩

theorem rexmitto_ok (h : s.snd.Ok)
    (hans : s.snd.nrexmit + 1 < MAXREXMIT → s.snd.unackedq ≠ [] → ans.clone = true) :
    (s.rexmitto ans).snd.Ok := by
  unfold rexmitto
  dsimp only
  split_ifs with hmax hempty hclone
  · exact h.of_eq rfl rfl rfl
  · exact h.of_eq rfl rfl rfl
  · simp [hans (by omega) hempty] at hclone
  · exact h.of_eq rfl rfl rfl

/-! ## Input -/

theorem inputdata_ok (h : s.snd.Ok) (passedtick : Nat) (pkt : Pkt)
    (hans : ans.AckSent) : (s.inputdata passedtick pkt ans).snd.Ok := by
  unfold inputdata
  dsimp only
  split
  · exact sendAck_ok (s := { s with ndelack := s.ndelack + 1 }) h passedtick hans
  · exact h

theorem inputstate_ok {t : Sock} (h : s.snd.Ok) (passedtick : Nat) (pkt : Pkt)
    {d r : Answer} (hd : d.AckSent) (hr : r.AckSent)
    (ht : s.inputstate passedtick pkt d r = some t) : t.snd.Ok := by
  have hdata := inputdata_ok h passedtick pkt hd
  have hack := sendAck_ok hdata passedtick hr
  unfold inputstate at ht
  dsimp only at ht
  split at ht
  case h_1 => cases ht; exact h
  case h_2 => cases ht
  case h_3 => cases ht
  case h_4 => cases ht
  case h_5 => cases ht; split <;> exact hdata
  case h_6 =>
    split_ifs at ht <;> cases ht
    · exact hack.of_eq rfl rfl rfl
    · exact hack
    · exact hdata
    · exact hdata
  case h_7 =>
    cases ht
    split
    · exact hack.of_eq rfl rfl rfl
    · exact hdata
  case h_8 => cases ht; exact h
  case h_9 =>
    cases ht
    split
    · exact hack
    · exact hdata
  case h_10 =>
    cases ht
    split
    · exact sendAck_ok h passedtick hr
    · exact h
  case h_11 =>
    cases ht
    split
    · exact hack.of_eq rfl rfl rfl
    · exact hdata

theorem input_ok {t : Sock} (h : s.snd.Ok) (passedtick : Nat) (seg : Segment)
    {d r : Answer} (hd : d.AckSent) (hr : r.AckSent)
    (ht : s.input passedtick seg d r = some t) : t.snd.Ok := by
  unfold input at ht
  dsimp only at ht
  split at ht
  · cases ht; exact h
  · split at ht
    · cases ht
      unfold abort
      split
      · exact h
      · exact h.of_eq rfl rfl rfl
    · refine inputstate_ok ?_ passedtick _ hd hr ht
      unfold sndupdate
      dsimp only
      split_ifs
      · exact h.ackarrived _ _
      · exact (h.updatesndwnd _).ackarrived _ _
      · exact h
      · exact h.updatesndwnd _

theorem recv_snd {len : Nat} {r : Except Int (List Byte) × Sock}
    (hr : s.recv len = some r) : r.2.snd = s.snd := by
  unfold recv at hr
  split_ifs at hr <;> cases hr <;> rfl

end Sock

/-! ## Runs -/

namespace Tcpsys

/-- The invariant: the send side is in order, and no task has built a packet
that it has not sent yet. -/
structure SendInv (s : Tcpsys) : Prop where
  ok : s.sock.snd.Ok
  built : ∀ tid pkt before rest, s.senders tid ≠ .sndwnd pkt before rest

variable {s : Tcpsys}

theorem SendInv.setSock (h : s.SendInv) {sock : Sock} (hsock : sock.snd.Ok) :
    (s.setSock sock).SendInv where
  ok := hsock
  built := h.built

theorem SendInv.setSender (h : s.SendInv) (tid : Nat) {x : Sender}
    (hx : ∀ pkt before rest, x ≠ .sndwnd pkt before rest) : (s.setSender tid x).SendInv where
  ok := h.ok
  built := by
    intro i pkt before rest
    by_cases hi : i = tid
    · simpa [Tcpsys.setSender, hi] using hx pkt before rest
    · simpa [Tcpsys.setSender, hi] using h.built i pkt before rest

private theorem afterOutput_ne (e : Int) (rest : List Byte) (pkt : Pkt) (before : Sent)
    (rest' : List Byte) : afterOutput e rest ≠ .sndwnd pkt before rest' := by
  unfold afterOutput
  split <;> simp

theorem outputPiece_inv (h : s.SendInv) (tid : Nat) (rest : List Byte) (ans : Answer)
    (hrun : s.sock.sndbuffull (s.pieceArgs rest) = false →
      s.sock.Runs s.passedtick (s.pieceArgs rest) ans) :
    (s.outputPiece tid rest ans).SendInv := by
  unfold outputPiece
  rcases Sock.output_ok h.ok s.passedtick (s.pieceArgs rest) ans hrun with
    hsleep | ⟨e, sock, hret, hok⟩
  · rw [hsleep]
    exact h.setSender tid (by simp)
  · rw [hret]
    exact (h.setSock hok).setSender tid (afterOutput_ne e _)

/-- **Step lemma.**  A step in which no call of `output` goes wrong keeps the
invariant. -/
theorem step_sendInv (s : Tcpsys) (a : Tcpevent) (t : Tcpsys) (h : s.SendInv)
    (hcond : s.SendCond a) (ht : s.step a = some t) : t.SendInv := by
  cases step_cases ht with
  | nosend | wndfull => exact h
  | send => exact h.setSender _ (by simp)
  | output hsender => exact outputPiece_inv h _ _ _ (hcond _ hsender)
  | bufsig => exact (h.setSock (Sock.logret_ok h.ok _ _ fun _ => rfl)).setSender _ (by simp)
  | buf hsender => exact outputPiece_inv h _ _ _ (hcond _ hsender rfl)
  | wndsig hsender => exact absurd hsender (h.built _ _ _ _)
  | wnd hsender => exact absurd hsender (h.built _ _ _ _)
  | shutdown => exact h.setSock (Sock.shutdown_ok h.ok _ hcond)
  | rexmitto => exact h.setSock (Sock.rexmitto_ok h.ok hcond)
  | delackto =>
      exact h.setSock (Sock.sendAck_ok (s := { s.sock with delacktm := false }) h.ok _ hcond)
  | input hsock => exact ⟨Sock.input_ok h.ok _ _ hcond.1 hcond.2 hsock, h.built⟩
  | recv _ hr => exact h.setSock (Sock.recv_snd hr ▸ h.ok)
  | tick => exact ⟨h.ok, h.built⟩

theorem start_sendInv (base : Sock) (passedtick : Nat) : (start base passedtick).SendInv where
  ok :=
    { live := by simp [start, Sock.established]
      chain := isChain_nil
      last := by simp [start, Sock.established]
      log := by simp [start, Sock.established] }
  built := by simp [start]

end Tcpsys

/-! ## Where it fails -/

end Unixlite.Net
