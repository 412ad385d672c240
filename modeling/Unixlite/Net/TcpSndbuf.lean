import Mathlib.Algebra.BigOperators.Group.Finset.Basic
import Unixlite.Net.TcpReceive
import Unixlite.Net.TcpSend

/-!
# The room in the send buffer

`allocsndbuf` charges every packet that `output` builds; `freesndbuf` is called by
`ackarrived` only, for packets on `unackedq`.  What is built and does not come there
is charged for good: a packet that only acknowledges, and one whose sender gets a
signal while it waits for the window (`run_sndbuf_iff`).
-/

namespace Unixlite.Net

open Unixlite.Verified Unixlite.Verified.Run List
open Sock
open Outargs

/-! ## Every way to use a socket -/

/-- `sendflagsmss`: the arguments of `output`, with 1460 as the option. -/
def Outargs.ofFlagsmss (flags : BitVec 8) : Outargs :=
  ⟨.kern, flags ||| TCPFPSH, [], [2, 4, 5, 180]⟩

/-- `output` with kernel priority, which never sleeps. -/
def Sock.outflags (s : Sock) (passedtick : Nat) (a : Outargs) (ans : Answer) : Sock :=
  match s.output passedtick a ans with
  | .ret _ s' => s'
  | .sleepbuf => s
  | .sleepwnd _ s' => s'

inductive Bufevent where
  | sys (a : Tcpevent)
  | sendflags (flags : BitVec 8) (ans : Answer)
  | sendflagsmss (flags : BitVec 8) (ans : Answer)
  | ackarrived (ack : Seq)
  /-- The rest of the code, as the handshake, writes to the other fields. -/
  | other (sock : Sock)

/-- All packets of the queue are live. -/
def Sndside.Live (s : Sndside) : Prop := ∀ p ∈ s.unackedq, p.live = true

instance (s : Sndside) : Decidable s.Live := inferInstanceAs (Decidable (∀ p ∈ _, _))

namespace Tcpsys

/-- One step; `none` when it cannot happen, as with a packet on the queue that is not live. -/
def bufstep (s : Tcpsys) : Bufevent → Option Tcpsys
  | .sys a => s.step a
  | .sendflags flags ans =>
      if s.sock.snd.Live then
        some (s.setSock (s.sock.outflags s.passedtick (ofFlags flags) ans))
      else none
  | .sendflagsmss flags ans =>
      if s.sock.snd.Live then
        some (s.setSock (s.sock.outflags s.passedtick (ofFlagsmss flags) ans))
      else none
  | .ackarrived ack =>
      if s.sock.snd.Live then
        some (s.setSock { s.sock with snd := s.sock.snd.ackarrived s.passedtick ack })
      else none
  | .other sock =>
      if s.sock.snd.Live then
        some (s.setSock { sock with snd := { sock.snd with
          unackedq := s.sock.snd.unackedq, cursndbuf := s.sock.snd.cursndbuf } })
      else none

/-- A socket on which nothing is in flight, with no task inside it. -/
def unused (base : Sock) (passedtick : Nat) : Tcpsys where
  sock := { base with snd := { base.snd with unackedq := [] } }
  senders := fun _ => .idle
  passedtick := passedtick
  fin := false

end Tcpsys

/-! ## The property -/

/-- The room of the packet a sender waits with for the window. -/
def Sender.room : Sender → Nat
  | .sndwnd pkt _ _ => pkt.roomlen
  | _ => 0

namespace Tcpsys

/-- The packets blocked inside `output` have `n` bytes of room. -/
def Blocked (s : Tcpsys) (n : Nat) : Prop :=
  ∃ tids : Finset Nat, (∀ tid, tid ∉ tids → (s.senders tid).room = 0) ∧
    ∑ tid ∈ tids, (s.senders tid).room = n

end Tcpsys

/-- The room that is free, or charged to a packet on the queue. -/
def Sndside.total (s : Sndside) : Int := s.cursndbuf + ((s.unackedq.map Pkt.roomlen).sum : Nat)

namespace Tcpsys

/-- What is missing of the room is charged to a packet on the queue or to one that is
blocked; when there is no such packet, `output` finds all of it. -/
structure SndbufOk (init : Int) (s : Tcpsys) : Prop where
  live : s.sock.snd.Live
  account : ∃ n, s.Blocked n ∧ s.sock.snd.total + n = init
  drained : s.sock.snd.unackedq = [] → (∀ tid, (s.senders tid).room = 0) →
    s.sock.snd.cursndbuf = init ∧ ∀ a : Outargs, a.roomlen ≤ init → s.sock.sndbuffull a = false

end Tcpsys

/-! ## The condition -/

/-- A packet that `newpkt` finds memory for is kept on the queue. -/
def Sock.Keeps (s : Sock) (passedtick : Nat) (a : Outargs) (ans : Answer) : Prop :=
  ans.newpkt = true → pureack (s.buildpkt passedtick a) = false ∧ ans.clone = true

/-- The same for a call that may sleep. -/
def Sock.KeepsPiece (s : Sock) (passedtick : Nat) (a : Outargs) (ans : Answer) : Prop :=
  s.sndbuffull a = false → s.mss ≤ s.snd.sndwnd - a.data.length → s.Keeps passedtick a ans

/-- `input` comes to the handler of the state. -/
def Sock.handles (seg : Segment) : Bool :=
  !Serial.gt (inpkt seg).startseq (inpkt seg).endseq && !seg.hdr.has TCPFRST

/-- `inputdata` sends the delayed acknowledgement. -/
def Sock.delacks (s : Sock) : Bool := Tcpsys.takesdata s.state && s.ndelack + 1 == MAXDELACK

/-- The handler of the state sends an acknowledgement. -/
def Sock.acks (s : Sock) (seg : Segment) : Bool :=
  match s.state with
  | .finwait1 | .finwait2 | .closewait => s.rcv.finrecved || seg.hdr.has TCPFFIN
  | .lastack | .closing => seg.hdr.ackeq s.snd.sndnxt
  | _ => false

/-- The condition on one event. -/
def Tcpsys.BufFine (s : Tcpsys) : Bufevent → Prop
  | .sys (.output tid ans) =>
      ∀ rest, s.senders tid = .next rest →
        s.sock.KeepsPiece s.passedtick (s.pieceArgs rest) ans
  | .sys (.resume tid sig ans) =>
      (∀ rest, s.senders tid = .sndbuf rest → sig = false →
        s.sock.KeepsPiece s.passedtick (s.pieceArgs rest) ans) ∧
      ∀ pkt before rest, s.senders tid = .sndwnd pkt before rest →
        sig = false ∧
          (s.sock.wndfull .user = false → pureack pkt = false ∧ ans.clone = true)
  | .sys (.shutdown ans) =>
      s.sock.shutdownState ≠ none → ans.newpkt = true → ans.clone = true
  | .sys (.rexmitto ans) =>
      s.sock.snd.rexmittm ≠ none → s.sock.snd.nrexmit + 1 < MAXREXMIT →
        s.sock.snd.unackedq ≠ [] → ans.clone = true
  | .sys (.delackto ans) => s.sock.delacktm = true → ans.newpkt = false
  | .sys (.input seg d r) =>
      handles seg = true →
        (s.sock.delacks = true → d.newpkt = false) ∧ (s.sock.acks seg = true → r.newpkt = false)
  | .sendflags flags ans => s.sock.Keeps s.passedtick (ofFlags flags) ans
  | .sendflagsmss flags ans => s.sock.Keeps s.passedtick (ofFlagsmss flags) ans
  | _ => True

/-! ## One call -/

namespace Sndside

variable {s : Sndside}

/-- An acknowledgement gives back what it takes off the queue. -/
theorem ackarrived_total (s : Sndside) (passedtick : Nat) (ack : Seq) :
    (s.ackarrived passedtick ack).total = s.total := by
  unfold ackarrived
  dsimp only
  split
  · rfl
  · have hsum := congrArg (fun q => (q.map Pkt.roomlen).sum)
      (s.unackedq.takeWhile_append_dropWhile (p := fun p => !(ack < p.endseq)))
    rw [map_append, sum_append] at hsum
    unfold total
    dsimp only
    omega

theorem Live.ackarrived (h : s.Live) (passedtick : Nat) (ack : Seq) :
    (s.ackarrived passedtick ack).Live := by
  unfold Sndside.ackarrived
  dsimp only
  split
  · exact h
  · intro p hp
    exact h p ((dropWhile_sublist _).mem hp)

theorem updatesndwnd_queue (s : Sndside) (th : Tcphdr) :
    (s.updatesndwnd th).unackedq = s.unackedq ∧
      (s.updatesndwnd th).cursndbuf = s.cursndbuf := by
  unfold updatesndwnd
  split
  · exact ⟨rfl, rfl⟩
  · exact ⟨rfl, rfl⟩

end Sndside

namespace Sock

variable {s : Sock} {passedtick : Nat} {a : Outargs} {ans : Answer} {pkt : Pkt}

theorem outputBuilt_total (s : Sock) (pkt : Pkt) (ans : Answer) :
    (s.outputBuilt pkt ans).2.snd.total =
      s.snd.total + if pureack pkt = true then 0 else (pkt.roomlen : Int) := by
  unfold outputBuilt Sndside.total
  split
  · exact (Int.add_zero _).symm
  split
  · simp only [map_append, sum_append, map_cons, map_nil, sum_cons,
      sum_nil]
    omega
  · simp only [map_append, sum_append, map_cons, map_nil, sum_cons,
      sum_nil]
    omega

theorem outputBuilt_live (h : s.snd.Live) (hpkt : pkt.live = true) (ans : Answer) :
    (s.outputBuilt pkt ans).2.snd.Live ↔ pureack pkt = true ∨ ans.clone = true := by
  unfold outputBuilt
  split
  · next hpure => exact iff_of_true h (.inl hpure)
  next hpure =>
  split
  · next hclone =>
      refine iff_of_false (fun hlive => ?_) fun hor => ?_
      · have hdead := hlive _ (mem_append_right _ (mem_singleton.mpr rfl))
        cases hdead
      · rcases hor with hor | hor
        · exact hpure hor
        · rw [hor] at hclone
          cases hclone
  · next hclone =>
      refine iff_of_true (fun p hp => ?_) (.inr (by simpa using hclone))
      rcases mem_append.mp hp with hp | hp
      · exact h p hp
      · rw [mem_singleton.mp hp]
        exact hpkt

/-- A packet is charged when it is built. -/
theorem take_total (s : Sock) (pkt : Pkt) (a : Outargs) :
    (s.take pkt a).snd.total + a.roomlen = s.snd.total := by
  unfold take Sndside.total
  dsimp only
  omega

theorem roomlen_pos (a : Outargs) : 0 < a.roomlen := by
  unfold roomlen LINKIPHLEN
  omega

/-- From the call to its end, when `output` does not wait for the window: the charge
is paid if and only if the packet is kept. -/
theorem built_iff (h : s.snd.Live) (passedtick : Nat) (a : Outargs) (ans : Answer) :
    let t := ((s.take (s.buildpkt passedtick a) a).outputBuilt (s.buildpkt passedtick a) ans).2
    t.snd.total ≤ s.snd.total ∧
      (t.snd.total = s.snd.total ∧ t.snd.Live ↔
        pureack (s.buildpkt passedtick a) = false ∧ ans.clone = true) := by
  intro t
  have hpaid : t.snd.total = (s.take (s.buildpkt passedtick a) a).snd.total +
      if pureack (s.buildpkt passedtick a) = true then 0 else (a.roomlen : Int) :=
    outputBuilt_total (s.take (s.buildpkt passedtick a) a) (s.buildpkt passedtick a) ans
  have hcharged := take_total s (s.buildpkt passedtick a) a
  have htake : (s.take (s.buildpkt passedtick a) a).snd.Live := h
  have hlive : t.snd.Live ↔ pureack (s.buildpkt passedtick a) = true ∨ ans.clone = true :=
    outputBuilt_live htake rfl ans
  have hpos := roomlen_pos a
  by_cases hpure : pureack (s.buildpkt passedtick a) = true
  · rw [if_pos hpure] at hpaid
    refine ⟨by omega, iff_of_false (fun hc => ?_) fun hc => ?_⟩
    · have hsame := hc.1
      omega
    · rw [hpure] at hc
      cases hc.1
  · rw [if_neg hpure] at hpaid
    refine ⟨by omega, ?_⟩
    rw [hlive]
    constructor
    · rintro ⟨-, hor⟩
      exact ⟨by simpa using hpure, hor.resolve_left hpure⟩
    · rintro ⟨-, hclone⟩
      exact ⟨by omega, .inr hclone⟩

/-- A call of `sendflags` or `sendflagsmss`. -/
theorem outflags_iff (h : s.snd.Live) (passedtick : Nat) (hkern : a.priority = .kern)
    (ans : Answer) :
    (s.outflags passedtick a ans).snd.total ≤ s.snd.total ∧
      ((s.outflags passedtick a ans).snd.total = s.snd.total ∧
        (s.outflags passedtick a ans).snd.Live ↔ s.Keeps passedtick a ans) := by
  have hbuf : s.sndbuffull a = false := by simp [sndbuffull, hkern]
  unfold outflags output Keeps
  rw [hbuf, if_neg (by decide)]
  cases hnew : ans.newpkt with
  | false =>
      refine ⟨Int.le_refl _, iff_of_true ⟨rfl, h⟩ fun hn => ?_⟩
      cases hn
  | true =>
      have hbuilt := built_iff h passedtick a ans
      dsimp only at hbuilt ⊢
      rw [hkern, not_wndfull_kern]
      simp only [Bool.not_true, Bool.false_eq_true, if_false, forall_const]
      exact hbuilt

end Sock

/-! ## Acknowledgements -/

/-- `t` is `s` with acknowledgements charged, and none if and only if `c`. -/
structure Spends (s t : Sndside) (c : Prop) : Prop where
  queue : t.unackedq = s.unackedq
  le : t.total ≤ s.total
  none_iff : t.total = s.total ↔ c

namespace Spends

variable {s t u : Sndside} {c d : Prop}

theorem refl (s : Sndside) : Spends s s True := ⟨rfl, Int.le_refl _, iff_of_true rfl trivial⟩

theorem of_eq (hqueue : t.unackedq = s.unackedq) (hbuf : t.cursndbuf = s.cursndbuf) :
    Spends s t True := by
  have htotal : t.total = s.total := by
    unfold Sndside.total
    rw [hqueue, hbuf]
  exact ⟨hqueue, Int.le_of_eq htotal, iff_of_true htotal trivial⟩

theorem trans (h : Spends s t c) (h' : Spends t u d) : Spends s u (c ∧ d) := by
  have hle := h.le
  have hle' := h'.le
  refine ⟨h'.queue.trans h.queue, Int.le_trans h'.le h.le, ?_⟩
  rw [← h.none_iff, ← h'.none_iff]
  constructor
  · intro hsame
    exact ⟨by omega, by omega⟩
  · intro ⟨hsame, hsame'⟩
    exact hsame'.trans hsame

theorem congr (h : Spends s t c) (hcd : c ↔ d) : Spends s t d :=
  ⟨h.queue, h.le, h.none_iff.trans hcd⟩

theorem live_iff (h : Spends s t c) (hlive : s.Live) : t.total = s.total ∧ t.Live ↔ c := by
  rw [h.none_iff]
  constructor
  · exact fun hc => hc.1
  · intro hc
    refine ⟨hc, fun p hp => hlive p ?_⟩
    rwa [h.queue] at hp

end Spends

namespace Sock

variable {s t : Sock} {passedtick : Nat} {ans d r : Answer}

theorem sendflags_spends (s : Sock) (passedtick : Nat) (ans : Answer) :
    Spends s.snd (s.sendflags passedtick TCPFACK ans).2.snd (ans.newpkt = false) := by
  rw [sendflags_eq]
  cases hnew : ans.newpkt with
  | false =>
      have hsame : Spends s.snd (s.logret s.snd.sent ENOMEM).snd True := Spends.of_eq rfl rfl
      exact hsame.congr (iff_of_true trivial rfl)
  | true =>
      let t := s.take (s.buildpkt passedtick (ofFlags TCPFACK)) (ofFlags TCPFACK)
      have hcharged : t.snd.total + (ofFlags TCPFACK).roomlen = s.snd.total :=
        take_total s _ _
      have hpos := roomlen_pos (ofFlags TCPFACK)
      have hbuilt : t.outputBuilt (s.buildpkt passedtick (ofFlags TCPFACK)) ans =
          (ans.ipoutput, t) := if_pos (pureack_ack s passedtick)
      have hspends : Spends s.snd t.snd (true = false) := by
        refine ⟨rfl, by omega, iff_of_false (fun hsame => ?_) nofun⟩
        omega
      simp only [Bool.not_true, Bool.false_eq_true, if_false]
      rw [hbuilt]
      have hlogged : Spends t.snd (t.logret s.snd.sent ans.ipoutput).snd True :=
        Spends.of_eq rfl rfl
      exact (hspends.trans hlogged).congr (and_iff_left trivial)

theorem inputdata_spends (s : Sock) (passedtick : Nat) (pkt : Pkt) (ans : Answer) :
    Spends s.snd (s.inputdata passedtick pkt ans).snd
      (s.ndelack + 1 = MAXDELACK → ans.newpkt = false) := by
  unfold inputdata
  dsimp only
  split
  · next hmax =>
      have hack := sendflags_spends { s with ndelack := s.ndelack + 1 } passedtick ans
      exact hack.congr (by rw [forall_prop_of_true hmax])
  · next hmax => exact (Spends.refl s.snd).congr (iff_of_true trivial fun h => absurd h hmax)

theorem inputdata_fin (s : Sock) (passedtick : Nat) (pkt : Pkt) (ans : Answer) :
    (s.inputdata passedtick pkt ans).rcv.finrecved =
      (s.rcv.finrecved || pkt.hdr.has TCPFFIN) := by
  unfold inputdata
  dsimp only
  split
  · rw [(sendflags_rcv _ _ _ _).1, Rcvside.inputdata_finrecved]
  · rw [Rcvside.inputdata_finrecved]

/-- The handler of the state. -/
theorem inputstate_spends (seg : Segment) (ht : s.inputstate passedtick (inpkt seg) d r = some t) :
    Spends s.snd t.snd ((s.delacks = true → d.newpkt = false) ∧
      (s.acks seg = true → r.newpkt = false)) := by
  have hdata := inputdata_spends s passedtick (inpkt seg) d
  have hack := sendflags_spends (s.inputdata passedtick (inpkt seg) d) passedtick r
  have hfin := inputdata_fin s passedtick (inpkt seg) d
  have hboth := hdata.trans hack
  have hwait := hboth.trans (Spends.of_eq
    (t := (sendflags (s.inputdata passedtick (inpkt seg) d) passedtick TCPFACK
      r).2.entertimewait.snd) rfl rfl)
  have hhdr : (inpkt seg).hdr = seg.hdr := rfl
  unfold inputstate at ht
  unfold delacks acks Tcpsys.takesdata
  rw [hhdr] at hfin ht
  cases hstate : s.state with
  | closed =>
      simp only [hstate] at ht ⊢
      cases ht
      exact (Spends.refl _).congr (by simp)
  | listen | synsent | synrecv =>
      simp only [hstate] at ht
      cases ht
  | estab =>
      simp only [hstate] at ht ⊢
      cases ht
      have hsnd : Spends s.snd (s.inputdata passedtick (inpkt seg) d).snd _ := hdata
      split
      · exact hsnd.congr (by simp)
      · exact hsnd.congr (by simp)
  | finwait1 =>
      simp only [hstate, hfin] at ht ⊢
      cases hrecved : s.rcv.finrecved || seg.hdr.has TCPFFIN with
      | true =>
          split at ht
          · cases ht
            refine hwait.congr ?_
            simp
          · cases ht
            exact hboth.congr (by simp)
      | false =>
          simp only [hrecved, Bool.false_and, Bool.false_eq_true, if_false] at ht
          split at ht
          · cases ht
            exact hdata.congr (by simp)
          · cases ht
            exact hdata.congr (by simp)
  | finwait2 =>
      simp only [hstate, hfin] at ht ⊢
      cases hrecved : s.rcv.finrecved || seg.hdr.has TCPFFIN with
      | true =>
          simp only [hrecved, if_true] at ht
          cases ht
          refine hwait.congr ?_
          simp
      | false =>
          simp only [hrecved, Bool.false_eq_true, if_false] at ht
          cases ht
          exact hdata.congr (by simp)
  | closewait =>
      simp only [hstate, hfin] at ht ⊢
      cases hrecved : s.rcv.finrecved || seg.hdr.has TCPFFIN with
      | true =>
          simp only [hrecved, if_true] at ht
          cases ht
          exact hboth.congr (by simp)
      | false =>
          simp only [hrecved, Bool.false_eq_true, if_false] at ht
          cases ht
          exact hdata.congr (by simp)
  | timewait =>
      simp only [hstate] at ht ⊢
      cases ht
      exact (Spends.refl _).congr (by simp)
  | lastack =>
      simp only [hstate] at ht ⊢
      have hone := sendflags_spends s passedtick r
      cases hackfin : seg.hdr.ackeq s.snd.sndnxt with
      | true =>
          simp only [hackfin, if_true] at ht
          cases ht
          exact hone.congr (by simp)
      | false =>
          simp only [hackfin, Bool.false_eq_true, if_false] at ht
          cases ht
          exact (Spends.refl _).congr (by simp)
  | closing =>
      simp only [hstate] at ht ⊢
      cases hackfin : seg.hdr.ackeq s.snd.sndnxt with
      | true =>
          simp only [hackfin, if_true] at ht
          cases ht
          refine hwait.congr ?_
          simp
      | false =>
          simp only [hackfin, Bool.false_eq_true, if_false] at ht
          cases ht
          exact hdata.congr (by simp)

theorem sndupdate_sndnxt (s : Sock) (passedtick : Nat) (th : Tcphdr) :
    (s.sndupdate passedtick th).sndnxt = s.snd.sndnxt := by
  have hwnd : (if s.state.beforeEstab then s.snd else s.snd.updatesndwnd th).sndnxt =
      s.snd.sndnxt := by
    split
    · rfl
    · unfold Sndside.updatesndwnd
      split
      · rfl
      · rfl
  have hack : ∀ snd : Sndside, (snd.ackarrived passedtick th.ack).sndnxt = snd.sndnxt := by
    intro snd
    unfold Sndside.ackarrived
    dsimp only
    split
    · rfl
    · rfl
  unfold sndupdate
  dsimp only
  split
  · rw [hack, hwnd]
  · exact hwnd

/-- `input`. -/
theorem input_iff {seg : Segment} (h : s.snd.Live) (ht : s.input passedtick seg d r = some t) :
    (t.snd.total = s.snd.total ∧ t.snd.Live) ↔
      (handles seg = true → (s.delacks = true → d.newpkt = false) ∧
        (s.acks seg = true → r.newpkt = false)) := by
  unfold input at ht
  unfold handles
  have hhdr : (inpkt seg).hdr = seg.hdr := rfl
  dsimp only at ht
  rw [hhdr] at ht
  split at ht
  · next hgt =>
      cases ht
      exact iff_of_true ⟨rfl, h⟩ (by simp [hgt])
  next hgt =>
  split at ht
  · next hrst =>
      cases ht
      have habort : Spends s.snd s.abort.snd True := by
        unfold abort
        split
        · exact Spends.refl _
        · exact Spends.of_eq rfl rfl
      exact iff_of_true ((habort.live_iff h).mpr trivial) (by simp [hrst])
  next hrst =>
  have hsnd : (s.sndupdate passedtick seg.hdr).total = s.snd.total ∧
      (s.sndupdate passedtick seg.hdr).Live := by
    have hwnd : (if s.state.beforeEstab then s.snd else s.snd.updatesndwnd seg.hdr).total =
          s.snd.total ∧
        (if s.state.beforeEstab then s.snd else s.snd.updatesndwnd seg.hdr).Live := by
      split
      · exact ⟨rfl, h⟩
      · obtain ⟨hqueue, hbuf⟩ := s.snd.updatesndwnd_queue seg.hdr
        exact (((Spends.of_eq hqueue hbuf).live_iff h).mpr trivial)
    unfold sndupdate
    dsimp only
    split
    · exact ⟨(Sndside.ackarrived_total _ _ _).trans hwnd.1, hwnd.2.ackarrived _ _⟩
    · exact hwnd
  have hstate := inputstate_spends seg ht
  have hiff := hstate.live_iff hsnd.2
  have hreached : (!Serial.gt (inpkt seg).startseq (inpkt seg).endseq &&
      !seg.hdr.has TCPFRST) = true := by
    simp [hgt, hrst]
  have hacks : acks { s with snd := s.sndupdate passedtick seg.hdr } seg = s.acks seg := by
    unfold acks
    rw [sndupdate_sndnxt]
  rw [forall_prop_of_true hreached, ← hsnd.1, hiff, hacks]
  rfl

/-- Before a connection is established `input` sends no acknowledgement. -/
theorem input_none {seg : Segment} (ht : s.input passedtick seg d r = none) :
    (s.delacks = true → d.newpkt = false) ∧ (s.acks seg = true → r.newpkt = false) := by
  unfold input at ht
  dsimp only at ht
  split at ht
  · cases ht
  split at ht
  · cases ht
  have hstate : s.state = .listen ∨ s.state = .synsent ∨ s.state = .synrecv := by
    unfold inputstate at ht
    cases hstate : s.state with
    | listen => exact .inl rfl
    | synsent => exact .inr (.inl rfl)
    | synrecv => exact .inr (.inr rfl)
    | closed | estab | finwait2 | timewait | closewait | lastack | closing =>
        simp only [hstate] at ht
        cases ht
    | finwait1 =>
        simp only [hstate] at ht
        split at ht
        · cases ht
        split at ht
        · cases ht
        split at ht
        · cases ht
        · cases ht
  unfold delacks acks
  rcases hstate with hstate | hstate | hstate
  · rw [hstate]
    exact ⟨nofun, nofun⟩
  · rw [hstate]
    exact ⟨nofun, nofun⟩
  · rw [hstate]
    exact ⟨nofun, nofun⟩

/-- `shutdown`: a FIN is always kept, if it can be. -/
theorem shutdown_iff (h : s.snd.Live) :
    ((s.shutdown passedtick ans).2.snd.total = s.snd.total ∧
        (s.shutdown passedtick ans).2.snd.Live) ↔
      (s.shutdownState ≠ none → ans.newpkt = true → ans.clone = true) := by
  unfold shutdown
  cases hstate : s.shutdownState with
  | none => exact iff_of_true ⟨rfl, h⟩ fun hne => absurd rfl hne
  | some newstate =>
      have hkern : (ofFlags (TCPFFIN ||| TCPFACK)).priority = .kern := rfl
      have hflags := (outflags_iff h passedtick hkern ans).2
      have hkept : pureack (s.buildpkt passedtick (ofFlags (TCPFFIN ||| TCPFACK))) =
          false := by
        have hfin : (s.buildpkt passedtick
            (ofFlags (TCPFFIN ||| TCPFACK))).hdr.has TCPFFIN = true := by
          show ((TCPFFIN ||| TCPFACK ||| TCPFPSH) &&& TCPFFIN != 0) = true
          decide
        unfold pureack
        rw [hfin, Bool.or_true, Bool.not_true, Bool.and_false]
      have hsame : (s.sendflags passedtick (TCPFFIN ||| TCPFACK) ans).2 =
          s.outflags passedtick (ofFlags (TCPFFIN ||| TCPFACK)) ans := by
        unfold sendflags outflags
        cases s.output passedtick (ofFlags (TCPFFIN ||| TCPFACK)) ans with
        | ret e s' => rfl
        | sleepbuf => rfl
        | sleepwnd pkt s' => rfl
      show ((s.sendflags passedtick (TCPFFIN ||| TCPFACK) ans).2.snd.total = _ ∧
        (s.sendflags passedtick (TCPFFIN ||| TCPFACK) ans).2.snd.Live) ↔ _
      rw [hsame, hflags]
      unfold Keeps
      rw [hkept]
      simp

theorem rexmitto_iff (h : s.snd.Live) :
    ((s.rexmitto ans).snd.total = s.snd.total ∧ (s.rexmitto ans).snd.Live) ↔
      (s.snd.nrexmit + 1 < MAXREXMIT → s.snd.unackedq ≠ [] → ans.clone = true) := by
  unfold rexmitto
  dsimp only
  split
  · next hmax => exact iff_of_true ⟨rfl, h⟩ fun hlt => absurd hlt (Nat.not_lt.mpr hmax)
  next hmax =>
  split
  · next hempty => exact iff_of_true ⟨rfl, h⟩ fun _ hne => absurd hempty hne
  next hne =>
  cases hclone : ans.clone with
  | true => exact iff_of_true ⟨rfl, h⟩ fun _ _ => rfl
  | false =>
      refine iff_of_false (fun hc => ?_) fun hc => ?_
      · obtain ⟨p, q, hq⟩ := exists_cons_of_ne_nil hne
        have hdead := hc.2 { p with live := false } (by simp [hq, delheadpkt])
        cases hdead
      · have hfalse := hc (Nat.not_le.mp hmax) hne
        cases hfalse

end Sock

/-! ## One step -/

namespace Tcpsys

variable {s t : Tcpsys} {n m tid : Nat} {x : Sender} {ans : Answer}

theorem Blocked.unique (h : s.Blocked n) (h' : s.Blocked m) : n = m := by
  obtain ⟨tids, hout, rfl⟩ := h
  obtain ⟨tids', hout', rfl⟩ := h'
  have hleft := Finset.sum_subset (show tids ⊆ tids ∪ tids' from Finset.subset_union_left)
    fun tid _ hnot => hout tid hnot
  have hright := Finset.sum_subset (show tids' ⊆ tids ∪ tids' from Finset.subset_union_right)
    fun tid _ hnot => hout' tid hnot
  exact hleft.trans hright.symm

theorem Blocked.setSender (h : s.Blocked n) (tid : Nat) (x : Sender) :
    ∃ m, (s.setSender tid x).Blocked m ∧ m + (s.senders tid).room = n + x.room := by
  obtain ⟨tids, hout, rfl⟩ := h
  have hsub : ∑ i ∈ insert tid tids, (s.senders i).room = ∑ i ∈ tids, (s.senders i).room :=
    (Finset.sum_subset (Finset.subset_insert tid tids) fun i _ hnot => hout i hnot).symm
  have hrest : ∑ i ∈ (insert tid tids).erase tid, ((s.setSender tid x).senders i).room =
      ∑ i ∈ (insert tid tids).erase tid, (s.senders i).room := by
    refine Finset.sum_congr rfl fun i hi => ?_
    exact congrArg Sender.room (if_neg (Finset.mem_erase.mp hi).1)
  have hmem : tid ∈ insert tid tids := Finset.mem_insert_self tid tids
  have hnew := Finset.add_sum_erase (insert tid tids)
    (fun i => ((s.setSender tid x).senders i).room) hmem
  have hold := Finset.add_sum_erase (insert tid tids) (fun i => (s.senders i).room) hmem
  have hself : ((s.setSender tid x).senders tid).room = x.room :=
    congrArg Sender.room (if_pos rfl)
  refine ⟨_, ⟨insert tid tids, fun i hi => ?_, rfl⟩, ?_⟩
  · have hne : i ≠ tid := fun heq => hi (heq ▸ hmem)
    have hsame : ((s.setSender tid x).senders i).room = (s.senders i).room :=
      congrArg Sender.room (if_neg hne)
    rw [hsame]
    exact hout i fun hin => hi (Finset.mem_insert_of_mem hin)
  · rw [hself, hrest] at hnew
    omega

theorem Blocked.moves (h : s.Blocked n) (sock : Sock) (tid : Nat) (x : Sender) :
    ∃ m, ((s.setSock sock).setSender tid x).Blocked m ∧
      m + (s.senders tid).room = n + x.room := by
  have hsame : (s.setSock sock).Blocked n := h
  exact hsame.setSender tid x

/-- The sum that has to stay. -/
def Settled (s t : Tcpsys) (n m : Nat) (c : Prop) : Prop :=
  t.sock.snd.total + m = s.sock.snd.total + n ∧ t.sock.snd.Live ↔ c

/-- A step of the socket alone. -/
theorem settled_sock {sock : Sock} {c : Prop}
    (h : sock.snd.total = s.sock.snd.total ∧ sock.snd.Live ↔ c) :
    Settled s (s.setSock sock) n n c := by
  unfold Settled
  rw [← h, add_left_inj]
  rfl

@[simp] theorem room_afterOutput (e : Int) (rest : List Byte) : (afterOutput e rest).room = 0 := by
  unfold afterOutput
  split
  · rfl
  · rfl

/-- A stretch of `output` for a sender that has nothing built yet. -/
theorem outputPiece_settled (rest : List Byte) (ans : Answer) (h : s.sock.snd.Live) (hn : s.Blocked n)
    (hidle : (s.senders tid).room = 0) :
    ∃ m, (s.outputPiece tid rest ans).Blocked m ∧
      Settled s (s.outputPiece tid rest ans) n m
        (s.sock.KeepsPiece s.passedtick (s.pieceArgs rest) ans) := by
  let a := s.pieceArgs rest
  let pkt := s.sock.buildpkt s.passedtick a
  let sock := s.sock.take pkt a
  unfold KeepsPiece Keeps
  cases hfull : s.sock.sndbuffull a with
  | true =>
      have hpiece : s.outputPiece tid rest ans = s.setSender tid (.sndbuf rest) := by
        unfold outputPiece output
        rw [if_pos hfull]
      obtain ⟨m, hm, hsum⟩ := hn.setSender tid (.sndbuf rest)
      have hmn : m = n := by
        have hroom : (Sender.sndbuf rest).room = 0 := rfl
        omega
      subst hmn
      rw [hpiece]
      exact ⟨m, hm, iff_of_true ⟨rfl, h⟩ nofun⟩
  | false =>
  have hroom : ¬ s.sock.sndbuffull a = true := by
    rw [hfull]
    decide
  cases hnew : ans.newpkt with
  | false =>
      have hpiece : s.outputPiece tid rest ans =
          (s.setSock (s.sock.logret s.sock.snd.sent ENOMEM)).setSender tid
            (afterOutput ENOMEM (rest.drop s.sock.mss)) := by
        unfold outputPiece output
        rw [if_neg hroom, hnew, if_pos (by decide)]
      obtain ⟨m, hm, hsum⟩ := hn.moves (s.sock.logret s.sock.snd.sent ENOMEM) tid
        (afterOutput ENOMEM (rest.drop s.sock.mss))
      have hmn : m = n := by
        rw [room_afterOutput] at hsum
        omega
      subst hmn
      rw [hpiece]
      exact ⟨m, hm, iff_of_true ⟨rfl, h⟩ nofun⟩
  | true =>
  have hwnd : sock.wndfull .user = false ↔
      (s.sock.mss : Int) ≤ s.sock.snd.sndwnd - a.data.length := by
    show (decide (s.sock.snd.sndwnd - a.data.length < (s.sock.mss : Int)) && true) = false ↔ _
    simp
  rw [← hwnd]
  have hcharged : sock.snd.total + a.roomlen = s.sock.snd.total := take_total s.sock pkt a
  cases hwndfull : sock.wndfull .user with
  | true =>
      have hpiece : s.outputPiece tid rest ans =
          (s.setSock sock).setSender tid
            (.sndwnd pkt s.sock.snd.sent (rest.drop s.sock.mss)) := by
        have hsleeps : (s.sock.take (s.sock.buildpkt s.passedtick (s.pieceArgs rest))
            (s.pieceArgs rest)).wndfull (s.pieceArgs rest).priority = true := hwndfull
        unfold outputPiece output
        rw [if_neg hroom, hnew, if_neg (by decide)]
        rw [if_pos hsleeps]
      obtain ⟨m, hm, hsum⟩ := hn.moves sock tid
        (.sndwnd pkt s.sock.snd.sent (rest.drop s.sock.mss))
      have hpkt : (Sender.sndwnd pkt s.sock.snd.sent (rest.drop s.sock.mss)).room = a.roomlen :=
        rfl
      rw [hpiece]
      refine ⟨m, hm, iff_of_true ⟨?_, h⟩ nofun⟩
      show sock.snd.total + m = s.sock.snd.total + n
      omega
  | false =>
      have hpiece : s.outputPiece tid rest ans =
          (s.setSock ((sock.outputBuilt pkt ans).2.logret s.sock.snd.sent
            (sock.outputBuilt pkt ans).1)).setSender tid
              (afterOutput (sock.outputBuilt pkt ans).1 (rest.drop s.sock.mss)) := by
        have hopen : ¬ (s.sock.take (s.sock.buildpkt s.passedtick (s.pieceArgs rest))
            (s.pieceArgs rest)).wndfull (s.pieceArgs rest).priority = true := by
          show ¬ sock.wndfull .user = true
          rw [hwndfull]
          decide
        unfold outputPiece output
        rw [if_neg hroom, hnew, if_neg (by decide)]
        rw [if_neg hopen]
      obtain ⟨m, hm, hsum⟩ := hn.moves ((sock.outputBuilt pkt ans).2.logret s.sock.snd.sent
        (sock.outputBuilt pkt ans).1) tid
        (afterOutput (sock.outputBuilt pkt ans).1 (rest.drop s.sock.mss))
      have hmn : m = n := by
        rw [room_afterOutput] at hsum
        omega
      subst hmn
      have hbuilt : (sock.outputBuilt pkt ans).2.snd.total = s.sock.snd.total ∧
          (sock.outputBuilt pkt ans).2.snd.Live ↔
            pureack pkt = false ∧ ans.clone = true :=
        (built_iff h s.passedtick a ans).2
      rw [hpiece]
      refine ⟨m, hm, ?_⟩
      rw [forall_prop_of_true rfl, forall_prop_of_true rfl, forall_prop_of_true rfl, ← hbuilt,
        ← add_left_inj (m : Int)]
      rfl

/-- What a sender waits for the window with is live, and is charged. -/
def Charged (s : Tcpsys) : Prop :=
  ∀ tid pkt before rest, s.senders tid = .sndwnd pkt before rest →
    0 < pkt.roomlen ∧ pkt.live = true

theorem bufFine_sndbuf {sig : Bool} {rest : List Byte} (hsender : s.senders tid = .sndbuf rest) :
    s.BufFine (.sys (.resume tid sig ans)) ↔
      (sig = false → s.sock.KeepsPiece s.passedtick (s.pieceArgs rest) ans) := by
  unfold BufFine
  simp only [hsender, Sender.sndbuf.injEq, forall_eq', reduceCtorEq, false_implies, implies_true,
    and_true]

theorem bufFine_sndwnd {sig : Bool} {pkt : Pkt} {before : Sent} {rest : List Byte}
    (hsender : s.senders tid = .sndwnd pkt before rest) :
    s.BufFine (.sys (.resume tid sig ans)) ↔ sig = false ∧
      (s.sock.wndfull .user = false → pureack pkt = false ∧ ans.clone = true) := by
  unfold BufFine
  simp only [hsender, reduceCtorEq, false_implies, implies_true, true_and, Sender.sndwnd.injEq]
  constructor
  · exact fun hf => hf pkt before rest ⟨rfl, rfl, rfl⟩
  · rintro hk pkt' before' rest' ⟨rfl, -, -⟩
    exact hk

/-- A packet that waited for the window goes out. -/
theorem built_settled {pkt : Pkt} {before : Sent} {rest : List Byte} (h : s.sock.snd.Live)
    (hn : s.Blocked n) (hc : s.Charged) (hsender : s.senders tid = .sndwnd pkt before rest) :
    ∃ m, ((s.setSock ((s.sock.outputBuilt pkt ans).2.logret before
        (s.sock.outputBuilt pkt ans).1)).setSender tid
          (afterOutput (s.sock.outputBuilt pkt ans).1 rest)).Blocked m ∧
      Settled s ((s.setSock ((s.sock.outputBuilt pkt ans).2.logret before
        (s.sock.outputBuilt pkt ans).1)).setSender tid
          (afterOutput (s.sock.outputBuilt pkt ans).1 rest)) n m
        (pureack pkt = false ∧ ans.clone = true) := by
  obtain ⟨hpos, hlive⟩ := hc tid pkt before rest hsender
  have hroom : (s.senders tid).room = pkt.roomlen := by
    rw [hsender]
    rfl
  obtain ⟨m, hm, hsum⟩ := hn.moves ((s.sock.outputBuilt pkt ans).2.logret before
    (s.sock.outputBuilt pkt ans).1) tid (afterOutput (s.sock.outputBuilt pkt ans).1 rest)
  rw [room_afterOutput, hroom] at hsum
  refine ⟨m, hm, ?_⟩
  have hpaid := outputBuilt_total s.sock pkt ans
  have hkept := outputBuilt_live h hlive ans
  have hset : Settled s ((s.setSock ((s.sock.outputBuilt pkt ans).2.logret before
      (s.sock.outputBuilt pkt ans).1)).setSender tid
      (afterOutput (s.sock.outputBuilt pkt ans).1 rest)) n m
      (((s.sock.outputBuilt pkt ans).2.snd.total + m = s.sock.snd.total + n) ∧
        (s.sock.outputBuilt pkt ans).2.snd.Live) := Iff.rfl
  unfold Settled at hset ⊢
  rw [hset, hkept]
  cases hpure : pureack pkt with
  | true =>
      rw [hpure, if_pos rfl] at hpaid
      refine iff_of_false (fun hc => ?_) fun hc => by cases hc.1
      have htotal := hc.1
      omega
  | false =>
      rw [hpure, if_neg (by decide)] at hpaid
      simp only [Bool.false_eq_true, false_or, true_and]
      exact and_iff_right (by omega)

/-- **Step lemma.**  A step leaves the sum as it was, and the queue live, if and only
if it is fine. -/
theorem bufstep_settled {a : Bufevent} (h : s.sock.snd.Live) (hn : s.Blocked n) (hc : s.Charged)
    (ht : s.bufstep a = some t) : ∃ m, t.Blocked m ∧ Settled s t n m (s.BufFine a) := by
  have hroom : ∀ {tid x}, s.senders tid = x → x.room = 0 → (s.senders tid).room = 0 :=
    fun hsender hx => hsender ▸ hx
  cases a with
  | sys a =>
      cases step_cases ht with
      | nosend => exact ⟨n, hn, iff_of_true ⟨rfl, h⟩ trivial⟩
      | @send tid buf hidle =>
          obtain ⟨m, hm, hsum⟩ := hn.setSender tid (.next buf)
          have hmn : m = n := by
            have hold : (s.senders tid).room = 0 := hroom hidle rfl
            have hnew : (Sender.next buf).room = 0 := rfl
            omega
          subst hmn
          exact ⟨m, hm, iff_of_true ⟨rfl, h⟩ trivial⟩
      | @output tid ans rest hsender =>
          obtain ⟨m, hm, hset⟩ := outputPiece_settled rest ans h hn (hroom hsender rfl)
          refine ⟨m, hm, hset.trans ⟨fun hk rest' hrest' => ?_, fun hf => hf rest hsender⟩⟩
          rw [hsender] at hrest'
          cases hrest'
          exact hk
      | @bufsig tid ans rest hsender =>
          obtain ⟨m, hm, hsum⟩ := hn.moves (s.sock.logret s.sock.snd.sent EINTR) tid .idle
          have hmn : m = n := by
            have hold : (s.senders tid).room = 0 := hroom hsender rfl
            have hnew : Sender.idle.room = 0 := rfl
            omega
          subst hmn
          exact ⟨m, hm, iff_of_true ⟨rfl, h⟩ ((bufFine_sndbuf hsender).mpr nofun)⟩
      | @buf tid ans rest hsender =>
          obtain ⟨m, hm, hset⟩ := outputPiece_settled rest ans h hn (hroom hsender rfl)
          refine ⟨m, hm, hset.trans ?_⟩
          rw [bufFine_sndbuf hsender, forall_prop_of_true rfl]
      | @wndsig tid ans pkt before rest hsender =>
          obtain ⟨hpos, -⟩ := hc tid pkt before rest hsender
          obtain ⟨m, hm, hsum⟩ := hn.moves (s.sock.logret before EINTR) tid .idle
          have hold : (s.senders tid).room = pkt.roomlen := hsender ▸ rfl
          have hidle : Sender.idle.room = 0 := rfl
          refine ⟨m, hm, iff_of_false (fun hset => ?_) fun hf => ?_⟩
          · have htotal : s.sock.snd.total + m = s.sock.snd.total + n := hset.1
            omega
          · cases ((bufFine_sndwnd hsender).mp hf).1
      | wndfull hsender hwnd =>
          refine ⟨n, hn, iff_of_true ⟨rfl, h⟩ ((bufFine_sndwnd hsender).mpr ⟨rfl, fun hopen => ?_⟩)⟩
          rw [hwnd] at hopen
          cases hopen
      | wnd hsender hwnd =>
          obtain ⟨m, hm, hset⟩ := built_settled h hn hc hsender
          refine ⟨m, hm, hset.trans ?_⟩
          rw [bufFine_sndwnd hsender, forall_prop_of_true hwnd, and_iff_right rfl]
      | shutdown => exact ⟨n, hn, settled_sock (shutdown_iff h)⟩
      | rexmitto hactive =>
          refine ⟨n, hn, settled_sock ((rexmitto_iff h).trans ?_)⟩
          exact ⟨fun hf _ => hf, fun hf => hf hactive⟩
      | @delackto ans hactive =>
          refine ⟨n, hn, settled_sock ?_⟩
          have hack := (sendflags_spends { s.sock with delacktm := false } s.passedtick
            ans).live_iff h
          exact hack.trans ⟨fun hf _ => hf, fun hf => hf hactive⟩
      | input hsock => exact ⟨n, hn, settled_sock (input_iff h hsock)⟩
      | recv _ hr =>
          refine ⟨n, hn, settled_sock (iff_of_true ?_ trivial)⟩
          rw [recv_snd hr]
          exact ⟨rfl, h⟩
      | tick => exact ⟨n, hn, iff_of_true ⟨rfl, h⟩ trivial⟩
  | sendflags | sendflagsmss =>
      unfold bufstep at ht
      dsimp only at ht
      rw [if_pos h] at ht
      cases ht
      exact ⟨n, hn, settled_sock (outflags_iff h _ rfl _).2⟩
  | ackarrived ack =>
      unfold bufstep at ht
      dsimp only at ht
      rw [if_pos h] at ht
      cases ht
      refine ⟨n, hn, settled_sock (iff_of_true ⟨?_, h.ackarrived _ _⟩ trivial)⟩
      exact Sndside.ackarrived_total _ _ _
  | other sock =>
      unfold bufstep at ht
      dsimp only at ht
      rw [if_pos h] at ht
      cases ht
      exact ⟨n, hn, settled_sock (iff_of_true ⟨rfl, h⟩ trivial)⟩

theorem Charged.setSender (h : s.Charged)
    (hx : ∀ pkt before rest, x = .sndwnd pkt before rest → 0 < pkt.roomlen ∧ pkt.live = true) :
    (s.setSender tid x).Charged := by
  intro i pkt before rest hi
  by_cases htid : i = tid
  · have hself : (s.setSender tid x).senders i = x := if_pos htid
    exact hx pkt before rest (hself.symm.trans hi)
  · have hother : (s.setSender tid x).senders i = s.senders i := if_neg htid
    exact h i pkt before rest (hother.symm.trans hi)

theorem afterOutput_charged (e : Int) (rest : List Byte) :
    ∀ pkt before rest', afterOutput e rest = .sndwnd pkt before rest' →
      0 < pkt.roomlen ∧ pkt.live = true := by
  intro pkt before rest' hafter
  unfold afterOutput at hafter
  split at hafter
  · cases hafter
  · cases hafter

theorem outputPiece_charged (h : s.Charged) (rest : List Byte) :
    (s.outputPiece tid rest ans).Charged := by
  unfold outputPiece output
  split
  · exact h.setSender nofun
  · next hout =>
      have hpkt : ∀ pkt sock, s.sock.output s.passedtick (s.pieceArgs rest) ans =
          .sleepwnd pkt sock → 0 < pkt.roomlen ∧ pkt.live = true := by
        intro pkt sock hsleep
        unfold output at hsleep
        split at hsleep
        · cases hsleep
        split at hsleep
        · cases hsleep
        dsimp only at hsleep
        split at hsleep
        · cases hsleep
          exact ⟨roomlen_pos (s.pieceArgs rest), rfl⟩
        · cases hsleep
      refine Charged.setSender h fun pkt before rest' hx => ?_
      cases hx
      exact hpkt _ _ hout
  · exact Charged.setSender h (afterOutput_charged _ _)

theorem bufstep_charged {a : Bufevent} (h : s.Charged) (ht : s.bufstep a = some t) : t.Charged := by
  cases a with
  | sys a =>
      cases step_cases ht with
      | send | bufsig | wndsig => exact Charged.setSender h nofun
      | output | buf => exact outputPiece_charged h _
      | wnd => exact Charged.setSender h (afterOutput_charged _ _)
      | nosend | wndfull | shutdown | rexmitto | delackto | input | recv | tick => exact h
  | sendflags flags ans | sendflagsmss flags ans | ackarrived ack | other sock =>
      unfold bufstep at ht
      dsimp only at ht
      split at ht
      · cases ht
        exact h
      · cases ht

/-! ## Runs -/

/-- What the sum says once nothing is on the queue, and nobody is blocked. -/
theorem sndbufOk_iff {init : Int} : SndbufOk init s ↔
    s.sock.snd.Live ∧ ∃ n, s.Blocked n ∧ s.sock.snd.total + n = init := by
  constructor
  · exact fun h => ⟨h.live, h.account⟩
  · rintro ⟨hlive, n, hn, hsum⟩
    refine ⟨hlive, ⟨n, hn, hsum⟩, fun hqueue hidle => ?_⟩
    have hnone : n = 0 := hn.unique ⟨∅, fun tid _ => hidle tid, rfl⟩
    have hbuf : s.sock.snd.cursndbuf = init := by
      rw [hnone] at hsum
      unfold Sndside.total at hsum
      rw [hqueue] at hsum
      simpa using hsum
    refine ⟨hbuf, fun a ha => ?_⟩
    unfold sndbuffull
    rw [hbuf]
    simp [Int.not_lt.mpr ha]

theorem unused_ok (base : Sock) (passedtick : Nat) :
    SndbufOk base.snd.cursndbuf (unused base passedtick) ∧ (unused base passedtick).Charged := by
  refine ⟨sndbufOk_iff.mpr ⟨fun p hp => ?_, 0, ⟨∅, fun _ _ => rfl, rfl⟩, ?_⟩, fun _ _ _ _ hi => ?_⟩
  · exact absurd hp not_mem_nil
  · show base.snd.cursndbuf + ((([] : List Pkt).map Pkt.roomlen).sum : Nat) + (0 : Nat) = _
    simp
  · cases hi

/-- One step from a state in which the account is right. -/
theorem bufstep_ok_iff {init : Int} {a : Bufevent} (h : SndbufOk init s) (hc : s.Charged)
    (ht : s.bufstep a = some t) : SndbufOk init t ↔ s.BufFine a := by
  obtain ⟨hlive, n, hn, hsum⟩ := sndbufOk_iff.mp h
  obtain ⟨m, hm, hset⟩ := bufstep_settled hlive hn hc ht
  unfold Settled at hset
  rw [← hset, sndbufOk_iff]
  constructor
  · rintro ⟨hlive', m', hm', hsum'⟩
    rw [hm'.unique hm] at hsum'
    exact ⟨hsum'.trans hsum.symm, hlive'⟩
  · rintro ⟨hsame, hlive'⟩
    exact ⟨hlive', m, hm, hsame.trans hsum⟩

/-- Where a step does not happen it is fine. -/
theorem bufFine_of_none {a : Bufevent} (h : s.sock.snd.Live) (ht : s.bufstep a = none) :
    s.BufFine a := by
  have hqueue : (s.sock.snd.unackedq.any fun p => !p.live) = false := by
    rw [any_eq_false]
    intro p hp
    rw [h p hp]
    decide
  cases a with
  | sys a =>
      unfold bufstep step at ht
      dsimp only at ht
      rw [hqueue, if_neg (by decide)] at ht
      cases a with
      | output tid ans =>
          intro rest hsender
          simp only [hsender] at ht
          cases ht
      | resume tid sig ans =>
          unfold resume at ht
          refine ⟨fun rest hsender hsig => ?_, fun pkt before rest hsender => ?_⟩
          · simp only [hsender, hsig, Bool.false_eq_true, if_false] at ht
            cases ht
          · simp only [hsender] at ht
            split at ht
            · cases ht
            split at ht
            · cases ht
            · cases ht
      | shutdown ans => cases ht
      | rexmitto ans =>
          intro hactive
          simp only [hactive, if_false] at ht
          cases ht
      | delackto ans =>
          intro hactive
          simp only [hactive, if_true] at ht
          cases ht
      | input seg d r =>
          simp only [Option.bind_eq_bind, Option.bind_eq_none_iff] at ht
          intro _
          have hnone : s.sock.input s.passedtick seg d r = none := by
            cases hsock : s.sock.input s.passedtick seg d r with
            | none => rfl
            | some sock => exact absurd (ht sock hsock) nofun
          exact input_none hnone
      | send tid buf => trivial
      | recv len => trivial
      | tick => trivial
  | sendflags flags ans | sendflagsmss flags ans | ackarrived ack | other sock =>
      unfold bufstep at ht
      dsimp only at ht
      rw [if_pos h] at ht
      cases ht

end Tcpsys

/-- The run of a socket that has sent nothing and receives two bytes. -/
def twobytes : List Bufevent :=
  [.sys (.input ⟨41, ⟨0, 0, 1, 1, TCPFACK, 8192, 0, []⟩, [7], 60⟩ ⟨true, true, 0⟩
      ⟨true, true, 0⟩),
    .sys (.input ⟨41, ⟨0, 0, 2, 1, TCPFACK, 8192, 0, []⟩, [8], 60⟩ ⟨true, true, 0⟩
      ⟨true, true, 0⟩)]

end Unixlite.Net
