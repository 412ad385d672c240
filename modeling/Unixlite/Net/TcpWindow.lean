import Unixlite.Net.TcpSndbuf

/-!
# The send window

`output` takes the length of its data off `sndwnd`, and `updatesndwnd` writes the window
of a segment over it.  The window counts from the acknowledgement in that segment, so that
data which is still in flight then is not counted any more (`window_overrun`).

Sequence numbers are words.  Here every one of them has a position on the line of all
numbers, counted from `sndnxt` at the start; an acknowledgement stands at the position next
to `sndnxt` that has its number.
-/

namespace Unixlite.Net

open Unixlite.Verified Unixlite.Verified.Run
open Sock
open BitVec

/-! ## Positions -/

/-- A data packet that `output` has passed to `ipoutput`: where it ends, and how far the
receive window of the peer went at that moment. -/
structure Passed where
  endseq : Seq
  endpos : Int
  edge : Int
deriving DecidableEq

/-- History of the send window. -/
structure Wnd where
  /-- The position of `sndnxt`. -/
  pos : Int
  /-- The highest `lastack` + window that the peer has sent. -/
  edge : Int
  /-- Where the packet ends that a task has built last. -/
  built : Nat → Int
  passed : List Passed

/-- The condition in `updatesndwnd`. -/
def Sndside.takeswnd (s : Sndside) (th : Tcphdr) : Bool :=
  Serial.lt s.lastseq th.seq
    || s.lastseq == th.seq && th.has TCPFACK && Serial.lt s.lastack th.ack
    || th.has TCPFACK && s.lastack == th.ack && s.sndwnd < th.wnd.toNat

namespace Wnd

/-- The position of an acknowledgement. -/
def ackpos (w : Wnd) (s : Sndside) (ack : Seq) : Int := w.pos + (ack - s.sndnxt).toInt

/-- A packet is built and takes `len` numbers. -/
def build (w : Wnd) (tid len : Nat) : Wnd :=
  { w with
    pos := w.pos + len
    built := fun i => if i = tid then w.pos + len else w.built i }

/-- The packet is passed to `ipoutput`, as it is or as its clone, if it has data. -/
def pass (w : Wnd) (tid : Nat) (pkt : Pkt) (ans : Answer) : Wnd :=
  if pkt.data = [] || !(pureack pkt || ans.clone) then w
  else { w with passed := ⟨pkt.endseq, w.built tid, w.edge⟩ :: w.passed }

/-- One stretch of `output` for the first piece of `rest`. -/
def outputPiece (w : Wnd) (s : Tcpsys) (tid : Nat) (rest : List Byte) (ans : Answer) : Wnd :=
  let a := s.pieceArgs rest
  if s.sock.sndbuffull a || !ans.newpkt then w
  else
    let pkt := s.sock.buildpkt s.passedtick a
    let w := w.build tid a.data.length
    if (s.sock.take pkt a).wndfull .user then w else w.pass tid pkt ans

/-- What one step adds to the history. -/
def next (s : Tcpsys) (a : Tcpevent) (w : Wnd) : Wnd :=
  match a with
  | .output tid ans =>
      match s.senders tid with
      | .next rest => w.outputPiece s tid rest ans
      | _ => w
  | .resume tid sig ans =>
      match s.senders tid with
      | .sndbuf rest => if sig then w else w.outputPiece s tid rest ans
      | .sndwnd pkt _ _ =>
          if sig || s.sock.wndfull .user then w else w.pass tid pkt ans
      | _ => w
  | .input seg _ _ =>
      if handles seg && s.sock.snd.takeswnd seg.hdr then
        { w with edge := max w.edge (w.ackpos s.sock.snd seg.hdr.ack + seg.hdr.wnd.toNat) }
      else w
  | _ => w

end Wnd

/-- A connected socket and the history of its window. -/
structure Wndsys where
  sys : Tcpsys
  wnd : Wnd

namespace Wndsys

/-- One step of an established connection. -/
def step (x : Wndsys) (a : Tcpevent) : Option Wndsys :=
  if x.sys.sock.state = .estab then
    (x.sys.step a).map fun t => ⟨t, x.wnd.next x.sys a⟩
  else none

/-- Nothing is in flight: the window counts from `sndnxt`. -/
def start (base : Sock) (passedtick : Nat) : Wndsys where
  sys := Tcpsys.start base passedtick
  wnd := ⟨0, base.snd.sndwnd, fun _ => 0, []⟩

/-- Every data packet that was passed on ends where its number says, and not behind the
receive window of the peer. -/
def InWindow (origin : Seq) (x : Wndsys) : Prop :=
  ∀ p ∈ x.wnd.passed, p.endseq = origin + BitVec.ofInt 32 p.endpos ∧ p.endpos ≤ p.edge

/-- The condition: a window that lets anybody send is taken with no more than one `mss` in
flight behind its acknowledgement, or ends where a window ended before. -/
def Fine (x : Wndsys) : Tcpevent → Prop
  | .input seg _ _ =>
      handles seg = true → x.sys.sock.snd.takeswnd seg.hdr = true →
        x.sys.sock.mss ≤ seg.hdr.wnd.toNat →
          x.wnd.pos ≤ x.wnd.ackpos x.sys.sock.snd seg.hdr.ack + x.sys.sock.mss ∨
            x.wnd.pos + seg.hdr.wnd.toNat ≤ x.wnd.edge + x.sys.sock.mss
  | _ => True

end Wndsys

/-! ## What the functions of the socket do to the window -/

/-- `t` has the window, the numbers and the state of `s`. -/
structure Sock.SameWnd (s t : Sock) : Prop where
  sndnxt : t.snd.sndnxt = s.snd.sndnxt
  sndwnd : t.snd.sndwnd = s.snd.sndwnd
  mss : t.mss = s.mss

namespace Sock

variable {s t u : Sock} {passedtick : Nat} {ans d r : Answer}

theorem SameWnd.refl (s : Sock) : SameWnd s s := ⟨rfl, rfl, rfl⟩

theorem SameWnd.trans (h : SameWnd s t) (h' : SameWnd t u) : SameWnd s u :=
  ⟨h'.sndnxt.trans h.sndnxt, h'.sndwnd.trans h.sndwnd, h'.mss.trans h.mss⟩

theorem outputBuilt_wnd (s : Sock) (pkt : Pkt) (ans : Answer) :
    SameWnd s (s.outputBuilt pkt ans).2 := by
  unfold outputBuilt
  split_ifs <;> exact ⟨rfl, rfl, rfl⟩

/-- A packet without SYN and FIN takes the numbers of its data. -/
theorem take_wnd (s : Sock) (passedtick : Nat) {a : Outargs} (ha : a.flags = TCPFACK ||| TCPFPSH) :
    (s.take (s.buildpkt passedtick a) a).snd.sndnxt =
        s.snd.sndnxt + BitVec.ofNat 32 a.data.length ∧
      (s.take (s.buildpkt passedtick a) a).snd.sndwnd = s.snd.sndwnd - a.data.length ∧
      (s.buildpkt passedtick a).endseq = s.snd.sndnxt + BitVec.ofNat 32 a.data.length := by
  have hsyn : (s.buildpkt passedtick a).hdr.synfinbyte = 0 := by
    show (if (a.flags &&& TCPFSYN != 0) = true then 1 else 0) +
      (if (a.flags &&& TCPFFIN != 0) = true then 1 else 0) = 0
    rw [ha]
    decide
  have hend : (s.buildpkt passedtick a).endseq =
      s.snd.sndnxt + BitVec.ofNat 32 a.data.length := by
    show s.snd.sndnxt + BitVec.ofNat 32
      (a.data.length + (s.buildpkt passedtick a).hdr.synfinbyte) = _
    rw [hsyn, Nat.add_zero]
  refine ⟨?_, rfl, hend⟩
  show s.snd.sndnxt + ((s.buildpkt passedtick a).endseq - s.snd.sndnxt) = _
  rw [hend, add_comm s.snd.sndnxt (BitVec.ofNat 32 a.data.length),
    add_sub_cancel, add_comm]

/-- An acknowledgement takes nothing. -/
theorem sendflags_wnd (s : Sock) (passedtick : Nat) (ans : Answer) :
    SameWnd s (s.sendflags passedtick TCPFACK ans).2 := by
  rw [sendflags_eq]
  split
  · exact ⟨rfl, rfl, rfl⟩
  · let a := Outargs.ofFlags TCPFACK
    obtain ⟨hnxt, hwnd, -⟩ := take_wnd s passedtick (a := a) rfl
    have htake : SameWnd s (s.take (s.buildpkt passedtick a) a) :=
      ⟨hnxt.trans (add_zero _), hwnd.trans (Int.sub_zero _), rfl⟩
    exact (htake.trans (outputBuilt_wnd _ _ ans)).trans ⟨rfl, rfl, rfl⟩

theorem inputdata_wnd (s : Sock) (passedtick : Nat) (pkt : Pkt) (ans : Answer) :
    SameWnd s (s.inputdata passedtick pkt ans) := by
  unfold inputdata
  dsimp only
  split
  · have hack := sendflags_wnd { s with ndelack := s.ndelack + 1 } passedtick ans
    exact ⟨hack.sndnxt, hack.sndwnd, hack.mss⟩
  · exact ⟨rfl, rfl, rfl⟩

theorem rexmitto_wnd (s : Sock) (ans : Answer) : SameWnd s (s.rexmitto ans) := by
  unfold rexmitto
  dsimp only
  split_ifs <;> exact ⟨rfl, rfl, rfl⟩

theorem recv_wnd {len : Nat} {e : Except Int (List Byte)} (ht : s.recv len = some (e, t)) :
    SameWnd s t := by
  unfold recv at ht
  split_ifs at ht <;> cases ht <;> exact ⟨rfl, rfl, rfl⟩

theorem ackarrived_wnd (s : Sndside) (passedtick : Nat) (ack : Seq) :
    (s.ackarrived passedtick ack).sndnxt = s.sndnxt ∧
      (s.ackarrived passedtick ack).sndwnd = s.sndwnd := by
  unfold Sndside.ackarrived
  dsimp only
  split <;> exact ⟨rfl, rfl⟩

theorem updatesndwnd_wnd (s : Sndside) (th : Tcphdr) :
    (s.updatesndwnd th).sndnxt = s.sndnxt ∧
      (s.updatesndwnd th).sndwnd = if s.takeswnd th then (th.wnd.toNat : Int) else s.sndwnd := by
  unfold Sndside.updatesndwnd
  split
  · next htakes => exact ⟨rfl, (if_pos htakes).symm⟩
  · next htakes => exact ⟨rfl, (if_neg htakes).symm⟩

theorem inputstate_estab (hs : s.state = .estab) (passedtick : Nat) (pkt : Pkt) (d r : Answer) :
    s.inputstate passedtick pkt d r =
      let t := s.inputdata passedtick pkt d
      some (if t.rcv.finrecved then t.change .closewait else t) := by
  unfold inputstate
  simp only [hs]

/-- A segment leaves the numbers alone; the window is its own if it is taken. -/
theorem input_wnd {seg : Segment} (hstate : s.state = .estab)
    (ht : s.input passedtick seg d r = some t) (htstate : t.state = .estab) :
    t.snd.sndnxt = s.snd.sndnxt ∧ t.mss = s.mss ∧
      t.snd.sndwnd = if handles seg && s.snd.takeswnd seg.hdr then (seg.hdr.wnd.toNat : Int)
        else s.snd.sndwnd := by
  unfold input at ht
  dsimp only at ht
  split at ht
  · next hgt =>
      cases ht
      simp [handles, hgt]
  split at ht
  · next hgt hrst =>
      cases ht
      have hhdr : seg.hdr.has TCPFRST = true := hrst
      exact ⟨by unfold abort; split <;> rfl, by unfold abort; split <;> rfl, by
        unfold abort; split <;> simp [handles, hhdr]⟩
  · next hgt hrst =>
      have hhandles : handles seg = true := by
        have hhdr : ¬ seg.hdr.has TCPFRST = true := hrst
        simp [handles, hgt, hhdr]
      have hsnd : (s.sndupdate passedtick seg.hdr).sndnxt = s.snd.sndnxt ∧
          (s.sndupdate passedtick seg.hdr).sndwnd =
            if s.snd.takeswnd seg.hdr then (seg.hdr.wnd.toNat : Int) else s.snd.sndwnd := by
        unfold sndupdate
        rw [if_neg (show ¬ s.state.beforeEstab = true by rw [hstate]; decide)]
        obtain ⟨hnxt, hwnd⟩ := updatesndwnd_wnd s.snd seg.hdr
        obtain ⟨hnxt', hwnd'⟩ :=
          ackarrived_wnd (s.snd.updatesndwnd seg.hdr) passedtick seg.hdr.ack
        split
        · exact ⟨hnxt'.trans hnxt, hwnd'.trans hwnd⟩
        · exact ⟨hnxt, hwnd⟩
      have hdata := inputdata_wnd { s with snd := s.sndupdate passedtick seg.hdr } passedtick
        (inpkt seg) d
      have hest : { s with snd := s.sndupdate passedtick seg.hdr }.state = .estab := hstate
      rw [hhandles, Bool.true_and]
      rw [show (inpkt seg).hdr = seg.hdr from rfl, inputstate_estab hest] at ht
      dsimp only at ht
      split at ht
      · cases ht
        cases htstate
      · cases ht
        exact ⟨hdata.sndnxt.trans hsnd.1, hdata.mss, hdata.sndwnd.trans hsnd.2⟩

end Sock

/-! ## One step -/

namespace Wnd

variable {w : Wnd} {origin : Seq} {tid : Nat} {pkt : Pkt} {ans : Answer}

/-- Where the packet of a task ends, by its number and by its position. -/
def Ends (origin : Seq) (w : Wnd) (tid : Nat) (pkt : Pkt) : Prop :=
  pkt.endseq = origin + BitVec.ofInt 32 (w.built tid) ∧ w.built tid ≤ w.pos

theorem pass_pos (w : Wnd) (tid : Nat) (pkt : Pkt) (ans : Answer) :
    (w.pass tid pkt ans).pos = w.pos ∧ (w.pass tid pkt ans).edge = w.edge ∧
      (w.pass tid pkt ans).built = w.built := by
  unfold pass
  split <;> exact ⟨rfl, rfl, rfl⟩

/-- What is passed on keeps the property, if the window is behind it. -/
theorem pass_inWindow (sys : Tcpsys) (h : Wndsys.InWindow origin ⟨sys, w⟩)
    (hends : w.Ends origin tid pkt) (hedge : w.pos ≤ w.edge) (ans : Answer) (sys' : Tcpsys) :
    Wndsys.InWindow origin ⟨sys', w.pass tid pkt ans⟩ := by
  unfold pass
  split
  · exact h
  · intro p hp
    rcases List.mem_cons.mp hp with rfl | hp
    · exact ⟨hends.1, hends.2.trans hedge⟩
    · exact h p hp

end Wnd

namespace Wndsys

variable {s t : Tcpsys} {w : Wnd} {x y : Wndsys} {origin : Seq} {tid : Nat}

/-- What holds between two steps of an established connection. -/
structure Open (origin : Seq) (x : Wndsys) : Prop where
  num : x.sys.sock.snd.sndnxt = origin + BitVec.ofInt 32 x.wnd.pos
  window : (x.sys.sock.mss : Int) ≤ x.sys.sock.snd.sndwnd →
    x.wnd.pos + x.sys.sock.snd.sndwnd ≤ x.wnd.edge + x.sys.sock.mss
  built : ∀ tid pkt before rest, x.sys.senders tid = .sndwnd pkt before rest →
    x.wnd.Ends origin tid pkt

/-- Steps that have nothing to do with the window. -/
theorem Open.same (h : Open origin ⟨s, w⟩) (hsock : SameWnd s.sock t.sock)
    (hsenders : ∀ tid pkt before rest, t.senders tid = .sndwnd pkt before rest →
      s.senders tid = .sndwnd pkt before rest) : Open origin ⟨t, w⟩ where
  num := hsock.sndnxt.trans h.num
  window := by
    intro hroom
    have hwindow := h.window
    rw [hsock.sndwnd, hsock.mss] at hroom ⊢
    exact hwindow hroom
  built := fun tid pkt before rest ht => h.built tid pkt before rest (hsenders _ _ _ _ ht)

/-- A sender that does not wait for the window afterwards. -/
theorem setSender_other {x : Sender} (hx : ∀ pkt before rest, x ≠ .sndwnd pkt before rest) :
    ∀ i pkt before rest, (s.setSender tid x).senders i = .sndwnd pkt before rest →
      s.senders i = .sndwnd pkt before rest := by
  intro i pkt before rest hi
  by_cases htid : i = tid
  · exact absurd ((if_pos htid).symm.trans hi) (hx pkt before rest)
  · exact (if_neg htid).symm.trans hi

theorem afterOutput_ne (e : Int) (rest : List Byte) (pkt : Pkt) (before : Sent)
    (rest' : List Byte) : Tcpsys.afterOutput e rest ≠ .sndwnd pkt before rest' := by
  unfold Tcpsys.afterOutput
  split <;> exact fun h => by cases h

/-- A packet without SYN and FIN is built: what it takes off the window it adds to the
position. -/
theorem Open.build (h : Open origin ⟨s, w⟩) {a : Outargs} (ha : a.flags = TCPFACK ||| TCPFPSH)
    (tid : Nat) {sock : Sock} {y : Sender}
    (hsock : SameWnd (s.sock.take (s.sock.buildpkt s.passedtick a) a) sock)
    (hy : ∀ pkt before rest, y = .sndwnd pkt before rest →
      pkt = s.sock.buildpkt s.passedtick a) :
    Open origin ⟨(s.setSock sock).setSender tid y, w.build tid a.data.length⟩ ∧
      (w.build tid a.data.length).Ends origin tid (s.sock.buildpkt s.passedtick a) := by
  obtain ⟨hnxt, hwnd, hend⟩ := take_wnd s.sock s.passedtick ha
  have hmss : sock.mss = s.sock.mss := hsock.mss
  have hadd : s.sock.snd.sndnxt + BitVec.ofNat 32 a.data.length =
      origin + BitVec.ofInt 32 (w.pos + a.data.length) := by
    rw [h.num, ofInt_add, ofInt_natCast, add_assoc]
  have hends : (w.build tid a.data.length).Ends origin tid
      (s.sock.buildpkt s.passedtick a) := by
    refine ⟨?_, ?_⟩
    · show _ = origin + BitVec.ofInt 32 (if tid = tid then _ else _)
      rw [if_pos rfl, hend, hadd]
    · show (if tid = tid then _ else _) ≤ w.pos + a.data.length
      rw [if_pos rfl]
  refine ⟨⟨?_, fun hroom => ?_, fun i pkt before rest hi => ?_⟩, hends⟩
  · exact (hsock.sndnxt.trans hnxt).trans hadd
  · have hwindow := h.window
    have hwnd' : sock.snd.sndwnd = s.sock.snd.sndwnd - a.data.length := hsock.sndwnd.trans hwnd
    change (sock.mss : Int) ≤ sock.snd.sndwnd at hroom
    show w.pos + a.data.length + sock.snd.sndwnd ≤ w.edge + sock.mss
    have hbefore := hwindow (by dsimp only; omega)
    dsimp only at hbefore
    omega
  · by_cases htid : i = tid
    · rw [htid, hy pkt before rest ((if_pos htid).symm.trans hi)]
      exact hends
    · have hold : s.senders i = .sndwnd pkt before rest := (if_neg htid).symm.trans hi
      obtain ⟨hnum, hle⟩ := h.built i pkt before rest hold
      refine ⟨?_, ?_⟩
      · show _ = origin + BitVec.ofInt 32 (if i = tid then _ else _)
        rw [if_neg htid]
        exact hnum
      · show (if i = tid then _ else _) ≤ w.pos + a.data.length
        dsimp only at hle
        omega

/-- The history of `passed` does not matter for the rest. -/
theorem Open.pass (h : Open origin ⟨s, w⟩) (tid : Nat) (pkt : Pkt) (ans : Answer) :
    Open origin ⟨s, w.pass tid pkt ans⟩ := by
  obtain ⟨hpos, hedge, hbuilt⟩ := w.pass_pos tid pkt ans
  refine ⟨?_, ?_, fun i pkt before rest hi => ?_⟩
  · exact h.num.trans (by rw [hpos])
  · intro hroom
    show (w.pass _ _ _).pos + _ ≤ (w.pass _ _ _).edge + _
    rw [hpos, hedge]
    exact h.window hroom
  · have hends := h.built i pkt before rest hi
    unfold Wnd.Ends at hends ⊢
    rw [hpos, hbuilt]
    exact hends

/-- Where the window lets a sender go on, everything built is in front of the edge. -/
theorem Open.behind (h : Open origin ⟨s, w⟩) (hroom : s.sock.wndfull .user = false) :
    w.pos ≤ w.edge := by
  have hmss : (s.sock.mss : Int) ≤ s.sock.snd.sndwnd := by
    simpa [wndfull] using hroom
  have hwindow := h.window hmss
  dsimp only at hwindow
  omega

/-- One stretch of `output` builds nothing, or it builds a packet and waits with it for the
window, or it finds the window open and goes through. -/
theorem outputPiece_cases (s : Tcpsys) (w : Wnd) (tid : Nat) (rest : List Byte) (ans : Answer)
    {a : Outargs} {pkt : Pkt} (ha : a = s.pieceArgs rest)
    (hpkt : pkt = s.sock.buildpkt s.passedtick a) :
    (w.outputPiece s tid rest ans = w ∧ ∃ sock y, SameWnd s.sock sock ∧
        (∀ pkt before rest, y ≠ .sndwnd pkt before rest) ∧
        s.outputPiece tid rest ans = (s.setSock sock).setSender tid y) ∨
    (w.outputPiece s tid rest ans = w.build tid a.data.length ∧ ∃ before rest',
        s.outputPiece tid rest ans =
          (s.setSock (s.sock.take pkt a)).setSender tid (.sndwnd pkt before rest')) ∨
    (w.outputPiece s tid rest ans = (w.build tid a.data.length).pass tid pkt ans ∧
        (s.sock.take pkt a).wndfull .user = false ∧
        ∃ sock e rest', SameWnd (s.sock.take pkt a) sock ∧
          s.outputPiece tid rest ans =
            (s.setSock sock).setSender tid (Tcpsys.afterOutput e rest')) := by
  have hprio : a.priority = .user := by rw [ha]; rfl
  unfold Tcpsys.outputPiece Wnd.outputPiece output
  rw [← ha]
  dsimp only
  rw [← hpkt, hprio]
  cases hbuf : s.sock.sndbuffull a with
  | true =>
      left
      refine ⟨rfl, s.sock, .sndbuf rest, SameWnd.refl _, fun _ _ _ hx => ?_, rfl⟩
      cases hx
  | false =>
      cases hnew : ans.newpkt with
      | false =>
          left
          exact ⟨rfl, s.sock.logret s.sock.snd.sent ENOMEM, _, ⟨rfl, rfl, rfl⟩,
            afterOutput_ne ENOMEM (rest.drop s.sock.mss), rfl⟩
      | true =>
          right
          cases hwnd : (s.sock.take pkt a).wndfull .user with
          | true =>
              left
              exact ⟨rfl, _, _, rfl⟩
          | false =>
              right
              have hthrough := (outputBuilt_wnd (s.sock.take pkt a) pkt ans).trans
                (u := ((s.sock.take pkt a).outputBuilt pkt ans).2.logret s.sock.snd.sent
                  ((s.sock.take pkt a).outputBuilt pkt ans).1) ⟨rfl, rfl, rfl⟩
              exact ⟨rfl, rfl, _, _, rest.drop s.sock.mss, hthrough, rfl⟩

theorem outputPiece_keeps (h : Open origin ⟨s, w⟩) (hin : InWindow origin ⟨s, w⟩) (tid : Nat)
    (rest : List Byte) (ans : Answer) :
    Open origin ⟨s.outputPiece tid rest ans, w.outputPiece s tid rest ans⟩ ∧
      InWindow origin ⟨s.outputPiece tid rest ans, w.outputPiece s tid rest ans⟩ := by
  have hflags : (s.pieceArgs rest).flags = TCPFACK ||| TCPFPSH := rfl
  rcases outputPiece_cases s w tid rest ans rfl rfl with
    ⟨hw, sock, y, hsock, hy, hs⟩ | ⟨hw, before, rest', hs⟩ | ⟨hw, hroom, sock, e, rest', hsock, hs⟩
  · rw [hw, hs]
    have hopen := h.same (t := s.setSock sock) hsock fun _ _ _ _ hi => hi
    exact ⟨hopen.same (SameWnd.refl _) (setSender_other hy), hin⟩
  · rw [hw, hs]
    exact ⟨(h.build hflags tid (SameWnd.refl _) fun _ _ _ hy => by cases hy; rfl).1, hin⟩
  · rw [hw, hs]
    obtain ⟨hopen, hends⟩ := h.build hflags tid hsock (y := Tcpsys.afterOutput e rest')
      fun _ _ _ hy => absurd hy (afterOutput_ne _ _ _ _ _)
    have hbuilt := (h.build hflags tid (SameWnd.refl _) (y := .idle)
      fun _ _ _ hy => by cases hy).1
    have hsame : InWindow origin ⟨s, w.build tid (s.pieceArgs rest).data.length⟩ := hin
    exact ⟨hopen.pass _ _ _, Wnd.pass_inWindow s hsame hends (hbuilt.behind hroom) ans _⟩

/-- What holds in every state of a run: the window while the connection is established, and
the property. -/
structure Inv (origin : Seq) (x : Wndsys) : Prop where
  opened : x.sys.sock.state = .estab → Open origin x
  passed : InWindow origin x

/-- A segment that meets the condition. -/
theorem input_open (h : Open origin ⟨s, w⟩) (hstate : s.sock.state = .estab) {seg : Segment}
    {d r : Answer} (hfine : Fine ⟨s, w⟩ (.input seg d r)) {sock : Sock}
    (hsock : s.sock.input s.passedtick seg d r = some sock) (hsocks : sock.state = .estab)
    (ht : t.sock = sock) (hsenders : t.senders = s.senders) :
    Open origin ⟨t, w.next s (.input seg d r)⟩ := by
  obtain ⟨hnxt, hmss, hwnd⟩ := input_wnd hstate hsock hsocks
  unfold Wnd.next
  dsimp only
  by_cases htaken : (handles seg && s.sock.snd.takeswnd seg.hdr) = true
  · rw [if_pos htaken]
    rw [if_pos htaken] at hwnd
    rw [Bool.and_eq_true] at htaken
    refine ⟨?_, fun hroom => ?_, fun tid pkt before rest hi => ?_⟩
    · exact (congrArg (·.snd.sndnxt) ht).trans (hnxt.trans h.num)
    · show w.pos + t.sock.snd.sndwnd ≤ max w.edge _ + t.sock.mss
      change (t.sock.mss : Int) ≤ t.sock.snd.sndwnd at hroom
      rw [ht, hwnd, hmss] at hroom ⊢
      have hcond := hfine htaken.1 htaken.2 (by exact_mod_cast hroom)
      dsimp only at hcond
      omega
    · exact h.built tid pkt before rest (hsenders ▸ hi)
  · rw [if_neg htaken]
    rw [if_neg htaken] at hwnd
    refine h.same ⟨?_, ?_, ?_⟩ fun tid pkt before rest hi => hsenders ▸ hi
    · rw [ht, hnxt]
    · rw [ht, hwnd]
    · rw [ht, hmss]

theorem step_inv (h : Inv origin x) {a : Tcpevent} (hfine : x.Fine a) (ht : x.step a = some y) :
    Inv origin y := by
  obtain ⟨s, w⟩ := x
  unfold step at ht
  split at ht
  case isFalse => cases ht
  next hstate =>
  have hopen := h.opened hstate
  have hin := h.passed
  obtain ⟨t, hstep, ht⟩ := Option.map_eq_some_iff.mp ht
  cases ht
  have hquiet : ∀ {u : Tcpsys}, SameWnd s.sock u.sock →
      (∀ tid pkt before rest, u.senders tid = .sndwnd pkt before rest →
        s.senders tid = .sndwnd pkt before rest) → Inv origin ⟨u, w⟩ :=
    fun hsame hsenders => ⟨fun _ => hopen.same hsame hsenders, hin⟩
  change s.step a = some t at hstep
  cases Tcpsys.step_cases hstep with
  | nosend => exact ⟨fun _ => hopen, hin⟩
  | send => exact hquiet (SameWnd.refl _) (setSender_other fun _ _ _ hx => by cases hx)
  | output hsender =>
      obtain ⟨hopen', hin'⟩ := outputPiece_keeps hopen hin _ _ _
      show Inv origin ⟨_, w.next s _⟩
      simp only [Wnd.next, hsender]
      exact ⟨fun _ => hopen', hin'⟩
  | bufsig hsender =>
      show Inv origin ⟨_, w.next s _⟩
      simp only [Wnd.next, hsender]
      exact hquiet ⟨rfl, rfl, rfl⟩ (setSender_other fun _ _ _ hx => by cases hx)
  | buf hsender =>
      obtain ⟨hopen', hin'⟩ := outputPiece_keeps hopen hin _ _ _
      show Inv origin ⟨_, w.next s _⟩
      simp only [Wnd.next, hsender]
      exact ⟨fun _ => hopen', hin'⟩
  | wndsig hsender =>
      show Inv origin ⟨_, w.next s _⟩
      simp only [Wnd.next, hsender]
      exact hquiet ⟨rfl, rfl, rfl⟩ (setSender_other fun _ _ _ hx => by cases hx)
  | wndfull hsender hwnd =>
      show Inv origin ⟨_, w.next s _⟩
      simp only [Wnd.next, hsender, hwnd]
      exact ⟨fun _ => hopen, hin⟩
  | @wnd tid ans pkt before rest hsender hwnd =>
      show Inv origin ⟨_, w.next s _⟩
      simp only [Wnd.next, hsender, hwnd]
      have hbuilt := outputBuilt_wnd s.sock pkt ans
      have hopen' := hopen.same (t := (s.setSock ((s.sock.outputBuilt pkt ans).2.logret before
        (s.sock.outputBuilt pkt ans).1)).setSender tid
          (Tcpsys.afterOutput (s.sock.outputBuilt pkt ans).1 rest))
        ⟨hbuilt.sndnxt, hbuilt.sndwnd, hbuilt.mss⟩ (setSender_other (afterOutput_ne _ _))
      exact ⟨fun _ => hopen'.pass tid pkt ans,
        Wnd.pass_inWindow s hin (hopen.built tid pkt before rest hsender) (hopen.behind hwnd) ans _⟩
  | @shutdown ans =>
      refine ⟨fun hest => ?_, hin⟩
      have hdone : (s.sock.shutdown s.passedtick ans).2.state = .finwait1 := by
        unfold shutdown shutdownState
        rw [hstate]
        rfl
      exact absurd (hdone.symm.trans hest) (by decide)
  | rexmitto => exact hquiet (rexmitto_wnd _ _) fun _ _ _ _ hi => hi
  | @delackto ans =>
      have hack := sendflags_wnd { s.sock with delacktm := false } s.passedtick ans
      exact hquiet ⟨hack.sndnxt, hack.sndwnd, hack.mss⟩ fun _ _ _ _ hi => hi
  | input hsock =>
      refine ⟨fun hest => input_open hopen hstate hfine hsock hest rfl rfl, ?_⟩
      unfold Wnd.next
      dsimp only
      split <;> exact hin
  | recv _ hr => exact hquiet (recv_wnd hr) fun _ _ _ _ hi => hi
  | tick => exact hquiet (SameWnd.refl _) fun _ _ _ _ hi => hi

/-! ## Runs -/

theorem start_inv (base : Sock) (passedtick : Nat) :
    Inv base.snd.sndnxt (start base passedtick) := by
  refine ⟨fun _ => ⟨?_, fun _ => ?_, fun _ _ _ _ hi => by cases hi⟩, fun p hp => by cases hp⟩
  · exact (add_zero _).symm
  · show (0 : Int) + base.snd.sndwnd ≤ base.snd.sndwnd + base.mss
    omega

/-- **In a run whose windows are all taken under the condition**, no data packet is passed on
that ends behind the receive window of the peer. -/
theorem run_inWindow (base : Sock) (passedtick : Nat) (as : List Tcpevent)
    (h : Each step Fine (start base passedtick) as) :
    Always step (InWindow base.snd.sndnxt) (start base passedtick) as :=
  (always_of_each (fun _ _ _ hs hfine ht => step_inv hs hfine ht) (start_inv base passedtick)
    h).mono fun _ hs => hs.passed

end Wndsys

/-- A socket whose peer takes segments of one byte and has room for three. -/
def sockOfThree : Sock :=
  { sockOfWindow with mss := 1, snd := ⟨1, 3, 32768, [], 0, 1, 0, none, 4, []⟩ }

/-- The peer says that it has room for three bytes from byte 1 on. -/
def roomForThree : Tcpevent :=
  .input ⟨40, ⟨0, 0, 1, 1, TCPFACK, 3, 0, []⟩, [], 60⟩ ⟨true, true, 0⟩ ⟨true, true, 0⟩

theorem run_inWindow_three :
    Each Wndsys.step Wndsys.Fine (Wndsys.start sockOfThree 0)
        [.send 0 [7], .output 0 ⟨true, true, 0⟩, roomForThree] ∧
      Always Wndsys.step (Wndsys.InWindow sockOfThree.snd.sndnxt) (Wndsys.start sockOfThree 0)
        [.send 0 [7], .output 0 ⟨true, true, 0⟩, roomForThree] := by
  have hfine : Each Wndsys.step Wndsys.Fine (Wndsys.start sockOfThree 0)
      [.send 0 [7], .output 0 ⟨true, true, 0⟩, roomForThree] := by
    refine ⟨trivial, fun t ht => ⟨trivial, fun u hu => ⟨?_, fun _ _ => trivial⟩⟩⟩
    cases ht
    cases hu
    intro _ _ _
    left
    decide
  exact ⟨hfine, Wndsys.run_inWindow sockOfThree 0 _ hfine⟩

/-- Two bytes go out, the peer says once more that it has room for three from byte 1 on, and
two bytes go out again. -/
def twiceTwo : List Tcpevent :=
  [.send 0 [7, 8], .output 0 ⟨true, true, 0⟩, .output 0 ⟨true, true, 0⟩, roomForThree,
    .send 0 [9, 10], .output 0 ⟨true, true, 0⟩, .output 0 ⟨true, true, 0⟩]

/-- The fourth byte is behind the window. -/
theorem window_overrun :
    ¬ ∀ (base : Sock) (passedtick : Nat) (as : List Tcpevent),
      Always Wndsys.step (Wndsys.InWindow base.snd.sndnxt) (Wndsys.start base passedtick) as := by
  intro h
  have hlast := (always_iff_exec (Wndsys.start sockOfThree 0) twiceTwo).mp
    (h sockOfThree 0 twiceTwo) _ [] _ (List.append_nil _).symm rfl
  have hfourth := (hlast ⟨5, 4, 3⟩ (List.mem_cons_self ..)).2
  revert hfourth
  decide

end Unixlite.Net
