import Unixlite.Net.Netrx

/-!
# Who owns a received packet

Every packet is on one queue, or has been passed to `delpkt` once (`Owned`).  A function
that is given a packet puts it into one place, and what it does besides moves packets
(`Moves`).  Five exits put it nowhere, or into two places, and `Fits` keeps away from them:

* the packet is neither an IP nor an ARP packet;
* a segment with a reset has found its socket;
* the two of `inputdata` that `Rcvqs.Fine` excludes;
* a raw socket has the packet, and there is no memory for the clone of the next one.
-/

namespace Unixlite.Net.Netrx

open Unixlite.Verified Unixlite.Verified.Ledger List
open Sock

/-! ## The property and the condition -/

namespace Netstate

/-- The packets on the queues. -/
def held (w : Netstate) : List Nat :=
  w.backlog.map Frame.id ++ (w.linked.map Prod.snd ++ w.fhash.flatMap fun s => s.rcv.held)

/-- Every packet and every clone is on one queue or has been deleted once, and not both. -/
def Owned (w : Netstate) : Prop := Settled (List.range w.issued) w.held w.freed

instance (w : Netstate) : Decidable w.Owned := inferInstanceAs (Decidable (Settled _ _ _))

def book (w : Netstate) : Book := ⟨w.issued, w.held ++ w.freed⟩

/-- No other packet is on a queue, and what the loopback device has put on `backlog` are
IP packets. -/
structure Inv (w : Netstate) : Prop where
  exact : Exact w.book
  loop : ∀ f ∈ w.backlog, f.inputdev.loop = true → f.proto = ETHPIP

end Netstate

/-- The condition on a segment for a socket: it is no reset, and if its data are passed on
then to one of the exits that find the packet a place. -/
def Tcpsock.Fits (s : Tcpsock) (seg : Segment) : Prop :=
  Serial.gt (inpkt seg).startseq (inpkt seg).endseq = false →
    seg.hdr.has TCPFRST = false ∧
      (Tcpsys.takesdata s.state = true → s.rcv.Fine (.inputdata (inpkt seg)))

/-- The raw sockets that accept the packet. -/
def takers (socks : List Rawsock) (ih : Iphdr) : List Rawsock :=
  socks.filter (Rawsock.belongtome · ih)

theorem takers_cons_pos {s : Rawsock} {ih : Iphdr} (h : s.belongtome ih = true)
    (socks : List Rawsock) : takers (s :: socks) ih = s :: takers socks ih :=
  filter_cons_of_pos h

theorem takers_cons_neg {s : Rawsock} {ih : Iphdr} (h : s.belongtome ih = false)
    (socks : List Rawsock) : takers (s :: socks) ih = takers socks ih :=
  filter_cons_of_neg (by simp [h])

namespace Netstate

/-- The condition on a segment that passes the checksum. -/
def TcpFits (w : Netstate) (ih : Iphdr) : Prop :=
  match w.fhash.find? fun s => s.perfectmatch ih with
  | some s => s.Fits ih.seg
  | none => w.halfmatch ih = true →
      Serial.gt (inpkt ih.seg).startseq (inpkt ih.seg).endseq = false →
        ih.seg.hdr.has TCPFRST = false

/-- There is memory for the clones, of which every raw socket but the first needs one. -/
def RawFits (w : Netstate) (clone : Nat → Bool) (ih : Iphdr) : Prop :=
  ∀ i < (takers w.raws ih).length - 1, clone i = true

/-- `ipinput` passes the packet to the protocols of this host. -/
def delivers (w : Netstate) (ih : Iphdr) : Bool :=
  ih.ver == 4 && ih.headlen == IPHLEN && ih.ipchksum == 0 && w.tothishost ih.daddr

/-- `icmpinput` deletes the packet. -/
def icmptakes (ih : Iphdr) : Bool :=
  ih.proto == IPPROTOICMP && (ih.icmpchksum != 0 || ih.type == ICTECHOREQUEST)

/-- The condition on a packet that is delivered. -/
def IpFits (w : Netstate) (env : Answers) (ih : Iphdr) : Prop :=
  if ih.proto = IPPROTOTCP then ih.tcpchksum = 0 → w.TcpFits ih
  else ih.proto = IPPROTOUDP ∨ icmptakes ih = true ∨ w.RawFits env.clone ih

/-- The condition on a packet that `netrx` is given. -/
def FrameFits (w : Netstate) (env : Answers) (f : Frame) : Prop :=
  f.proto = ETHPARP ∨ f.proto = ETHPIP ∧ (w.delivers f.ih = true → w.IpFits env f.ih)

/-- The condition on one step. -/
def Fits (w : Netstate) : Softevent → Prop
  | .netsoftisr env => ∀ f ∈ w.backlog.head?, w.FrameFits env f
  | _ => True

/-! ## Where packets go -/

/-- The packets of `l` are put into a place, once for each time they are in `l`.  Those that
are put on `backlog` are IP packets. -/
structure Moves (w w' : Netstate) (l : List Nat) : Prop where
  puts : Puts w.book w'.book l
  backlog : ∀ f ∈ w'.backlog, f ∈ w.backlog ∨ f.proto = ETHPIP

variable {w w' w'' : Netstate} {l m : List Nat} {env : Answers} {f : Frame} {dev : Netdev}
  {id : Nat}

theorem Moves.trans (h : Moves w w' l) (h' : Moves w' w'' m) : Moves w w'' (l ++ m) := by
  refine ⟨h.puts.trans h'.puts, fun f hf => ?_⟩
  rcases h'.backlog f hf with hold | hip
  · exact h.backlog f hold
  · exact .inr hip

/-- Only links and deletions change. -/
theorem Moves.of_links (hback : w'.backlog = w.backlog) (hfhash : w'.fhash = w.fhash)
    (hissued : w'.issued = w.issued)
    (h : (w'.linked.map Prod.snd ++ w'.freed).Perm (w.linked.map Prod.snd ++ w.freed ++ l)) :
    Moves w w' l := by
  refine ⟨.of_perm hissued ?_, fun f hf => .inl (hback ▸ hf)⟩
  unfold book held
  rw [hback, hfhash]
  rw [perm_iff_count] at h ⊢
  intro x
  have hx := h x
  simp only [count_append] at hx ⊢
  omega

/-- Nothing that the packets depend on changes. -/
theorem Moves.of_same (hback : w'.backlog = w.backlog) (hfhash : w'.fhash = w.fhash)
    (hissued : w'.issued = w.issued) (hlinked : w'.linked = w.linked)
    (hfreed : w'.freed = w.freed) : Moves w w' [] := by
  refine .of_links hback hfhash hissued ?_
  rw [hlinked, hfreed, append_nil]

theorem delpkt_moves (w : Netstate) (id : Nat) : Moves w (w.delpkt id) [id] := by
  refine .of_links rfl rfl rfl ?_
  unfold delpkt
  rw [append_assoc]

theorem enqtail_moves (w : Netstate) (q : Pktq) (id : Nat) : Moves w (w.enqtail q id) [id] := by
  refine .of_links rfl rfl rfl ?_
  simp only [enqtail, map_append, map_cons, map_nil, append_assoc]
  exact perm_append_comm.append_left _

/-- A new packet gets the next number and is put on a queue. -/
theorem issue_moves (w : Netstate) (q : Pktq) :
    Moves w ({ w with issued := w.issued + 1 }.enqtail q w.issued) [] := by
  refine ⟨.issue rfl ?_, fun f hf => .inl hf⟩
  simp only [book, held, enqtail, map_append, map_cons, map_nil]
  rw [perm_iff_count]
  intro x
  simp only [count_append]
  omega

theorem setent_moves (w : Netstate) (i : Fin 32) (ae : Arpent) : Moves w (w.setent i ae) [] :=
  .of_same rfl rfl rfl rfl rfl

theorem input_moves (w : Netstate) (dev : Netdev) {f : Frame} (hip : f.proto = ETHPIP) :
    Moves w (w.input dev f) [f.id] := by
  refine ⟨.of_perm rfl ?_, fun g hg => ?_⟩
  · simp only [book, held, input, map_append, map_cons, map_nil]
    rw [perm_iff_count]
    intro x
    simp only [count_append]
    omega
  · rcases mem_append.mp hg with hold | hnew
    · exact .inl hold
    · rw [mem_singleton] at hnew
      exact .inr (hnew ▸ hip)

/-- An Ethernet device sends the packet and deletes it, or has it on its queue. -/
theorem hardwareoutput_moves (w : Netstate) (hdev : dev.loop = false) (id : Nat) (busy : Bool) :
    Moves w (w.hardwareoutput dev id busy) [id] := by
  unfold hardwareoutput
  rw [if_neg (by simp [hdev])]
  split
  · exact enqtail_moves w _ id
  · exact delpkt_moves w id

/-! ## ARP -/

/-- A queue and the rest of the links. -/
theorem drain_perm (w : Netstate) (q : Pktq) :
    ((w.drain q).linked.map Prod.snd ++ w.onqueue q).Perm (w.linked.map Prod.snd) := by
  have hsplit := filter_append_perm (fun x : Pktq × Nat => decide (x.1 = q)) w.linked
  have hmap := (perm_append_comm.trans hsplit).map Prod.snd
  simpa [drain, onqueue] using hmap

/-- The packets of a queue are moved elsewhere. -/
theorem Moves.of_drain {q : Pktq} (h : Moves (w.drain q) w' (w.onqueue q)) : Moves w w' [] := by
  refine ⟨⟨h.puts.issued, fun x => ?_⟩, h.backlog⟩
  have hcount := h.puts.count x
  have hsplit := (drain_perm w q).count_eq x
  have hplaces : (w.drain q).book.places = w.backlog.map Frame.id ++
      ((w.drain q).linked.map Prod.snd ++ w.fhash.flatMap fun s => s.rcv.held) ++ w.freed := rfl
  have hbook :
      w.book.places.count x = (w.drain q).book.places.count x + (w.onqueue q).count x := by
    rw [hplaces]
    simp only [book, held, count_append] at hsplit ⊢
    omega
  rw [hcount, hbook]
  rfl

theorem invalidate_moves (w : Netstate) (i : Fin 32) : Moves w (w.invalidate i) [] := by
  unfold invalidate
  split
  · exact .of_same rfl rfl rfl rfl rfl
  · refine .of_links rfl rfl rfl ?_
    rw [append_nil]
    have hsplit := (drain_perm w (.waitreplyq i)).append_right w.freed
    refine List.Perm.trans ?_ hsplit
    rw [append_assoc]
    exact perm_append_comm.append_left _

theorem get_moves (w : Netstate) (prtype : BitVec 16) (praddrlen : Byte) (praddr : BitVec 32) :
    Moves w (w.get prtype praddrlen praddr).2 [] := by
  unfold get
  split
  · exact .of_same rfl rfl rfl rfl rfl
  · have hfront : Moves w { w with
        lruq := w.lruq.touch w.lruq.head
        hashq := w.lruq.head :: w.hashq.erase w.lruq.head } [] := .of_same rfl rfl rfl rfl rfl
    exact (hfront.trans (invalidate_moves _ _)).trans (setent_moves _ _ _)

/-- The packet waits for the reply, or goes out. -/
theorem arpoutput_moves (w : Netstate) (id : Nat) (praddr : BitVec 32) (hdev : dev.loop = false)
    (busy : Bool) : Moves w (w.arpoutput id praddr dev busy) [id] := by
  have hget := get_moves w ETHPIP 4 praddr
  unfold arpoutput
  dsimp only
  split
  · exact hget.trans ((enqtail_moves _ _ id).trans (setent_moves _ _ _))
  · exact hget.trans (enqtail_moves _ _ id)
  · exact hget.trans (hardwareoutput_moves _ hdev id busy)

theorem replyloop_moves (hdev : dev.loop = false) (busy : Nat → Bool) (ids : List Nat) (n : Nat)
    (w : Netstate) : Moves w (replyloop dev busy ids n w) ids := by
  induction ids generalizing n w with
  | nil => exact .of_same rfl rfl rfl rfl rfl
  | cons id rest ih => exact (hardwareoutput_moves w hdev id (busy n)).trans (ih (n + 1) _)

theorem replyarrive_moves (w : Netstate) (i : Fin 32) (hdev : dev.loop = false)
    (busy : Nat → Bool) : Moves w (w.replyarrive i dev busy) [] :=
  .of_drain (replyloop_moves hdev busy _ 0 _)

/-- **An ARP packet** is deleted or goes out as the reply. -/
theorem arpinput_moves (w : Netstate) (env : Answers) (hdev : f.inputdev.loop = false) :
    Moves w (w.arpinput env f) [f.id] := by
  have hget := get_moves w f.ah.prtype f.ah.praddrlen f.ah.spa
  have hset := hget.trans (setent_moves (w.get f.ah.prtype f.ah.praddrlen f.ah.spa).2
    (w.get f.ah.prtype f.ah.praddrlen f.ah.spa).1 ⟨.resolved, ETHPIP, 4, f.ah.spa, 6⟩)
  unfold arpinput
  dsimp only
  split
  · exact hget.trans (delpkt_moves _ _)
  · split
    · split
      · exact hset.trans (delpkt_moves _ _)
      · exact hset.trans (hardwareoutput_moves _ hdev _ _)
    · split
      · exact hset.trans ((replyarrive_moves _ _ hdev _).trans (delpkt_moves _ _))
      · exact hset.trans (delpkt_moves _ _)

/-! ## IP, up to the protocols -/

theorem output_moves (w : Netstate) (env : Answers) (dev : Netdev) (f : Frame)
    (daddr : BitVec 32) : Moves w (w.output env dev f daddr) [f.id] := by
  unfold output
  split
  · exact input_moves w dev (f := { f with proto := ETHPIP }) rfl
  · next hloop =>
      split
      · exact arpoutput_moves w f.id daddr (by simpa using hloop) _
      · exact input_moves w dev (f := { f with proto := ETHPIP }) rfl

/-- **A packet for another host**, or from this one. -/
theorem ipforward_moves (w : Netstate) (env : Answers) (f : Frame) :
    Moves w (w.ipforward env f) [f.id] := by
  unfold ipforward
  split
  · exact delpkt_moves w f.id
  · exact output_moves w env _ f _

theorem udpinput_moves (w : Netstate) (f : Frame) : Moves w (w.udpinput f) [f.id] := by
  unfold udpinput
  split
  · exact delpkt_moves w f.id
  · split
    · exact enqtail_moves w _ f.id
    · exact delpkt_moves w f.id

/-! ## Raw sockets -/

/-- The first socket that accepts the packet has it, and the next ones have clones. -/
theorem rawloop_moves (clone : Nat → Bool) (f : Frame) (socks : List Rawsock) (count : Nat)
    (w : Netstate) : Moves w (rawloop clone f socks count w).2
      (if count = 0 ∧ (takers socks f.ih) ≠ [] then [f.id] else []) := by
  induction socks generalizing count w with
  | nil =>
      rw [if_neg (by simp [takers])]
      exact .of_same rfl rfl rfl rfl rfl
  | cons s rest ih =>
      unfold rawloop
      cases hs : s.belongtome f.ih with
      | false =>
          rw [takers_cons_neg hs]
          exact ih count w
      | true =>
          rw [takers_cons_pos hs, if_neg (by decide)]
          by_cases hfirst : count = 0
          · -- the first socket gets the packet itself
            rw [if_pos hfirst, if_pos ⟨hfirst, cons_ne_nil _ _⟩]
            exact (enqtail_moves w _ f.id).trans (ih (count + 1) _)
          · rw [if_neg hfirst, if_neg (fun hboth : count = 0 ∧ _ => hfirst hboth.1)]
            split
            · exact (issue_moves w _).trans (ih (count + 1) _)
            · exact .of_same rfl rfl rfl rfl rfl

/-- The sockets are counted if there is memory for the clones. -/
theorem rawloop_pos (clone : Nat → Bool) (f : Frame) (socks : List Rawsock) (count : Nat)
    (w : Netstate) : 0 < (rawloop clone f socks count w).1 ↔
      0 < count + (takers socks f.ih).length ∧ ∀ i, count ≤ i + 1 →
        i + 1 < count + (takers socks f.ih).length → clone i = true := by
  induction socks generalizing count w with
  | nil =>
      exact ⟨fun h => ⟨h, fun i hle hlt => absurd hlt (Nat.not_lt.mpr hle)⟩, And.left⟩
  | cons s rest ih =>
      unfold rawloop
      cases hs : s.belongtome f.ih with
      | false =>
          rw [takers_cons_neg hs]
          exact ih count w
      | true =>
          rw [takers_cons_pos hs, length_cons, if_neg (by decide)]
          by_cases hfirst : count = 0
          · rw [if_pos hfirst, ih]
            grind
          · rw [if_neg hfirst]
            by_cases hthis : clone (count - 1) = true
            · rw [if_pos hthis, ih]
              grind
            · rw [if_neg hthis]
              refine iff_of_false (Nat.lt_irrefl 0) fun ⟨_, hall⟩ => ?_
              exact hthis (hall (count - 1) (by omega) (by omega))

/-- **Raw sockets**: the packet is on the queue of the first one, or it is deleted. -/
theorem toraw_kept (w : Netstate) (h : w.RawFits env.clone f.ih) :
    Moves w (w.toraw env f) [f.id] := by
  have hmoves := rawloop_moves env.clone f w.raws 0 w
  have hpos := rawloop_pos env.clone f w.raws 0 w
  unfold toraw rawinput
  by_cases hnone : (takers w.raws f.ih) = []
  · rw [hnone] at hpos
    rw [if_neg fun hlt => absurd (hpos.mp hlt).1 (by decide)]
    rw [if_neg (by simp [hnone])] at hmoves
    exact hmoves.trans (delpkt_moves _ f.id)
  · have hlen : 0 < (takers w.raws f.ih).length :=
      length_pos_of_ne_nil hnone
    rw [if_pos (hpos.mpr ⟨by omega, fun i _ hlt => h i (by omega)⟩)]
    rw [if_pos ⟨rfl, hnone⟩] at hmoves
    exact hmoves

/-- Without memory for a clone the packet is on a queue, and it is deleted. -/
theorem toraw_lost (w : Netstate) (h : ¬ w.RawFits env.clone f.ih) :
    Moves w (w.toraw env f) [f.id, f.id] := by
  have hmoves := rawloop_moves env.clone f w.raws 0 w
  have hpos := rawloop_pos env.clone f w.raws 0 w
  unfold toraw rawinput
  rw [if_neg fun hlt => h fun i hi => (hpos.mp hlt).2 i (by omega) (by omega)]
  rw [if_pos ⟨rfl, fun hnone => h fun i hi => by simp [hnone] at hi⟩] at hmoves
  exact hmoves.trans (delpkt_moves _ f.id)

end Netstate

/-! ## TCP sockets -/

namespace Tcpsock

variable {s : Tcpsock} {id : Nat} {pkt : Pkt} {seg : Segment}

/-- What a socket has done with the packets of `l`: they are on its queues, or deleted. -/
def Takes (s : Tcpsock) (r : Result) (l : List Nat) : Prop :=
  (r.1.rcv.held ++ r.2).Perm (s.rcv.held ++ l)

/-- The receive side is the old one, and the packet is deleted. -/
theorem Takes.of_deleted {r : Result} (hrcv : r.1.rcv.held = s.rcv.held) (hdel : r.2 = [id]) :
    s.Takes r [id] := by
  unfold Takes
  rw [hrcv, hdel]

theorem inputdata_kept (id : Nat) (h : s.rcv.Fine (.inputdata pkt)) :
    s.Takes (s.inputdata id pkt) [id] := by
  have hfor : (s.rcvfor id).Fine (.inputdata pkt) := h
  have hkept := Rcvqs.inputdata_kept hfor
  unfold Takes inputdata
  dsimp only
  rcases hkept.ids with ⟨hdel, hheld⟩ | ⟨hheld, hdel⟩
  · rw [hdel]
    exact (append_nil _).symm ▸ hheld
  · rw [hdel, hheld]
    exact List.Perm.refl _

theorem inputdata_lost (id : Nat) (h : ¬ s.rcv.Fine (.inputdata pkt)) :
    s.Takes (s.inputdata id pkt) [] := by
  have hfor : ¬ (s.rcvfor id).Fine (.inputdata pkt) := h
  have hlost := Rcvqs.inputdata_lost hfor
  unfold Takes inputdata
  dsimp only
  rw [hlost.held, hlost.deleted]
  exact List.Perm.refl _

/-- In the states that take data the handler leaves the queues to `inputdata`. -/
theorem inputstate_data (id : Nat) (pkt : Pkt) (h : Tcpsys.takesdata s.state = true) :
    (s.inputstate id pkt).1.rcv = (s.inputdata id pkt).1.rcv ∧
      (s.inputstate id pkt).2 = (s.inputdata id pkt).2 := by
  unfold inputstate
  cases hstate : s.state with
  | closed | listen | synsent | synrecv | timewait | lastack =>
      rw [hstate] at h
      cases h
  | closewait => exact ⟨rfl, rfl⟩
  | estab | finwait1 | finwait2 | closing =>
      refine ⟨?_, rfl⟩
      dsimp only
      split_ifs <;> rfl

/-- In the others it deletes the packet. -/
theorem inputstate_other (h : Tcpsys.takesdata s.state = false) :
    s.Takes (s.inputstate id pkt) [id] := by
  unfold inputstate
  cases hstate : s.state with
  | closed | listen | timewait => exact Takes.of_deleted rfl rfl
  | synsent | synrecv | lastack =>
      dsimp only
      split_ifs <;> exact Takes.of_deleted rfl rfl
  | estab | finwait1 | finwait2 | closewait | closing =>
      rw [hstate] at h
      cases h

theorem input_kept (h : s.Fits seg) : s.Takes (s.input id seg) [id] := by
  unfold input
  by_cases hgt : Serial.gt (inpkt seg).startseq (inpkt seg).endseq = true
  · rw [if_pos hgt]
    exact Takes.of_deleted rfl rfl
  · obtain ⟨hrst, hdata⟩ := h (by simpa using hgt)
    rw [if_neg hgt, if_neg (by simp [inpkt, hrst])]
    cases htakes : Tcpsys.takesdata s.state with
    | true =>
        have hin := inputdata_kept id (hdata htakes)
        obtain ⟨hrcv, hdel⟩ := inputstate_data id (inpkt seg) htakes
        unfold Takes at hin ⊢
        rw [hrcv, hdel]
        exact hin
    | false => exact inputstate_other htakes

theorem input_lost (h : ¬ s.Fits seg) : s.Takes (s.input id seg) [] := by
  unfold Fits at h
  push Not at h
  obtain ⟨hgt, hlost⟩ := h
  unfold input
  rw [if_neg (by simp [hgt])]
  by_cases hrst : (inpkt seg).hdr.has TCPFRST = true
  · rw [if_pos hrst]
    unfold Takes abort
    split_ifs <;> exact List.Perm.refl _
  · obtain ⟨htakes, hfine⟩ := hlost ((Bool.not_eq_true _).mp hrst)
    rw [if_neg hrst]
    have hin := inputdata_lost id hfine
    obtain ⟨hrcv, hdel⟩ := inputstate_data id (inpkt seg) htakes
    unfold Takes at hin ⊢
    rw [hrcv, hdel]
    exact hin

end Tcpsock

/-- Where `find?` finds an element, `replaceF` replaces it. -/
theorem replaceF_of_find? {α : Type*} {p : α → Bool} {l : List α} {a : α} (g : α → α)
    (h : l.find? p = some a) :
    ∃ as bs, l = as ++ a :: bs ∧
      (l.replaceF fun b => if p b then some (g b) else none) = as ++ g a :: bs := by
  induction l with
  | nil => cases h
  | cons b l ih =>
      by_cases hb : p b = true
      · rw [List.find?_cons_of_pos hb] at h
        cases h
        exact ⟨[], l, rfl, replaceF_cons_of_some _ (if_pos hb)⟩
      · rw [List.find?_cons_of_neg hb] at h
        obtain ⟨as, bs, hl, hr⟩ := ih h
        refine ⟨b :: as, bs, by rw [hl, cons_append], ?_⟩
        have hskip : (if p b then some (g b) else none) = none := if_neg hb
        rw [replaceF_cons_of_none _ hskip, hr, cons_append]

namespace Netstate

variable {w w' : Netstate} {l : List Nat} {env : Answers} {f : Frame}

/-- The socket that is found takes the packet. -/
theorem tcpsock_moves {s : Tcpsock} {p : Tcpsock → Bool} {g : Tcpsock → Tcpsock.Result}
    (hfind : w.fhash.find? p = some s) (h : s.Takes (g s) l) :
    Moves w { w with
      fhash := w.fhash.replaceF fun s => if p s then some (g s).1 else none
      freed := w.freed ++ (g s).2 } l := by
  obtain ⟨as, bs, hold, hnew⟩ := replaceF_of_find? (fun s => (g s).1) hfind
  refine ⟨.of_perm rfl ?_, fun f hf => .inl hf⟩
  unfold book held
  rw [hnew, hold]
  unfold Tcpsock.Takes at h
  rw [perm_iff_count] at h ⊢
  intro x
  have hx := h x
  simp only [flatMap_append, flatMap_cons, count_append] at hx ⊢
  omega

theorem inputlisten_kept (w : Netstate) (env : Answers)
    (h : Serial.gt (inpkt f.ih.seg).startseq (inpkt f.ih.seg).endseq = false →
      f.ih.seg.hdr.has TCPFRST = false) : Moves w (w.inputlisten env f) [f.id] := by
  unfold inputlisten
  by_cases hgt : Serial.gt (inpkt f.ih.seg).startseq (inpkt f.ih.seg).endseq = true
  · rw [if_pos hgt]
    exact delpkt_moves w f.id
  · rw [if_neg hgt, if_neg (by simp [inpkt, h (by simpa using hgt)])]
    split
    · exact delpkt_moves w f.id
    · have hchild : Moves w { w with fhash := w.fhash ++ [Tcpsock.child f.ih env.sndnxt] } [] := by
        refine ⟨.of_perm rfl ?_, fun f hf => .inl hf⟩
        simp [book, held, Tcpsock.child, Rcvqs.held, Rcvqs.unused]
      exact hchild.trans (delpkt_moves _ f.id)

/-- A reset for a listening socket is put nowhere. -/
theorem inputlisten_lost (w : Netstate) (env : Answers)
    (hgt : Serial.gt (inpkt f.ih.seg).startseq (inpkt f.ih.seg).endseq = false)
    (hrst : f.ih.seg.hdr.has TCPFRST = true) : w.inputlisten env f = w := by
  unfold inputlisten
  rw [if_neg (by simp [hgt])]
  exact if_pos hrst

theorem tcpinput_kept (w : Netstate) (env : Answers) (h : f.ih.tcpchksum = 0 → w.TcpFits f.ih) :
    Moves w (w.tcpinput env f) [f.id] := by
  unfold tcpinput
  by_cases hsum : f.ih.tcpchksum = 0
  · have hfits := h hsum
    unfold TcpFits at hfits
    rw [if_neg (by simp [hsum])]
    cases hfind : w.fhash.find? fun s => s.perfectmatch f.ih with
    | some s =>
        rw [hfind] at hfits
        exact tcpsock_moves (g := fun s => s.input f.id f.ih.seg) hfind
          (Tcpsock.input_kept hfits)
    | none =>
        rw [hfind] at hfits
        split_ifs with hhalf
        · exact inputlisten_kept w env (hfits hhalf)
        · exact delpkt_moves w f.id
  · rw [if_pos hsum]
    exact delpkt_moves w f.id

theorem tcpinput_lost (w : Netstate) (env : Answers) (hsum : f.ih.tcpchksum = 0)
    (h : ¬ w.TcpFits f.ih) : Moves w (w.tcpinput env f) [] := by
  unfold TcpFits at h
  unfold tcpinput
  rw [if_neg (by simp [hsum])]
  cases hfind : w.fhash.find? fun s => s.perfectmatch f.ih with
  | some s =>
      rw [hfind] at h
      exact tcpsock_moves (g := fun s => s.input f.id f.ih.seg) hfind (Tcpsock.input_lost h)
  | none =>
      rw [hfind] at h
      push Not at h
      obtain ⟨hhalf, hgt, hrst⟩ := h
      rw [if_pos hhalf, inputlisten_lost w env hgt (by simpa using hrst)]
      exact .of_same rfl rfl rfl rfl rfl

end Netstate

end Unixlite.Net.Netrx
