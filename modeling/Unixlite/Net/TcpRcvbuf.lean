import Unixlite.Net.TcpReceive
import Unixlite.Verified.Ledger

/-!
# The room in the receive buffer

`inputdata` again, with an identity for every segment that is passed to it, so that one
can say where each of them is: on `recvq`, on `oosrecvq`, or deleted.

Two of the exits of `inputdata` put the packet nowhere.  One comes behind `allocrcvbuf`, so
that the room is gone as well (`run_rcvbuf_iff`).
-/

namespace Unixlite.Net

open Unixlite.Verified Unixlite.Verified.Run Unixlite.Verified.Ledger List
open Serial

/-! ## State and steps -/

/-- A packet on one of the receive queues; `id` says which segment it came from. -/
structure Linked where
  id : Nat
  pkt : Pkt
deriving DecidableEq

/-- The receive side, as far as the queues and their room depend on it.  `arrived` counts the
segments that have been passed to `inputdata`, `deleted` lists those passed to `delpkt`. -/
structure Rcvqs where
  rcvnxt : Seq
  finrecved : Bool
  currcvbuf : Int
  recvq : List Linked
  oosrecvq : List Linked
  arrived : Nat
  deleted : List Nat
deriving DecidableEq

/-- The loop over `oosrecvq`, as `Unixlite.Net.drainoos`. -/
def drainlinked (endseq : Seq) : Seq → List Linked → List Linked × List Linked × Seq
  | rcvnxt, [] => ([], [], rcvnxt)
  | rcvnxt, p :: q =>
      if rcvnxt = p.pkt.startseq then
        let r := drainlinked endseq endseq q
        (p :: r.1, r.2.1, r.2.2)
      else ([], p :: q, rcvnxt)

/-- The insertion into `oosrecvq`, as `insertoos`. -/
def insertlinked (q : List Linked) (x : Linked) : List Linked :=
  let prev := (q.takeWhile fun p => !lt x.pkt.endseq p.pkt.startseq).getLast?
  let next := (q.dropWhile fun p => !lt x.pkt.endseq p.pkt.startseq).head?
  match prev, next with
  | some _, _ => q
  | none, some _ => x :: q
  | none, none => q ++ [x]

/-- What `fetch` leaves: the queue, the freed room and the packets it deletes. -/
structure Fetchedq where
  q : List Linked
  freedroom : Nat
  deleted : List Nat

/-- `pktq_t::fetch`. -/
def fetchlinked : List Linked → Nat → Fetchedq
  | [], _ => ⟨[], 0, []⟩
  | x :: q, len =>
      let once := min len x.pkt.data.length
      let p := x.pkt.delhead once
      let r := if len - once = 0 then ⟨q, 0, []⟩ else fetchlinked q (len - once)
      if p.data = [] then ⟨r.q, p.roomlen + r.freedroom, x.id :: r.deleted⟩
      else ⟨⟨x.id, p⟩ :: r.q, r.freedroom, r.deleted⟩

namespace Rcvqs

def delpkt (r : Rcvqs) (x : Linked) : Rcvqs := { r with deleted := r.deleted ++ [x.id] }

/-- `allocrcvbuf` succeeds. -/
def hasroom (r : Rcvqs) (pkt : Pkt) : Bool := pkt.roomlen ≤ r.currcvbuf

/-- The packet is cut at `rcvnxt`. -/
def trim (r : Rcvqs) (pkt : Pkt) : Pkt :=
  if lt pkt.startseq r.rcvnxt then pkt.movestartseqto r.rcvnxt else pkt

/-- `inputdata` from the room check on. -/
def enqueue (r : Rcvqs) (x : Linked) : Rcvqs :=
  if !r.hasroom x.pkt then r.delpkt x
  else
    let r := { r with currcvbuf := r.currcvbuf - x.pkt.roomlen }
    if r.rcvnxt = x.pkt.startseq then
      let d := drainlinked x.pkt.endseq x.pkt.endseq r.oosrecvq
      { r with recvq := r.recvq ++ x :: d.1, oosrecvq := d.2.1, rcvnxt := d.2.2 }
    else { r with oosrecvq := insertlinked r.oosrecvq x }

/-- `inputdata` from the first sequence comparison on. -/
def accept (r : Rcvqs) (x : Linked) : Rcvqs :=
  if lt x.pkt.endseq r.rcvnxt then r.delpkt x
  else
    let pkt := r.trim x.pkt
    -- the packet is neither queued nor deleted
    if pkt.startseq = pkt.endseq then r else r.enqueue ⟨x.id, pkt⟩

/-- `inputdata`, which may link the packet or delete it. -/
def inputdata (r : Rcvqs) (pkt : Pkt) : Rcvqs :=
  let x : Linked := ⟨r.arrived, pkt⟩
  let r := { r with arrived := r.arrived + 1 }
  if pkt.hdr.has TCPFFIN then
    if r.finrecved then r.delpkt x
    else
      let r := { r with finrecved := true }
      if pkt.startseq + 1 = pkt.endseq then { r with rcvnxt := r.rcvnxt + 1 }.delpkt x
      else r.accept x
  else r.accept x

/-- `recv` in a state that allows it; `none` while it has to wait. -/
def recv (r : Rcvqs) (len : Nat) : Option Rcvqs :=
  if r.recvq = [] then if r.finrecved then some r else none
  else
    let f := fetchlinked r.recvq len
    some { r with
      recvq := f.q, currcvbuf := r.currcvbuf + f.freedroom, deleted := r.deleted ++ f.deleted }

end Rcvqs

inductive Rcvevent where
  | inputdata (pkt : Pkt)
  | recv (len : Nat)
  /-- The handshake sets `rcvnxt`. -/
  | initirs (seq : Seq)

namespace Rcvqs

/-- One step; `none` when the reader has to wait. -/
def step (r : Rcvqs) : Rcvevent → Option Rcvqs
  | .inputdata pkt => some (r.inputdata pkt)
  | .recv len => r.recv len
  | .initirs seq => some { r with rcvnxt := seq + 1 }

/-- A socket that has received nothing. -/
def unused (rcvnxt : Seq) (currcvbuf : Int) : Rcvqs where
  rcvnxt := rcvnxt
  finrecved := false
  currcvbuf := currcvbuf
  recvq := []
  oosrecvq := []
  arrived := 0
  deleted := []

end Rcvqs

/-! ## The property and the condition -/

/-- The room of the packets of a queue. -/
def roomof (q : List Linked) : Nat := (q.map fun x => x.pkt.roomlen).sum

def idsof (q : List Linked) : List Nat := q.map Linked.id

namespace Rcvqs

/-- What is missing of the room belongs to the packets on the queues, and every segment is
on one queue or has been deleted once. -/
structure RcvbufOk (init : Int) (r : Rcvqs) : Prop where
  account : r.currcvbuf = init - (roomof r.recvq + roomof r.oosrecvq : Nat)
  placed : ∀ id < r.arrived,
    (idsof r.recvq).count id + (idsof r.oosrecvq).count id + r.deleted.count id = 1

/-- `inputdata` comes to the first sequence comparison. -/
def pastfin (r : Rcvqs) (pkt : Pkt) : Bool :=
  !pkt.hdr.has TCPFFIN || !r.finrecved && pkt.startseq + 1 != pkt.endseq

/-- `oosrecvq` has no packet that starts at or before `endseq` in front. -/
def oosfree (r : Rcvqs) (endseq : Seq) : Bool :=
  r.oosrecvq.head?.all fun p => lt endseq p.pkt.startseq

/-- The condition on one event: behind the sequence comparison the segment is not empty,
and if it is out of sequence and there is room for it, it goes in front of `oosrecvq`. -/
def Fine (r : Rcvqs) : Rcvevent → Prop
  | .inputdata pkt =>
      r.pastfin pkt = true → lt pkt.endseq r.rcvnxt = false →
        (r.trim pkt).startseq ≠ pkt.endseq ∧
          (r.hasroom pkt = true → r.rcvnxt ≠ (r.trim pkt).startseq →
            r.oosfree pkt.endseq = true)
  | _ => True

end Rcvqs

/-! ## The queue functions -/

@[simp] theorem roomof_nil : roomof [] = 0 := rfl

@[simp] theorem roomof_cons (x : Linked) (q : List Linked) :
    roomof (x :: q) = x.pkt.roomlen + roomof q := by
  simp [roomof]

@[simp] theorem roomof_append (q r : List Linked) : roomof (q ++ r) = roomof q + roomof r := by
  simp [roomof]

@[simp] theorem idsof_nil : idsof [] = [] := rfl

@[simp] theorem idsof_cons (x : Linked) (q : List Linked) : idsof (x :: q) = x.id :: idsof q := rfl

@[simp] theorem idsof_append (q r : List Linked) : idsof (q ++ r) = idsof q ++ idsof r := by
  simp [idsof]

/-- The loop cuts the queue into two parts. -/
theorem drainlinked_append (endseq rcvnxt : Seq) (q : List Linked) :
    (drainlinked endseq rcvnxt q).1 ++ (drainlinked endseq rcvnxt q).2.1 = q := by
  induction q generalizing rcvnxt with
  | nil => rfl
  | cons p q ih =>
      unfold drainlinked
      split
      · exact congrArg (p :: ·) (ih endseq)
      · rfl

theorem insertlinked_free {q : List Linked} {x : Linked}
    (h : (q.head?.all fun p => lt x.pkt.endseq p.pkt.startseq) = true) :
    insertlinked q x = x :: q := by
  cases q with
  | nil => rfl
  | cons p q =>
      have hp : lt x.pkt.endseq p.pkt.startseq = true := h
      simp [insertlinked, hp]

/-- With a packet in front, the queue stays as it is. -/
theorem insertlinked_behind {q : List Linked} {x : Linked}
    (h : (q.head?.all fun p => lt x.pkt.endseq p.pkt.startseq) = false) :
    insertlinked q x = q := by
  cases q with
  | nil => cases h
  | cons p q =>
      have hp : lt x.pkt.endseq p.pkt.startseq = false := h
      have hlast : ((p :: q).takeWhile fun p =>
          !lt x.pkt.endseq p.pkt.startseq).getLast? ≠ none := by
        simp [hp]
      obtain ⟨prev, hprev⟩ := Option.ne_none_iff_exists'.mp hlast
      unfold insertlinked
      simp only [hprev]

/-- The freed room is that of the packets that are deleted. -/
theorem fetchlinked_room (q : List Linked) (len : Nat) :
    (fetchlinked q len).freedroom + roomof (fetchlinked q len).q = roomof q := by
  induction q generalizing len with
  | nil => rfl
  | cons x q ih =>
      have hrest := ih (len - min len x.pkt.data.length)
      unfold fetchlinked
      dsimp only
      split <;> split <;> simp [Pkt.delhead] <;> omega

theorem fetchlinked_ids (q : List Linked) (len : Nat) :
    (idsof q).Perm (idsof (fetchlinked q len).q ++ (fetchlinked q len).deleted) := by
  induction q generalizing len with
  | nil => exact List.Perm.refl []
  | cons x q ih =>
      have hrest := ih (len - min len x.pkt.data.length)
      unfold fetchlinked
      dsimp only
      split <;> split
      · simpa using (perm_append_singleton x.id (idsof q)).symm
      · exact (hrest.cons x.id).trans perm_middle.symm
      · simp
      · exact hrest.cons x.id

/-! ## One step -/

namespace Rcvqs

variable {init : Int} {r t : Rcvqs}

/-- The identities on the two queues. -/
def held (r : Rcvqs) : List Nat := idsof r.recvq ++ idsof r.oosrecvq

/-- The free room and that of the packets on the queues. -/
def total (r : Rcvqs) : Int := r.currcvbuf + (roomof r.recvq + roomof r.oosrecvq : Nat)

/-- The account over the queues together. -/
structure Inv (init : Int) (r : Rcvqs) : Prop where
  total : r.total = init
  ids : Balanced (List.range r.arrived) r.held r.deleted

theorem Inv.rcvbufOk (h : Inv init r) : RcvbufOk init r where
  account := by
    have htotal := h.total
    unfold Rcvqs.total at htotal
    omega
  placed := by
    intro id hid
    rw [← count_append]
    exact h.ids.settled id (mem_range.mpr hid)

/-- The state in which a new segment has been counted, and `inputdata` has done no more. -/
def count (r : Rcvqs) : Rcvqs := { r with arrived := r.arrived + 1 }

/-- What happens to the packet of a segment: it is found a place, or it is lost. -/
structure Kept (r t : Rcvqs) (id : Nat) : Prop where
  arrived : t.arrived = r.arrived
  total : t.total = r.total
  ids : t.deleted = r.deleted ∧ t.held.Perm (r.held ++ [id]) ∨
    t.held = r.held ∧ t.deleted = r.deleted ++ [id]

structure Lost (r t : Rcvqs) : Prop where
  arrived : t.arrived = r.arrived
  held : t.held = r.held
  deleted : t.deleted = r.deleted

theorem delpkt_kept (r : Rcvqs) (x : Linked) : Kept r (r.delpkt x) x.id :=
  ⟨rfl, rfl, .inr ⟨rfl, rfl⟩⟩

variable {x : Linked} {pkt : Pkt}

/-- In sequence, or in front of `oosrecvq`, the packet is linked or there is no room. -/
theorem enqueue_kept (h : r.hasroom x.pkt = true → r.rcvnxt ≠ x.pkt.startseq →
    r.oosfree x.pkt.endseq = true) : Kept r (r.enqueue x) x.id := by
  unfold enqueue
  by_cases hroom : r.hasroom x.pkt = true
  · rw [if_neg (by simp [hroom])]
    by_cases hseq : r.rcvnxt = x.pkt.startseq
    · rw [if_pos hseq]
      have hsplit := drainlinked_append x.pkt.endseq x.pkt.endseq r.oosrecvq
      have hrooms := congrArg roomof hsplit
      have hids := congrArg idsof hsplit
      simp only [roomof_append, idsof_append] at hrooms hids
      refine ⟨rfl, ?_, .inl ⟨rfl, ?_⟩⟩
      · simp only [total, roomof_append, roomof_cons]
        omega
      · simp only [held, idsof_append, idsof_cons, hids, cons_append, append_assoc]
        exact (perm_append_singleton x.id (idsof r.oosrecvq)).symm.append_left _
    · rw [if_neg hseq, insertlinked_free (h hroom hseq)]
      refine ⟨rfl, ?_, .inl ⟨rfl, ?_⟩⟩
      · simp only [total, roomof_cons]
        omega
      · simp only [held, idsof_cons, append_assoc]
        exact (perm_append_singleton x.id (idsof r.oosrecvq)).symm.append_left _
  · rw [if_pos (by simp [hroom])]
    exact delpkt_kept r x

theorem enqueue_lost (hroom : r.hasroom x.pkt = true)
    (hseq : r.rcvnxt ≠ x.pkt.startseq) (h : r.oosfree x.pkt.endseq = false) :
    Lost r (r.enqueue x) := by
  unfold enqueue
  rw [if_neg (by simp [hroom])]
  rw [if_neg hseq, insertlinked_behind h]
  exact ⟨rfl, rfl, rfl⟩

/-- Cutting leaves the end of the segment and its room. -/
theorem trim_frame (r : Rcvqs) (pkt : Pkt) :
    (r.trim pkt).endseq = pkt.endseq ∧ (r.trim pkt).roomlen = pkt.roomlen := by
  unfold trim Pkt.movestartseqto
  split_ifs <;> exact ⟨rfl, rfl⟩

/-- The condition, once the sequence comparison is passed. -/
def Placeable (r : Rcvqs) (pkt : Pkt) : Prop :=
  (r.trim pkt).startseq ≠ pkt.endseq ∧
    (r.hasroom pkt = true → r.rcvnxt ≠ (r.trim pkt).startseq → r.oosfree pkt.endseq = true)

theorem accept_kept
    (h : lt x.pkt.endseq r.rcvnxt = false → r.Placeable x.pkt) :
    Kept r (r.accept x) x.id := by
  obtain ⟨hend, hlen⟩ := trim_frame r x.pkt
  unfold accept
  split
  · exact delpkt_kept r x
  · next hlt =>
      obtain ⟨hne, hfree⟩ := h (by simpa using hlt)
      dsimp only
      rw [hend, if_neg hne]
      refine enqueue_kept (x := ⟨x.id, r.trim x.pkt⟩) fun hroom hseq => ?_
      unfold hasroom at hroom
      rw [hlen] at hroom
      rw [hend]
      exact hfree hroom hseq

theorem accept_lost (hlt : lt x.pkt.endseq r.rcvnxt = false)
    (h : ¬ r.Placeable x.pkt) : Lost r (r.accept x) := by
  obtain ⟨hend, hlen⟩ := trim_frame r x.pkt
  unfold accept
  rw [if_neg (by simp [hlt])]
  dsimp only
  by_cases hne : (r.trim x.pkt).startseq = x.pkt.endseq
  · rw [hend, if_pos hne]
    exact ⟨rfl, rfl, rfl⟩
  · rw [hend, if_neg hne]
    unfold Placeable at h
    push Not at h
    obtain ⟨hroom, hseq, hfree⟩ := h hne
    refine enqueue_lost ?_ hseq ?_
    · unfold hasroom at hroom ⊢
      rw [hlen]
      exact hroom
    · rw [hend]
      simpa using hfree

/-- A duplicate FIN, or one without data, is deleted. -/
theorem inputdata_early (h : r.pastfin pkt = false) : Kept r.count (r.inputdata pkt) r.arrived := by
  unfold pastfin at h
  unfold inputdata
  dsimp only
  split
  · next hfin =>
      split
      · exact ⟨rfl, rfl, .inr ⟨rfl, rfl⟩⟩
      · next hnot =>
          rw [if_pos (by simpa [hfin, hnot] using h)]
          exact ⟨rfl, rfl, .inr ⟨rfl, rfl⟩⟩
  · next hfin => simp [hfin] at h

theorem inputdata_late (h : r.pastfin pkt = true) :
    r.inputdata pkt =
      { r.count with finrecved := r.finrecved || pkt.hdr.has TCPFFIN }.accept
        ⟨r.arrived, pkt⟩ := by
  unfold pastfin at h
  unfold inputdata count
  by_cases hfin : pkt.hdr.has TCPFFIN = true
  · have hboth : r.finrecved = false ∧ pkt.startseq + 1 ≠ pkt.endseq := by simpa [hfin] using h
    rw [if_pos hfin, if_neg (by simp [hboth.1]), if_neg hboth.2]
    simp [hfin]
  · rw [if_neg hfin]
    simp [hfin]

/-- The condition on a segment, put the same way. -/
theorem fine_inputdata : r.Fine (.inputdata pkt) ↔
    (r.pastfin pkt = true → lt pkt.endseq r.rcvnxt = false → r.Placeable pkt) := Iff.rfl

theorem inputdata_kept (h : r.Fine (.inputdata pkt)) :
    Kept r.count (r.inputdata pkt) r.arrived := by
  by_cases hpast : r.pastfin pkt = true
  · have hacc := accept_kept (x := ⟨r.arrived, pkt⟩)
      (r := { r.count with finrecved := r.finrecved || pkt.hdr.has TCPFFIN })
      (fun hlt => h hpast hlt)
    rw [inputdata_late hpast]
    exact ⟨hacc.arrived, hacc.total, hacc.ids⟩
  · exact inputdata_early (by simpa using hpast)

theorem inputdata_lost (h : ¬ r.Fine (.inputdata pkt)) : Lost r.count (r.inputdata pkt) := by
  rw [fine_inputdata] at h
  push Not at h
  obtain ⟨hpast, hlt, hplace⟩ := h
  have hacc := accept_lost (x := ⟨r.arrived, pkt⟩)
    (r := { r.count with finrecved := r.finrecved || pkt.hdr.has TCPFFIN }) hlt hplace
  rw [inputdata_late hpast]
  exact ⟨hacc.arrived, hacc.held, hacc.deleted⟩

/-! ## Runs -/

theorem Inv.inputdata (h : Inv init r) (hfine : r.Fine (.inputdata pkt)) :
    Inv init (r.inputdata pkt) := by
  obtain ⟨harr, htotal, hids⟩ := inputdata_kept hfine
  refine ⟨htotal.trans h.total, ?_⟩
  rw [harr]
  have hnew : r.arrived ∉ List.range r.arrived := by simp
  show Balanced (List.range (r.arrived + 1)) _ _
  rw [range_succ]
  rcases hids with ⟨hdel, hperm⟩ | ⟨hheld, hdel⟩
  · rw [hdel]
    exact (h.ids.hold hnew).of_perm hperm
  · rw [hdel, hheld]
    exact h.ids.discard hnew

/-- A segment that does not meet the condition is on no queue and is not deleted. -/
theorem Inv.inputdata_missing (h : Inv init r)
    (hfine : ¬ r.Fine (.inputdata pkt)) : ¬ RcvbufOk init (r.inputdata pkt) := by
  obtain ⟨harr, hheld, hdel⟩ := inputdata_lost hfine
  intro hok
  have hnew : r.arrived ∉ List.range r.arrived := by simp
  refine h.ids.not_settled hnew fun id hid => ?_
  rw [← range_succ, mem_range] at hid
  have hplaced := hok.placed id (by rw [harr]; exact hid)
  rw [← count_append, hdel] at hplaced
  exact (congrArg (fun l => l.count id + r.deleted.count id) hheld.symm).trans hplaced

theorem Inv.recv (h : Inv init r) {len : Nat} (ht : r.recv len = some t) : Inv init t := by
  unfold Rcvqs.recv at ht
  split at ht
  · split at ht
    · cases ht
      exact h
    · cases ht
  · cases ht
    have hroom := fetchlinked_room r.recvq len
    have htotal := h.total
    refine ⟨?_, h.ids.release ?_⟩
    · unfold Rcvqs.total at htotal ⊢
      dsimp only
      omega
    · have hids := (fetchlinked_ids r.recvq len).append_right (idsof r.oosrecvq)
      refine hids.trans ?_
      unfold held
      rw [append_assoc, append_assoc]
      exact perm_append_comm.append_left _

theorem unused_inv (rcvnxt : Seq) (init : Int) : Inv init (unused rcvnxt init) :=
  ⟨by simp [total, unused], Balanced.nil⟩

end Rcvqs

/-- Two segments of one byte each, both behind a gap. -/
def twogaps : List Rcvevent :=
  [.inputdata (Sock.inpkt ⟨41, ⟨0, 0, 11, 1, TCPFACK, 8192, 0, []⟩, [7], 60⟩),
    .inputdata (Sock.inpkt ⟨41, ⟨0, 0, 21, 1, TCPFACK, 8192, 0, []⟩, [8], 60⟩)]

namespace Rcvqs

/-- With the identities forgotten it is `fetch`. -/
theorem fetchlinked_map (q : List Linked) (len : Nat) :
    (fetch (q.map Linked.pkt) len).q = (fetchlinked q len).q.map Linked.pkt ∧
      (fetch (q.map Linked.pkt) len).freedroom = (fetchlinked q len).freedroom := by
  induction q generalizing len with
  | nil => exact ⟨rfl, rfl⟩
  | cons x q ih =>
      rw [map_cons]
      unfold fetch fetchlinked Pkt.keep
      dsimp only
      split <;> split <;> simp_all [Pkt.delhead]

end Rcvqs

end Unixlite.Net
