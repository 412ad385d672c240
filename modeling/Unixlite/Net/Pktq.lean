import Unixlite.Net.TcpRcvbuf

/-!
# Reads of a packet queue

`pktq_t::fetch` and `peek` again.  `fetch` has the bytes and `fetchlinked` has the packets; they
are one function.  The packets that are deleted are those that the loop comes to and takes
everything from, so that an empty packet behind the last byte stays.
-/

namespace Unixlite.Net

open Linked (pkt)

/-- The bytes of the first `i` packets. -/
def before (q : List Linked) (i : Nat) : Nat := (contents ((q.take i).map pkt)).length

/-- **A read** of `len` bytes.  The loop comes to packet `i` if it is the first one or there are
fewer than `len` bytes before it. -/
structure Reads (q : List Linked) (len : Nat) : Prop where
  once : (fetch (q.map pkt) len).q = (fetchlinked q len).q.map pkt ∧
    (fetch (q.map pkt) len).freedroom = (fetchlinked q len).freedroom
  nread : (fetch (q.map pkt) len).buf.length =
    min len (contents (q.map pkt)).length
  bytes : (fetch (q.map pkt) len).buf = (contents (q.map pkt)).take len
  rest : contents ((fetchlinked q len).q.map pkt) = (contents (q.map pkt)).drop len
  deleted : ∃ k, (fetchlinked q len).deleted = (q.take k).map Linked.id ∧
    (fetchlinked q len).freedroom = ((q.take k).map fun x => x.pkt.roomlen).sum ∧
    (fetchlinked q len).q =
      (q.drop k).modifyHead (fun x => ⟨x.id, x.pkt.delhead (len - before q k)⟩) ∧
    ∀ i < q.length, i < k ↔ (i = 0 ∨ before q i < len) ∧ before q (i + 1) ≤ len
  peek : peek (q.map pkt) len = (fetch (q.map pkt) len).buf

theorem before_succ (x : Linked) (q : List Linked) (i : Nat) :
    before (x :: q) (i + 1) = x.pkt.data.length + before q i := by
  simp [before]

/-- `peek` copies what `fetch` takes. -/
theorem peek_eq (q : List Pkt) (len : Nat) : peek q len = (fetch q len).buf := by
  induction q generalizing len with
  | nil => rfl
  | cons p q ih =>
      simp only [peek, fetch]
      split
      · rfl
      · rw [ih]

/-- Which packets `fetch` deletes. -/
theorem fetchlinked_deleted (q : List Linked) (len : Nat) :
    ∃ k, (fetchlinked q len).deleted = (q.take k).map Linked.id ∧
      (fetchlinked q len).freedroom = ((q.take k).map fun x => x.pkt.roomlen).sum ∧
      (fetchlinked q len).q =
        (q.drop k).modifyHead (fun x => ⟨x.id, x.pkt.delhead (len - before q k)⟩) ∧
      ∀ i < q.length, i < k ↔ (i = 0 ∨ before q i < len) ∧ before q (i + 1) ≤ len := by
  induction q generalizing len with
  | nil => exact ⟨0, rfl, rfl, rfl, nofun⟩
  | cons x q ih =>
      have hzero : ∀ q, before q 0 = 0 := fun _ => rfl
      rcases Nat.lt_trichotomy x.pkt.data.length len with hlt | heq | hgt
      · -- the packet is taken, and the loop goes on
        obtain ⟨k, hdeleted, hroom, hq, hk⟩ := ih (len - x.pkt.data.length)
        have honce : min len x.pkt.data.length = x.pkt.data.length := Nat.min_eq_right hlt.le
        refine ⟨k + 1, ?_, ?_, ?_, fun i hi => ?_⟩
        · simp [fetchlinked, honce, Pkt.delhead, hdeleted, Nat.sub_ne_zero_of_lt hlt]
        · simp [fetchlinked, honce, Pkt.delhead, hroom, Nat.sub_ne_zero_of_lt hlt]
        · simp [fetchlinked, honce, Pkt.delhead, hq, Nat.sub_ne_zero_of_lt hlt, before_succ,
            Nat.sub_sub]
        · cases i with
          | zero => simp [before_succ, hzero, hlt.le]
          | succ i =>
              rw [Nat.add_lt_add_iff_right, hk i (Nat.lt_of_succ_lt_succ hi), before_succ,
                before_succ]
              have hfirst : i = 0 → before q i = 0 := fun h => h ▸ hzero q
              omega
      · -- the packet is taken, and nothing else
        refine ⟨1, ?_, ?_, ?_, fun i hi => ?_⟩
        · simp [fetchlinked, Pkt.delhead, ← heq]
        · simp [fetchlinked, Pkt.delhead, ← heq]
        · have hhead : q = q.modifyHead fun x => ⟨x.id, x.pkt.delhead 0⟩ := by
            cases q <;> rfl
          simpa [fetchlinked, Pkt.delhead, ← heq, before_succ, hzero] using hhead
        · cases i with
          | zero => simp [before_succ, hzero, heq.le]
          | succ i =>
              rw [before_succ, before_succ]
              omega
      · -- a part of the packet is taken
        have honce : min len x.pkt.data.length = len := Nat.min_eq_left hgt.le
        have hmore : ¬ x.pkt.data.length ≤ len := Nat.not_le.mpr hgt
        refine ⟨0, ?_, ?_, ?_, fun i hi => ?_⟩
        · simp [fetchlinked, honce, Pkt.delhead, hmore]
        · simp [fetchlinked, honce, Pkt.delhead, hmore]
        · simp [fetchlinked, honce, Pkt.delhead, hmore, hzero]
        · rw [before_succ]
          omega

end Unixlite.Net
