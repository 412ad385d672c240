import Unixlite.Net.TcpSend

/-!
# Acknowledgements

`ackarrived` compares the acknowledgement with the ends of the packets as unsigned
numbers, where all other functions of a socket use the comparisons modulo 2^32, and
it looks neither at the first number of the queue nor at `sndnxt`.

The positions of a queue are counted from its first number `una`.  `ackarrived_iff`
says for which acknowledgements the packets that are removed are those that end at
or before it: those that lie in the window, on the side of the wrap on which the
deciding packet ends, and of the others the ones below the end of the first packet.
-/

namespace Unixlite.Net

open Unixlite.Verified
open Serial
open BitVec

/-! ## Queues and positions -/

def seqlteq (a b : Seq) : Bool := !gt a b

/-- The sequence numbers of a queue. -/
def span (q : List Pkt) : Nat := (q.map fun p => p.seqlen.toNat).sum

/-- A queue of consecutive packets from the position `a` on, none beyond `n`. -/
structure Laid (una : Seq) (a n : Nat) (q : List Pkt) : Prop where
  chain : q.IsChain Follows
  head : ∀ p, q.head? = some p → p.startseq = num una a
  room : a + span q ≤ n

/-- What is in flight: consecutive packets from `una` on, up to `sndnxt` at most, and
less than 2^31 numbers. -/
structure Sndside.Flight (s : Sndside) (una : Seq) : Prop where
  laid : Laid una 0 (s.sndnxt - una).toNat s.unackedq
  half : (s.sndnxt - una).toNat < 2 ^ 31

/-- The packet ends at or before the acknowledgement, and that is in the window. -/
def Sndside.acked (s : Sndside) (una ack : Seq) (p : Pkt) : Bool :=
  decide ((ack - una).toNat ≤ (s.sndnxt - una).toNat) && seqlteq p.endseq ack

/-- **The condition.**  No wrap is between the acknowledgement and the packet that it
is compared with, and an acknowledgement from outside is a small number. -/
def Sndside.Plain (s : Sndside) (una ack : Seq) : Prop :=
  if (ack - una).toNat ≤ (s.sndnxt - una).toNat then
    if una ≤ ack then
      -- the first packet that stays
      ∀ p, s.unackedq.find? (fun p => !seqlteq p.endseq ack) = some p → ack < p.endseq
    else ∀ p, s.unackedq.head? = some p → p.endseq < una
  else ∀ p, s.unackedq.head? = some p → ack < p.endseq

variable {una ack : Seq} {a n k : Nat} {p : Pkt} {q : List Pkt}

theorem num_toNat (una : Seq) (e : Nat) : (num una e).toNat = (una.toNat + e) % 2 ^ 32 := by
  rw [num, toNat_add, toNat_ofNat, Nat.add_mod_mod]

namespace Laid

/-- The first packet of the queue ends one length after the start. -/
theorem endseq (h : Laid una a n (p :: q)) : p.endseq = num una (a + p.seqlen.toNat) := by
  have hnum : num p.startseq (p.endseq - p.startseq).toNat = p.endseq :=
    num_sub_toNat _ _
  rw [← num_add, ← h.head p rfl]
  exact hnum.symm

theorem tail (h : Laid una a n (p :: q)) : Laid una (a + p.seqlen.toNat) n q where
  chain := h.chain.tail
  head := by
    intro r hr
    obtain ⟨q, rfl⟩ := List.head?_eq_some_iff.mp hr
    have hfollows : r.startseq = p.endseq := (List.isChain_cons_cons.mp h.chain).1
    rw [hfollows, h.endseq]
  room := by
    have := h.room
    simp only [span, List.map_cons, List.sum_cons] at this ⊢
    omega

theorem end_le (h : Laid una a n (p :: q)) : a + p.seqlen.toNat ≤ n :=
  (Nat.le_add_right _ _).trans h.tail.room

/-- The ends of all packets. -/
theorem exists_end (h : Laid una a n q) : ∀ p ∈ q, ∃ e, a ≤ e ∧ e ≤ n ∧ p.endseq = num una e := by
  induction q generalizing a with
  | nil => simp
  | cons r q ih =>
      intro p hp
      rcases List.mem_cons.mp hp with rfl | hp
      · exact ⟨_, Nat.le_add_right _ _, h.end_le, h.endseq⟩
      · obtain ⟨e, he, hen, hend⟩ := ih h.tail p hp
        exact ⟨e, by omega, hen, hend⟩

end Laid

/-- The comparison modulo 2^32 is that of the positions. -/
theorem seqlteq_num {e : Nat} (he : e < 2 ^ 31) (hk : k < 2 ^ 31) :
    seqlteq (num una e) (num una k) = decide (e ≤ k) := by
  rw [seqlteq, gt_num una (by omega) (by omega) (by decide), ← decide_not,
    decide_eq_decide.mpr Nat.not_lt]

/-! ## The two loops -/

section Prefix

variable {α : Type*} {f g : α → Bool} {l : List α} {x : α}

theorem dropWhile_cons_eq_self : (x :: l).dropWhile f = x :: l ↔ f x = false := by
  constructor
  · intro h
    by_contra hx
    rw [List.dropWhile_cons_of_pos (by simpa using hx)] at h
    have hlength := (List.dropWhile_suffix f (l := l)).length_le
    rw [h, List.length_cons] at hlength
    omega
  · intro h
    rw [List.dropWhile_cons_of_neg (by simp [h])]

theorem dropWhile_eq_of_forall (h : ∀ x ∈ l, f x = g x) : l.dropWhile f = l.dropWhile g := by
  induction l with
  | nil => rfl
  | cons x l ih =>
      rw [List.dropWhile_cons, List.dropWhile_cons, h x List.mem_cons_self,
        ih fun y hy => h y (List.mem_cons_of_mem _ hy)]

end Prefix

/-- What is not acknowledged stands behind. -/
theorem Laid.filter_eq_self (h : Laid una a n q) (hn : n < 2 ^ 31) (hk : k < a) (hkn : k ≤ n) :
    q.filter (fun p => !seqlteq p.endseq (num una k)) = q := by
  refine List.filter_eq_self.mpr fun p hp => ?_
  obtain ⟨e, hae, hen, hend⟩ := h.exists_end p hp
  rw [hend, seqlteq_num (by omega) (by omega), decide_eq_false (by omega)]
  rfl

/-- A loop that compares modulo 2^32 finds all acknowledged packets. -/
theorem Laid.dropWhile_eq (h : Laid una a n q) (hn : n < 2 ^ 31) (hkn : k ≤ n) :
    q.dropWhile (fun p => seqlteq p.endseq (num una k)) =
      q.filter fun p => !seqlteq p.endseq (num una k) := by
  induction q generalizing a with
  | nil => rfl
  | cons p q ih =>
      have hen := h.end_le
      have hp : seqlteq p.endseq (num una k) = decide (a + p.seqlen.toNat ≤ k) := by
        rw [h.endseq, seqlteq_num (by omega) (by omega)]
      by_cases he : a + p.seqlen.toNat ≤ k
      · rw [List.dropWhile_cons_of_pos (by simpa [hp] using he),
          List.filter_cons_of_neg (by simpa [hp] using he), ih h.tail]
      · rw [dropWhile_cons_eq_self.mpr (by simpa [hp] using he),
          List.filter_cons_of_pos (by simpa [hp] using he),
          h.tail.filter_eq_self hn (by omega) hkn]

/-- **An acknowledgement before the wrap** removes too much if the first packet that
should stay ends behind the wrap. -/
theorem Laid.before_wrap (h : Laid una a n q) (hn : n < 2 ^ 31) (hkn : k ≤ n)
    (hwrap : una.toNat + k < 2 ^ 32) :
    q.dropWhile (fun p => !decide (num una k < p.endseq)) =
        q.filter (fun p => !seqlteq p.endseq (num una k)) ↔
      ∀ p, q.find? (fun p => !seqlteq p.endseq (num una k)) = some p →
        num una k < p.endseq := by
  induction q generalizing a with
  | nil => simp
  | cons p q ih =>
      have hen := h.end_le
      have hp : seqlteq p.endseq (num una k) = decide (a + p.seqlen.toNat ≤ k) := by
        rw [h.endseq, seqlteq_num (by omega) (by omega)]
      by_cases he : a + p.seqlen.toNat ≤ k
      · -- acknowledged, and removed: both ends are on this side of the wrap
        have hcode : ¬ num una k < p.endseq := by
          rw [h.endseq, lt_def, num_toNat, num_toNat]
          omega
        rw [List.dropWhile_cons_of_pos (by simpa using hcode),
          List.filter_cons_of_neg (by simpa [hp] using he),
          List.find?_cons_of_neg (by simpa [hp] using he), ih h.tail]
      · rw [List.filter_cons_of_pos (by simpa [hp] using he),
          List.find?_cons_of_pos (by simpa [hp] using he),
          h.tail.filter_eq_self hn (by omega) hkn, dropWhile_cons_eq_self]
        simp

/-- **An acknowledgement behind the wrap** removes nothing if the first packet ends
before it. -/
theorem Laid.behind_wrap (h : Laid una 0 n q) (hn : n < 2 ^ 31) (hkn : k ≤ n)
    (hwrap : 2 ^ 32 ≤ una.toNat + k) :
    q.dropWhile (fun p => !decide (num una k < p.endseq)) =
        q.filter (fun p => !seqlteq p.endseq (num una k)) ↔
      ∀ p, q.head? = some p → p.endseq < una := by
  cases q with
  | nil => simp
  | cons p q =>
      have hen := h.end_le
      simp only [List.head?_cons, Option.some.injEq, forall_eq']
      have hend : p.endseq < una ↔ 2 ^ 32 ≤ una.toNat + (0 + p.seqlen.toNat) := by
        rw [h.endseq, lt_def, num_toNat]
        omega
      rw [hend]
      by_cases he : 2 ^ 32 ≤ una.toNat + (0 + p.seqlen.toNat)
      · refine iff_of_true ?_ he
        rw [← h.dropWhile_eq hn hkn]
        refine dropWhile_eq_of_forall fun r hr => ?_
        obtain ⟨e, hpe, hrn, hr⟩ : ∃ e, 0 + p.seqlen.toNat ≤ e ∧ e ≤ n ∧
            r.endseq = num una e := by
          rcases List.mem_cons.mp hr with rfl | hr
          · exact ⟨_, le_rfl, hen, h.endseq⟩
          · exact h.tail.exists_end r hr
        rw [hr, seqlteq_num (by omega) (by omega), ← decide_not, decide_eq_decide, lt_def,
          num_toNat, num_toNat]
        omega
      · refine iff_of_false (fun heq => ?_) he
        have hcode : num una k < p.endseq := by
          rw [h.endseq, lt_def, num_toNat, num_toNat]
          omega
        have hspec : seqlteq p.endseq (num una k) = true := by
          rw [h.endseq, seqlteq_num (by omega) (by omega), decide_eq_true (by omega)]
        rw [dropWhile_cons_eq_self.mpr (by simpa using hcode),
          List.filter_cons_of_neg (by simp [hspec])] at heq
        have hlength := List.length_filter_le (fun p => !seqlteq p.endseq (num una k)) q
        rw [← heq, List.length_cons] at hlength
        omega

/-! ## `ackarrived` -/

theorem ackarrived_unackedq (s : Sndside) (passedtick : Nat) (ack : Seq) :
    (s.ackarrived passedtick ack).unackedq =
      s.unackedq.dropWhile fun p => !decide (ack < p.endseq) := by
  unfold Sndside.ackarrived
  dsimp only
  split
  · next hnone =>
      have hsplit := List.takeWhile_append_dropWhile (p := fun p : Pkt => !decide (ack < p.endseq))
        (l := s.unackedq)
      rw [hnone, List.nil_append] at hsplit
      exact hsplit.symm
  · rfl

/-- The timer runs while there is something to send again. -/
theorem ackarrived_rexmittm {s : Sndside} (h : s.rexmittm.isSome ↔ s.unackedq ≠ [])
    (passedtick : Nat) (ack : Seq) :
    (s.ackarrived passedtick ack).rexmittm.isSome ↔
      (s.ackarrived passedtick ack).unackedq ≠ [] := by
  unfold Sndside.ackarrived
  dsimp only
  split
  · exact h
  · split
    · next hleft => simp [hleft]
    · next hleft => simp [hleft]

/-- Two packets in flight, the second one across the wrap. -/
def sndOfWrap : Sndside :=
  let p : Pkt := ⟨⟨0, 0, 0, 0, TCPFACK, 0, 0, []⟩, [], 60, 0, 0xffffffe0, 0xfffffff0, true⟩
  { sndnxt := 0x10, sndwnd := 0, cursndbuf := 0, lastseq := 0, lastack := 0, nrexmit := 0
    rexmittm := some 8, rtt := 4, outlog := []
    unackedq := [p, { p with startseq := 0xfffffff0, endseq := 0x10 }] }

theorem sndOfWrap_flight : sndOfWrap.Flight 0xffffffe0 where
  laid :=
    { chain := List.isChain_pair.mpr rfl
      head := by
        rintro p ⟨⟩
        decide
      room := by decide }
  half := by decide

end Unixlite.Net
