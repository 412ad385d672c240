import Unixlite.Kern.FdesTable

/-!
# Reference counts of descriptors

The count of a descriptor is the number of references to it, and the counts of
a pipe are the numbers of its live ends.  `Counted` says so for any reading of
the references; each function of the descriptors is given with the references
it adds or takes away, and `Inv` reads the references off the tables.
-/

namespace Unixlite.Files

open Unixlite.Verified.Partial Unixlite.Verified.Refcount
open Function (update update_apply update_eq_self update_idem update_of_ne update_self)
open Option Finset
open Sys (get_eq_some lose_same new newProc setFdes slot slot_setClose)

/-! ## Counts -/

/-- The end of a pipe that a descriptor is; `true` is the read end. -/
def Fdes.pipeEnd (d : Fdes) : Option (Nat × Bool) :=
  match d.type with
  | .pipe q => some (q, decide (d.fdflags &&& FDREAD ≠ 0))
  | _ => none

/-- The number of live read ends (write ends) of a pipe. -/
def Sys.ends (s : Sys) (q : Nat) (read : Bool) : Nat :=
  refs (Finset.range s.nfdes) (fun o => (s.fdes o).bind Fdes.pipeEnd) (q, read)

/-- A pipe with these ends; without any it is deleted. -/
def pipeOf (nreader nwriter : Nat) : Option Pipe :=
  if nreader = 0 ∧ nwriter = 0 then none else some ⟨nreader, nwriter⟩

/-- The objects have the counts `r`. -/
structure Live (s : Sys) (r : Nat → Nat) : Prop where
  count : ∀ {o d}, s.fdes o = some d → d.refcnt = r o
  live : ∀ o, (∃ d, s.fdes o = some d) ↔ 0 < r o
  fresh : ∀ {o}, s.nfdes ≤ o → s.fdes o = none

/-- The objects have the counts `r`, and the pipes those of their ends. -/
structure Counted (s : Sys) (r : Nat → Nat) : Prop extends Live s r where
  pipe : ∀ q, s.pipe q = pipeOf (s.ends q true) (s.ends q false)
  freshPipe : ∀ {q}, s.npipe ≤ q → s.pipe q = none

variable {s : Sys} {r : Nat → Nat} {o q : Nat} {d : Fdes}

theorem Live.lt (h : Live s r) (ho : s.fdes o = some d) : o < s.nfdes := by
  by_contra hge
  rw [h.fresh (by omega)] at ho
  cases ho

/-- Nothing here speaks of the tables. -/
theorem Counted.of_eq {t : Sys} (h : Counted s r) (hfdes : t.fdes = s.fdes)
    (hnfdes : t.nfdes = s.nfdes) (hpipe : t.pipe = s.pipe) (hnpipe : t.npipe = s.npipe) :
    Counted t r := by
  have hends : t.ends = s.ends := by
    unfold Sys.ends
    rw [hfdes, hnfdes]
  refine ⟨⟨?_, ?_, ?_⟩, ?_, ?_⟩
  · rw [hfdes]; exact h.count
  · rw [hfdes]; exact h.live
  · rw [hfdes, hnfdes]; exact h.fresh
  · rw [hpipe, hends]; exact h.pipe
  · rw [hpipe, hnpipe]; exact h.freshPipe

/-! ### Ends -/

/-- A change that leaves the end a descriptor is. -/
theorem ends_setFdes_some {d' : Fdes} (ho : s.fdes o = some d)
    (hend : d'.pipeEnd = d.pipeEnd) : (s.setFdes o (some d')).ends = s.ends := by
  funext q read
  refine refs_congr fun x _ => ?_
  simp only [setFdes, update_apply]
  split
  · next hx => subst hx; simp [ho, hend]
  · rfl

theorem ends_setFdes_none (ho : s.fdes o = some d) (hlt : o < s.nfdes) (q : Nat) (read : Bool) :
    (s.setFdes o none).ends q read + (if d.pipeEnd = some (q, read) then 1 else 0) =
      s.ends q read := by
  have hfun : (fun x => ((s.setFdes o none).fdes x).bind Fdes.pipeEnd) =
      update (fun x => (s.fdes x).bind Fdes.pipeEnd) o none := by
    funext x
    simp only [setFdes, update_apply]
    split <;> rfl
  have h := refs_update (f := fun x => (s.fdes x).bind Fdes.pipeEnd) (o := (q, read))
    (mem_range.mpr hlt) none
  simp only [ho, bind_some, reduceCtorEq, if_false, Nat.add_zero] at h
  unfold Sys.ends
  rw [hfun]
  exact h

theorem ends_new (s : Sys) (type : Fdtype) (fdflags : BitVec 32) (q : Nat) (read : Bool) :
    (s.new type fdflags).2.ends q read = s.ends q read +
      if Fdes.pipeEnd ⟨type, fdflags, 1⟩ = some (q, read) then 1 else 0 := by
  unfold Sys.ends
  simp only [new, range_add_one]
  rw [refs_insert notMem_range_self]
  congr 1
  · refine refs_congr fun x hx => ?_
    have hne : x ≠ s.nfdes := (mem_range.mp hx).ne
    simp [hne]
  · simp

/-- A live descriptor is one of the ends of its pipe. -/
theorem Counted.ends_pos (h : Counted s r)
    {read : Bool} (ho : s.fdes o = some d) (hend : d.pipeEnd = some (q, read)) :
    0 < s.ends q read :=
  refs_pos.mpr ⟨o, mem_range.mpr (h.lt ho), by simp [ho, hend]⟩

/-! ### `hold` and `lose` -/

/-- A live descriptor is written to; it stays the end it is. -/
theorem setFdes_counted (h : Counted s r) {d' : Fdes}
    (hd : s.fdes o = some d) (hend : d'.pipeEnd = d.pipeEnd) (hpos : 0 < d'.refcnt) :
    Counted (s.setFdes o (some d')) (update r o d'.refcnt) := by
  refine ⟨⟨?_, ?_, ?_⟩, ?_, h.freshPipe⟩
  · intro x e hx
    by_cases hxo : x = o
    · subst hxo
      simp only [setFdes, update_self, some.injEq] at hx
      simp [← hx]
    · simp only [setFdes, update_of_ne hxo] at hx
      simp [hxo, h.count hx]
  · intro x
    by_cases hxo : x = o
    · subst hxo
      simp [setFdes, hpos]
    · simp only [setFdes, update_of_ne hxo]
      exact h.live x
  · intro x hx
    have hne : x ≠ o := by
      have := h.lt hd
      simp only [setFdes] at hx
      omega
    simp only [setFdes, update_of_ne hne]
    exact h.fresh hx
  · intro q
    rw [ends_setFdes_some hd hend]
    exact h.pipe q

theorem hold_counted (h : Counted s r) (ho : 0 < r o) :
    ∃ t, s.hold o = .ok t ∧ Counted t (update r o (r o + 1)) := by
  obtain ⟨d, hd⟩ := (h.live o).mpr ho
  refine ⟨s.setFdes o (some { d with refcnt := d.refcnt + 1 }), by simp [Sys.hold, hd], ?_⟩
  rw [← h.count hd]
  exact setFdes_counted h hd rfl (Nat.succ_pos _)

theorem rlose_eq {x : Pipe} (hq : s.pipe q = some x) (hx : 0 < x.nreader) :
    s.rlose q = .ok (s.setPipe q (pipeOf (x.nreader - 1) x.nwriter)) := by
  have hne : x.nreader ≠ 0 := by omega
  simp only [Sys.rlose, hq, hne, if_false, pipeOf]
  split_ifs <;> first | rfl | omega

theorem wlose_eq {x : Pipe} (hq : s.pipe q = some x) (hx : 0 < x.nwriter) :
    s.wlose q = .ok (s.setPipe q (pipeOf x.nreader (x.nwriter - 1))) := by
  have hne : x.nwriter ≠ 0 := by omega
  simp only [Sys.wlose, hq, hne, if_false, pipeOf]
  split_ifs <;> first | rfl | omega

theorem pipeOf_pos {n m : Nat} (h : 0 < n ∨ 0 < m) : pipeOf n m = some ⟨n, m⟩ := by
  unfold pipeOf
  rw [if_neg (by omega)]

/-- The destructor of an end: its pipe loses it. -/
theorem lose_end (h : Counted s r) (ho : s.fdes o = some d) (htype : d.type = .pipe q) :
    ∃ x, (if d.fdflags &&& FDREAD ≠ 0 then s.rlose q else s.wlose q) = .ok (s.setPipe q x) ∧
      x = pipeOf ((s.setFdes o none).ends q true) ((s.setFdes o none).ends q false) := by
  have hpipe := h.pipe q
  have hend : d.pipeEnd = some (q, decide (d.fdflags &&& FDREAD ≠ 0)) := by
    simp [Fdes.pipeEnd, htype]
  have hpos := h.ends_pos ho hend
  have ht := ends_setFdes_none ho (h.lt ho) q true
  have hf := ends_setFdes_none ho (h.lt ho) q false
  by_cases hread : d.fdflags &&& FDREAD ≠ 0
  · simp only [hend, hread, decide_true, some.injEq, Prod.mk.injEq, true_and, if_true,
      Bool.true_eq_false, if_false, ne_eq, not_false_eq_true] at ht hf hpos ⊢
    rw [pipeOf_pos (.inl hpos)] at hpipe
    refine ⟨_, rlose_eq hpipe hpos, ?_⟩
    congr 1 <;> dsimp only <;> omega
  · simp only [hend, hread, decide_false, some.injEq, Prod.mk.injEq, true_and, if_true,
      Bool.false_eq_true, if_false] at ht hf hpos ⊢
    rw [pipeOf_pos (.inr hpos)] at hpipe
    refine ⟨_, wlose_eq hpipe hpos, ?_⟩
    congr 1 <;> dsimp only <;> omega

/-- The destructor: the descriptor is gone, and its pipe has one end less. -/
theorem destroy_eq (h : Counted s r) (ho : s.fdes o = some d) :
    ∃ t, s.destroy o d = .ok t ∧ t.fdes = update s.fdes o none ∧
      t.nfdes = s.nfdes ∧ t.npipe = s.npipe ∧
      (∀ q, t.pipe q = pipeOf (t.ends q true) (t.ends q false)) ∧
      ∀ q, s.pipe q = none → t.pipe q = none := by
  have hkeep : ∀ q, (∀ read, d.pipeEnd ≠ some (q, read)) →
      s.pipe q = pipeOf ((s.setFdes o none).ends q true) ((s.setFdes o none).ends q false) := by
    intro q hq
    have ht := ends_setFdes_none ho (h.lt ho) q true
    have hf := ends_setFdes_none ho (h.lt ho) q false
    simp only [hq, if_false, Nat.add_zero] at ht hf
    rw [ht, hf]
    exact h.pipe q
  unfold Sys.destroy
  cases htype : d.type with
  | file | sock =>
      exact ⟨s.setFdes o none, rfl, rfl, rfl, rfl,
        fun q => hkeep q (by simp [Fdes.pipeEnd, htype]), fun _ hq => hq⟩
  | pipe q =>
      obtain ⟨x, hlose, hx⟩ := lose_end h ho htype
      refine ⟨(s.setPipe q x).setFdes o none, ?_, rfl, rfl, rfl, ?_, ?_⟩
      · simp only [hlose]
        rfl
      · intro q'
        by_cases hq : q' = q
        · subst hq
          change update s.pipe q' x q' = _
          rw [update_self, hx]
          rfl
        · change update s.pipe q x q' = _
          rw [update_of_ne hq]
          refine hkeep q' fun read => ?_
          simp only [Fdes.pipeEnd, htype, ne_eq, some.injEq, Prod.mk.injEq, not_and]
          exact fun hqq => absurd hqq.symm hq
      · intro q' hq'
        by_cases hq : q' = q
        · subst hq
          have hend : d.pipeEnd = some (q', decide (d.fdflags &&& FDREAD ≠ 0)) := by
            simp [Fdes.pipeEnd, htype]
          have hpos := h.ends_pos ho hend
          have hlive : s.pipe q' = some ⟨s.ends q' true, s.ends q' false⟩ := by
            rw [h.pipe q']
            refine pipeOf_pos ?_
            cases hb : decide (d.fdflags &&& FDREAD ≠ 0) with
            | true => rw [hb] at hpos; exact .inl hpos
            | false => rw [hb] at hpos; exact .inr hpos
          rw [hlive] at hq'
          cases hq'
        · change update s.pipe q x q' = none
          rw [update_of_ne hq, hq']

theorem lose_counted (h : Counted s r) (ho : 0 < r o) :
    ∃ t, s.lose o = .ok t ∧ Counted t (update r o (r o - 1)) := by
  obtain ⟨d, hd⟩ := (h.live o).mpr ho
  have hcount := h.count hd
  have hpos : d.refcnt ≠ 0 := by omega
  by_cases hlast : d.refcnt - 1 = 0
  · obtain ⟨t, ht, hfdes, hnfdes, hnpipe, hpipe, hdead⟩ := destroy_eq h hd
    refine ⟨t, by simp [Sys.lose, hd, hpos, hlast, ht], ⟨?_, ?_, ?_⟩, hpipe, ?_⟩
    · intro x e hx
      rw [hfdes] at hx
      by_cases hxo : x = o
      · subst hxo
        simp at hx
      · rw [update_of_ne hxo] at hx ⊢
        exact h.count hx
    · intro x
      rw [hfdes]
      by_cases hxo : x = o
      · subst hxo
        simp only [update_self, reduceCtorEq, exists_false, false_iff]
        omega
      · rw [update_of_ne hxo, update_of_ne hxo]
        exact h.live x
    · intro x hx
      rw [hnfdes] at hx
      rw [hfdes, update_apply]
      split
      · rfl
      · exact h.fresh hx
    · intro q hq
      rw [hnpipe] at hq
      exact hdead q (h.freshPipe hq)
  · refine ⟨s.setFdes o (some { d with refcnt := d.refcnt - 1 }), by
      simp [Sys.lose, hd, hpos, hlast], ?_⟩
    rw [← hcount]
    exact setFdes_counted h hd rfl (Nat.pos_of_ne_zero hlast)

/-! ### `new` -/

theorem new_live (h : Live s r) (type : Fdtype) (fdflags : BitVec 32) :
    r s.nfdes = 0 ∧ Live (s.new type fdflags).2 (update r s.nfdes 1) := by
  refine ⟨?_, ?_, ?_, ?_⟩
  · by_contra hne
    obtain ⟨d, hd⟩ := (h.live s.nfdes).mpr (Nat.pos_of_ne_zero hne)
    rw [h.fresh (Nat.le_refl _)] at hd
    cases hd
  · intro o d ho
    by_cases hne : o = s.nfdes
    · subst hne
      simp only [new, update_self, some.injEq] at ho
      simp [← ho]
    · simp only [new, update_of_ne hne] at ho
      simp [hne, h.count ho]
  · intro o
    by_cases hne : o = s.nfdes
    · subst hne
      simp [new]
    · simp only [new, update_of_ne hne]
      exact h.live o
  · intro o ho
    simp only [new] at ho
    have hne : o ≠ s.nfdes := by omega
    simp only [new, update_of_ne hne]
    exact h.fresh (by omega)

/-- A new descriptor that is not an end of a pipe. -/
theorem new_counted (h : Counted s r) {type : Fdtype}
    {fdflags : BitVec 32} (hplain : Fdes.pipeEnd ⟨type, fdflags, 1⟩ = none) :
    r s.nfdes = 0 ∧ Counted (s.new type fdflags).2 (update r s.nfdes 1) := by
  obtain ⟨hzero, hlive⟩ := new_live h.toLive type fdflags
  refine ⟨hzero, hlive, ?_, h.freshPipe⟩
  intro q
  rw [ends_new, ends_new]
  simp only [hplain, reduceCtorEq, if_false, Nat.add_zero]
  exact h.pipe q

/-- No descriptor is an end of a pipe that has not been made. -/
theorem Counted.ends_fresh (h : Counted s r)
    (hq : s.npipe ≤ q) (read : Bool) : s.ends q read = 0 := by
  have hnone := h.freshPipe hq
  rw [h.pipe q] at hnone
  by_contra hne
  have hpos : 0 < s.ends q true ∨ 0 < s.ends q false := by
    cases read
    · exact .inr (Nat.pos_of_ne_zero hne)
    · exact .inl (Nat.pos_of_ne_zero hne)
  rw [pipeOf_pos hpos] at hnone
  cases hnone

/-- A new pipe with its two ends. -/
theorem newPipefds_counted (h : Counted s r) :
    s.newPipefds.1 = s.nfdes ∧ s.newPipefds.2.1 = s.nfdes + 1 ∧
      r s.nfdes = 0 ∧ r (s.nfdes + 1) = 0 ∧
      Counted s.newPipefds.2.2
        (update (update r s.nfdes 1) (s.nfdes + 1) 1) := by
  have hpipe : Live s.newPipe.2 r := ⟨h.count, h.live, h.fresh⟩
  obtain ⟨hzero, hread⟩ := new_live hpipe (.pipe s.npipe) FDREAD
  obtain ⟨hzero', hwrite⟩ := new_live hread (.pipe s.npipe) FDWRITE
  have hends : ∀ q read, s.newPipefds.2.2.ends q read =
      s.ends q read + if q = s.npipe then 1 else 0 := by
    intro q read
    have hw : s.newPipefds.2.2.ends q read = _ :=
      ends_new ((s.newPipe).2.new (.pipe s.npipe) FDREAD).2 (.pipe s.npipe) FDWRITE q read
    have hr := ends_new s.newPipe.2 (.pipe s.npipe) FDREAD q read
    rw [hw, hr]
    change s.ends q read + _ + _ = _
    cases read <;> simp [Fdes.pipeEnd, FDREAD, FDWRITE, eq_comm]
  refine ⟨rfl, rfl, hzero, ?_, hwrite, ?_, ?_⟩
  · have hne : s.nfdes + 1 ≠ s.nfdes := by omega
    have hzero'' : update r s.nfdes 1 (s.nfdes + 1) = 0 := hzero'
    rwa [update_of_ne hne] at hzero''
  · intro q
    rw [hends, hends]
    change update s.pipe s.npipe (some ⟨1, 1⟩) q = _
    by_cases hq : q = s.npipe
    · subst hq
      rw [h.ends_fresh (Nat.le_refl _), h.ends_fresh (Nat.le_refl _)]
      simp [pipeOf]
    · simp only [update_of_ne hq, hq, if_false, Nat.add_zero]
      exact h.pipe q
  · intro q hq
    change s.npipe + 1 ≤ q at hq
    have hne : q ≠ s.npipe := by omega
    change update s.pipe s.npipe (some ⟨1, 1⟩) q = none
    rw [update_of_ne hne]
    exact h.freshPipe (by omega)

/-! ## The invariant -/

namespace Sys

/-- The slots in use: below `NOPEN`, of the processes there have been. -/
def pairs (s : Sys) : Finset (Nat × Nat) := Finset.range s.nproc ×ˢ Finset.range NOPEN

/-- The number of (process, slot) pairs that hold an object. -/
def held (s : Sys) (o : Nat) : Nat := refs s.pairs s.slot o

theorem mem_pairs {s : Sys} {p i : Nat} : (p, i) ∈ s.pairs ↔ p < s.nproc ∧ i < NOPEN := by
  simp [pairs]

end Sys

/-- The invariant: the references that are counted are those in the tables. -/
structure Inv (s : Sys) : Prop where
  counted : Counted s s.held
  slot : ∀ {x o}, s.slot x = some o → x ∈ s.pairs
  alive : ∀ {p}, s.alive p = true → p < s.nproc

variable {s t : Sys} {i o p : Nat}

/-- What a slot holds is live. -/
theorem Inv.held_pos (h : Inv s) {x : Nat × Nat} (hx : s.slot x = some o) : 0 < s.held o :=
  refs_pos.mpr ⟨x, h.slot hx, hx⟩

theorem held_fill (hmem : (p, i) ∈ s.pairs) (hfree : s.slot (p, i) = none) :
    (s.setVec p i (some o)).held = update s.held o (s.held o + 1) := by
  funext x
  have h : (s.setVec p i (some o)).held x = s.held x + if o = x then 1 else 0 := by
    unfold Sys.held
    rw [Sys.slot_setVec]
    exact refs_update_none hmem hfree o
  rw [h, update_apply]
  by_cases hx : x = o
  · subst hx; simp
  · simp [hx, Ne.symm hx]

theorem held_clear (hmem : (p, i) ∈ s.pairs) (hslot : s.slot (p, i) = some o) :
    (s.setVec p i none).held = update s.held o (s.held o - 1) := by
  funext x
  have h : (s.setVec p i none).held x + (if o = x then 1 else 0) = s.held x := by
    unfold Sys.held
    rw [Sys.slot_setVec]
    exact refs_update_clear hmem hslot
  rw [update_apply]
  by_cases hx : x = o
  · subst hx
    simp only [if_true] at h ⊢
    omega
  · simpa [hx, Ne.symm hx] using h

theorem SameTable.held (h : s.SameTable t) : t.held = s.held := by
  unfold Sys.held Sys.pairs
  rw [h.slot, h.nproc]

theorem SameTable.pairs (h : s.SameTable t) : t.pairs = s.pairs := by
  unfold Sys.pairs
  rw [h.nproc]

theorem SameTable.inv (h : s.SameTable t) (hs : Inv s) (hcounted : Counted t s.held) : Inv t where
  counted := by rwa [SameTable.held h]
  slot := fun hx => by
    rw [SameTable.pairs h]
    exact hs.slot (by rwa [h.slot] at hx)
  alive := fun hp => by
    rw [h.nproc]
    exact hs.alive (by rwa [h.alive] at hp)

/-- A slot is written and the counts agree with it again. -/
theorem inv_setVec {v : Option Nat} (hmem : (p, i) ∈ s.pairs)
    (hslot : ∀ {x o}, s.slot x = some o → x ∈ s.pairs)
    (halive : ∀ {p}, s.alive p = true → p < s.nproc)
    (hcounted : Counted s (s.setVec p i v).held) : Inv (s.setVec p i v) where
  counted := hcounted.of_eq rfl rfl rfl rfl
  slot := by
    intro x o hx
    rw [Sys.slot_setVec] at hx
    by_cases hxp : x = (p, i)
    · subst hxp; exact hmem
    · rw [update_of_ne hxp] at hx
      exact hslot hx
  alive := halive

/-! ## One slot -/

theorem inv_setClose (h : Inv s) (p i : Nat) (b : Bool) : Inv (s.setClose p i b) := by
  have hheld : (s.setClose p i b).held = s.held := by
    unfold Sys.held
    rw [slot_setClose]
    rfl
  refine ⟨?_, ?_, h.alive⟩
  · rw [hheld]
    exact h.counted.of_eq rfl rfl rfl rfl
  · intro x o hx
    rw [slot_setClose] at hx
    exact h.slot hx

theorem holdInto_inv (h : Inv s) (hmem : (p, i) ∈ s.pairs)
    (hfree : s.slot (p, i) = none) (ho : 0 < s.held o) :
    ∃ t, s.holdInto p i o = .ok t ∧ Inv t := by
  obtain ⟨u, hu, hcounted⟩ := hold_counted h.counted ho
  have hsame := Sys.hold_same hu
  refine ⟨u.setVec p i (some o), by simp [Sys.holdInto, hu], ?_⟩
  refine inv_setVec ?_ ?_ ?_ ?_
  · rwa [SameTable.pairs hsame]
  · rw [hsame.slot, SameTable.pairs hsame]; exact h.slot
  · rw [hsame.alive, hsame.nproc]; exact h.alive
  · rw [held_fill, SameTable.held hsame]
    · exact hcounted
    · rwa [SameTable.pairs hsame]
    · rwa [hsame.slot]

theorem drop_inv (h : Inv s) (hslot : s.slot (p, i) = some o) :
    ∃ t, s.drop p i o = .ok t ∧ Inv t := by
  have hmem := h.slot hslot
  obtain ⟨u, hu, hcounted⟩ := lose_counted h.counted (h.held_pos hslot)
  have hsame := lose_same hu
  refine ⟨u.setVec p i none, by simp [Sys.drop, hu], ?_⟩
  refine inv_setVec ?_ ?_ ?_ ?_
  · rwa [SameTable.pairs hsame]
  · rw [hsame.slot, SameTable.pairs hsame]; exact h.slot
  · rw [hsame.alive, hsame.nproc]; exact h.alive
  · rw [held_clear, SameTable.held hsame]
    · exact hcounted
    · rwa [SameTable.pairs hsame]
    · rwa [hsame.slot]

/-! ## Calls -/

section
variable {s : Sys} {p : Nat}

theorem mem_pairs_of_alive (h : Inv s) (hp : s.alive p = true) {i : Nat} (hi : i < NOPEN) :
    (p, i) ∈ s.pairs := Sys.mem_pairs.mpr ⟨h.alive hp, hi⟩

theorem putNew_inv (h : Inv s) (hp : s.alive p = true) {type : Fdtype} {fdflags : BitVec 32}
    (hplain : Fdes.pipeEnd ⟨type, fdflags, 1⟩ = none) :
    ∃ r t, s.putNew p type fdflags = .ok (r, t) ∧ Inv t := by
  obtain ⟨hzero, hcounted⟩ := new_counted h.counted hplain
  have hsame := Sys.new_same s type fdflags
  cases hslot : (s.new type fdflags).2.getslot p with
  | none =>
      -- the new object is lost again
      obtain ⟨u, hu, hlost⟩ := lose_counted hcounted (o := s.nfdes) (by simp)
      refine ⟨EMFILE, u, ?_, ?_⟩
      · have hlose : (s.new type fdflags).2.lose (s.new type fdflags).1 = .ok u := hu
        simp only [Sys.putNew, Sys.put, hslot, hlose]
        rfl
      · refine SameTable.inv (hsame.trans (lose_same hu)) h ?_
        have hheld : update (update s.held s.nfdes 1) s.nfdes 0 = s.held := by
          rw [update_idem, ← hzero, update_eq_self]
        simpa [hheld] using hlost
  | some e =>
      obtain ⟨he, hfree⟩ := Sys.getslot_some hslot
      refine ⟨e, (s.new type fdflags).2.setVec p e (some (s.new type fdflags).1), ?_, ?_⟩
      · have hneg : ¬ ((e : Int) < 0) := by omega
        simp only [Sys.putNew, Sys.put, hslot, hneg, if_false]
      · refine inv_setVec ?_ ?_ ?_ ?_
        · exact mem_pairs_of_alive h hp he
        · exact h.slot
        · exact h.alive
        · rw [held_fill (s := (s.new type fdflags).2) (mem_pairs_of_alive h hp he) hfree,
            SameTable.held hsame]
          change Counted _ (update s.held s.nfdes (s.held s.nfdes + 1))
          rw [hzero]
          exact hcounted

theorem syspipe_inv (h : Inv s) (hp : s.alive p = true) (ver : Int) :
    ∃ r t, s.syspipe p ver = .ok (r, t) ∧ Inv t := by
  unfold Sys.syspipe
  split
  · exact ⟨ver, s, rfl, h⟩
  obtain ⟨hread, hwrite, hzero, hzero', hcounted⟩ := newPipefds_counted h.counted
  have hsame := Sys.newPipefds_same s
  have hne : s.nfdes + 1 ≠ s.nfdes := by omega
  dsimp only
  rw [hread, hwrite]
  generalize s.newPipefds.2.2 = u at hcounted hsame ⊢
  cases hpair : u.getpair p with
  | none =>
      -- both ends are lost again
      obtain ⟨v, hv, hcounted'⟩ := lose_counted hcounted (o := s.nfdes) (by simp)
      obtain ⟨w, hw, hcounted''⟩ := lose_counted hcounted' (o := s.nfdes + 1) (by simp)
      refine ⟨EMFILE, w, ?_, ?_⟩
      · simp only [Sys.putpair, hpair, hv]
        change (v.lose (s.nfdes + 1) >>= fun s => pure (EMFILE, s)) = _
        rw [hw]
        rfl
      · have htrans := (hsame.trans (lose_same hv)).trans (lose_same hw)
        refine SameTable.inv htrans h ?_
        have hheld : s.held = update (update (update
            (update s.held s.nfdes 1) (s.nfdes + 1) 1) s.nfdes 0) (s.nfdes + 1) 0 := by
          funext x
          simp only [update_apply]
          split_ifs with h1 h2
          · rw [h1, hzero']
          · rw [h2, hzero]
          · rfl
        rw [hheld]
        simpa [hne.symm] using hcounted''
  | some x =>
      obtain ⟨i, j⟩ := x
      obtain ⟨hi, hj, hij, hfi, hfj⟩ := Sys.getpair_some hpair
      refine ⟨0, (u.setVec p i (some s.nfdes)).setVec p j (some (s.nfdes + 1)), ?_, ?_⟩
      · simp only [Sys.putpair, hpair]
        rfl
      · have hpairs := SameTable.pairs hsame
        have hmi : (p, i) ∈ u.pairs := hpairs ▸ mem_pairs_of_alive h hp hi
        have hmj : (p, j) ∈ u.pairs := hpairs ▸ mem_pairs_of_alive h hp hj
        have hfj' : (u.setVec p i (some s.nfdes)).slot (p, j) = none := by
          have hne' : (p, j) ≠ (p, i) := fun h => hij (Prod.mk.inj h).2.symm
          rw [Sys.slot_setVec, update_of_ne hne', hfj]
        refine inv_setVec (s := u.setVec p i (some s.nfdes)) hmj ?_ ?_ ?_
        · intro x o hx
          rw [Sys.slot_setVec] at hx
          by_cases hxi : x = (p, i)
          · subst hxi; exact hmi
          · rw [update_of_ne hxi, hsame.slot] at hx
            exact hpairs ▸ h.slot hx
        · intro q hq
          exact hsame.nproc ▸ h.alive (hsame.alive ▸ hq)
        · rw [held_fill (s := u.setVec p i (some s.nfdes)) hmj hfj', held_fill hmi hfi,
            SameTable.held hsame, hzero, update_of_ne hne, hzero']
          exact hcounted.of_eq rfl rfl rfl rfl

theorem dup_inv (h : Inv s) (hp : s.alive p = true) (fd : Int) :
    ∃ r t, s.dup p fd = .ok (r, t) ∧ Inv t := by
  unfold Sys.dup
  split
  · exact ⟨_, s, rfl, h⟩
  next o ho =>
  split
  · exact ⟨_, s, rfl, h⟩
  next e he =>
  obtain ⟨hlt, hfree⟩ := Sys.getslot_some he
  obtain ⟨t, ht, hinv⟩ := holdInto_inv h (mem_pairs_of_alive h hp hlt) hfree
    (h.held_pos (get_eq_some.mp ho).2.2)
  exact ⟨e, t, by rw [ht]; rfl, hinv⟩

theorem close_inv (h : Inv s) (fd : Int) : ∃ r t, s.close p fd = .ok (r, t) ∧ Inv t := by
  unfold Sys.close
  split
  · exact ⟨_, s, rfl, h⟩
  next o ho =>
  obtain ⟨t, ht, hinv⟩ := drop_inv h (get_eq_some.mp ho).2.2
  exact ⟨0, t.setClose p fd.toNat false, by rw [ht]; rfl, inv_setClose hinv _ _ _⟩

theorem fdupfd_inv (h : Inv s) (hp : s.alive p = true) {fd lowest : Int} {o : Nat}
    (hget : s.get p fd = some o) (hlowest : 0 ≤ lowest) :
    ∃ r t, s.fdupfd p fd lowest = .ok (r, t) ∧ Inv t := by
  unfold Sys.fdupfd
  rw [if_neg (by omega), hget]
  dsimp only
  split
  · exact ⟨_, s, rfl, h⟩
  next i hi =>
  have hlt : i < NOPEN := List.mem_range.mp (List.mem_of_find?_eq_some hi)
  have hfree := List.find?_some hi
  simp only [Bool.and_eq_true, isNone_iff_eq_none] at hfree
  obtain ⟨t, ht, hinv⟩ := holdInto_inv h (mem_pairs_of_alive h hp hlt) hfree.2
    (h.held_pos (get_eq_some.mp hget).2.2)
  exact ⟨i, t, by rw [ht]; rfl, hinv⟩

theorem dup2_inv (h : Inv s) (hp : s.alive p = true) (oldfd newfd : Int) :
    ∃ r t, s.dup2 p oldfd newfd = .ok (r, t) ∧ Inv t := by
  unfold Sys.dup2
  split
  · exact ⟨_, s, rfl, h⟩
  next hvalid =>
  split
  · exact ⟨_, s, rfl, h⟩
  next hne =>
  simp only [not_or, not_lt, not_le, ge_iff_le] at hvalid
  obtain ⟨hold, hlow, hhigh⟩ := hvalid
  obtain ⟨o, ho⟩ := ne_none_iff_exists'.mp hold
  obtain ⟨h0, h1, hslot⟩ := get_eq_some.mp ho
  have hidx : (p, oldfd.toNat) ≠ (p, newfd.toNat) := by
    intro heq
    have := (Prod.mk.inj heq).2
    omega
  have hnew : newfd.toNat < NOPEN := by omega
  -- after the close the new slot is free and the old one is as it was
  obtain ⟨r, u, hclose, hinv⟩ := close_inv h newfd (p := p)
  have hslots : u.slot (p, oldfd.toNat) = some o ∧ u.slot (p, newfd.toNat) = none ∧
      u.nproc = s.nproc := by
    cases hget : s.get p newfd with
    | none =>
        have hfree : s.slot (p, newfd.toNat) = none := by
          rw [eq_none_iff_forall_ne_some]
          intro o' ho'
          have := get_eq_some.mpr ⟨hlow, hhigh, ho'⟩
          rw [hget] at this
          cases this
        simp only [Sys.close, hget] at hclose
        cases hclose
        exact ⟨hslot, hfree, rfl⟩
    | some o' =>
        obtain ⟨-, htab⟩ := Sys.close_tables hget hclose
        rw [htab.slot]
        exact ⟨by rw [update_of_ne hidx, hslot], by simp, htab.nproc⟩
  obtain ⟨holdslot, hfree, hnproc⟩ := hslots
  have hget' : u.get p oldfd = some o := get_eq_some.mpr ⟨h0, h1, holdslot⟩
  have hmem : (p, newfd.toNat) ∈ u.pairs :=
    Sys.mem_pairs.mpr ⟨hnproc ▸ h.alive hp, hnew⟩
  obtain ⟨t, ht, hinvt⟩ := holdInto_inv hinv hmem hfree (hinv.held_pos holdslot)
  refine ⟨newfd, t, ?_, hinvt⟩
  rw [hclose, ok_bind]
  dsimp only
  rw [hget']
  change (do
    let s ← u.holdInto p newfd.toNat o
    return (newfd, s)) = _
  rw [ht]
  rfl

/-- Only open slots are marked. -/
def MapOk (s : Sys) : Prop := ∀ x, s.closemap x = true → s.slot x ≠ none

theorem closeonexec_inv (h : Inv s) (hmap : MapOk s) : ∃ t, s.closeonexec p = .ok t ∧ Inv t := by
  suffices hloop : ∃ t, s.closeonexec p = .ok t ∧ (Inv t ∧ MapOk t) by
    obtain ⟨t, ht, hinv, -⟩ := hloop
    exact ⟨t, ht, hinv⟩
  refine foldlM_range_ok (P := fun _ t => Inv t ∧ MapOk t) ?_ ⟨h, hmap⟩
  rintro i u - ⟨hinv, hmapu⟩
  unfold Sys.closeonexecOne
  split
  · next hset =>
      have hbit : u.closemap (p, i) = true := by
        unfold Sys.tst at hset
        unfold Sys.closemap
        simpa using hset
      obtain ⟨o, ho⟩ := ne_none_iff_exists'.mp (hmapu _ hbit)
      rw [ho]
      obtain ⟨t, ht, hinvt⟩ := drop_inv (s := u.setClose p i false) (p := p) (i := i) (o := o)
        (inv_setClose hinv p i false) (by rw [slot_setClose, ho])
      refine ⟨t, ht, hinvt, ?_⟩
      have htab := Sys.drop_tables ht
      intro x hx
      rw [htab.closemap, Sys.closemap_setClose] at hx
      rw [htab.slot, slot_setClose]
      by_cases hxi : x = (p, i)
      · subst hxi
        simp at hx
      · rw [update_of_ne hxi] at hx ⊢
        exact hmapu x hx
  · exact ⟨u, rfl, hinv, hmapu⟩

theorem closeall_inv (h : Inv s) : ∃ t, s.closeall p = .ok t ∧ Inv t := by
  refine foldlM_range_ok (P := fun _ t => Inv t) ?_ h
  intro i u _ hinv
  unfold Sys.closeallOne
  split
  · exact ⟨u, rfl, hinv⟩
  · next o ho => exact drop_inv hinv ho

/-- A new process holds nothing. -/
theorem slot_newProc (h : Inv s) : s.newProc.slot = s.slot := by
  funext x
  by_cases hx : x.1 = s.nproc
  · have hnone : s.slot x = none := by
      rw [eq_none_iff_forall_ne_some]
      intro o ho
      have := (Sys.mem_pairs.mp (h.slot ho)).1
      omega
    rw [hnone]
    simp [slot, newProc, hx, Fdvec.new]
  · simp [slot, newProc, hx]

theorem newProc_inv (h : Inv s) : Inv s.newProc := by
  have hsub : s.pairs ⊆ s.newProc.pairs := by
    rintro ⟨q, i⟩ hx
    rw [Sys.mem_pairs] at hx ⊢
    exact ⟨Nat.lt_succ_of_lt hx.1, hx.2⟩
  have hheld : s.newProc.held = s.held := by
    funext o
    unfold Sys.held
    rw [slot_newProc h]
    refine refs_mono hsub fun x _ hx => ?_
    rw [eq_none_iff_forall_ne_some]
    exact fun o ho => hx (h.slot ho)
  refine ⟨?_, ?_, ?_⟩
  · rw [hheld]
    exact h.counted.of_eq rfl rfl rfl rfl
  · intro x o hx
    rw [slot_newProc h] at hx
    exact hsub (h.slot hx)
  · intro q hq
    simp only [newProc, update_apply] at hq ⊢
    split at hq
    · omega
    · exact Nat.lt_succ_of_lt (h.alive hq)

theorem clone_inv (h : Inv s) (hp : s.alive p = true) : ∃ t, s.clone p = .ok t ∧ Inv t := by
  -- the slots of the child from `i` on are free
  suffices hloop : ∃ t, s.clone p = .ok t ∧ (Inv t ∧ t.nproc = s.nproc + 1 ∧
      ∀ j, NOPEN ≤ j → t.slot (s.nproc, j) = none) by
    obtain ⟨t, ht, hinv, -⟩ := hloop
    exact ⟨t, ht, hinv⟩
  refine foldlM_range_ok (P := fun i t => Inv t ∧ t.nproc = s.nproc + 1 ∧
    ∀ j, i ≤ j → t.slot (s.nproc, j) = none) ?_ ⟨newProc_inv h, rfl, ?_⟩
  · rintro i u hi ⟨hinv, hnproc, hfree⟩
    unfold Sys.cloneOne
    split
    · exact ⟨u, rfl, hinv, hnproc, fun j hj => hfree j (by omega)⟩
    · next o ho =>
        have hmem : (s.nproc, i) ∈ u.pairs := Sys.mem_pairs.mpr ⟨by omega, hi⟩
        obtain ⟨t, ht, hinvt⟩ :=
          holdInto_inv hinv hmem (hfree i (Nat.le_refl i)) (hinv.held_pos ho)
        have htab := Sys.holdInto_tables ht
        refine ⟨t, ht, hinvt, htab.nproc.trans hnproc, fun j hj => ?_⟩
        have hne : (s.nproc, j) ≠ (s.nproc, i) := by
          intro heq
          have := (Prod.mk.inj heq).2
          omega
        rw [htab.slot, update_of_ne hne]
        exact hfree j (by omega)
  · intro j _
    simp [slot, newProc, Fdvec.new]

theorem dispose_inv (h : Inv s) (hempty : ∀ i, s.slot (p, i) = none) : Inv (s.dispose p) := by
  have hslot : (s.dispose p).slot = s.slot := by
    funext x
    by_cases hx : x.1 = p
    · obtain ⟨q, i⟩ := x
      subst hx
      rw [hempty i]
      simp [slot, Sys.dispose, Fdvec.new]
    · simp [slot, Sys.dispose, hx]
  have hheld : (s.dispose p).held = s.held := by
    unfold Sys.held
    rw [hslot]
    rfl
  refine ⟨?_, ?_, ?_⟩
  · rw [hheld]
    exact h.counted.of_eq rfl rfl rfl rfl
  · intro x o hx
    rw [hslot] at hx
    exact h.slot hx
  · intro q hq
    simp only [Sys.dispose, update_apply] at hq
    split at hq
    · cases hq
    · exact h.alive hq

end

end Unixlite.Files
