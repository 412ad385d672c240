import Unixlite.Kern.Fdes
import Unixlite.Verified.Partial
import Unixlite.Verified.Run

/-!
# What a call does to the tables

The slots and the close-on-exec maps after each function of the descriptor
table, when it returns.  `lose` and `hold` leave the tables alone, so that a
call is known by the slots it fills and the slots it clears.
-/

namespace Unixlite.Files

open Unixlite.Verified.Partial
open Function (update update_apply update_eq_self update_idem update_of_ne)
open List

/-! ## Slots and maps -/

namespace Sys

def closemap (s : Sys) (x : Nat × Nat) : Bool := (s.fdvec x.1).closemap x.2

@[simp] theorem slot_setVec (s : Sys) (p i : Nat) (v : Option Nat) :
    (s.setVec p i v).slot = update s.slot (p, i) v := by
  funext x
  obtain ⟨q, j⟩ := x
  simp only [slot, setVec, update_apply, Prod.mk.injEq]
  by_cases hq : q = p
  · subst hq
    simp only [if_true, true_and, update_apply]
  · simp [hq]

@[simp] theorem slot_setClose (s : Sys) (p i : Nat) (b : Bool) :
    (s.setClose p i b).slot = s.slot := by
  funext x
  simp only [slot, setClose, update_apply]
  split <;> simp_all

@[simp] theorem closemap_setVec (s : Sys) (p i : Nat) (v : Option Nat) :
    (s.setVec p i v).closemap = s.closemap := by
  funext x
  simp only [closemap, setVec, update_apply]
  split <;> simp_all

@[simp] theorem closemap_setClose (s : Sys) (p i : Nat) (b : Bool) :
    (s.setClose p i b).closemap = update s.closemap (p, i) b := by
  funext x
  obtain ⟨q, j⟩ := x
  simp only [closemap, setClose, update_apply, Prod.mk.injEq]
  by_cases hq : q = p
  · subst hq
    simp only [if_true, true_and, update_apply]
  · simp [hq]

/-- The processes and their tables are the same. -/
structure SameTable (s t : Sys) : Prop where
  fdvec : t.fdvec = s.fdvec
  nproc : t.nproc = s.nproc
  alive : t.alive = s.alive

variable {s t : Sys} {i o p : Nat} {fd r : Int}

theorem SameTable.slot (h : SameTable s t) : t.slot = s.slot := by
  unfold Sys.slot
  rw [h.fdvec]

theorem SameTable.closemap (h : SameTable s t) : t.closemap = s.closemap := by
  unfold Sys.closemap
  rw [h.fdvec]

theorem SameTable.trans {u : Sys} (h : SameTable s t) (h' : SameTable t u) : SameTable s u :=
  ⟨h'.fdvec.trans h.fdvec, h'.nproc.trans h.nproc, h'.alive.trans h.alive⟩

theorem rlose_same {q : Nat} (h : s.rlose q = .ok t) : SameTable s t := by
  unfold rlose at h
  split at h
  · cases h
  · dsimp only at h
    split_ifs at h <;> cases h <;> exact ⟨rfl, rfl, rfl⟩

theorem wlose_same {q : Nat} (h : s.wlose q = .ok t) : SameTable s t := by
  unfold wlose at h
  split at h
  · cases h
  · dsimp only at h
    split_ifs at h <;> cases h <;> exact ⟨rfl, rfl, rfl⟩

theorem destroy_same {d : Fdes} (h : s.destroy o d = .ok t) : SameTable s t := by
  unfold destroy at h
  split at h
  · obtain ⟨u, hu, ht⟩ := bind_ok h
    cases ht
    have hsame : SameTable s u := by
      split at hu
      · exact rlose_same hu
      · exact wlose_same hu
    exact hsame.trans ⟨rfl, rfl, rfl⟩
  · cases h
    exact ⟨rfl, rfl, rfl⟩

theorem lose_same (h : s.lose o = .ok t) : SameTable s t := by
  unfold lose at h
  split at h
  · cases h
  · split_ifs at h
    · cases h; exact ⟨rfl, rfl, rfl⟩
    · exact destroy_same h

theorem hold_same (h : s.hold o = .ok t) : SameTable s t := by
  unfold hold at h
  split at h
  · cases h
  · cases h
    exact ⟨rfl, rfl, rfl⟩

theorem new_same (s : Sys) (type : Fdtype) (fdflags : BitVec 32) :
    SameTable s (s.new type fdflags).2 := ⟨rfl, rfl, rfl⟩

theorem setFdes_same (s : Sys) (o : Nat) (d : Option Fdes) : SameTable s (s.setFdes o d) :=
  ⟨rfl, rfl, rfl⟩

theorem newPipefds_same (s : Sys) : SameTable s s.newPipefds.2.2 := ⟨rfl, rfl, rfl⟩

/-! ## One slot -/

/-- The processes are the same, and the tables are those given. -/
structure Tables (s t : Sys) (slot : Nat × Nat → Option Nat) (closemap : Nat × Nat → Bool) :
    Prop where
  slot : t.slot = slot
  closemap : t.closemap = closemap
  nproc : t.nproc = s.nproc
  alive : t.alive = s.alive

theorem holdInto_tables (h : s.holdInto p i o = .ok t) :
    Tables s t (update s.slot (p, i) (some o)) s.closemap := by
  obtain ⟨u, hu, ht⟩ := bind_ok h
  cases ht
  have hsame := hold_same hu
  exact ⟨by simp [hsame.slot], by simp [hsame.closemap], hsame.nproc, hsame.alive⟩

theorem drop_tables (h : s.drop p i o = .ok t) :
    Tables s t (update s.slot (p, i) none) s.closemap := by
  obtain ⟨u, hu, ht⟩ := bind_ok h
  cases ht
  have hsame := lose_same hu
  exact ⟨by simp [hsame.slot], by simp [hsame.closemap], hsame.nproc, hsame.alive⟩

/-- `get` gives what the slot holds. -/
theorem get_eq_some :
    s.get p fd = some o ↔ 0 ≤ fd ∧ fd < NOPEN ∧ s.slot (p, fd.toNat) = some o := by
  unfold get
  split
  · next h => simp [h]
  · next h =>
      constructor
      · intro hn; cases hn
      · rintro ⟨h0, h1, -⟩
        exact absurd ⟨h0, h1⟩ h

/-- `getslot` gives a free slot. -/
theorem getslot_some {e : Nat} (h : s.getslot p = some e) : e < NOPEN ∧ s.slot (p, e) = none := by
  have hmem := mem_of_find?_eq_some h
  have hfree := List.find?_some h
  exact ⟨mem_range.mp hmem, by simpa using hfree⟩

/-- `getpair` gives two free slots. -/
theorem getpair_some {j : Nat} (h : s.getpair p = some (i, j)) :
    i < NOPEN ∧ j < NOPEN ∧ i ≠ j ∧ s.slot (p, i) = none ∧ s.slot (p, j) = none := by
  unfold getpair at h
  split at h
  · next a b rest hfilter =>
      cases h
      have hmem : ∀ k ∈ [i, j], k < NOPEN ∧ s.slot (p, k) = none := by
        intro k hk
        have hk' : k ∈ (List.range NOPEN).filter fun i => (s.slot (p, i)).isNone := by
          rw [hfilter]
          simp only [mem_cons, not_mem_nil, or_false] at hk ⊢
          tauto
        simpa using hk'
      have hnodup : ((List.range NOPEN).filter fun i => (s.slot (p, i)).isNone).Nodup :=
        List.Nodup.filter _ nodup_range
      rw [hfilter] at hnodup
      have hne : i ≠ j := by
        rintro rfl
        simp at hnodup
      exact ⟨(hmem i (by simp)).1, (hmem j (by simp)).1, hne, (hmem i (by simp)).2,
        (hmem j (by simp)).2⟩
  · cases h

/-- `close` of an open slot. -/
theorem close_tables (hget : s.get p fd = some o) (h : s.close p fd = .ok (r, t)) :
    r = 0 ∧ Tables s t (update s.slot (p, fd.toNat) none)
      (update s.closemap (p, fd.toNat) false) := by
  unfold close at h
  rw [hget] at h
  obtain ⟨u, hu, ht⟩ := bind_ok h
  cases ht
  have hdrop := drop_tables hu
  exact ⟨rfl, by simp [hdrop.slot], by simp [hdrop.closemap], hdrop.nproc, hdrop.alive⟩

/-- `dup2` onto another slot, which was free or is closed first. -/
theorem dup2_tables {oldfd newfd : Int}
    (hmap : s.slot (p, newfd.toNat) = none → s.closemap (p, newfd.toNat) = false)
    (hold : s.get p oldfd ≠ none) (hlow : 0 ≤ newfd) (hhigh : newfd < NOPEN)
    (hne : oldfd ≠ newfd) (h : s.dup2 p oldfd newfd = .ok (r, t)) :
    ∃ o, Tables s t (update s.slot (p, newfd.toNat) (some o))
      (update s.closemap (p, newfd.toNat) false) := by
  have hvalid : ¬ (s.get p oldfd = none ∨ newfd < 0 ∨ newfd ≥ NOPEN) := by
    simp only [hold, false_or]
    omega
  unfold dup2 at h
  rw [if_neg hvalid, if_neg hne] at h
  obtain ⟨⟨r', u⟩, hclose, h⟩ := bind_ok h
  have hu : Tables s u (update s.slot (p, newfd.toNat) none)
      (update s.closemap (p, newfd.toNat) false) := by
    cases hget : s.get p newfd with
    | none =>
        have hfree : s.slot (p, newfd.toNat) = none := by
          rw [Option.eq_none_iff_forall_ne_some]
          intro o ho
          rw [get_eq_some.mpr ⟨hlow, hhigh, ho⟩] at hget
          cases hget
        simp only [close, hget] at hclose
        cases hclose
        refine ⟨?_, ?_, rfl, rfl⟩
        · rw [← hfree, update_eq_self]
        · rw [← hmap hfree, update_eq_self]
    | some o => exact (close_tables hget hclose).2
  dsimp only at h
  split at h
  · cases h
  · next o _ =>
      obtain ⟨v, hv, h⟩ := bind_ok h
      cases h
      have hinto := holdInto_tables hv
      exact ⟨o, by rw [hinto.slot, hu.slot, update_idem],
        hinto.closemap.trans hu.closemap, hinto.nproc.trans hu.nproc,
        hinto.alive.trans hu.alive⟩

/-! ## All slots of a process -/

theorem closeonexec_tables (h : s.closeonexec p = .ok t) :
    Tables s t (fun x => if x.1 = p ∧ x.2 < NOPEN ∧ s.closemap x then none else s.slot x)
      (fun x => if x.1 = p ∧ x.2 < NOPEN then false else s.closemap x) := by
  refine foldlM_range (P := fun i t =>
    Tables s t (fun x => if x.1 = p ∧ x.2 < i ∧ s.closemap x then none else s.slot x)
      (fun x => if x.1 = p ∧ x.2 < i then false else s.closemap x)) ?_ ?_ h
  · intro i u v _ hu hone
    have hmap : u.closemap (p, i) = s.closemap (p, i) := by simp [hu.closemap]
    have htst : u.tst p i ≠ 0 ↔ s.closemap (p, i) = true := by
      rw [← hmap]
      unfold tst closemap
      split <;> simp_all
    unfold closeonexecOne at hone
    split at hone
    · next hset =>
        split at hone
        · cases hone
        · have hdrop := drop_tables hone
          refine ⟨?_, ?_, hdrop.nproc.trans hu.nproc, hdrop.alive.trans hu.alive⟩
          · rw [hdrop.slot, slot_setClose, hu.slot]
            funext x
            grind
          · rw [hdrop.closemap, closemap_setClose, hu.closemap]
            funext x
            grind
    · next hclear =>
        cases hone
        refine ⟨?_, ?_, hu.nproc, hu.alive⟩
        · rw [hu.slot]
          funext x
          grind
        · rw [hu.closemap]
          funext x
          grind
  · exact ⟨by simp, by simp, rfl, rfl⟩

theorem closeall_tables (h : s.closeall p = .ok t) :
    Tables s t (fun x => if x.1 = p ∧ x.2 < NOPEN then none else s.slot x) s.closemap := by
  refine foldlM_range (P := fun i t =>
    Tables s t (fun x => if x.1 = p ∧ x.2 < i then none else s.slot x) s.closemap) ?_ ?_ h
  · intro i u v _ hu hone
    unfold closeallOne at hone
    split at hone
    · next hfree =>
        cases hone
        rw [hu.slot] at hfree
        refine ⟨?_, hu.closemap, hu.nproc, hu.alive⟩
        rw [hu.slot]
        funext x
        grind
    · have hdrop := drop_tables hone
      refine ⟨?_, hdrop.closemap.trans hu.closemap, hdrop.nproc.trans hu.nproc,
        hdrop.alive.trans hu.alive⟩
      rw [hdrop.slot, hu.slot]
      funext x
      grind
  · exact ⟨by simp, rfl, rfl, rfl⟩

/-- The slots of the child are those of the parent; its map is empty. -/
theorem clone_tables (hp : p < s.nproc) (h : s.clone p = .ok t) :
    Tables s.newProc t
      (fun x => if x.1 = s.nproc then (if x.2 < NOPEN then s.slot (p, x.2) else none)
        else s.slot x)
      (fun x => if x.1 = s.nproc then false else s.closemap x) := by
  refine foldlM_range (P := fun i t =>
    Tables s.newProc t
      (fun x => if x.1 = s.nproc then (if x.2 < i then s.slot (p, x.2) else none)
        else s.slot x)
      (fun x => if x.1 = s.nproc then false else s.closemap x)) ?_ ?_ h
  · intro i u v _ hu hone
    have hslot : u.slot (p, i) = s.slot (p, i) := by
      have hne : p ≠ s.nproc := by omega
      simp [hu.slot, hne]
    unfold cloneOne at hone
    split at hone
    · next hfree =>
        cases hone
        refine ⟨?_, hu.closemap, hu.nproc, hu.alive⟩
        rw [hu.slot]
        funext x
        grind
    · next o ho =>
        have hinto := holdInto_tables hone
        refine ⟨?_, hinto.closemap.trans hu.closemap, hinto.nproc.trans hu.nproc,
          hinto.alive.trans hu.alive⟩
        rw [hinto.slot, hu.slot]
        funext x
        grind
  · refine ⟨?_, ?_, rfl, rfl⟩
    · funext x
      simp only [slot, newProc, update_apply, Nat.not_lt_zero, if_false]
      split
      · rfl
      · rfl
    · funext x
      simp only [closemap, newProc, update_apply]
      split
      · rfl
      · rfl

/-! ## Calls that only fill free slots -/

/-- What is open stays open, process `p` may have opened more, and the maps are
the same. -/
structure Fills (p : Nat) (s t : Sys) : Prop where
  slot : ∀ x v, s.slot x = some v → t.slot x = some v
  filled : ∀ x v, t.slot x = some v → s.slot x = some v ∨ x.1 = p ∧ x.2 < NOPEN
  closemap : t.closemap = s.closemap
  nproc : t.nproc = s.nproc
  alive : t.alive = s.alive

theorem SameTable.fills (h : SameTable s t) (p : Nat) : Fills p s t :=
  ⟨fun x v hx => by rw [h.slot, hx], fun x v hx => .inl (by rwa [h.slot] at hx),
    h.closemap, h.nproc, h.alive⟩

theorem Fills.refl (p : Nat) (s : Sys) : Fills p s s :=
  ⟨fun _ _ h => h, fun _ _ h => .inl h, rfl, rfl, rfl⟩

theorem Fills.trans {u : Sys} (h : Fills p s t) (h' : Fills p t u) : Fills p s u :=
  ⟨fun x v hx => h'.slot x v (h.slot x v hx),
    fun x v hx => (h'.filled x v hx).elim (h.filled x v) .inr,
    h'.closemap.trans h.closemap, h'.nproc.trans h.nproc, h'.alive.trans h.alive⟩

theorem fills_setVec (hi : i < NOPEN) (hfree : s.slot (p, i) = none)
    (v : Option Nat) : Fills p s (s.setVec p i v) := by
  refine ⟨?_, ?_, closemap_setVec s p i v, rfl, rfl⟩
  · intro x w hx
    rw [slot_setVec, update_of_ne]
    · exact hx
    · rintro rfl
      rw [hfree] at hx
      cases hx
  · intro x w hx
    by_cases hxi : x = (p, i)
    · subst hxi
      exact .inr ⟨rfl, hi⟩
    · rw [slot_setVec, update_of_ne hxi] at hx
      exact .inl hx

theorem holdInto_fills (hi : i < NOPEN)
    (hfree : s.slot (p, i) = none) (h : s.holdInto p i o = .ok t) : Fills p s t := by
  obtain ⟨u, hu, ht⟩ := bind_ok h
  cases ht
  have hsame := hold_same hu
  exact (hsame.fills p).trans (fills_setVec hi (by rw [hsame.slot, hfree]) _)

theorem put_fills (s : Sys) (p o : Nat) : Fills p s (s.put p o).2 := by
  unfold put
  split
  · exact .refl p s
  · next e he => exact fills_setVec (getslot_some he).1 (getslot_some he).2 _

theorem putpair_fills (s : Sys) (p o₁ o₂ : Nat) : Fills p s (s.putpair p o₁ o₂).2 := by
  unfold putpair
  split
  · exact .refl p s
  · next i j hij =>
      obtain ⟨hin, hjn, hne, hi, hj⟩ := getpair_some hij
      refine (fills_setVec hin hi _).trans (fills_setVec hjn ?_ _)
      have hne' : (p, j) ≠ (p, i) := by
        intro h
        exact hne (Prod.mk.inj h).2.symm
      rw [slot_setVec, update_of_ne hne', hj]

theorem putNew_fills {type : Fdtype} {fdflags : BitVec 32}
    (h : s.putNew p type fdflags = .ok (r, t)) : Fills p s t := by
  have hput : Fills p s ((s.new type fdflags).2.put p (s.new type fdflags).1).2 :=
    ((new_same s type fdflags).fills p).trans (put_fills _ _ _)
  unfold putNew at h
  dsimp only at h
  split at h
  · obtain ⟨u, hu, ht⟩ := bind_ok h
    cases ht
    exact hput.trans ((lose_same hu).fills p)
  · cases h
    exact hput

theorem syspipe_fills {ver : Int} (h : s.syspipe p ver = .ok (r, t)) : Fills p s t := by
  unfold syspipe at h
  split at h
  · cases h
    exact .refl p s
  dsimp only at h
  have hput := ((newPipefds_same s).fills p).trans
    (putpair_fills s.newPipefds.2.2 p s.newPipefds.1 s.newPipefds.2.1)
  split at h
  · obtain ⟨u, hu, h⟩ := bind_ok h
    obtain ⟨v, hv, h⟩ := bind_ok h
    cases h
    exact (hput.trans ((lose_same hu).fills p)).trans ((lose_same hv).fills p)
  · cases h
    exact hput

theorem dup_fills (h : s.dup p fd = .ok (r, t)) : Fills p s t := by
  unfold dup at h
  split at h
  · cases h; exact .refl p s
  split at h
  · cases h; exact .refl p s
  · next e he =>
      obtain ⟨u, hu, h⟩ := bind_ok h
      cases h
      exact holdInto_fills (getslot_some he).1 (getslot_some he).2 hu

theorem fdupfd_fills {lowest : Int} (h : s.fdupfd p fd lowest = .ok (r, t)) : Fills p s t := by
  unfold fdupfd at h
  split at h
  · cases h
  split at h
  · cases h
  dsimp only at h
  split at h
  · cases h; exact .refl p s
  · next i hi =>
      obtain ⟨u, hu, h⟩ := bind_ok h
      cases h
      have hfree := List.find?_some hi
      simp only [Bool.and_eq_true, Option.isNone_iff_eq_none] at hfree
      have hlt : i < NOPEN := mem_range.mp (mem_of_find?_eq_some hi)
      exact holdInto_fills hlt hfree.2 hu

theorem transfer_eq {ver n : Int} {flag : BitVec 32}
    (h : s.transfer p fd flag ver n = .ok (r, t)) : t = s := by
  unfold transfer at h
  split at h
  · cases h; rfl
  split at h
  · cases h
  · split_ifs at h <;> cases h <;> rfl

end Sys

end Unixlite.Files
