import Unixlite.Kern.FdesInv
import Mathlib.Data.Set.Card

/-!
# Descriptors over whole runs

What the descriptor calls of any number of processes do, one after the other:
the counts of the descriptors, the close-on-exec flags and the access modes.
What a claim says of the past (the last F_SETFD on a slot, the flags an object
was created with) is kept beside the state.
-/

namespace Unixlite.Files

open Unixlite.Verified.Partial Unixlite.Verified.Refcount Unixlite.Verified.Run
open Function (update update_apply update_eq_self update_self)
open Option

/-! ## Where the slots are -/

/-- The slots in use are those of the processes there have been. -/
structure Shape (s : Sys) : Prop where
  slot : ∀ x o, s.slot x = some o → x.1 < s.nproc ∧ x.2 < NOPEN
  alive : ∀ p, s.alive p = true → p < s.nproc

theorem Inv.shape {s : Sys} (h : Inv s) : Shape s where
  slot := fun _ _ hx => Sys.mem_pairs.mp (h.slot hx)
  alive := fun _ hp => h.alive hp

/-! ## What each call does to slots and maps -/

/-- The calls that fill free slots and touch no map. -/
def Fill (s : Sys) (p : Nat) : Call → Prop
  | .fcntl low fd cmd _ => ¬ (low = false ∧ cmd = FSETFD ∧ s.get p fd ≠ none)
  | .close fd => s.get p fd = none
  | .dup2 low oldfd newfd => ¬ (low = false ∧ s.get p oldfd ≠ none ∧ 0 ≤ newfd ∧
      newfd < NOPEN ∧ oldfd ≠ newfd)
  | .fork e => e ≠ 0
  | .exec | .exit => False
  | _ => True

theorem fill_call {s t : Sys} {p : Nat} {c : Call} {r : Int} (hc : Fill s p c)
    (h : s.call p c = .ok (r, t)) : s.Fills p t := by
  cases c with
  | «open» flags file =>
      cases file with
      | error e => cases h; exact .refl p s
      | ok ft => exact Sys.putNew_fills h
  | socket fdflags => exact Sys.putNew_fills h
  | pipe ver => exact Sys.syspipe_fills h
  | dup low fd =>
      cases low with
      | true => cases h; exact .refl p s
      | false => exact Sys.dup_fills h
  | dup2 low oldfd newfd =>
      cases low with
      | true => cases h; exact .refl p s
      | false =>
          simp only [Sys.call, Bool.false_eq_true, if_false, Sys.dup2] at h
          split at h
          · cases h; exact .refl p s
          next hvalid =>
          split at h
          · cases h; exact .refl p s
          next hne =>
          simp only [not_or] at hvalid
          exact absurd ⟨rfl, hvalid.1, by omega, by omega, hne⟩ hc
  | fcntl low fd cmd arg =>
      cases low with
      | true => cases h; exact .refl p s
      | false =>
          simp only [Sys.call, Bool.false_eq_true, if_false, Sys.fcntl] at h
          split at h
          · cases h; exact .refl p s
          next o ho =>
          split at h
          · exact Sys.fdupfd_fills h
          split at h
          · cases h; exact .refl p s
          split at h
          · next hset => exact absurd ⟨rfl, hset, by simp [ho]⟩ hc
          split at h
          · split at h
            · cases h
            · cases h; exact .refl p s
          split at h
          · split at h
            · cases h
            · cases h; exact (Sys.setFdes_same s _ _).fills p
          · cases h; exact .refl p s
  | close fd =>
      have hnone : s.get p fd = none := hc
      simp only [Sys.call, Sys.close, hnone] at h
      cases h
      exact .refl p s
  | read low fd ver n =>
      cases low with
      | true => cases h; exact .refl p s
      | false => rw [Sys.transfer_eq h]; exact .refl p s
  | write low fd ver n =>
      cases low with
      | true => cases h; exact .refl p s
      | false => rw [Sys.transfer_eq h]; exact .refl p s
  | fork e =>
      have hne : e ≠ 0 := hc
      simp only [Sys.call, hne, ne_eq, not_false_eq_true, if_true] at h
      cases h
      exact .refl p s
  | exec => exact hc.elim
  | exit => exact hc.elim

/-- The call is a fork that gets to copy the table. -/
def forks : Call → Bool
  | .fork e => e = 0
  | _ => false

/-- All that a call can do to the tables. -/
inductive Change (s : Sys) (p : Nat) : Call → Sys → Prop where
  | fill {c t} : Fill s p c → s.Fills p t → Change s p c t
  | setfd {fd arg} : s.get p fd ≠ none →
      Change s p (.fcntl false fd FSETFD arg) (s.setClose p fd.toNat (arg &&& 1 ≠ 0))
  | close {fd o t} : s.get p fd = some o →
      s.Tables t (update s.slot (p, fd.toNat) none)
        (update s.closemap (p, fd.toNat) false) → Change s p (.close fd) t
  | dup2 {oldfd newfd : Int} {o t} : s.get p oldfd ≠ none → 0 ≤ newfd → newfd < NOPEN →
      oldfd ≠ newfd →
      s.Tables t (update s.slot (p, newfd.toNat) (some o))
        (update s.closemap (p, newfd.toNat) false) →
      Change s p (.dup2 false oldfd newfd) t
  | fork {t} : s.newProc.Tables t
      (fun x => if x.1 = s.nproc then (if x.2 < NOPEN then s.slot (p, x.2) else none)
        else s.slot x)
      (fun x => if x.1 = s.nproc then false else s.closemap x) → Change s p (.fork 0) t
  | exec {t} : s.Tables t
      (fun x => if x.1 = p ∧ x.2 < NOPEN ∧ s.closemap x then none else s.slot x)
      (fun x => if x.1 = p ∧ x.2 < NOPEN then false else s.closemap x) → Change s p .exec t
  | exit {u} : s.Tables u (fun x => if x.1 = p ∧ x.2 < NOPEN then none else s.slot x)
      s.closemap → Change s p .exit (u.dispose p)

theorem call_change {s t : Sys} {p : Nat} {c : Call} {r : Int} (hmap : MapOk s)
    (hp : p < s.nproc) (h : s.call p c = .ok (r, t)) : Change s p c t := by
  by_cases hfill : Fill s p c
  · exact .fill hfill (fill_call hfill h)
  cases c with
  | fcntl low fd cmd arg =>
      simp only [Fill, not_not] at hfill
      obtain ⟨rfl, rfl, hget⟩ := hfill
      obtain ⟨o, ho⟩ := ne_none_iff_exists'.mp hget
      simp only [Sys.call, Bool.false_eq_true, if_false, Sys.fcntl, ho] at h
      cases h
      exact .setfd hget
  | close fd =>
      obtain ⟨o, ho⟩ := ne_none_iff_exists'.mp hfill
      exact .close ho (Sys.close_tables ho h).2
  | dup2 low oldfd newfd =>
      simp only [Fill, not_not] at hfill
      obtain ⟨rfl, hold, hlow, hhigh, hne⟩ := hfill
      have hnew : s.slot (p, newfd.toNat) = none → s.closemap (p, newfd.toNat) = false := by
        intro hfree
        rw [Bool.eq_false_iff]
        exact fun hset => hmap _ hset hfree
      obtain ⟨o, ho⟩ := Sys.dup2_tables hnew hold hlow hhigh hne h
      exact .dup2 hold hlow hhigh hne ho
  | fork e =>
      simp only [Fill, ne_eq, not_not] at hfill
      subst hfill
      obtain ⟨u, hu, h⟩ := bind_ok h
      cases h
      exact .fork (Sys.clone_tables hp hu)
  | exec =>
      obtain ⟨u, hu, h⟩ := bind_ok h
      cases h
      exact .exec (Sys.closeonexec_tables hu)
  | exit =>
      obtain ⟨u, hu, h⟩ := bind_ok h
      cases h
      exact .exit (Sys.closeall_tables hu)
  | «open» _ _ | socket _ | pipe _ | dup _ _ | read _ _ _ _ | write _ _ _ _ =>
      exact absurd trivial hfill

/-- An event that happens is a call of a living process that returns. -/
theorem step_eq_some {s t : Sys} {e : Event} :
    step s e = some t ↔ s.alive e.p = true ∧ ∃ r, s.call e.p e.call = .ok (r, t) := by
  unfold step
  split
  · next halive =>
      cases hcall : s.call e.p e.call with
      | error f => simp [Except.toOption]
      | ok x =>
          obtain ⟨r, u⟩ := x
          simp [Except.toOption, halive]
  · next hdead => simp [hdead]

theorem dispose_slot (s : Sys) (p : Nat) (x : Nat × Nat) :
    (s.dispose p).slot x = if x.1 = p then none else s.slot x := by
  simp only [Sys.slot, Sys.dispose, update_apply]
  split <;> rfl

theorem dispose_closemap (s : Sys) (p : Nat) (x : Nat × Nat) :
    (s.dispose p).closemap x = if x.1 = p then false else s.closemap x := by
  simp only [Sys.closemap, Sys.dispose, update_apply]
  split <;> rfl

/-! ## Flags of slots -/

/-- A flag on each slot. -/
abbrev Flags := Nat × Nat → Bool

/-- The close-on-exec flags after a call: F_SETFD sets or clears one, a slot
that is closed or overwritten loses its flag, a child inherits them. -/
def setFlags (s : Sys) (p : Nat) (f : Flags) : Call → Flags
  | .fcntl low fd cmd arg =>
      if low = false ∧ cmd = FSETFD ∧ s.get p fd ≠ none then
        update f (p, fd.toNat) (arg &&& 1 ≠ 0)
      else fun x => f x && (s.slot x).isSome
  | .close fd => if s.get p fd = none then f else update f (p, fd.toNat) false
  | .dup2 low oldfd newfd =>
      if low = false ∧ s.get p oldfd ≠ none ∧ 0 ≤ newfd ∧ newfd < NOPEN ∧ oldfd ≠ newfd then
        update f (p, newfd.toNat) false
      else f
  | .fork e => if e ≠ 0 then f else fun x => if x.1 = s.nproc then f (p, x.2) else f x
  | .exec | .exit => fun x => if x.1 = p then false else f x
  | _ => fun x => f x && (s.slot x).isSome

/-- Only open slots have a flag. -/
def Marks (s : Sys) (f : Flags) : Prop := ∀ x, f x = true → s.slot x ≠ none

theorem Marks.and_isSome {s : Sys} {f : Flags} (h : Marks s f) :
    (fun x => f x && (s.slot x).isSome) = f := by
  funext x
  cases hx : f x with
  | false => simp
  | true => simpa using isSome_iff_ne_none.mpr (h x hx)

/-- A call that fills free slots changes no flag. -/
theorem setFlags_fill {s : Sys} {p : Nat} {f : Flags} {c : Call} (hf : Marks s f)
    (hc : Fill s p c) : setFlags s p f c = f := by
  cases c with
  | fcntl low fd cmd arg =>
      have hcond : ¬ (low = false ∧ cmd = FSETFD ∧ s.get p fd ≠ none) := hc
      simp only [setFlags, hcond, if_false]
      exact hf.and_isSome
  | close fd =>
      have hnone : s.get p fd = none := hc
      simp [setFlags, hnone]
  | dup2 low oldfd newfd =>
      have hcond : ¬ (low = false ∧ s.get p oldfd ≠ none ∧ 0 ≤ newfd ∧ newfd < NOPEN ∧
          oldfd ≠ newfd) := hc
      simp only [setFlags, hcond, if_false]
  | fork e =>
      have hne : e ≠ 0 := hc
      simp [setFlags, hne]
  | exec => exact hc.elim
  | exit => exact hc.elim
  | «open» _ _ | socket _ | pipe _ | dup _ _ | read _ _ _ _ | write _ _ _ _ =>
      exact hf.and_isSome

/-- The slots stay in their place. -/
theorem change_shape {s t : Sys} {p : Nat} {c : Call} (h : Shape s) (hp : s.alive p = true)
    (hc : Change s p c t) : Shape t := by
  have hlt := h.alive p hp
  cases hc with
  | fill _ hfills =>
      refine ⟨fun x o hx => ?_, fun q hq => ?_⟩
      · rw [hfills.nproc]
        rcases hfills.filled x o hx with hold | ⟨rfl, hi⟩
        · exact h.slot x o hold
        · exact ⟨hlt, hi⟩
      · rw [hfills.nproc]
        exact h.alive q (hfills.alive ▸ hq)
  | setfd _ =>
      refine ⟨fun x o hx => ?_, h.alive⟩
      rw [Sys.slot_setClose] at hx
      exact h.slot x o hx
  | close _ htab =>
      refine ⟨fun x o hx => ?_, fun q hq => ?_⟩
      · rw [htab.nproc]
        rw [htab.slot, update_apply] at hx
        split at hx
        · cases hx
        · exact h.slot x o hx
      · rw [htab.nproc]
        exact h.alive q (htab.alive ▸ hq)
  | dup2 _ hlow hhigh _ htab =>
      refine ⟨fun x o hx => ?_, fun q hq => ?_⟩
      · rw [htab.nproc]
        rw [htab.slot, update_apply] at hx
        split at hx
        · next hxp =>
            subst hxp
            exact ⟨hlt, by omega⟩
        · exact h.slot x o hx
      · rw [htab.nproc]
        exact h.alive q (htab.alive ▸ hq)
  | fork htab =>
      have hnproc : t.nproc = s.nproc + 1 := htab.nproc
      refine ⟨fun x o hx => ?_, fun q hq => ?_⟩
      · rw [hnproc]
        rw [htab.slot] at hx
        dsimp only at hx
        split at hx
        · split at hx
          · next hi => exact ⟨by omega, hi⟩
          · cases hx
        · exact ⟨Nat.lt_succ_of_lt (h.slot x o hx).1, (h.slot x o hx).2⟩
      · rw [hnproc]
        have halive : t.alive = update s.alive s.nproc true := htab.alive
        rw [halive, update_apply] at hq
        split at hq
        · omega
        · exact Nat.lt_succ_of_lt (h.alive q hq)
  | exec htab =>
      refine ⟨fun x o hx => ?_, fun q hq => ?_⟩
      · rw [htab.nproc]
        rw [htab.slot] at hx
        dsimp only at hx
        split at hx
        · cases hx
        · exact h.slot x o hx
      · rw [htab.nproc]
        exact h.alive q (htab.alive ▸ hq)
  | @exit u htab =>
      have hnproc : (u.dispose p).nproc = s.nproc := htab.nproc
      refine ⟨fun x o hx => ?_, fun q hq => ?_⟩
      · rw [hnproc]
        rw [dispose_slot, htab.slot] at hx
        dsimp only at hx
        split_ifs at hx
        exact h.slot x o hx
      · rw [hnproc]
        have halive : (u.dispose p).alive = update u.alive p false := rfl
        rw [halive, update_apply] at hq
        split at hq
        · cases hq
        · exact h.alive q (htab.alive ▸ hq)

/-- A flag stays with its slot. -/
theorem change_marks {s t : Sys} {p : Nat} {c : Call} {f : Flags} (h : Shape s)
    (hf : Marks s f) (hc : Change s p c t) : Marks t (setFlags s p f c) := by
  cases hc with
  | fill hfill hfills =>
      rw [setFlags_fill hf hfill]
      intro x hx
      obtain ⟨o, ho⟩ := ne_none_iff_exists'.mp (hf x hx)
      simp [hfills.slot x o ho]
  | @setfd fd arg hget =>
      intro x hx
      rw [Sys.slot_setClose]
      have hcond : false = false ∧ FSETFD = FSETFD ∧ s.get p fd ≠ none := ⟨rfl, rfl, hget⟩
      rw [setFlags, if_pos hcond, update_apply] at hx
      split at hx
      · next hxp =>
          subst hxp
          obtain ⟨o, ho⟩ := ne_none_iff_exists'.mp hget
          simp [(Sys.get_eq_some.mp ho).2.2]
      · exact hf x hx
  | close hget htab =>
      intro x hx
      simp only [setFlags, hget, reduceCtorEq, if_false, update_apply] at hx
      rw [htab.slot, update_apply]
      split at hx
      · cases hx
      · next hne => rw [if_neg hne]; exact hf x hx
  | @dup2 oldfd newfd o t hold hlow hhigh hne htab =>
      intro x hx
      have hcond : false = false ∧ s.get p oldfd ≠ none ∧ 0 ≤ newfd ∧ newfd < NOPEN ∧
          oldfd ≠ newfd := ⟨rfl, hold, hlow, hhigh, hne⟩
      rw [setFlags, if_pos hcond, update_apply] at hx
      rw [htab.slot, update_apply]
      split at hx
      · cases hx
      · next hne => rw [if_neg hne]; exact hf x hx
  | fork htab =>
      intro x hx
      simp only [setFlags, ne_eq, not_true_eq_false, if_false] at hx
      rw [htab.slot]
      dsimp only
      split at hx
      · next hxn =>
          have hslot := hf _ hx
          obtain ⟨o, ho⟩ := ne_none_iff_exists'.mp hslot
          rw [if_pos hxn, if_pos (h.slot _ o ho).2]
          exact hslot
      · next hxn => rw [if_neg hxn]; exact hf x hx
  | exec htab =>
      intro x hx
      simp only [setFlags] at hx
      split at hx
      · cases hx
      · next hxp =>
          rw [htab.slot]
          simp only [hxp, false_and, if_false]
          exact hf x hx
  | @exit u htab =>
      intro x hx
      simp only [setFlags] at hx
      split at hx
      · cases hx
      · next hxp =>
          rw [dispose_slot, if_neg hxp, htab.slot]
          simp only [hxp, false_and, if_false]
          exact hf x hx

/-- The map follows the flags, except that a child starts without. -/
theorem change_closemap {s t : Sys} {p : Nat} {c : Call} (h : Shape s) (hmap : MapOk s)
    (hc : Change s p c t) :
    t.closemap = if forks c then (fun x => if x.1 = s.nproc then false else s.closemap x)
      else setFlags s p s.closemap c := by
  cases hc with
  | fill hfill hfills =>
      have hne : ¬ forks c = true := by
        cases c with
        | fork e =>
            have he : e ≠ 0 := hfill
            simp [forks, he]
        | _ => simp [forks]
      rw [if_neg hne, setFlags_fill hmap hfill, hfills.closemap]
  | @setfd fd arg hget =>
      have hcond : false = false ∧ FSETFD = FSETFD ∧ s.get p fd ≠ none := ⟨rfl, rfl, hget⟩
      rw [if_neg (by simp [forks]), setFlags, if_pos hcond, Sys.closemap_setClose]
  | close hget htab => simp [forks, setFlags, hget, htab.closemap]
  | @dup2 oldfd newfd o t hold hlow hhigh hne htab =>
      have hcond : false = false ∧ s.get p oldfd ≠ none ∧ 0 ≤ newfd ∧ newfd < NOPEN ∧
          oldfd ≠ newfd := ⟨rfl, hold, hlow, hhigh, hne⟩
      rw [if_neg (by simp [forks]), setFlags, if_pos hcond, htab.closemap]
  | fork htab => rw [if_pos (by simp [forks]), htab.closemap]
  | exec htab =>
      rw [if_neg (by simp [forks]), htab.closemap]
      funext x
      simp only [setFlags]
      by_cases hx : x.1 = p
      · by_cases hi : x.2 < NOPEN
        · simp [hx, hi]
        · have hfree : s.closemap x = false := by
            rw [Bool.eq_false_iff]
            intro hset
            obtain ⟨o, ho⟩ := ne_none_iff_exists'.mp (hmap x hset)
            exact hi (h.slot x o ho).2
          simp [hx, hi, hfree]
      · simp [hx]
  | @exit u htab =>
      rw [if_neg (by simp [forks])]
      funext x
      rw [dispose_closemap, htab.closemap]
      simp [setFlags]

theorem change_mapOk {s t : Sys} {p : Nat} {c : Call} (h : Shape s) (hmap : MapOk s)
    (hc : Change s p c t) : MapOk t := by
  have hmarks := change_marks h hmap hc
  intro x hx
  rw [change_closemap h hmap hc] at hx
  split at hx
  · next hfork =>
      obtain rfl : c = .fork 0 := by
        cases c <;> simp_all [forks]
      dsimp only at hx
      split at hx
      · cases hx
      · next hne =>
          refine hmarks x ?_
          simp only [setFlags, ne_eq, not_true_eq_false, if_false, hne]
          exact hx
  · exact hmarks x hx

/-! ## Reference counts -/

/-- The call stores no access mode and asks for no slot below 0. -/
def Listed : Call → Prop
  | .fcntl _ _ cmd arg => cmd ≠ FSETFL ∧ (cmd = FDUPFD → 0 ≤ arg.toInt)
  | _ => True

/-- The F_SETFL leaves FDREAD and FDWRITE as they are. -/
def KeepsMode (s : Sys) (p : Nat) : Call → Prop
  | .fcntl low fd cmd arg => low = false → cmd = FSETFL → ∀ o d, s.get p fd = some o →
      s.fdes o = some d → utok arg &&& (FDREAD ||| FDWRITE) = d.fdflags &&& (FDREAD ||| FDWRITE)
  | _ => True

/-- A call that faults for a slot below 0. -/
def Below (s : Sys) (p : Nat) : Call → Prop
  | .fcntl low fd cmd arg =>
      low = false ∧ cmd = FDUPFD ∧ s.get p fd ≠ none ∧ arg.toInt < 0
  | _ => False

theorem Listed.keepsMode {c : Call} (h : Listed c) (s : Sys) (p : Nat) : KeepsMode s p c := by
  cases c with
  | fcntl low fd cmd arg => exact fun _ hcmd => absurd hcmd h.1
  | _ => trivial

theorem Listed.not_below {c : Call} (h : Listed c) (s : Sys) (p : Nat) : ¬ Below s p c := by
  cases c with
  | fcntl low fd cmd arg =>
      rintro ⟨-, hcmd, -, hneg⟩
      have := h.2 hcmd
      omega
  | _ => exact id

/-- Descriptors with the same access mode are the same end of a pipe. -/
theorem pipeEnd_of_mode {d d' : Fdes} (htype : d'.type = d.type)
    (hmode : d'.fdflags &&& (FDREAD ||| FDWRITE) = d.fdflags &&& (FDREAD ||| FDWRITE)) :
    d'.pipeEnd = d.pipeEnd := by
  have hread : d'.fdflags &&& FDREAD = d.fdflags &&& FDREAD := by
    have h := congrArg (· &&& FDREAD) hmode
    simpa [BitVec.and_assoc, FDREAD, FDWRITE] using h
  simp only [Fdes.pipeEnd, htype, hread]

/-- What a slot holds has not been deleted. -/
theorem Inv.get_live {s : Sys} (h : Inv s) {p o : Nat} {fd : Int} (ho : s.get p fd = some o) :
    ∃ d, s.fdes o = some d :=
  (h.counted.live o).mpr (h.held_pos (Sys.get_eq_some.mp ho).2.2)

theorem transfer_inv {s : Sys} (h : Inv s) (p : Nat) (fd ver n : Int) (flag : BitVec 32) :
    ∃ r, s.transfer p fd flag ver n = .ok (r, s) := by
  unfold Sys.transfer
  split
  · exact ⟨_, rfl⟩
  next o ho =>
  obtain ⟨d, hd⟩ := h.get_live ho
  rw [hd]
  dsimp only
  split_ifs <;> exact ⟨_, rfl⟩

theorem setfl_inv {s : Sys} (h : Inv s) {o : Nat} {d : Fdes} (hd : s.fdes o = some d)
    {fdflags : BitVec 32}
    (hmode : fdflags &&& (FDREAD ||| FDWRITE) = d.fdflags &&& (FDREAD ||| FDWRITE)) :
    Inv (s.setFdes o (some { d with fdflags := fdflags })) := by
  have hpos : 0 < d.refcnt := by
    rw [h.counted.count hd]
    exact (h.counted.live o).mp ⟨d, hd⟩
  have hcounted : Counted (s.setFdes o (some { d with fdflags := fdflags }))
      (update s.held o d.refcnt) :=
    setFdes_counted h.counted hd (pipeEnd_of_mode rfl hmode) hpos
  refine SameTable.inv (Sys.setFdes_same s _ _) h ?_
  have hheld : update s.held o d.refcnt = s.held := by
    rw [h.counted.count hd, update_eq_self]
  rwa [hheld] at hcounted

theorem fcntl_inv {s : Sys} {p : Nat} (h : Inv s) (hp : s.alive p = true) {fd cmd : Int}
    {arg : BitVec 32} (hmode : KeepsMode s p (.fcntl false fd cmd arg)) :
    Below s p (.fcntl false fd cmd arg) ∨
      ∃ r t, s.fcntl p fd cmd arg = .ok (r, t) ∧ Inv t := by
  unfold Sys.fcntl
  split
  · exact .inr ⟨_, s, rfl, h⟩
  next o ho =>
  split
  · next hcmd =>
      by_cases hneg : arg.toInt < 0
      · exact .inl ⟨rfl, hcmd, by simp [ho], hneg⟩
      · exact .inr (fdupfd_inv h hp ho (by omega))
  split
  · exact .inr ⟨_, s, rfl, h⟩
  split
  · exact .inr ⟨_, _, rfl, inv_setClose h _ _ _⟩
  obtain ⟨d, hd⟩ := h.get_live ho
  split
  · rw [hd]
    exact .inr ⟨_, s, rfl, h⟩
  split
  · next hcmd =>
      rw [hd]
      exact .inr ⟨0, _, rfl, setfl_inv h hd (hmode rfl hcmd o d ho hd)⟩
  · exact .inr ⟨_, s, rfl, h⟩

/-- A call keeps the invariant, and faults only for a slot below 0. -/
theorem call_inv {s : Sys} {p : Nat} {c : Call} (h : Inv s) (hmap : MapOk s)
    (hp : s.alive p = true) (hmode : KeepsMode s p c) :
    Below s p c ∨ ∃ r t, s.call p c = .ok (r, t) ∧ Inv t := by
  cases c with
  | «open» flags file =>
      cases file with
      | error e => exact .inr ⟨e, s, rfl, h⟩
      | ok ft => exact .inr (putNew_inv h hp rfl)
  | socket fdflags => exact .inr (putNew_inv h hp rfl)
  | pipe ver => exact .inr (syspipe_inv h hp ver)
  | dup low fd =>
      cases low with
      | true => exact .inr ⟨ENOMEM, s, rfl, h⟩
      | false => exact .inr (dup_inv h hp fd)
  | dup2 low oldfd newfd =>
      cases low with
      | true => exact .inr ⟨ENOMEM, s, rfl, h⟩
      | false => exact .inr (dup2_inv h hp oldfd newfd)
  | fcntl low fd cmd arg =>
      cases low with
      | true => exact .inr ⟨ENOMEM, s, rfl, h⟩
      | false => exact fcntl_inv h hp hmode
  | close fd => exact .inr (close_inv h fd)
  | read low fd ver n =>
      cases low with
      | true => exact .inr ⟨ENOMEM, s, rfl, h⟩
      | false =>
          obtain ⟨r, hr⟩ := transfer_inv h p fd ver n FDREAD
          exact .inr ⟨r, s, hr, h⟩
  | write low fd ver n =>
      cases low with
      | true => exact .inr ⟨ENOMEM, s, rfl, h⟩
      | false =>
          obtain ⟨r, hr⟩ := transfer_inv h p fd ver n FDWRITE
          exact .inr ⟨r, s, hr, h⟩
  | fork e =>
      by_cases he : e = 0
      · subst he
        obtain ⟨t, ht, hinv⟩ := clone_inv h hp
        refine .inr ⟨s.nproc, t, ?_, hinv⟩
        simp only [Sys.call, ht]
        rfl
      · exact .inr ⟨e, s, by simp [Sys.call, he], h⟩
  | exec =>
      obtain ⟨t, ht, hinv⟩ := closeonexec_inv (p := p) h hmap
      refine .inr ⟨0, t, ?_, hinv⟩
      simp only [Sys.call, ht]
      rfl
  | exit =>
      obtain ⟨u, hu, hinv⟩ := closeall_inv (p := p) h
      have htab := Sys.closeall_tables hu
      refine .inr ⟨0, u.dispose p, ?_, dispose_inv hinv fun i => ?_⟩
      · simp only [Sys.call, hu]
        rfl
      · rw [htab.slot]
        dsimp only
        split
        · rfl
        · next hi =>
            rw [eq_none_iff_forall_ne_some]
            intro o ho
            have := (h.shape.slot _ o ho).2
            simp [this] at hi

/-- The invariant of a run. -/
structure Ok (s : Sys) : Prop where
  inv : Inv s
  map : MapOk s

theorem step_ok {s t : Sys} {e : Event} (h : Ok s) (hmode : KeepsMode s e.p e.call)
    (hstep : step s e = some t) : Ok t := by
  obtain ⟨hp, r, hcall⟩ := step_eq_some.mp hstep
  have hchange := call_change h.map (h.inv.alive hp) hcall
  refine ⟨?_, change_mapOk h.inv.shape h.map hchange⟩
  rcases call_inv h.inv h.map hp hmode with hbelow | ⟨r', t', hcall', hinv⟩
  · -- the call has not returned
    obtain ⟨p, c⟩ := e
    cases c with
    | fcntl low fd cmd arg =>
        obtain ⟨rfl, rfl, hget, hneg⟩ := hbelow
        obtain ⟨o, ho⟩ := ne_none_iff_exists'.mp hget
        simp [Sys.call, Sys.fcntl, ho, Sys.fdupfd, hneg] at hcall
    | _ => exact hbelow.elim
  · rw [hcall] at hcall'
    cases hcall'
    exact hinv

theorem init_ok : Ok init where
  inv := by
    have hheld : init.held = fun _ => 0 := by
      funext o
      exact refs_eq_zero.mpr fun x _ => by simp [Sys.slot, init, Fdvec.new]
    refine ⟨⟨⟨?_, ?_, ?_⟩, ?_, ?_⟩, ?_, ?_⟩
    · simp [init]
    · intro o
      rw [hheld]
      simp [init]
    · simp [init]
    · intro q
      rfl
    · simp [init]
    · simp [Sys.slot, init, Fdvec.new]
    · intro p hp
      simp only [init, decide_eq_true_eq] at hp ⊢
      omega
  map := by simp [MapOk, Sys.closemap, init, Fdvec.new]

/-- The number of (process, slot) pairs that hold an object. -/
noncomputable def holders (s : Sys) (o : Nat) : Nat := {x | s.slot x = some o}.ncard

/-- The count of a live descriptor is the number of its holders, and a
descriptor is live as long as there are any. -/
structure RefOk (s : Sys) : Prop where
  count : ∀ o d, s.fdes o = some d → d.refcnt = holders s o
  live : ∀ o, (∃ d, s.fdes o = some d) ↔ 0 < holders s o

theorem Inv.holders {s : Sys} (h : Inv s) (o : Nat) : holders s o = s.held o := by
  have hset : {x | s.slot x = some o} = ↑(s.pairs.filter fun x => s.slot x = some o) := by
    ext x
    simp only [Set.mem_ofPred_eq, Finset.coe_filter]
    exact ⟨fun hx => ⟨h.slot hx, hx⟩, fun hx => hx.2⟩
  rw [Files.holders, hset, Set.ncard_coe_finset]
  rfl

theorem Inv.refOk {s : Sys} (h : Inv s) : RefOk s where
  count := fun o d hd => by rw [h.holders, h.counted.count hd]
  live := fun o => by rw [h.holders]; exact h.counted.live o

/-- The calls of a run return: no deleted object is used, no assertion
fails. -/
def Returns (s : Sys) (e : Event) : Prop :=
  s.alive e.p = true → ∃ r t, s.call e.p e.call = .ok (r, t)

/-- The run with the flags beside it. -/
def flagStep : Sys × Flags → Event → Option (Sys × Flags) :=
  ghost step fun s e _ f => setFlags s e.p f e.call

/-- F_GETFD gives `enc` of the flag, on every open slot. -/
def GetfdOk (enc : Bool → Int) (x : Sys × Flags) : Prop :=
  ∀ p fd, x.1.alive p = true → x.1.get p fd ≠ none →
    x.1.call p (.fcntl false fd FGETFD 0) = .ok (enc (x.2 (p, fd.toNat)), x.1)

/-- A child has the flags of its parent, and an exec closes the slots that have
the flag. -/
structure FlagStepOk (x : Sys × Flags) (e : Event) : Prop where
  fork : ∀ t, step x.1 e = some t → forks e.call = true →
    ∀ i, t.tst x.1.nproc i = x.1.tst e.p i
  exec : ∀ t, step x.1 e = some t → e.call = .exec →
    ∀ i, t.slot (e.p, i) = if x.2 (e.p, i) then none else x.1.slot (e.p, i)

/-- The flags do what they should along the whole run. -/
def Cloexec (enc : Bool → Int) (es : List Event) : Prop :=
  Always flagStep (GetfdOk enc) (init, fun _ => false) es ∧
    Each flagStep FlagStepOk (init, fun _ => false) es

/-- The event is an F_SETFD that sets the flag of an open slot. -/
def Sets (s : Sys) (e : Event) : Prop :=
  s.alive e.p = true ∧ ∃ fd arg, e.call = .fcntl false fd FSETFD arg ∧
    s.get e.p fd ≠ none ∧ arg &&& 1 ≠ 0

theorem getfd_eq {s : Sys} {p : Nat} {fd : Int} (hget : s.get p fd ≠ none) :
    s.call p (.fcntl false fd FGETFD 0) = .ok (s.tst p fd.toNat, s) := by
  obtain ⟨o, ho⟩ := ne_none_iff_exists'.mp hget
  simp [Sys.call, Sys.fcntl, ho, FGETFD, FDUPFD]

theorem tst_eq (s : Sys) (p i : Nat) : s.tst p i = if s.closemap (p, i) then -1 else 0 := rfl

/-- What holds of the tables and the flags in every run. -/
structure FlagInv (x : Sys × Flags) : Prop where
  shape : Shape x.1
  map : MapOk x.1
  marks : Marks x.1 x.2

theorem flagInv_init : FlagInv (init, fun _ => false) :=
  ⟨init_ok.inv.shape, init_ok.map, fun _ h => by cases h⟩

theorem flagInv_step {x y : Sys × Flags} {e : Event} (h : FlagInv x)
    (hstep : flagStep x e = some y) : FlagInv y ∧ Change x.1 e.p e.call y.1 := by
  obtain ⟨ht, hflags⟩ := ghost_eq_some.mp hstep
  obtain ⟨hp, r, hcall⟩ := step_eq_some.mp ht
  have hchange := call_change h.map (h.shape.alive _ hp) hcall
  refine ⟨⟨change_shape h.shape hp hchange, change_mapOk h.shape h.map hchange, ?_⟩, hchange⟩
  rw [hflags]
  exact change_marks h.shape h.marks hchange

/-- As long as nobody sets a flag, there is none. -/
structure NoFlags (x : Sys × Flags) : Prop extends FlagInv x where
  closemap : x.1.closemap = fun _ => false
  flags : x.2 = fun _ => false

theorem setFlags_none {s : Sys} {e : Event} (hp : s.alive e.p = true) (he : ¬ Sets s e) :
    setFlags s e.p (fun _ => false) e.call = fun _ => false := by
  obtain ⟨p, c⟩ := e
  cases c with
  | fcntl low fd cmd arg =>
      simp only [setFlags]
      split
      · next hset =>
          obtain ⟨rfl, rfl, hget⟩ := hset
          have hzero : ¬ (arg &&& 1 ≠ 0) := fun harg => he ⟨hp, fd, arg, rfl, hget, harg⟩
          simp only [hzero, decide_false]
          funext x
          simp [update_apply]
      · funext x; simp
  | close fd =>
      simp only [setFlags]
      split
      · rfl
      · funext x; simp [update_apply]
  | dup2 low oldfd newfd =>
      simp only [setFlags]
      split
      · funext x; simp [update_apply]
      · rfl
  | fork e =>
      simp only [setFlags]
      split
      · rfl
      · funext x; simp
  | exec => funext x; simp [setFlags]
  | exit => funext x; simp [setFlags]
  | _ => funext x; simp [setFlags]

theorem noFlags_step {x y : Sys × Flags} {e : Event} (h : NoFlags x) (he : ¬ Sets x.1 e)
    (hstep : flagStep x e = some y) : NoFlags y := by
  obtain ⟨hinv, hchange⟩ := flagInv_step h.toFlagInv hstep
  obtain ⟨ht, hflags⟩ := ghost_eq_some.mp hstep
  obtain ⟨hp, -⟩ := step_eq_some.mp ht
  refine ⟨hinv, ?_, ?_⟩
  · rw [change_closemap h.shape h.map hchange, h.closemap, setFlags_none hp he]
    split
    · funext z; simp
    · rfl
  · rw [hflags, h.flags, setFlags_none hp he]

theorem noFlags_getfd {x : Sys × Flags} (h : NoFlags x) :
    GetfdOk (fun b => if b then 1 else 0) x := by
  intro p fd _ hget
  rw [getfd_eq hget, tst_eq, h.closemap, h.flags]
  rfl

theorem noFlags_stepOk {x : Sys × Flags} (h : NoFlags x) {e : Event} : FlagStepOk x e where
  fork := by
    intro t ht hfork i
    obtain ⟨hp, r, hcall⟩ := step_eq_some.mp ht
    have hmap := change_closemap h.shape h.map (call_change h.map (h.shape.alive _ hp) hcall)
    rw [if_pos hfork] at hmap
    rw [tst_eq, tst_eq, hmap, h.closemap]
    simp
  exec := by
    intro t ht hexec i
    obtain ⟨hp, r, hcall⟩ := step_eq_some.mp ht
    rw [hexec] at hcall
    obtain ⟨u, hu, hret⟩ := bind_ok hcall
    cases hret
    rw [(Sys.closeonexec_tables hu).slot, h.closemap, h.flags]
    simp

/-- **Close-on-exec.**  The flags do what they should in a run if and only if
the run sets none: F_GETFD gives -1 for a flag that is set. -/
theorem cloexec_iff (es : List Event) :
    Cloexec (fun b => if b then 1 else 0) es ↔ Each step (fun s e => ¬ Sets s e) init es := by
  constructor
  · rintro ⟨hget, -⟩
    refine each_ghost.mp (each_of_always ?_ hget)
    rintro ⟨s, f⟩ e - hnext ⟨hp, fd, arg, hcall, hopen, harg⟩
    have hstep : step s e = some (s.setClose e.p fd.toNat (arg &&& 1 ≠ 0)) := by
      refine step_eq_some.mpr ⟨hp, 0, ?_⟩
      obtain ⟨o, ho⟩ := Option.ne_none_iff_exists'.mp hopen
      rw [hcall]
      simp [Sys.call, Sys.fcntl, ho, FSETFD, FGETFD, FDUPFD]
    generalize ht : s.setClose e.p fd.toNat (arg &&& 1 ≠ 0) = t at hstep
    have hopen' : t.get e.p fd ≠ none := by
      rw [← ht]
      simpa [Sys.get] using hopen
    have hafter : GetfdOk _ (t, setFlags s e.p f e.call) :=
      hnext _ (ghost_eq_some.mpr ⟨hstep, rfl⟩)
    have hread := hafter e.p fd (ht ▸ hp) hopen'
    rw [getfd_eq hopen', tst_eq, ← ht, Sys.closemap_setClose] at hread
    simp only [update_self, ne_eq, harg, not_false_eq_true, decide_true, if_true,
      Except.ok.injEq, Prod.mk.injEq, and_true] at hread
    omega
  · intro h
    have h' : Each flagStep (fun x e => ¬ Sets x.1 e) (init, fun _ => false) es :=
      each_ghost.mpr h
    have hno : Always flagStep NoFlags (init, fun _ => false) es :=
      always_of_each (fun x e y hx he hy => noFlags_step hx he hy)
        ⟨flagInv_init, funext fun _ => rfl, rfl⟩ h'
    refine ⟨hno.mono fun x hx => noFlags_getfd hx, Each.of_always (fun x e hx _ => ?_) hno h'⟩
    exact noFlags_stepOk hx

/-- The first F_SETFD of a run is read back as -1. -/
theorem cloexec_setfd :
    ¬ Cloexec (fun b => if b then 1 else 0)
      [⟨0, .open 0 (.ok .reg)⟩, ⟨0, .fcntl false 0 FSETFD 1⟩] := by
  rintro ⟨hget, -⟩
  have hlast := ((hget.2 _ rfl).2 _ rfl) 0 0 rfl (by decide)
  have hvalue := congrArg (fun r => r.toOption.map Prod.fst) hlast
  revert hvalue
  decide

end Unixlite.Files
