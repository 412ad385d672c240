import Unixlite.Fs.Dir
import Unixlite.Verified.Counter

/-!
# The buffers of a directory

Port of `scandir_t` of `fs/dirent.cc` and of `findde` and `emptydir` of `fs/dir.cc`, with the
buffers that they hold and give back.  A directory is the list of its slots; what a scan finds
in it is what there is in the blocks that can be read (`find`).
-/

namespace Unixlite.Fs

open Verified Counter Option

/-- Where the blocks of a device are, and what cannot be read during a call. -/
structure Dirdisk where
  /-- The block of a directory with the slots from `32 * l` on. -/
  block : Nat → Nat → Nat
  /-- The block of an inode in the table. -/
  itab : Nat → Nat
  /-- The block cannot be read. -/
  bad : Nat → Bool
  /-- The inode is not in the cache, and cannot be read. -/
  lost : Nat → Bool
  /-- The size of the directory is not a multiple of that of an entry. -/
  ragged : Nat → Bool

namespace Dirdisk

/-! ## `scandir_t` -/

/-- The block of slot `k`. -/
def blockof (d : Dirdisk) (dir k : Nat) : Nat := d.block dir (k / DEPERBLOCK)

/-- `advance`, in front of the slots `des`, of which the first is slot `k`. -/
def advance (d : Dirdisk) (dir : Nat) (des : List De) (k : Nat) (pins : Nat → Nat) :
    Option Nat × (Nat → Nat) :=
  if des.isEmpty then (none, pins)
  else if d.bad (d.blockof dir k) then (none, pins)
  else (some (d.blockof dir k), hold pins (d.blockof dir k))

/-- `~scandir_t`. -/
def close (b : Option Nat) (pins : Nat → Nat) : Nat → Nat := b.elim pins (lose pins)

def next (d : Dirdisk) (dir : Nat) (des : List De) (k : Nat) (b : Option Nat)
    (pins : Nat → Nat) : Option Nat × (Nat → Nat) :=
  if k % DEPERBLOCK ≠ 0 then (b, pins) else d.advance dir des k (close b pins)

/-- The loop over the slots, up to one that is looked for; its block is then still held.  The
slots of a block that cannot be read are passed over. -/
def scanloop (d : Dirdisk) (dir : Nat) (q : De → Bool) :
    List De → Nat → Option Nat → (Nat → Nat) → Option (Nat × Nat) × (Nat → Nat)
  | [], _, b, pins => (none, close b pins)
  | de :: des, k, b, pins =>
      if b.isSome && q de then (b.map fun b => (k, b), pins)
      else
        let x := d.next dir des (k + 1) b pins
        scanloop d dir q des (k + 1) x.1 x.2

/-- A scan from slot `k` on. -/
def scan (d : Dirdisk) (dir : Nat) (q : De → Bool) (slots : List De) (k : Nat)
    (pins : Nat → Nat) : Option (Nat × Nat) × (Nat → Nat) :=
  let x := d.advance dir (slots.drop k) k pins
  d.scanloop dir q (slots.drop k) k x.1 x.2

/-- A live entry with that name. -/
def named (name : Name) (de : De) : Bool := de.ino != MINIXFREEINO && de.name == name

/-- `findde`, with the slot and its buffer, which is held. -/
def findde (d : Dirdisk) (dir : Nat) (name : Name) (slots : List De) (pins : Nat → Nat) :
    Option (Nat × Nat) × (Nat → Nat) :=
  let x := d.scan dir (named name) slots 0 pins
  match x.1 with
  | none => (none, x.2)
  | some (k, b) => (some (k, b), lose (hold x.2 b) b)

/-- `findde(name)`, which only looks. -/
def isthere (d : Dirdisk) (dir : Nat) (name : Name) (slots : List De) (pins : Nat → Nat) :
    Bool × (Nat → Nat) :=
  let x := d.scan dir (named name) slots 0 pins
  match x.1 with
  | none => (false, x.2)
  | some (_, b) => (true, lose x.2 b)

def emptydir (d : Dirdisk) (dir : Nat) (slots : List De) (pins : Nat → Nat) :
    Bool × (Nat → Nat) :=
  let x := d.scan dir (fun de => de.ino != MINIXFREEINO) slots 2 pins
  match x.1 with
  | none => (true, x.2)
  | some (_, b) => (false, lose x.2 b)

/-- The checks of `addde`. -/
def addcheck (d : Dirdisk) (dir : Nat) (name : Name) (slots : List De) (pins : Nat → Nat) :
    Int × (Nat → Nat) :=
  if MINIXNAMELEN < name.length then (ENAMETOOLONG, pins)
  else if name = [] then (EPERM, pins)
  else if d.ragged dir then (EINVAL, pins)
  else
    let x := d.isthere dir name slots pins
    (if x.1 then EEXIST else 0, x.2)

/-! ## What is found -/

/-- The first slot from `k` on, in a block that can be read. -/
def find (d : Dirdisk) (dir : Nat) (q : De → Bool) : List De → Nat → Option Nat
  | [], _ => none
  | de :: des, k => if !d.bad (d.blockof dir k) && q de then some k else find d dir q des (k + 1)

variable {d : Dirdisk} {dir k m : Nat} {q : De → Bool} {des slots : List De} {b : Option Nat}
  {pins p : Nat → Nat} {name : Name}

/-- The buffer of a scan in front of slot `k`, when the scan began with the counts `p`. -/
structure At (d : Dirdisk) (dir : Nat) (des : List De) (k : Nat) (p : Nat → Nat)
    (b : Option Nat) (pins : Nat → Nat) : Prop where
  block : des ≠ [] → b = if d.bad (d.blockof dir k) then none else some (d.blockof dir k)
  pins : pins = b.elim p (hold p)

theorem At.close (h : At d dir des k p b pins) : close b pins = p := by
  rw [h.pins]
  cases b with
  | none => rfl
  | some b => exact lose_hold p b

theorem advance_at (d : Dirdisk) (dir : Nat) (des : List De) (k : Nat) (p : Nat → Nat) :
    At d dir des k p (d.advance dir des k p).1 (d.advance dir des k p).2 := by
  unfold advance
  cases des with
  | nil => exact ⟨fun h => absurd rfl h, rfl⟩
  | cons de des =>
      by_cases hbad : d.bad (d.blockof dir k) = true
      · rw [if_pos hbad]
        exact ⟨fun _ => (if_pos hbad).symm, rfl⟩
      · rw [if_neg hbad]
        exact ⟨fun _ => (if_neg hbad).symm, rfl⟩

theorem At.next {de : De} (h : At d dir (de :: des) k p b pins) :
    At d dir des (k + 1) p (d.next dir des (k + 1) b pins).1
      (d.next dir des (k + 1) b pins).2 := by
  unfold Dirdisk.next
  by_cases hk : (k + 1) % DEPERBLOCK ≠ 0
  · rw [if_pos hk]
    refine ⟨fun _ => ?_, h.pins⟩
    have hdiv : (k + 1) / DEPERBLOCK = k / DEPERBLOCK := by
      unfold DEPERBLOCK at hk ⊢
      omega
    unfold blockof
    rw [hdiv]
    exact h.block (List.cons_ne_nil de des)
  · rw [if_neg hk, h.close]
    exact advance_at d dir des (k + 1) p

theorem scanloop_eq (h : At d dir des k p b pins) :
    d.scanloop dir q des k b pins = ((d.find dir q des k).map fun m => (m, d.blockof dir m),
      (d.find dir q des k).elim p fun m => hold p (d.blockof dir m)) := by
  induction des generalizing k b pins with
  | nil =>
      rw [scanloop, h.close]
      rfl
  | cons de des ih =>
      have hblock := h.block (List.cons_ne_nil de des)
      have hpins := h.pins
      rw [scanloop, find]
      by_cases hbad : d.bad (d.blockof dir k) = true
      · rw [if_pos hbad] at hblock
        rw [ih h.next, hblock, hbad]
        rfl
      · rw [if_neg hbad] at hblock
        have hgood : d.bad (d.blockof dir k) = false := Bool.eq_false_iff.mpr hbad
        cases hq : q de with
        | true =>
            rw [hpins, hblock, hgood]
            rfl
        | false =>
            rw [ih h.next, hblock, hgood]
            rfl

/-- A scan ends at the slot that is found. -/
theorem scan_eq (d : Dirdisk) (dir : Nat) (q : De → Bool) (slots : List De) (k : Nat)
    (p : Nat → Nat) :
    d.scan dir q slots k p =
      ((d.find dir q (slots.drop k) k).map fun m => (m, d.blockof dir m),
        (d.find dir q (slots.drop k) k).elim p fun m => hold p (d.blockof dir m)) :=
  scanloop_eq (advance_at d dir (slots.drop k) k p)

/-- `findde` has one more reference to the block of what it has found. -/
theorem findde_eq (d : Dirdisk) (dir : Nat) (name : Name) (slots : List De) (p : Nat → Nat) :
    d.findde dir name slots p =
      ((d.find dir (named name) slots 0).map fun m => (m, d.blockof dir m),
        (d.find dir (named name) slots 0).elim p fun m => hold p (d.blockof dir m)) := by
  unfold findde
  rw [scan_eq, List.drop_zero]
  cases d.find dir (named name) slots 0 with
  | none => rfl
  | some m =>
      dsimp only [map_some, elim_some]
      rw [lose_hold]

theorem isthere_eq (d : Dirdisk) (dir : Nat) (name : Name) (slots : List De) (p : Nat → Nat) :
    d.isthere dir name slots p = ((d.find dir (named name) slots 0).isSome, p) := by
  unfold isthere
  rw [scan_eq, List.drop_zero]
  cases d.find dir (named name) slots 0 with
  | none => rfl
  | some m =>
      dsimp only [map_some, elim_some]
      rw [lose_hold]
      rfl

theorem emptydir_eq (d : Dirdisk) (dir : Nat) (slots : List De) (p : Nat → Nat) :
    d.emptydir dir slots p =
      ((d.find dir (fun de => de.ino != MINIXFREEINO) (slots.drop 2) 2).isNone, p) := by
  unfold emptydir
  rw [scan_eq]
  cases d.find dir (fun de => de.ino != MINIXFREEINO) (slots.drop 2) 2 with
  | none => rfl
  | some m =>
      dsimp only [map_some, elim_some]
      rw [lose_hold]
      rfl

/-- What `addcheck` returns. -/
def addcode (d : Dirdisk) (dir : Nat) (name : Name) (slots : List De) : Int :=
  if MINIXNAMELEN < name.length then ENAMETOOLONG
  else if name = [] then EPERM
  else if d.ragged dir then EINVAL
  else if (d.find dir (named name) slots 0).isSome then EEXIST
  else 0

theorem addcheck_eq (d : Dirdisk) (dir : Nat) (name : Name) (slots : List De) (p : Nat → Nat) :
    d.addcheck dir name slots p = (d.addcode dir name slots, p) := by
  unfold addcheck addcode
  rw [isthere_eq]
  dsimp only
  split_ifs <;> rfl

theorem find_spec (h : d.find dir q des k = some m) :
    k ≤ m ∧ ∃ de, des[m - k]? = some de ∧ q de = true ∧ d.bad (d.blockof dir m) = false := by
  induction des generalizing k with
  | nil => cases h
  | cons de des ih =>
      rw [find] at h
      split_ifs at h with hhere
      · cases h
        rw [Bool.and_eq_true, Bool.not_eq_true'] at hhere
        exact ⟨Nat.le_refl _, de, by rw [Nat.sub_self]; rfl, hhere.2, hhere.1⟩
      · obtain ⟨hle, de', hde, hq⟩ := ih h
        refine ⟨by omega, de', ?_, hq⟩
        rw [show m - k = m - (k + 1) + 1 by omega]
        exact hde

end Dirdisk

end Unixlite.Fs
