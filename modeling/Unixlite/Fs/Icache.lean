import Mathlib.Data.BitVec
import Mathlib.Data.List.Basic

/-!
# The slots of the inode cache

Port of `findi` and of the scan in `geti` from `fs/icache.cc`, over slots as the code
has them: `inode_t` with its place on the free list and in the hash queues.  The hash
queues are one list here; `findi` looks at the slots of one queue in the order in which
they stand.

What is told of the scan is which slot it takes (`scan_take`).
-/

namespace Unixlite.Fs.Icache

open List

/-! ## Data -/

/-- An address of an `fs_t`, and an inode number. -/
abbrev Key := Nat × Nat

inductive Istate where
  | inval
  | clean
  | dirty
deriving DecidableEq

def SIFMT : BitVec 16 := 0xF000
def SIFREG : BitVec 16 := 0x8000
def SIFDIR : BitVec 16 := 0x4000

/-- `minixdi_t`, the part of an inode that is on disk. -/
structure Dinode where
  mode : BitVec 16
  nlink : Nat
  /-- The other fields. -/
  rest : List Nat
deriving DecidableEq

def Dinode.isdir (di : Dinode) : Bool := di.mode &&& SIFMT == SIFDIR
def Dinode.isreg (di : Dinode) : Bool := di.mode &&& SIFMT == SIFREG

/-- `inode_t`. -/
structure Slot where
  state : Istate
  /-- `IMOUNT`. -/
  mount : Bool
  refcnt : Nat
  fs : Nat
  dev : Nat
  ino : Nat
  peer : Option Nat
  /-- `IOLOCK`. -/
  locked : Bool
  di : Dinode

def Slot.key (x : Slot) : Key := (x.fs, x.ino)

structure Cache where
  slot : Nat → Slot
  freeq : List Nat
  hashq : List Nat

namespace Cache

def upd (c : Cache) (i : Nat) (f : Slot → Slot) : Cache :=
  { c with slot := fun j => if j = i then f (c.slot j) else c.slot j }

theorem upd_slot (c : Cache) (i : Nat) (f : Slot → Slot) (j : Nat) :
    (c.upd i f).slot j = if j = i then f (c.slot j) else c.slot j := rfl

/-- What an update leaves alone is the same in every slot. -/
theorem upd_same {β : Type*} (p : Slot → β) {f : Slot → Slot} (hf : ∀ x, p (f x) = p x)
    (c : Cache) (i j : Nat) : p ((c.upd i f).slot j) = p (c.slot j) := by
  rw [upd_slot]
  split
  · exact hf _
  · rfl

/-- The constructor `inodecache`, with `n` slots. -/
def boot (n : Nat) : Cache where
  slot i := ⟨.inval, false, 0, 0, 0, i, none, false, ⟨0, 0, []⟩⟩
  freeq := List.range n
  hashq := List.range n

/-! ## `findi` -/

def findi (c : Cache) (key : Key) : Option Nat := c.hashq.find? fun i => (c.slot i).key == key

variable {c : Cache} {key : Key} {i : Nat}

theorem findi_some (h : c.findi key = some i) : i ∈ c.hashq ∧ (c.slot i).key = key :=
  ⟨mem_of_find?_eq_some h,
    beq_iff_eq.mp (List.find?_some (p := fun i => (c.slot i).key == key) h)⟩

theorem findi_none (h : c.findi key = none) (hi : i ∈ c.hashq) : (c.slot i).key ≠ key := by
  have hne := List.find?_eq_none.mp h i hi
  exact fun heq => hne (beq_iff_eq.mpr heq)

/-! ## The scan of the free list -/

/-- How the scan ends. -/
inductive Scan where
  | full
  /-- The slot is locked, and no candidate is left. -/
  | wait (i candidates : Nat)
  | write (i candidates : Nat)
  | take (i : Nat)
deriving DecidableEq

def scan (slot : Nat → Slot) : Nat → List Nat → Scan
  | _, [] => .full
  | candidates, i :: q =>
      if (slot i).refcnt ≠ 0 then scan slot candidates q
      else
        let candidates := candidates - 1
        if (slot i).locked then
          if candidates ≠ 0 then scan slot candidates q else .wait i candidates
        else if (slot i).state = .dirty then .write i candidates
        else .take i

/-- A slot with a new key, held. -/
def take (c : Cache) (i : Nat) (key : Key) (dev : Nat) : Cache where
  slot := (c.upd i fun x =>
    { x with state := .inval, refcnt := x.refcnt + 1, fs := key.1, dev := dev, ino := key.2 }).slot
  freeq := c.freeq.erase i
  hashq := i :: c.hashq.erase i

end Cache

/-! ## What the scan takes -/

/-- The slots in front of `i`. -/
def front (q : List Nat) (i : Nat) : List Nat := q.takeWhile fun j => decide (j ≠ i)

theorem front_self (i : Nat) (q : List Nat) : front (i :: q) i = [] :=
  takeWhile_cons_of_neg (by simp)

theorem front_cons {i j : Nat} (h : j ≠ i) (q : List Nat) : front (j :: q) i = j :: front q i :=
  takeWhile_cons_of_pos (by simpa using h)

/-- Nobody holds the slot, nobody reads or writes it, and it need not be written. -/
structure Slot.Takeable (x : Slot) : Prop where
  refcnt : x.refcnt = 0
  locked : x.locked = false
  state : x.state ≠ .dirty

/-- The scan gets as far as `i`: of the slots in front of it that nobody holds each one is
locked, and there are fewer of them than candidates. -/
structure Reached (slot : Nat → Slot) (candidates : Nat) (q : List Nat) (i : Nat) : Prop where
  mem : i ∈ q
  locked : ∀ j ∈ front q i, (slot j).refcnt = 0 → (slot j).locked = true
  few : (front q i).countP (fun j => (slot j).refcnt == 0) = 0 ∨
    (front q i).countP (fun j => (slot j).refcnt == 0) < candidates

theorem reached_cons {slot : Nat → Slot} {n : Nat} {q : List Nat} {i j : Nat} (hne : j ≠ i) :
    Reached slot n (j :: q) i ↔
      if (slot j).refcnt = 0 then
        (slot j).locked = true ∧ n - 1 ≠ 0 ∧ Reached slot (n - 1) q i
      else Reached slot n q i := by
  constructor
  · rintro ⟨hmem, hlocked, hfew⟩
    rw [front_cons hne] at hlocked hfew
    have hmem := (mem_cons.mp hmem).resolve_left (Ne.symm hne)
    rw [countP_cons] at hfew
    split
    · next hj =>
      rw [hj] at hfew
      simp only [beq_self_eq_true, if_true] at hfew
      exact ⟨hlocked j mem_cons_self hj, by omega, hmem,
        fun x hx => hlocked x (mem_cons_of_mem _ hx), by omega⟩
    · next hj =>
      rw [if_neg fun h => hj (beq_iff_eq.mp h)] at hfew
      exact ⟨hmem, fun x hx => hlocked x (mem_cons_of_mem _ hx), hfew⟩
  · intro h
    split at h
    · next hj =>
      obtain ⟨hlock, hn, hmem, hlocked, hfew⟩ := h
      refine ⟨mem_cons_of_mem _ hmem, ?_, ?_⟩
      · rw [front_cons hne]
        intro x hx hzero
        rcases mem_cons.mp hx with rfl | hx
        · exact hlock
        · exact hlocked x hx hzero
      · rw [front_cons hne, countP_cons, hj]
        simp only [beq_self_eq_true, if_true]
        omega
    · next hj =>
      obtain ⟨hmem, hlocked, hfew⟩ := h
      refine ⟨mem_cons_of_mem _ hmem, ?_, ?_⟩
      · rw [front_cons hne]
        intro x hx hzero
        rcases mem_cons.mp hx with rfl | hx
        · exact absurd hzero hj
        · exact hlocked x hx hzero
      · rw [front_cons hne, countP_cons, if_neg fun h => hj (beq_iff_eq.mp h)]
        exact hfew

/-- The scan takes the first slot that it can take, unless it stops in front of it. -/
theorem scan_take {slot : Nat → Slot} {i : Nat} (q : List Nat) (n : Nat) :
    Cache.scan slot n q = .take i ↔ (slot i).Takeable ∧ Reached slot n q i := by
  induction q generalizing n with
  | nil =>
      constructor
      · intro h
        cases h
      · rintro ⟨-, h⟩
        cases h.mem
  | cons j q ih =>
      unfold Cache.scan
      by_cases hj : j = i
      · -- what stands behind `i` is not looked at
        subst hj
        have hreached : Reached slot n (j :: q) j := by
          refine ⟨mem_cons_self, ?_, ?_⟩
          · rw [front_self]
            exact fun x hx => absurd hx not_mem_nil
          · rw [front_self]
            exact .inl rfl
        split
        · next hrefcnt =>
          refine ⟨fun h => ?_, fun h => absurd h.1.refcnt hrefcnt⟩
          exact absurd ((ih n).mp h).1.refcnt hrefcnt
        next hrefcnt =>
        dsimp only
        split
        · next hlocked =>
          have hnot : ¬ (slot j).Takeable := fun h => by
            have hfree := h.locked
            rw [hlocked] at hfree
            cases hfree
          split
          · exact ⟨fun h => absurd ((ih _).mp h).1 hnot, fun h => absurd h.1 hnot⟩
          · exact ⟨nofun, fun h => absurd h.1 hnot⟩
        next hlocked =>
        split
        · next hdirty => exact ⟨nofun, fun h => absurd hdirty h.1.state⟩
        · next hclean =>
          have hrefcnt := not_not.mp hrefcnt
          exact ⟨fun _ => ⟨⟨hrefcnt, Bool.not_eq_true _ ▸ hlocked, hclean⟩, hreached⟩, fun _ => rfl⟩
      · rw [reached_cons hj]
        split
        · exact ih n
        next hrefcnt =>
        rw [if_pos (not_not.mp hrefcnt)]
        dsimp only
        split
        · next hlocked =>
          split
          · next hn =>
            rw [ih]
            exact ⟨fun h => ⟨h.1, hlocked, hn, h.2⟩, fun h => ⟨h.1, h.2.2.2⟩⟩
          · next hn => exact ⟨nofun, fun h => absurd h.2.2.1 hn⟩
        next hlocked =>
        split
        · exact ⟨nofun, fun h => absurd h.2.1 hlocked⟩
        · refine ⟨fun h => ?_, fun h => absurd h.2.1 hlocked⟩
          cases h
          exact absurd rfl hj

theorem scan_write_mem {slot : Nat → Slot} {i m : Nat} (q : List Nat) (n : Nat)
    (h : Cache.scan slot n q = .write i m) : i ∈ q ∧ (slot i).refcnt = 0 := by
  induction q generalizing n with
  | nil => cases h
  | cons j q ih =>
      unfold Cache.scan at h
      split at h
      · exact ⟨mem_cons_of_mem _ (ih n h).1, (ih n h).2⟩
      next hrefcnt =>
      dsimp only at h
      split at h
      · split at h
        · exact ⟨mem_cons_of_mem _ (ih _ h).1, (ih _ h).2⟩
        · cases h
      split at h
      · cases h
        exact ⟨mem_cons_self, not_not.mp hrefcnt⟩
      · cases h

end Unixlite.Fs.Icache
