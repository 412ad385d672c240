import Unixlite.Fs.Bitmaps
import Unixlite.Fs.Regmap
import Unixlite.Verified.Prune

/-!
# Truncation

Port of `fs/trunc.cc`, for one task.  The index blocks are in buffers, and a block that is not
there yet may be impossible to read.  What is in the buffers and in the inode comes to the disk
when it is marked dirty.

`truncate` sets the pointers that it has freed to null in the buffers, which it does not mark,
and marks the inode only when all is done.  After a failure the disk can have pointers to free
blocks (`truncate_synced_iff`).
-/

namespace Unixlite.Fs

open Unixlite.Lib Unixlite.Verified.Prune
open Function (update update_of_ne update_self)
open Option

/-! ## The source -/

/-- An inode, the index blocks as the buffers have them, and the maps of the file system. -/
structure Trunc where
  mode : BitVec 16
  size : BitVec 32
  state : Nat
  daddr : Fin 10 → Bno
  zone : Bno → BitVec 8 → Bno
  fs : Fsmaps

namespace Trunc

def isdir (s : Trunc) : Bool := s.mode &&& SIFMT == SIFDIR
def isreg (s : Trunc) : Bool := s.mode &&& SIFMT == SIFREG

/-- Read and write through a pointer. -/
def load (s : Trunc) : Zoneptr → Bno
  | .daddr i => s.daddr i
  | .zone b k => s.zone b k

def store (s : Trunc) (bno : Bno) : Zoneptr → Trunc
  | .daddr i => { s with daddr := update s.daddr i bno }
  | .zone b k => { s with zone := update s.zone b (update (s.zone b) k bno) }

/-- `fs->freeb`. -/
def freeb (s : Trunc) (bno : Bno) : Trunc := { s with fs := (s.fs.freeb bno.toNat).getD s.fs }

/-- The indices of a block, in order. -/
def ptrs : List (BitVec 8) := (List.finRange 256).map BitVec.ofFin

/-- The loop over the pointers of an index block; `entry` is what is done in front of
`*z = MINIXFREEBNO`. -/
def entries (entry : Trunc → Zoneptr → Int × Trunc) (b : Bno) :
    List (BitVec 8) → Trunc → Int × Trunc
  | [], s => (0, s)
  | k :: ks, s =>
      let r := entry s (.zone b k)
      if r.1 ≠ 0 then r else entries entry b ks (r.2.store MINIXFREEBNO (.zone b k))

/-- `truncate(nindirect, index)`; the level 0 is the other branch of the loop, for a data
block. -/
def truncate2 (bad : Bno → Bool) : (nindirect : Nat) → (s : Trunc) → (index : Zoneptr) →
    Int × Trunc
  | 0, s, z => (0, if s.load z = MINIXFREEBNO then s else s.freeb (s.load z))
  | n + 1, s, index =>
      if s.load index = MINIXFREEBNO then (0, s)
      else if bad (s.load index) then ( EIO, s)
      else
        let r := entries (truncate2 bad n) (s.load index) ptrs s
        if r.1 ≠ 0 then r
        else (0, (r.2.freeb (r.2.load index)).store MINIXFREEBNO index)

/-- A turn of the loop over the direct blocks. -/
def direct (s : Trunc) (i : Fin 10) : Trunc :=
  if s.daddr i ≠ MINIXFREEBNO then (s.freeb (s.daddr i)).store MINIXFREEBNO (.daddr i) else s

def truncate (bad : Bno → Bool) (s : Trunc) : Int × Trunc :=
  if !s.isreg && !s.isdir then (EINVAL, s)
  else
    let r := ([0, 1, 2, 3, 4, 5, 6].foldl direct s).truncate2 bad 1 (.daddr 7)
    if r.1 ≠ 0 then r
    else
      let r := r.2.truncate2 bad 2 (.daddr 8)
      if r.1 ≠ 0 then r
      else
        let r := r.2.truncate2 bad 3 (.daddr 9)
        if r.1 ≠ 0 then r
        else (0, { r.2 with size := 0, state := IDIRTY })

/-! ## What is on the disk -/

/-- The bit of a block number is set in the bitmap of the zones. -/
def marked (s : Trunc) (bno : Bno) : Bool :=
  decide (s.fs.datazone ≤ bno.toNat) && decide (bno.toNat < s.fs.nzone) &&
    s.fs.zmap.bit (bno.toNat - s.fs.datazone + 1)

/-- The pointers, with the inode as one more block, `none`. -/
def child (s : Trunc) : Option Bno → BitVec 8 → Bno
  | none, k => if h : k.toNat < 10 then s.daddr ⟨k.toNat, h⟩ else MINIXFREEBNO
  | some b, k => s.zone b k

def memory (s : Trunc) : Memory Bno (Option Bno) (BitVec 8) := ⟨s.child, s.marked⟩

def layout : Layout Bno (Option Bno) (BitVec 8) where
  null := MINIXFREEBNO
  cell := some
  inj := some_injective Bno
  keys := ptrs
  nodup := (List.nodup_finRange 256).map fun _ _ h => BitVec.ofFin.inj h

theorem layout_null : layout.null = MINIXFREEBNO := rfl

/-- The pointers of the inode, and how many levels of index blocks are behind each. -/
def daddrs : List (BitVec 8) := [0, 1, 2, 3, 4, 5, 6, 7, 8, 9]

def level (k : BitVec 8) : Nat := k.toNat - 6

/-- The blocks of the inode are its own: none is at two places, and all are marked. -/
structure Owned (s : Trunc) : Prop where
  treed : s.isreg = true ∨ s.isdir = true
  whole : Whole layout s.memory none level daddrs

/-- What `sync` writes after `s` has become `s'`: the inode if it is dirty, and the buffers that
were dirty before. -/
def synced (dirty : Bno → Bool) (s s' : Trunc) : Option Bno → BitVec 8 → Bno :=
  image (fun c => c.elim (s'.state == IDIRTY) dirty) s.memory s'.memory

/-- A pointer of the inode, or of an index block that the inode leads to. -/
def Stored (child : Option Bno → BitVec 8 → Bno) (bno : Bno) : Prop :=
  ∃ k ∈ daddrs, Reach layout child (level k) (child none k) bno

/-- No index block of the inode is impossible to read. -/
def readable (bad : Bno → Bool) (s : Trunc) : Bool :=
  !daddrs.any fun k => fails layout bad s.child (level k) (s.child none k)

/-- No pointer to a free block survives on the disk; when all index blocks can be read, the
blocks are free and no pointer is left. -/
structure Truncated (bad dirty : Bno → Bool) (s : Trunc) : Prop where
  stored : ∀ bno, Stored (synced dirty s (s.truncate bad).2) bno →
    (s.truncate bad).2.marked bno = true
  free : readable bad s = true → ∀ bno, Stored s.child bno →
    (s.truncate bad).2.marked bno = false
  zero : readable bad s = true → ∀ i : Fin 10, (s.truncate bad).2.daddr i = MINIXFREEBNO ∧
    ∀ bno, ¬Stored (synced dirty s (s.truncate bad).2) bno

/-- On the way to the first index block that cannot be read, the inode and each index block is
dirty before, or has no pointer in front of the one that leads on. -/
def upheld (bad dirty : Bno → Bool) (s : Trunc) : Bool :=
  coveredAll (fun k => fails layout bad s.child (level k) (s.child none k))
    (fun k => covered layout bad (fun c => c.elim (s.state == IDIRTY) dirty) s.child
      (level k) (s.child none k))
    (fun k => s.state == IDIRTY || s.child none k = MINIXFREEBNO) daddrs

/-! ## The two programs -/

variable {s : Trunc} {bno : Bno} {i : Fin 10} {bad : Bno → Bool} {n : Nat}

/-- Where a pointer is. -/
def place : Zoneptr → Option Bno × BitVec 8
  | .daddr i => (none, BitVec.ofNat 8 i)
  | .zone b k => (some b, k)

theorem toNat_daddr (i : Fin 10) : (BitVec.ofNat 8 i).toNat = i := by
  exact Nat.mod_eq_of_lt (Nat.lt_trans i.isLt (by decide))

theorem child_daddr (s : Trunc) (i : Fin 10) : s.child none (BitVec.ofNat 8 i) = s.daddr i := by
  have hlt : (BitVec.ofNat 8 i).toNat < 10 := by
    rw [toNat_daddr]
    exact i.isLt
  rw [child, dif_pos hlt]
  exact congrArg s.daddr (Fin.ext (toNat_daddr i))

theorem child_place (s : Trunc) (z : Zoneptr) : s.child (place z).1 (place z).2 = s.load z := by
  cases z with
  | daddr i => exact child_daddr s i
  | zone b k => rfl

theorem child_store (s : Trunc) (bno : Bno) (z : Zoneptr) :
    (s.store bno z).child = update s.child (place z).1
      (update (s.child (place z).1) (place z).2 bno) := by
  funext c k
  cases z with
  | zone b j =>
      unfold place
      cases c with
      | none =>
          rfl
      | some b' =>
          show update s.zone b (update (s.zone b) j bno) b' k = _
          by_cases hb : b' = b
          · rw [hb, update_self, update_self]
            rfl
          · rw [update_of_ne hb, update_of_ne fun h => hb (some.inj h)]
            rfl
  | daddr i =>
      unfold place
      cases c with
      | some b =>
          rfl
      | none =>
          rw [update_self]
          by_cases hk : k = BitVec.ofNat 8 i
          · rw [hk, child_daddr, update_self]
            exact update_self ..
          · rw [update_of_ne hk]
            unfold child
            dsimp only
            split
            · next hlt =>
              refine update_of_ne (fun heq => hk ?_) _ _
              rw [← heq]
              exact (BitVec.ofNat_toNat 8 k).symm.trans rfl
            · rfl

theorem memory_store (s : Trunc) (bno : Bno) (z : Zoneptr) :
    (s.store bno z).memory = s.memory.set (place z).1 (place z).2 bno := by
  refine congrArg₂ Memory.mk (child_store s bno z) ?_
  cases z with
  | daddr i => rfl
  | zone b k => rfl

theorem marked_eq_true (s : Trunc) (bno : Bno) : s.marked bno = true ↔
    s.fs.IsBno bno.toNat ∧ s.fs.zmap.bit (bno.toNat - s.fs.datazone + 1) = true := by
  rw [marked, Bool.and_eq_true, Bool.and_eq_true, decide_eq_true_eq, decide_eq_true_eq]
  exact Iff.rfl

/-- `freeb` clears one bit, or the number has none that is set. -/
theorem marked_freeb (s : Trunc) (bno w : Bno) :
    (s.freeb bno).marked w = if w = bno then false else s.marked w := by
  cases hfree : s.fs.freeb bno.toNat with
  | none =>
      have hsame : s.freeb bno = s := by rw [freeb, hfree, getD_none]
      have hclear : ¬s.marked bno = true := by
        rw [marked_eq_true, ← Fsmaps.freeb_isSome, hfree]
        exact Bool.false_ne_true
      rw [hsame]
      split
      · next hw => rw [hw, Bool.eq_false_iff.mpr hclear]
      · rfl
  | some f =>
      obtain ⟨m, rfl, hm⟩ := Fsmaps.freeb_eq_some hfree
      have hbno : s.fs.IsBno bno.toNat :=
        (Fsmaps.freeb_isSome.mp (by rw [hfree, isSome_some])).1
      have hsome : s.freeb bno = { s with fs := { s.fs with zmap := m } } := by
        rw [freeb, hfree, getD_some]
      have hbit : (s.freeb bno).marked w = true ↔ s.fs.IsBno w.toNat ∧
          (if w.toNat - s.fs.datazone + 1 = bno.toNat - s.fs.datazone + 1 then false
            else s.fs.zmap.bit (w.toNat - s.fs.datazone + 1)) = true := by
        rw [marked_eq_true, hsome]
        rw [hm.bit]
        exact Iff.rfl
      rw [Bool.eq_iff_iff, hbit]
      by_cases hw : w = bno
      · rw [if_pos hw, hw, if_pos rfl]
        exact iff_of_false (fun h => Bool.false_ne_true h.2) Bool.false_ne_true
      · rw [if_neg hw, marked_eq_true]
        refine and_congr_right fun hin => ?_
        have hne : w.toNat ≠ bno.toNat := fun h => hw (BitVec.eq_of_toNat_eq h)
        have hlow := hin.1
        have hlow' := hbno.1
        rw [if_neg (by omega)]

theorem memory_freeb (s : Trunc) (bno : Bno) : (s.freeb bno).memory = s.memory.drop bno := by
  refine congrArg (Memory.mk s.child) (funext fun w => ?_)
  exact (marked_freeb s bno w).trans (Memory.used_drop s.memory bno w).symm

/-- What is left of the inode when its blocks are not looked at. -/
def header (s : Trunc) : BitVec 16 × BitVec 32 × Nat := (s.mode, s.size, s.state)

theorem header_store (s : Trunc) (bno : Bno) (z : Zoneptr) : (s.store bno z).header = s.header := by
  cases z with
  | daddr i => rfl
  | zone b k => rfl

/-- A part of `truncate` that does on the pointers what the other program does. -/
structure Follows (r : Int × Trunc) (s : Trunc) (p : Bool × Memory Bno (Option Bno) (BitVec 8)) :
    Prop where
  ret : r.1 = if p.1 then 0 else EIO
  memory : r.2.memory = p.2
  header : r.2.header = s.header

/-- A turn of a loop, with its `*z = MINIXFREEBNO`. -/
def turn (r : Int × Trunc) (z : Zoneptr) : Int × Trunc :=
  if r.1 ≠ 0 then r else (0, r.2.store MINIXFREEBNO z)

variable {r : Int × Trunc} {z : Zoneptr} {p : Bool × Memory Bno (Option Bno) (BitVec 8)}

theorem Follows.zero_iff (h : Follows r s p) : r.1 = 0 ↔ p.1 = true := by
  rw [h.ret]
  cases p.1 <;> decide

/-- The pointer has been set to null already. -/
theorem Follows.turn {d : Nat}
    (h : Follows r s (prune layout bad d (place z).1 (place z).2 s.memory)) :
    Follows (turn r z) s (prune layout bad d (place z).1 (place z).2 s.memory) := by
  unfold Trunc.turn
  split
  · exact h
  · next hr =>
    have hok := h.zero_iff.mp (not_not.mp hr)
    refine ⟨by rw [hok]; rfl, ?_, (header_store ..).trans h.header⟩
    rw [memory_store, h.memory, ← layout_null, ← prune_null hok]
    exact Memory.set_child _

section

variable {f : BitVec 8 → Memory Bno (Option Bno) (BitVec 8) →
  Bool × Memory Bno (Option Bno) (BitVec 8)} {k : BitVec 8}

/-- A loop ends where one of its pointers cannot be freed, -/
theorem Follows.stop (h : Follows r s (f k s.memory)) (hr : r.1 ≠ 0) (ks : List (BitVec 8)) :
    Follows r s (pruneAll f (k :: ks) s.memory) := by
  rw [pruneAll, if_neg fun hok => hr (h.zero_iff.mpr hok)]
  exact h

/-- and goes on otherwise. -/
theorem Follows.go (h : Follows r s (f k s.memory)) (hr : r.1 = 0) (ks : List (BitVec 8)) :
    pruneAll f (k :: ks) s.memory = pruneAll f ks r.2.memory := by
  rw [pruneAll, if_pos (h.zero_iff.mp hr), h.memory]

/-- The loop over an index block. -/
theorem entries_follows {entry : Trunc → Zoneptr → Int × Trunc} {b : Bno}
    (hentry : ∀ k s, Follows (Trunc.turn (entry s (.zone b k)) (.zone b k)) s (f k s.memory))
    (ks : List (BitVec 8)) (s : Trunc) :
    Follows (entries entry b ks s) s (pruneAll f ks s.memory) := by
  induction ks generalizing s with
  | nil => exact ⟨rfl, rfl, rfl⟩
  | cons k ks ih =>
      have hturn := hentry k s
      unfold Trunc.turn at hturn
      rw [entries]
      split
      · next hr =>
        rw [if_pos hr] at hturn
        exact hturn.stop hr ks
      · next hr =>
        rw [if_neg hr] at hturn
        rw [hturn.go rfl ks]
        have hrest := ih ((entry s (.zone b k)).2.store MINIXFREEBNO (.zone b k))
        exact ⟨hrest.ret, hrest.memory, hrest.header.trans hturn.header⟩

end

/-- A data block. -/
theorem turn_zero (z : Zoneptr) (s : Trunc) :
    Follows (Trunc.turn (truncate2 bad 0 s z) z) s
      (prune layout bad 0 (place z).1 (place z).2 s.memory) := by
  have hload : s.memory.child (place z).1 (place z).2 = s.load z := child_place s z
  unfold Trunc.turn truncate2 prune
  rw [if_neg (not_not.mpr rfl), hload, layout_null]
  refine ⟨rfl, ?_, (header_store ..).trans ?_⟩
  · dsimp only
    rw [memory_store]
    split
    · next hnull =>
      rw [← hnull, ← hload]
      exact Memory.set_child _
    · rw [memory_freeb]
  · split
    · rfl
    · rfl

/-- An index block, when its entries are freed as they should be. -/
theorem truncate2_step
    (h : ∀ z s, Follows (Trunc.turn (truncate2 bad n s z) z) s
      (prune layout bad n (place z).1 (place z).2 s.memory)) (z : Zoneptr) (s : Trunc) :
    Follows (truncate2 bad (n + 1) s z) s
      (prune layout bad (n + 1) (place z).1 (place z).2 s.memory) := by
  have hload : s.memory.child (place z).1 (place z).2 = s.load z := child_place s z
  rw [truncate2, prune, hload, layout_null]
  split
  · exact ⟨rfl, rfl, rfl⟩
  split
  · exact ⟨rfl, rfl, rfl⟩
  have hentry : ∀ k t, Follows
      (Trunc.turn (truncate2 bad n t (.zone (s.load z) k)) (.zone (s.load z) k)) t
      (prune layout bad n (some (s.load z)) k t.memory) := fun k t => h (.zone (s.load z) k) t
  have hentries := entries_follows hentry ptrs s
  have hcell : layout.cell (s.load z) = some (s.load z) := rfl
  have hkeys : layout.keys = ptrs := rfl
  rw [hcell, hkeys]
  dsimp only
  split
  · next hr =>
    rw [if_neg fun hok => hr (hentries.zero_iff.mpr hok)]
    exact hentries
  · next hr =>
    rw [if_pos (hentries.zero_iff.mp (not_not.mp hr)), ← hentries.memory]
    refine ⟨rfl, ?_, (header_store ..).trans hentries.header⟩
    have hagain := child_place (entries (truncate2 bad n) (s.load z) ptrs s).2 z
    rw [memory_store, memory_freeb, ← hagain]
    rfl

/-- The levels of index blocks. -/
theorem truncate2_follows (n : Nat) (z : Zoneptr) (s : Trunc) :
    Follows (truncate2 bad (n + 1) s z) s
      (prune layout bad (n + 1) (place z).1 (place z).2 s.memory) := by
  induction n generalizing z s with
  | zero => exact truncate2_step turn_zero z s
  | succ n ih => exact truncate2_step (fun z s => (ih z s).turn) z s

/-- A turn of the loop over the direct blocks. -/
theorem direct_follows (s : Trunc) (i : Fin 10) :
    Follows (0, s.direct i) s (prune layout bad 0 none (BitVec.ofNat 8 i) s.memory) := by
  have hload : s.memory.child none (BitVec.ofNat 8 i) = s.daddr i := child_daddr s i
  unfold direct prune
  rw [hload, layout_null]
  by_cases hnull : s.daddr i = MINIXFREEBNO
  · rw [if_neg (not_not.mpr hnull), if_pos hnull]
    exact ⟨rfl, rfl, rfl⟩
  · rw [if_pos hnull, if_neg hnull]
    refine ⟨rfl, ?_, header_store ..⟩
    rw [memory_store, memory_freeb]
    rfl

/-- The pointers of the inode, each with its levels. -/
def freeing (bad : Bno → Bool) (k : BitVec 8) (m : Memory Bno (Option Bno) (BitVec 8)) :
    Bool × Memory Bno (Option Bno) (BitVec 8) :=
  prune layout bad (level k) none k m

theorem freeing_direct (s : Trunc) (hi : level (BitVec.ofNat 8 i) = 0) :
    Follows (0, s.direct i) s (freeing bad (BitVec.ofNat 8 i) s.memory) := by
  rw [freeing, hi]
  exact direct_follows s i

theorem freeing_indirect (s : Trunc) (hi : level (BitVec.ofNat 8 i) = n + 1) :
    Follows (truncate2 bad (n + 1) s (.daddr i)) s
      (freeing bad (BitVec.ofNat 8 i) s.memory) := by
  rw [freeing, hi]
  exact truncate2_follows n (.daddr i) s

/-- The loop over the direct blocks. -/
theorem directs_follow (is : List (Fin 10)) (his : ∀ i ∈ is, level (BitVec.ofNat 8 i) = 0)
    (ks : List (BitVec 8)) (s : Trunc) :
    (is.foldl direct s).header = s.header ∧
      pruneAll (freeing bad) (is.map (fun i : Fin 10 => BitVec.ofNat 8 i) ++ ks) s.memory =
        pruneAll (freeing bad) ks (is.foldl direct s).memory := by
  induction is generalizing s with
  | nil => exact ⟨rfl, rfl⟩
  | cons i is ih =>
      rw [List.forall_mem_cons] at his
      have hturn := @freeing_direct i bad s his.1
      obtain ⟨hheader, hrest⟩ := ih his.2 (s.direct i)
      refine ⟨hheader.trans hturn.header, ?_⟩
      rw [List.map_cons, List.cons_append, hturn.go rfl]
      exact hrest

/-- What `truncate` does, in terms of the program on the pointers. -/
structure Runs (bad : Bno → Bool) (s : Trunc) (r : Int × Trunc) : Prop where
  ret : r.1 = if (pruneAll (freeing bad) daddrs s.memory).1 then 0 else EIO
  memory : r.2.memory = (pruneAll (freeing bad) daddrs s.memory).2
  state : r.2.state = if r.1 = 0 then IDIRTY else s.state

/-- The pointers of the inode are freed in order. -/
theorem truncate_runs (h : s.isreg = true ∨ s.isdir = true) : Runs bad s (s.truncate bad) := by
  have hsort : ¬(!s.isreg && !s.isdir) = true := by
    rcases h with h | h
    · rw [h, Bool.not_true, Bool.false_and]
      exact Bool.false_ne_true
    · rw [h, Bool.not_true, Bool.and_false]
      exact Bool.false_ne_true
  obtain ⟨hheader, hdirect⟩ := @directs_follow bad [0, 1, 2, 3, 4, 5, 6] (by decide) [7, 8, 9] s
  have hstop : ∀ r : Int × Trunc, r.1 ≠ 0 → r.2.header = s.header →
      r.1 = (if (pruneAll (freeing bad) daddrs s.memory).1 then 0 else EIO) →
      r.2.memory = (pruneAll (freeing bad) daddrs s.memory).2 → Runs bad s r := by
    intro r hr hheader hret hmemory
    exact ⟨hret, hmemory, by rw [if_neg hr]; exact congrArg (·.2.2) hheader⟩
  have hall : pruneAll (freeing bad) daddrs s.memory = _ := hdirect
  rw [hall] at hstop
  unfold truncate
  rw [if_neg hsort]
  generalize [0, 1, 2, 3, 4, 5, 6].foldl direct s = s₀ at hheader hall hstop ⊢
  have h7 : Follows (s₀.truncate2 bad 1 (.daddr 7)) s₀ (freeing bad 7 s₀.memory) :=
    freeing_indirect s₀ rfl
  dsimp only
  split
  · next hr =>
    have hlast := h7.stop hr [8, 9]
    exact hstop _ hr (hlast.header.trans hheader) hlast.ret hlast.memory
  next hr7 =>
  rw [h7.go (not_not.mp hr7)] at hall hstop
  replace hheader := h7.header.trans hheader
  generalize (s₀.truncate2 bad 1 (.daddr 7)).2 = s₁ at hheader hall hstop ⊢
  have h8 : Follows (s₁.truncate2 bad 2 (.daddr 8)) s₁ (freeing bad 8 s₁.memory) :=
    freeing_indirect s₁ rfl
  split
  · next hr =>
    have hlast := h8.stop hr [9]
    exact hstop _ hr (hlast.header.trans hheader) hlast.ret hlast.memory
  next hr8 =>
  rw [h8.go (not_not.mp hr8)] at hall hstop
  replace hheader := h8.header.trans hheader
  generalize (s₁.truncate2 bad 2 (.daddr 8)).2 = s₂ at hheader hall hstop ⊢
  have h9 : Follows (s₂.truncate2 bad 3 (.daddr 9)) s₂ (freeing bad 9 s₂.memory) :=
    freeing_indirect s₂ rfl
  split
  · next hr =>
    have hlast := h9.stop hr []
    exact hstop _ hr (hlast.header.trans hheader) hlast.ret hlast.memory
  next hr9 =>
  rw [h9.go (not_not.mp hr9)] at hall
  exact ⟨by rw [hall]; rfl, by rw [hall]; rfl, rfl⟩

/-! ## What is left after it -/

theorem nodup_daddrs : daddrs.Nodup := by decide

/-- What is done to the pointers of an inode with blocks of its own. -/
theorem Owned.pruned (h : Owned s) :
    Pruned layout bad s.memory none level daddrs (pruneAll (freeing bad) daddrs s.memory) :=
  pruneAll_pruned (fun _ _ hone => prune_pruned rfl hone) nodup_daddrs h.whole

theorem mem_daddrs (i : Fin 10) : BitVec.ofNat 8 i ∈ daddrs := by
  revert i
  decide

/-- With no failure all is free, and the inode is written back without a pointer. -/
theorem truncated_of_readable (h : Owned s) (dirty : Bno → Bool) (hread : readable bad s = true) :
    Truncated bad dirty s := by
  have hruns : Runs bad s (s.truncate bad) := truncate_runs h.treed
  have hpruned := @Owned.pruned s bad h
  have hok : (pruneAll (freeing bad) daddrs s.memory).1 = true := hpruned.ok.trans hread
  have hret : (s.truncate bad).1 = 0 := by rw [hruns.ret, if_pos hok]
  have hfreed := hpruned.freed hok
  rw [← hruns.memory] at hfreed
  have hsynced : ∀ bno, ¬Stored (synced dirty s (s.truncate bad).2) bno := by
    rintro bno ⟨k, hk, hreach⟩
    refine absurd ?_ hreach.ne_null
    rw [synced, image, hruns.state, if_pos hret]
    exact (hfreed k hk).1
  refine ⟨fun bno hbno => absurd hbno (hsynced bno), fun _ bno => ?_, fun _ i => ⟨?_, hsynced⟩⟩
  · rintro ⟨k, hk, hreach⟩
    exact (hfreed k hk).2 bno hreach
  · rw [← child_daddr]
    exact (hfreed _ (mem_daddrs i)).1

/-- After a failure the inode is as dirty as it was. -/
theorem truncated_iff_upheld (h : Owned s) (dirty : Bno → Bool) (hread : ¬readable bad s = true) :
    Truncated bad dirty s ↔ upheld bad dirty s = true := by
  have hruns : Runs bad s (s.truncate bad) := truncate_runs h.treed
  have hpruned := @Owned.pruned s bad h
  have hfail : (pruneAll (freeing bad) daddrs s.memory).1 = false :=
    hpruned.ok.trans (Bool.eq_false_iff.mpr hread)
  have hret : (s.truncate bad).1 ≠ 0 := by
    rw [hruns.ret, hfail]
    decide
  have hkept := hpruned.kept hfail fun c => c.elim (s.state == IDIRTY) dirty
  rw [← hruns.memory] at hkept
  have hsynced : synced dirty s (s.truncate bad).2 =
      image (fun c => c.elim (s.state == IDIRTY) dirty) s.memory (s.truncate bad).2.memory := by
    rw [synced, hruns.state, if_neg hret]
  refine Iff.trans ⟨fun htrunc k hk w hreach => ?_, fun hall => ⟨fun bno => ?_, ?_, ?_⟩⟩ hkept
  · rw [← hsynced] at hreach
    exact htrunc.stored w ⟨k, hk, hreach⟩
  · rintro ⟨k, hk, hreach⟩
    rw [hsynced] at hreach
    exact hall k hk bno hreach
  · exact fun htrue => absurd htrue hread
  · exact fun htrue => absurd htrue hread

/-- **What is on the disk after `truncate` and `sync` leads to blocks in use**, if all index
blocks can be read, or if every pointer that has been set to null is written back. -/
theorem truncate_synced_iff (bad dirty : Bno → Bool) (h : Owned s) :
    Truncated bad dirty s ↔ readable bad s = true ∨ upheld bad dirty s = true := by
  by_cases hread : readable bad s = true
  · exact iff_of_true (truncated_of_readable h dirty hread) (.inl hread)
  · rw [truncated_iff_upheld h dirty hread, or_iff_right hread]

/-! ## A small file -/

/-- One data block and an index block with nothing in it. -/
def small : Trunc where
  mode := SIFREG
  size := 1024
  state := BCLEAN
  daddr i := if i = 0 then 10 else if i = 7 then 11 else MINIXFREEBNO
  zone _ _ := MINIXFREEBNO
  fs := ⟨3, 12, 10, Numbers.onelong 0xffffffff, Numbers.onelong 0xffffffff⟩

theorem reach_small {d : Nat} {v : Bno} (h : Reach layout small.child d v bno) : bno = v := by
  cases d with
  | zero => exact h.2
  | succ d =>
      obtain ⟨-, rfl | ⟨k, -, hbelow⟩⟩ := h
      · rfl
      · exact absurd rfl hbelow.ne_null

theorem owned_small : Owned small := by
  refine ⟨.inl (by decide), ⟨fun k _ w _ => some_ne_none w, ?_⟩, ?_, ?_⟩
  · intro k hk k' hk' w hw hw'
    have hne := hw.ne_null
    have heq := (reach_small hw).symm.trans (reach_small hw')
    have hall : ∀ k ∈ daddrs, ∀ k' ∈ daddrs, small.child none k ≠ MINIXFREEBNO →
        small.child none k = small.child none k' → k = k' := by decide +kernel
    exact hall k hk k' hk' hne heq
  · intro k _
    cases level k with
    | zero => trivial
    | succ d =>
        refine fun _ => ⟨⟨fun j _ w hw => absurd rfl hw.ne_null,
          fun j _ j' _ w hw => absurd rfl hw.ne_null⟩, fun j _ => ?_⟩
        cases d with
        | zero => trivial
        | succ d => exact fun hne => absurd rfl hne
  · intro k hk w hw
    have hne := hw.ne_null
    rw [reach_small hw]
    have hall : ∀ k ∈ daddrs, small.child none k ≠ MINIXFREEBNO →
        small.marked (small.child none k) = true := by decide +kernel
    exact hall k hk hne

/-- It is truncated when its index block can be read. -/
theorem truncate_synced_small : Truncated (fun _ => false) (fun _ => false) small :=
  (truncate_synced_iff _ _ owned_small).mpr (.inl (by decide +kernel))

/-- The index block cannot be read: the inode on the disk still has the data block. -/
theorem truncate_dangles :
    ¬ ∀ (bad dirty : Bno → Bool) (s : Trunc), Owned s → Truncated bad dirty s := by
  intro h
  have htrunc := h (· == 11) (fun _ => false) small owned_small
  have hstored : Stored (synced (fun _ => false) small (small.truncate (· == 11)).2) 10 := by
    refine ⟨0, by decide, by decide, ?_⟩
    decide +kernel
  have hmarked := htrunc.stored 10 hstored
  cases hmarked

end Trunc

end Unixlite.Fs
