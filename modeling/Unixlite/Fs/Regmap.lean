import Mathlib.Data.BitVec
import Unixlite.Fs.Inode
import Unixlite.Verified.Forest

/-!
# The block map of a file

Port of the part of `fs/reg.cc` that finds and allocates the blocks of a file, for one
task and without I/O errors.  Index blocks are in the buffer cache; a block is the array of its
256 pointers.
-/

namespace Unixlite.Fs

open Unixlite.Verified Option List
open Function (update update_self)

/-- A block number, `bno_t` and `minixzone_t`. -/
abbrev Bno := BitVec 32

def MINIXFREEBNO : Bno := 0

/-- `(bno_t)-1`. -/
def BNOTALLOC : Bno := -1

def MINIXEND3 : Nat := 16843015

/-- An inode and the disk under it.  `free` lists what `allocb` gives out, in order. -/
structure Regmap where
  mode : BitVec 16
  daddr : Fin 10 → Bno
  zone : Bno → BitVec 8 → Bno
  free : List Bno

/-- A `minixzone_t *`. -/
inductive Zoneptr where
  | daddr (i : Fin 10)
  | zone (b : Bno) (k : BitVec 8)

namespace Regmap

def isdir (s : Regmap) : Bool := s.mode &&& SIFMT == SIFDIR
def isreg (s : Regmap) : Bool := s.mode &&& SIFMT == SIFREG
def isblk (s : Regmap) : Bool := s.mode &&& SIFMT == SIFBLK

/-- Read and write through a pointer. -/
def load (s : Regmap) : Zoneptr → Bno
  | .daddr i => s.daddr i
  | .zone b k => s.zone b k

def store (s : Regmap) (bno : Bno) : Zoneptr → Regmap
  | .daddr i => { s with daddr := update s.daddr i bno }
  | .zone b k => { s with zone := update s.zone b (update (s.zone b) k bno) }

/-- `memset` of a block to 0. -/
def zero (s : Regmap) (bno : Bno) : Regmap :=
  { s with zone := update s.zone bno fun _ => MINIXFREEBNO }

/-- `allocdatab`; `none` is `ENOSPC`. -/
def allocdatab (s : Regmap) (ptr : Zoneptr) : Option Regmap :=
  if s.load ptr ≠ MINIXFREEBNO then some s
  else s.free.head?.map fun bno => { s with free := s.free.tail }.store bno ptr

def allocindexb (s : Regmap) (ptr : Zoneptr) : Option Regmap :=
  if s.load ptr ≠ MINIXFREEBNO then some s
  else s.free.head?.map fun bno => ({ s with free := s.free.tail }.zero bno).store bno ptr

/-- `(offset >> nindirect) & MASK`, for `n` levels. -/
def digit (offset n : Nat) : BitVec 8 := BitVec.ofNat 8 (offset >>> (8 * n))

/-- `rtranslate` from a loop iteration on, with `n` levels to go. -/
def rtranslate (s : Regmap) : (n : Nat) → (index : Bno) → (offset : Nat) → Bno
  | 0, index, _ => if index = MINIXFREEBNO then BNOTALLOC else index
  | n + 1, index, offset =>
      if index = MINIXFREEBNO then BNOTALLOC
      else s.rtranslate n (s.zone index (digit offset n)) offset

/-- `wtranslate` from a loop iteration on. -/
def wtranslate (s : Regmap) : (n : Nat) → (indexp : Zoneptr) → (offset : Nat) →
    Except Int Bno × Regmap
  | 0, indexp, _ =>
      (s.allocdatab indexp).elim (.error ENOSPC, s) fun s => (.ok (s.load indexp), s)
  | n + 1, indexp, offset =>
      (s.allocindexb indexp).elim (.error ENOSPC, s) fun s =>
        s.wtranslate n (.zone (s.load indexp) (digit offset n)) offset

instance : NeZero 10 := ⟨by decide⟩

theorem daddr_lt {logic : Nat} (h : logic < MINIXEND0) : logic < 10 := Nat.lt_trans h (by decide)

def readmap (s : Regmap) (logic : Nat) : Except Int Bno :=
  if !s.isdir && !s.isreg && !s.isblk then .error EINVAL
  else if s.isblk then .ok (BitVec.ofNat 32 logic)
  else if h : logic < MINIXEND0 then
    .ok (if s.daddr ⟨logic, daddr_lt h⟩ ≠ 0 then
      s.daddr ⟨logic, daddr_lt h⟩ else BNOTALLOC)
  else if logic < MINIXEND1 then .ok (s.rtranslate 1 (s.daddr 7) (logic - MINIXEND0))
  else if logic < MINIXEND2 then .ok (s.rtranslate 2 (s.daddr 8) (logic - MINIXEND1))
  else if logic < MINIXEND3 then .ok (s.rtranslate 3 (s.daddr 9) (logic - MINIXEND2))
  else .error EINVAL

def writemap (s : Regmap) (logic : Nat) : Except Int Bno × Regmap :=
  if !s.isdir && !s.isreg && !s.isblk then (.error EINVAL, s)
  else if s.isblk then (.ok (BitVec.ofNat 32 logic), s)
  else if h : logic < MINIXEND0 then
    s.wtranslate 0 (.daddr ⟨logic, daddr_lt h⟩) logic
  else if logic < MINIXEND1 then s.wtranslate 1 (.daddr 7) (logic - MINIXEND0)
  else if logic < MINIXEND2 then s.wtranslate 2 (.daddr 8) (logic - MINIXEND1)
  else if logic < MINIXEND3 then s.wtranslate 3 (.daddr 9) (logic - MINIXEND2)
  else (.error EINVAL, s)

/-! ## The pointers as trees -/

/-- The pointers of the inode and of all blocks. -/
def forest (s : Regmap) : Forest (Fin 10) (BitVec 8) Bno := ⟨s.daddr, s.zone⟩

/-- How many levels of index blocks are behind a pointer of the inode. -/
def depth (i : Fin 10) : Nat := i - 6

/-- The pointer of the inode that leads to a block of the file, and the way from there. -/
def root (logic : Nat) : Fin 10 :=
  if h : logic < MINIXEND0 then ⟨logic, daddr_lt h⟩
  else if logic < MINIXEND1 then 7 else if logic < MINIXEND2 then 8 else 9

def offsetOf (logic : Nat) : Nat :=
  if logic < MINIXEND0 then logic
  else if logic < MINIXEND1 then logic - MINIXEND0
  else if logic < MINIXEND2 then logic - MINIXEND1
  else logic - MINIXEND2

/-- The digits `n`, ..., `n + m - 1`: the way after `m` steps, the last one first. -/
def way (offset n : Nat) : (m : Nat) → List (BitVec 8)
  | 0 => []
  | m + 1 => digit offset n :: way offset (n + 1) m

/-- The block of the file in the forest. -/
def blockAt (s : Regmap) (logic : Nat) : Bno :=
  s.forest.get MINIXFREEBNO (root logic) (way (offsetOf logic) 0 (depth (root logic)))

/-- The blocks of the file are pairwise distinct, and they are blocks. -/
structure Distinct (s : Regmap) : Prop where
  noShare : s.forest.NoShare MINIXFREEBNO depth
  valid : s.forest.Unused MINIXFREEBNO depth BNOTALLOC

/-- What `allocb` gives out is in no use yet. -/
structure Fresh (s : Regmap) : Prop where
  nodup : s.free.Nodup
  unused : ∀ b ∈ s.free, b ≠ MINIXFREEBNO ∧ b ≠ BNOTALLOC ∧
    s.forest.Unused MINIXFREEBNO depth b

/-- A file whose blocks are its own. -/
structure Good (s : Regmap) : Prop where
  distinct : Distinct s
  fresh : Fresh s

/-- The pointer at a place. -/
def slot (s : Regmap) (i : Fin 10) : List (BitVec 8) → Zoneptr
  | [] => .daddr i
  | k :: ks => .zone (s.forest.get MINIXFREEBNO i ks) k

variable {s s' : Regmap} {i : Fin 10} {ks : List (BitVec 8)}

theorem load_slot
    (hparent : ∀ k ks', ks = k :: ks' → s.forest.get MINIXFREEBNO i ks' ≠ MINIXFREEBNO) :
    s.load (s.slot i ks) = s.forest.get MINIXFREEBNO i ks := by
  cases ks with
  | nil => rfl
  | cons k ks =>
      rw [Forest.get, if_neg (hparent k ks rfl)]
      rfl

theorem forest_store (bno : Bno) :
    (s.store bno (s.slot i ks)).forest = s.forest.put MINIXFREEBNO i bno ks := by
  cases ks <;> rfl

/-- `put` needs the way to the pointer only. -/
theorem slot_congr {t : Regmap} (h : ∀ k ks', ks = k :: ks' →
    t.forest.get MINIXFREEBNO i ks' = s.forest.get MINIXFREEBNO i ks') :
    t.slot i ks = s.slot i ks := by
  cases ks with
  | nil => rfl
  | cons k ks => exact congrArg (Zoneptr.zone · k) (h k ks rfl)

/-- What a pointer that is filled in changes. -/
structure Filled (s s' : Regmap) (i : Fin 10) (ks : List (BitVec 8)) : Prop where
  good : Good s'
  mode : s'.mode = s.mode
  used : s'.forest.get MINIXFREEBNO i ks ≠ MINIXFREEBNO
  other : ∀ j ls, ls.length ≤ depth j → (j = i → ls ≠ ks) →
    s'.forest.get MINIXFREEBNO j ls = s.forest.get MINIXFREEBNO j ls

/-- A block from `allocb` is put where there was none, in a forest `t` that differs from the old
one in the contents of that block only. -/
theorem Good.fill (h : Good s) {bno : Bno} {free : List Bno} (hfree : s.free = bno :: free)
    (hks : ks.length ≤ depth i) (hold : s.forest.get MINIXFREEBNO i ks = MINIXFREEBNO)
    (hparent : ∀ k ks', ks = k :: ks' → s.forest.get MINIXFREEBNO i ks' ≠ MINIXFREEBNO)
    {t : Forest (Fin 10) (BitVec 8) Bno} (ht : ∀ j ls, ls.length ≤ depth j →
      t.get MINIXFREEBNO j ls = s.forest.get MINIXFREEBNO j ls)
    (hbehind : ks.length = depth i ∨ ∀ k, t.child bno k = MINIXFREEBNO)
    (hmode : s'.mode = s.mode) (hforest : s'.forest = t.put MINIXFREEBNO i bno ks)
    (hfree' : s'.free = free) : Filled s s' i ks := by
  have hmem : bno ∈ s.free := by rw [hfree]; exact mem_cons_self
  obtain ⟨hne, hnot, hunused⟩ := h.fresh.unused bno hmem
  have hnodup := h.fresh.nodup
  rw [hfree, nodup_cons] at hnodup
  -- the same facts about `t`
  have hshare : t.NoShare MINIXFREEBNO depth := by
    intro j ls j' ls' hls hls'
    rw [ht j ls hls, ht j' ls' hls']
    exact h.distinct.noShare j ls j' ls' hls hls'
  have hunusedt : ∀ b, s.forest.Unused MINIXFREEBNO depth b → t.Unused MINIXFREEBNO depth b := by
    intro b hb j ls hls
    rw [ht j ls hls]
    exact hb j ls hls
  have hparentt : ∀ k ks', ks = k :: ks' → t.get MINIXFREEBNO i ks' ≠ MINIXFREEBNO := by
    rintro k ks' rfl
    rw [ht i ks' (Nat.le_of_succ_le hks)]
    exact hparent k ks' rfl
  have holdt : t.get MINIXFREEBNO i ks = MINIXFREEBNO := (ht i ks hks).trans hold
  have hget := fun j (ls : List (BitVec 8)) (hls : ls.length ≤ depth j) =>
    Forest.get_put hshare (hunusedt bno hunused) hne hks holdt hparentt hbehind hls
  have hput : ∀ b, b ≠ bno → s.forest.Unused MINIXFREEBNO depth b →
      s'.forest.Unused MINIXFREEBNO depth b := by
    intro b hb hbunused
    rw [hforest]
    exact Forest.Unused.put hshare (hunusedt bno hunused) hne hks holdt hparentt hbehind
      (hunusedt b hbunused) hb
  refine ⟨⟨⟨?_, hput _ hnot.symm h.distinct.valid⟩, ?_, fun b hb => ?_⟩, hmode, ?_,
    fun j ls hls hother => ?_⟩
  · rw [hforest]
    exact hshare.put (hunusedt bno hunused) hne hks holdt hparentt hbehind
  · rw [hfree']
    exact hnodup.2
  · rw [hfree'] at hb
    have hmem' : b ∈ s.free := by
      rw [hfree]
      exact mem_cons_of_mem _ hb
    obtain ⟨hbne, hbnot, hbunused⟩ := h.fresh.unused b hmem'
    refine ⟨hbne, hbnot, hput b ?_ hbunused⟩
    rintro rfl
    exact hnodup.1 hb
  · rw [hforest, hget i ks hks, if_pos ⟨rfl, rfl⟩]
    exact hne
  · rw [hforest, hget j ls hls, if_neg fun hboth => hother hboth.1 hboth.2, ht j ls hls]

/-- A pointer that is there already. -/
theorem Good.filled (h : Good s) (hused : s.forest.get MINIXFREEBNO i ks ≠ MINIXFREEBNO) :
    Filled s s i ks :=
  ⟨h, rfl, hused, fun _ _ _ _ => rfl⟩

theorem Good.allocdatab (h : Good s) (hks : ks.length = depth i)
    (hparent : ∀ k ks', ks = k :: ks' → s.forest.get MINIXFREEBNO i ks' ≠ MINIXFREEBNO)
    (hs' : s.allocdatab (s.slot i ks) = some s') : Filled s s' i ks := by
  unfold Regmap.allocdatab at hs'
  rw [load_slot hparent] at hs'
  split at hs'
  · next hused =>
    cases hs'
    exact h.filled hused
  · next hnull =>
    obtain ⟨bno, hhead, rfl⟩ := map_eq_some_iff.mp hs'
    have hfree : s.free = bno :: s.free.tail := (cons_head?_tail hhead).symm
    exact h.fill hfree (Nat.le_of_eq hks) (not_not.mp hnull) hparent (fun _ _ _ => rfl) (.inl hks)
      (by cases ks <;> rfl) (forest_store bno) (by cases ks <;> rfl)

theorem Good.allocindexb (h : Good s) (hks : ks.length ≤ depth i)
    (hparent : ∀ k ks', ks = k :: ks' → s.forest.get MINIXFREEBNO i ks' ≠ MINIXFREEBNO)
    (hs' : s.allocindexb (s.slot i ks) = some s') : Filled s s' i ks := by
  unfold Regmap.allocindexb at hs'
  rw [load_slot hparent] at hs'
  split at hs'
  · next hused =>
    cases hs'
    exact h.filled hused
  · next hnull =>
    obtain ⟨bno, hhead, rfl⟩ := map_eq_some_iff.mp hs'
    have hfree : s.free = bno :: s.free.tail := (cons_head?_tail hhead).symm
    obtain ⟨-, -, hunused⟩ := h.fresh.unused bno (by rw [hfree]; exact mem_cons_self)
    have hclear : ∀ j ls, ls.length ≤ depth j →
        (s.forest.clear MINIXFREEBNO bno).get MINIXFREEBNO j ls =
          s.forest.get MINIXFREEBNO j ls := fun _ _ hls => Forest.get_clear hunused hls
    -- the block that is cleared is not on the way to the pointer
    have hslot : (({ s with free := s.free.tail } : Regmap).zero bno).slot i ks = s.slot i ks := by
      refine slot_congr ?_
      rintro k ks' rfl
      exact hclear i ks' (Nat.le_of_succ_le hks)
    rw [← hslot]
    refine h.fill hfree hks (not_not.mp hnull) hparent hclear (.inr fun k => ?_) ?_
      (forest_store bno) ?_
    · exact congrFun (update_self bno _ s.zone) k
    · cases ks <;> rfl
    · cases ks <;> rfl

/-! ## The two walks -/

variable {offset n m : Nat} {p : Bno}

theorem length_way (offset n m : Nat) : (way offset n m).length = m := by
  induction m generalizing n with
  | zero => rfl
  | succ m ih => rw [way, length_cons, ih]

/-- The way to a place leads through the places above it. -/
theorem get_way_ne (h : s.forest.get MINIXFREEBNO i (way offset 0 (n + m)) ≠ MINIXFREEBNO) :
    s.forest.get MINIXFREEBNO i (way offset n m) ≠ MINIXFREEBNO := by
  induction n generalizing m with
  | zero => rwa [Nat.zero_add] at h
  | succ n ih =>
      rw [Nat.add_right_comm, Nat.add_assoc] at h
      have hbelow := ih h
      rw [way, Forest.get] at hbelow
      intro hnull
      rw [if_pos hnull] at hbelow
      exact hbelow rfl

/-- `rtranslate` finds what is at the end of the way. -/
theorem rtranslate_eq (s : Regmap) (i : Fin 10) (offset n m : Nat) :
    s.rtranslate n (s.forest.get MINIXFREEBNO i (way offset n m)) offset =
      if s.forest.get MINIXFREEBNO i (way offset 0 (n + m)) = MINIXFREEBNO then BNOTALLOC
      else s.forest.get MINIXFREEBNO i (way offset 0 (n + m)) := by
  induction n generalizing m with
  | zero => rw [rtranslate, Nat.zero_add]
  | succ n ih =>
      rw [rtranslate]
      by_cases hnull : s.forest.get MINIXFREEBNO i (way offset (n + 1) m) = MINIXFREEBNO
      · rw [if_pos hnull, if_pos]
        by_contra hne
        exact get_way_ne hne hnull
      · have hstep : s.zone (s.forest.get MINIXFREEBNO i (way offset (n + 1) m)) (digit offset n) =
            s.forest.get MINIXFREEBNO i (way offset n (m + 1)) := by
          rw [way, Forest.get, if_neg hnull]
          rfl
        rw [if_neg hnull, hstep, ih, Nat.add_right_comm, Nat.add_assoc]

/-- The pointer that was filled in is where it was, and is what is found there now. -/
theorem Filled.load (hfilled : Filled s s' i ks) (hks : ks.length ≤ depth i)
    (hparent : ∀ k ks', ks = k :: ks' → s.forest.get MINIXFREEBNO i ks' ≠ MINIXFREEBNO) :
    s'.load (s.slot i ks) = s'.forest.get MINIXFREEBNO i ks := by
  have habove : ∀ k ks', ks = k :: ks' →
      s'.forest.get MINIXFREEBNO i ks' = s.forest.get MINIXFREEBNO i ks' := by
    rintro k ks' rfl
    exact hfilled.other i ks' (Nat.le_of_succ_le hks) fun _ => (cons_ne_self k ks').symm
  rw [← slot_congr habove, load_slot]
  intro k ks' hcons
  rw [habove k ks' hcons]
  exact hparent k ks' hcons

/-- What is filled in above the data blocks leaves them alone. -/
theorem Filled.same (hfilled : Filled s s' i ks) (hks : ks.length < depth i) (j : Fin 10)
    (ls : List (BitVec 8)) (hls : ls.length = depth j) :
    s'.forest.get MINIXFREEBNO j ls = s.forest.get MINIXFREEBNO j ls := by
  refine hfilled.other j ls (Nat.le_of_eq hls) ?_
  rintro rfl rfl
  omega

/-- The next pointer of the walk is in the block of the one that was filled in. -/
theorem Filled.parent (hfilled : Filled s s' i (way offset (n + 1) m)) (k : BitVec 8)
    (ks' : List (BitVec 8)) (hcons : way offset n (m + 1) = k :: ks') :
    s'.forest.get MINIXFREEBNO i ks' ≠ MINIXFREEBNO := by
  rw [← (List.cons.inj hcons).2]
  exact hfilled.used

/-! ## Where the blocks come from -/

/-- Every block that is allocated, or can be, has the property. -/
structure Within (P : Bno → Prop) (s : Regmap) : Prop where
  get : ∀ i ks, ks.length ≤ depth i → s.forest.get MINIXFREEBNO i ks ≠ MINIXFREEBNO →
    P (s.forest.get MINIXFREEBNO i ks)
  free : ∀ b ∈ s.free, P b

/-- A pointer is filled in with what `allocb` gives out. -/
def Taken (s s' : Regmap) (ptr : Zoneptr) : Prop :=
  s' = s ∨ s'.load ptr ∈ s.free ∧ ∀ b ∈ s'.free, b ∈ s.free

theorem load_store (s : Regmap) (bno : Bno) (ptr : Zoneptr) : (s.store bno ptr).load ptr = bno := by
  cases ptr with
  | daddr i => exact update_self ..
  | zone b k =>
      unfold store load
      dsimp only
      rw [update_self, update_self]

theorem free_store (s : Regmap) (bno : Bno) (ptr : Zoneptr) : (s.store bno ptr).free = s.free := by
  cases ptr <;> rfl

/-- The block that `allocb` gives out is stored, after its contents are cleared or as it is. -/
theorem taken_allocb {ptr : Zoneptr} (clear : Regmap → Bno → Regmap)
    (hclear : ∀ t bno, (clear t bno).free = t.free) (hs' : (if s.load ptr ≠ MINIXFREEBNO then some s
      else s.free.head?.map fun bno =>
        (clear { s with free := s.free.tail } bno).store bno ptr) = some s') :
    Taken s s' ptr := by
  split_ifs at hs'
  · exact .inl (some.inj hs').symm
  · obtain ⟨bno, hhead, rfl⟩ := map_eq_some_iff.mp hs'
    refine .inr ⟨?_, fun b hb => ?_⟩
    · rw [load_store]
      exact mem_of_mem_head? hhead
    · rw [free_store, hclear] at hb
      exact mem_of_mem_tail hb

variable {P : Bno → Prop}

theorem Within.filled (h : Within P s) (hfilled : Filled s s' i ks)
    (hload : s'.load (s.slot i ks) = s'.forest.get MINIXFREEBNO i ks)
    (htaken : Taken s s' (s.slot i ks)) : Within P s' := by
  rcases htaken with rfl | ⟨hmem, hfree⟩
  · exact h
  · refine ⟨fun j ls hls hused => ?_, fun b hb => h.free b (hfree b hb)⟩
    by_cases hplace : j = i ∧ ls = ks
    · rw [hplace.1, hplace.2, ← hload]
      exact h.free _ hmem
    · have hsame := hfilled.other j ls hls fun hj hl => hplace ⟨hj, hl⟩
      rw [hsame] at hused ⊢
      exact h.get j ls hls hused

/-- `wtranslate` fills in what is missing on the way, and nothing else. -/
theorem Good.wtranslate (h : Good s) (hdepth : n + m = depth i)
    (hparent : ∀ k ks', way offset n m = k :: ks' →
      s.forest.get MINIXFREEBNO i ks' ≠ MINIXFREEBNO)
    (hs' : s.wtranslate n (s.slot i (way offset n m)) offset = (.ok p, s')) :
    Good s' ∧ s'.mode = s.mode ∧ p ≠ MINIXFREEBNO ∧
      s'.forest.get MINIXFREEBNO i (way offset 0 (depth i)) = p ∧
      (∀ j ls, ls.length = depth j → (j = i → ls ≠ way offset 0 (depth i)) →
        s'.forest.get MINIXFREEBNO j ls = s.forest.get MINIXFREEBNO j ls) ∧
      ∀ P, Within P s → Within P s' := by
  have hlen := length_way offset n m
  induction n generalizing s m with
  | zero =>
      rw [Nat.zero_add] at hdepth
      rw [← hdepth]
      rw [Regmap.wtranslate] at hs'
      cases halloc : s.allocdatab (s.slot i (way offset 0 m)) with
      | none =>
          rw [halloc, elim_none] at hs'
          cases hs'
      | some t =>
          rw [halloc, elim_some] at hs'
          cases hs'
          have hfilled := h.allocdatab (hlen.trans hdepth) hparent halloc
          have hload := hfilled.load (by omega) hparent
          rw [hload]
          exact ⟨hfilled.good, hfilled.mode, hfilled.used, rfl,
            fun j ls hls hother => hfilled.other j ls (Nat.le_of_eq hls) hother,
            fun P hP => hP.filled hfilled hload
              (taken_allocb (fun t _ => t) (fun _ _ => rfl) halloc)⟩
  | succ n ih =>
      rw [Regmap.wtranslate] at hs'
      cases halloc : s.allocindexb (s.slot i (way offset (n + 1) m)) with
      | none =>
          rw [halloc, elim_none] at hs'
          cases hs'
      | some t =>
          rw [halloc, elim_some] at hs'
          have hfilled := h.allocindexb (by omega) hparent halloc
          have hload := hfilled.load (by omega) hparent
          rw [hload] at hs'
          obtain ⟨hgood, hmode, hp, hfound, hother, hwithin⟩ :=
            ih hfilled.good (by omega) hfilled.parent hs' (length_way offset n (m + 1))
          exact ⟨hgood, hmode.trans hfilled.mode, hp, hfound,
            fun j ls hls hne => (hother j ls hls hne).trans (hfilled.same (by omega) j ls hls),
            fun P hP => hwithin P (hP.filled hfilled hload
              (taken_allocb Regmap.zero (fun _ _ => rfl) halloc))⟩

/-- `wtranslate` changes nothing when all is there. -/
theorem wtranslate_same (hdepth : n + m = depth i)
    (hused : s.forest.get MINIXFREEBNO i (way offset 0 (depth i)) ≠ MINIXFREEBNO) :
    s.wtranslate n (s.slot i (way offset n m)) offset =
      (.ok (s.forest.get MINIXFREEBNO i (way offset 0 (depth i))), s) := by
  have habove : ∀ k l, k + l = depth i →
      s.forest.get MINIXFREEBNO i (way offset k l) ≠ MINIXFREEBNO := by
    intro k l hkl
    rw [← hkl] at hused
    exact get_way_ne hused
  have hload : ∀ k l, k + l = depth i → s.load (s.slot i (way offset k l)) =
      s.forest.get MINIXFREEBNO i (way offset k l) := by
    intro k l hkl
    refine load_slot ?_
    intro d ks' hcons
    cases l with
    | zero => cases hcons
    | succ l =>
        rw [← (List.cons.inj hcons).2]
        exact habove (k + 1) l (by omega)
  induction n generalizing m with
  | zero =>
      rw [Nat.zero_add] at hdepth
      have halloc : s.allocdatab (s.slot i (way offset 0 m)) = some s := by
        rw [Regmap.allocdatab, hload 0 m (by omega), if_pos (habove 0 m (by omega))]
      rw [Regmap.wtranslate, halloc, elim_some, hload 0 m (by omega), hdepth]
  | succ n ih =>
      have halloc : s.allocindexb (s.slot i (way offset (n + 1) m)) = some s := by
        rw [Regmap.allocindexb, hload (n + 1) m hdepth, if_pos (habove (n + 1) m hdepth)]
      rw [Regmap.wtranslate, halloc, elim_some, hload (n + 1) m hdepth]
      exact ih (m := m + 1) (by omega)

/-! ## The two maps -/

variable {logic : Nat}

/-- A directory or a regular file. -/
def Treed (s : Regmap) : Prop := s.isdir = true ∨ s.isreg = true

theorem not_isblk (h : Treed s) : s.isblk = false := by
  unfold Treed isdir isreg at h
  unfold isblk
  rw [beq_iff_eq, beq_iff_eq] at h
  rcases h with h | h
  · rw [h]
    decide
  · rw [h]
    decide

theorem Treed.sort (h : Treed s) : (!s.isdir && !s.isreg && !s.isblk) = false := by
  rcases h with h | h
  · rw [h, Bool.not_true, Bool.false_and, Bool.false_and]
  · rw [h, Bool.not_true, Bool.and_false, Bool.false_and]

/-- The four ranges of the maps, with their pointer of the inode and their offset. -/
theorem ranges (logic : Nat) :
    (∃ h : logic < MINIXEND0, root logic = ⟨logic, daddr_lt h⟩ ∧
      depth (root logic) = 0 ∧ offsetOf logic = logic) ∨
    (¬logic < MINIXEND0 ∧ logic < MINIXEND1 ∧ root logic = 7 ∧ offsetOf logic = logic - MINIXEND0) ∨
    (¬logic < MINIXEND0 ∧ ¬logic < MINIXEND1 ∧ logic < MINIXEND2 ∧ root logic = 8 ∧
      offsetOf logic = logic - MINIXEND1) ∨
    (¬logic < MINIXEND0 ∧ ¬logic < MINIXEND1 ∧ ¬logic < MINIXEND2 ∧ root logic = 9 ∧
      offsetOf logic = logic - MINIXEND2) := by
  unfold offsetOf
  by_cases h0 : logic < MINIXEND0
  · have hroot : root logic = ⟨logic, Nat.lt_trans h0 (by decide)⟩ := dif_pos h0
    refine .inl ⟨h0, hroot, ?_, if_pos h0⟩
    rw [hroot]
    exact Nat.sub_eq_zero_of_le (Nat.le_of_lt_succ h0)
  by_cases h1 : logic < MINIXEND1
  · refine .inr (.inl ⟨h0, h1, ?_, ?_⟩)
    · rw [root, dif_neg h0, if_pos h1]
    · rw [if_neg h0, if_pos h1]
  by_cases h2 : logic < MINIXEND2
  · refine .inr (.inr (.inl ⟨h0, h1, h2, ?_, ?_⟩))
    · rw [root, dif_neg h0, if_neg h1, if_pos h2]
    · rw [if_neg h0, if_neg h1, if_pos h2]
  · refine .inr (.inr (.inr ⟨h0, h1, h2, ?_, ?_⟩))
    · rw [root, dif_neg h0, if_neg h1, if_neg h2]
    · rw [if_neg h0, if_neg h1, if_neg h2]

/-- The four branches of `readmap` are one walk. -/
theorem readmap_eq (htreed : Treed s) (hlogic : logic < MINIXEND3) :
    s.readmap logic =
      .ok (if s.blockAt logic = MINIXFREEBNO then BNOTALLOC else s.blockAt logic) := by
  have hwalk : s.rtranslate (depth (root logic)) (s.daddr (root logic)) (offsetOf logic) =
      if s.blockAt logic = MINIXFREEBNO then BNOTALLOC else s.blockAt logic :=
    rtranslate_eq s (root logic) (offsetOf logic) (depth (root logic)) 0
  rw [← hwalk, readmap, if_neg (ne_true_of_eq_false htreed.sort),
    if_neg (ne_true_of_eq_false (not_isblk htreed))]
  obtain ⟨h0, hroot, hdepth, -⟩ | ⟨h0, h1, hroot, hoffset⟩ | ⟨h0, h1, h2, hroot, hoffset⟩ |
    ⟨h0, h1, h2, hroot, hoffset⟩ := ranges logic
  · rw [dif_pos h0, hdepth, rtranslate, hroot]
    exact congrArg Except.ok (ite_not ..)
  · rw [dif_neg h0, if_pos h1, hroot, hoffset]
    rfl
  · rw [dif_neg h0, if_neg h1, if_pos h2, hroot, hoffset]
    rfl
  · rw [dif_neg h0, if_neg h1, if_neg h2, if_pos hlogic, hroot, hoffset]
    rfl

/-- The four branches of `writemap` are one walk. -/
theorem writemap_eq (htreed : Treed s) (hlogic : logic < MINIXEND3) :
    s.writemap logic =
      s.wtranslate (depth (root logic)) (.daddr (root logic)) (offsetOf logic) := by
  rw [writemap, if_neg (ne_true_of_eq_false htreed.sort),
    if_neg (ne_true_of_eq_false (not_isblk htreed))]
  obtain ⟨h0, hroot, hdepth, hoffset⟩ | ⟨h0, h1, hroot, hoffset⟩ |
    ⟨h0, h1, h2, hroot, hoffset⟩ | ⟨h0, h1, h2, hroot, hoffset⟩ := ranges logic
  · rw [dif_pos h0, hdepth, hroot, hoffset]
  · rw [dif_neg h0, if_pos h1, hroot, hoffset]
    rfl
  · rw [dif_neg h0, if_neg h1, if_pos h2, hroot, hoffset]
    rfl
  · rw [dif_neg h0, if_neg h1, if_neg h2, if_pos hlogic, hroot, hoffset]
    rfl

theorem digit_inj {o o' : Nat} (h : digit o n = digit o' n) :
    o / 256 ^ n % 256 = o' / 256 ^ n % 256 := by
  have htoNat := congrArg BitVec.toNat h
  simp only [digit, BitVec.toNat_ofNat, Nat.shiftRight_eq_div_pow, Nat.pow_mul] at htoNat
  exact htoNat

/-- The way holds the offset in base 256. -/
theorem way_inj {o o' : Nat} (h : way o n m = way o' n m) :
    o / 256 ^ n % 256 ^ m = o' / 256 ^ n % 256 ^ m := by
  induction m generalizing n with
  | zero => rw [Nat.pow_zero, Nat.mod_one, Nat.mod_one]
  | succ m ih =>
      obtain ⟨hdigit, hrest⟩ := List.cons.inj h
      have hhigh := ih hrest
      rw [Nat.pow_succ, ← Nat.div_div_eq_div_mul, ← Nat.div_div_eq_div_mul] at hhigh
      rw [Nat.pow_succ', Nat.mod_mul, Nat.mod_mul, digit_inj hdigit, hhigh]

/-- The first block of the file behind a pointer of the inode. -/
def base (i : Fin 10) : Nat :=
  if i = 7 then MINIXEND0 else if i = 8 then MINIXEND1 else MINIXEND2

/-- A block is a pointer of the inode, or its offset fits its levels. -/
theorem offset_lt (hlogic : logic < MINIXEND3) :
    (root logic : Nat) = logic ∧ logic < 7 ∨
      7 ≤ (root logic : Nat) ∧ logic = base (root logic) + offsetOf logic ∧
        offsetOf logic < 256 ^ depth (root logic) := by
  obtain ⟨h0, hroot, -⟩ | ⟨h0, h1, hroot, hoffset⟩ | ⟨h0, h1, h2, hroot, hoffset⟩ |
    ⟨h0, h1, h2, hroot, hoffset⟩ := ranges logic
  · rw [hroot]
    exact .inl ⟨rfl, h0⟩
  all_goals
    rw [hroot, hoffset]
    refine .inr ⟨by decide, ?_, ?_⟩
  · change logic = MINIXEND0 + _
    omega
  · change _ < 256
    unfold MINIXEND0 MINIXEND1 at *
    omega
  · change logic = MINIXEND1 + _
    omega
  · change _ < 65536
    unfold MINIXEND1 MINIXEND2 at *
    omega
  · change logic = MINIXEND2 + _
    omega
  · change _ < 16777216
    unfold MINIXEND2 MINIXEND3 at *
    omega

/-- Different blocks of a file are at different places. -/
theorem place_inj {logic' : Nat} (hlogic : logic < MINIXEND3) (hlogic' : logic' < MINIXEND3)
    (hroot : root logic = root logic') (hway : way (offsetOf logic) 0 (depth (root logic)) =
      way (offsetOf logic') 0 (depth (root logic'))) : logic = logic' := by
  have hval := congrArg Fin.val hroot
  rw [← hroot] at hway
  have hoffset := way_inj hway
  rw [Nat.pow_zero, Nat.div_one, Nat.div_one] at hoffset
  obtain ⟨hr, h⟩ | ⟨hr, h, hlt⟩ := offset_lt hlogic
  all_goals obtain ⟨hr', h'⟩ | ⟨hr', h', hlt'⟩ := offset_lt hlogic'
  · rw [← hr, ← hr', hval]
  · omega
  · omega
  · rw [← hroot] at h' hlt'
    rw [Nat.mod_eq_of_lt hlt, Nat.mod_eq_of_lt hlt'] at hoffset
    rw [h, h', hoffset]

/-- Two blocks of a file are not one. -/
theorem blockAt_inj {l : Nat} (h : Good s) (hlogic : logic < MINIXEND3) (hl : l < MINIXEND3)
    (hused : s.blockAt l ≠ MINIXFREEBNO) (heq : s.blockAt l = s.blockAt logic) : l = logic := by
  obtain ⟨hroot, hway⟩ := h.distinct.noShare _ _ _ _ (Nat.le_of_eq (length_way ..))
    (Nat.le_of_eq (length_way ..)) hused heq
  exact place_inj hl hlogic hroot hway

/-- What `writemap` does to the blocks. -/
structure Mapped (s : Regmap) (logic : Nat) (p : Bno) (s' : Regmap) : Prop where
  good : Good s'
  mode : s'.mode = s.mode
  used : p ≠ MINIXFREEBNO
  found : s'.blockAt logic = p
  other : ∀ l < MINIXEND3, l ≠ logic → s'.blockAt l = s.blockAt l
  within : ∀ P, Within P s → Within P s'

theorem writemap_mapped (htreed : Treed s) (h : Good s) (hlogic : logic < MINIXEND3)
    (hs' : s.writemap logic = (.ok p, s')) : Mapped s logic p s' := by
  rw [writemap_eq htreed hlogic] at hs'
  have hroot : ∀ k ks', way (offsetOf logic) (depth (root logic)) 0 = k :: ks' →
      s.forest.get MINIXFREEBNO (root logic) ks' ≠ MINIXFREEBNO := fun _ _ hcons => by cases hcons
  obtain ⟨hgood, hmode, hp, hfound, hother, hwithin⟩ :=
    h.wtranslate (m := 0) (Nat.add_zero _) hroot hs'
  refine ⟨hgood, hmode, hp, hfound, fun l hl hne => ?_, hwithin⟩
  exact hother _ _ (length_way ..) fun hroot hway => hne (place_inj hl hlogic hroot hway)

/-- A block that is there is found. -/
theorem writemap_same (htreed : Treed s) (hlogic : logic < MINIXEND3)
    (hused : s.blockAt logic ≠ MINIXFREEBNO) :
    s.writemap logic = (.ok (s.blockAt logic), s) := by
  rw [writemap_eq htreed hlogic]
  exact wtranslate_same (m := 0) (Nat.add_zero _) hused

/-- **`writemap` agrees with `readmap`.** -/
theorem writemap_readmap (hreg : s.isreg = true) (h : Good s) (hlogic : logic < MINIXEND3)
    (hs' : s.writemap logic = (.ok p, s')) :
    p ≠ BNOTALLOC ∧ s'.readmap logic = .ok p ∧
      (∀ l < MINIXEND3, l ≠ logic → s'.readmap l = s.readmap l ∧ s'.readmap l ≠ .ok p) ∧
      s'.writemap logic = (.ok p, s') := by
  have hmapped := writemap_mapped (.inr hreg) h hlogic hs'
  have htreed : Treed s' := by
    refine .inr ?_
    rw [isreg, hmapped.mode]
    exact hreg
  have hnot : p ≠ BNOTALLOC := by
    rw [← hmapped.found]
    exact hmapped.good.distinct.valid _ _ (Nat.le_of_eq (length_way ..))
  have hused : s'.blockAt logic ≠ MINIXFREEBNO := by
    rw [hmapped.found]
    exact hmapped.used
  refine ⟨hnot, ?_, fun l hl hne => ?_, ?_⟩
  · rw [readmap_eq htreed hlogic, if_neg hused, hmapped.found]
  · rw [readmap_eq htreed hl, readmap_eq (.inr hreg) hl, hmapped.other l hl hne]
    refine ⟨rfl, fun heq => ?_⟩
    rw [← hmapped.other l hl hne] at heq
    split at heq
    · exact hnot (Except.ok.inj heq).symm
    · next hl' =>
      exact hne (blockAt_inj hmapped.good hlogic hl hl'
        ((Except.ok.inj heq).trans hmapped.found.symm))
  · rw [writemap_same htreed hlogic hused, hmapped.found]

/-- An empty file on a disk that held something else before. -/
def empty : Regmap where
  mode := SIFREG
  daddr _ := MINIXFREEBNO
  zone _ _ := 7
  free := [30, 31, 32, 33]

theorem get_empty (i : Fin 10) (ks : List (BitVec 8)) :
    empty.forest.get MINIXFREEBNO i ks = MINIXFREEBNO := by
  induction ks with
  | nil => rfl
  | cons k ks ih => rw [Forest.get, if_pos ih]

theorem good_empty : Good empty := by
  refine ⟨⟨fun i ks _ _ _ _ hne => absurd (get_empty i ks) hne, fun i ks _ heq => ?_⟩,
    by decide, fun b hb => ?_⟩
  · rw [get_empty] at heq
    exact absurd heq (by decide)
  · have hall : empty.free.all fun b => b ≠ MINIXFREEBNO ∧ b ≠ BNOTALLOC := by decide
    have hne := of_decide_eq_true (all_eq_true.mp hall b hb)
    refine ⟨hne.1, hne.2, fun i ks _ heq => hne.1 ?_⟩
    rw [← heq, get_empty]

/-- Block 2000 is behind two index blocks. -/
theorem writemap_readmap_empty :
    (empty.writemap 2000).2.readmap 2000 = .ok 32 ∧
      (empty.writemap 2000).2.writemap 2000 = (.ok 32, (empty.writemap 2000).2) := by
  have hwrite : empty.writemap 2000 = (.ok 32, (empty.writemap 2000).2) :=
    Prod.ext (by decide) rfl
  have hagree := writemap_readmap (by decide) good_empty (by decide) hwrite
  exact ⟨hagree.2.1, hagree.2.2.2⟩

end Regmap

end Unixlite.Fs
