import Unixlite.Fs.Bitmaps
import Unixlite.Verified.Partial

/-!
# The counts of a superblock

Port of `alloci`, `freei`, `allocb`, `freeb`, `seeki` and `fs_t::read` of `fs/fs.cc` with the
indices that they compute, for a disk with anything on it.  A call that would go beyond an
array stops there.

Nothing ties `ninode` and `nzone` to the number of the blocks that are loaded, and `seeki`
takes inode 0.  On which disks no call ever goes wrong is `read_safe_iff`.
-/

namespace Unixlite.Fs

open Unixlite.Lib Unixlite.Verified.Run Unixlite.Verified.Partial
open Blockmap
open BitVec Option
open Function (update)

/-- An index that is not in the array. -/
inductive Stray where
  | block
  | bit
deriving DecidableEq

/-! ## A bitmap of several blocks -/

namespace Blockmap

/-- `zmap[i]`. -/
def block (m : Blockmap) (i : Int) : Except Stray Nat :=
  if 0 ≤ i ∧ i < m.nblock then .ok i.toNat else .error .block

def bitno (j : Nat) : Except Stray (Fin 8192) :=
  if h : j < 8192 then .ok ⟨j, h⟩ else .error .bit

/-- The loop of `alloci` and `allocb`, for `n` blocks from `i` on. -/
def allocFrom (m : Blockmap) (dirty : Nat) : Nat → Nat → Except Stray (Option (Nat × Blockmap))
  | _, 0 => .ok none
  | i, n + 1 => do
      let b ← m.block i
      match (m.map b).ff0 with
      | none => allocFrom m dirty (i + 1) n
      | some j =>
          .ok (some ((b <<< 13) + j,
            { m with
              map := update m.map b ((m.map b).set j)
              state := update m.state b dirty }))

/-- `freei` and `freeb`, behind the check of the number: the bit `j` of the block `i`. -/
def clear (m : Blockmap) (dirty : Nat) (i : Int) (j : Nat) : Except Stray Blockmap := do
  let b ← m.block i
  let j ← bitno j
  if !(m.map b).tst j then .ok m
  else
    .ok { m with
      map := update m.map b ((m.map b).clr j)
      state := update m.state b dirty }

variable {m : Blockmap} {dirty i k n : Nat}

theorem block_of_lt (h : i < m.nblock) : m.block i = .ok i := by
  have hin : 0 ≤ (i : Int) ∧ (i : Int) < m.nblock := by omega
  simp [block, hin]

theorem block_of_not {i : Int} (h : ¬ (0 ≤ i ∧ i < m.nblock)) : m.block i = .error .block := by
  simp [block, h]

/-- The loop stays within the blocks. -/
theorem allocFrom_eq (hn : i + n = m.nblock) : m.allocFrom dirty i n =
    .ok (((List.range' i n).findSome? fun i => (m.map i).ff0.map fun j => (i, j)).map
      fun (i, j) =>
        ((i <<< 13) + j,
          { m with
            map := update m.map i ((m.map i).set j)
            state := update m.state i dirty })) := by
  induction n generalizing i with
  | zero => rfl
  | succ n ih =>
      have hblock : m.block i = .ok i := block_of_lt (by omega)
      have hrest := ih (show i + 1 + n = m.nblock by omega)
      rw [allocFrom, hblock, ok_bind, List.range'_succ, List.findSome?_cons]
      cases hff : (m.map i).ff0 with
      | none => exact hrest
      | some j => rfl

/-- All blocks are searched. -/
theorem allocFrom_zero (m : Blockmap) (dirty : Nat) :
    m.allocFrom dirty 0 m.nblock = .ok (m.alloc dirty) := by
  rw [allocFrom_eq (Nat.zero_add _), alloc, ff0, List.range_eq_range']

theorem clear_of_lt (h : k >>> 13 < m.nblock) :
    m.clear dirty (k >>> 13 : Nat) (k % 8192) = .ok ((m.free dirty k).getD m) := by
  have hbit : bitno (k % 8192) = .ok (Fin.ofNat 8192 k) := by
    have hlt : k % 8192 < 8192 := Nat.mod_lt k (by decide)
    simp [bitno, hlt, Fin.ofNat]
  rw [clear, block_of_lt h, ok_bind, hbit, ok_bind, free, bit]
  cases (m.map (k >>> 13)).tst (Fin.ofNat 8192 k) with
  | false => rfl
  | true => rfl

theorem clear_of_not {i : Int} (h : ¬ (0 ≤ i ∧ i < m.nblock)) (j : Nat) :
    m.clear dirty i j = .error .block := by
  simp only [clear, block_of_not h]
  rfl

end Blockmap

/-! ## The disk -/

def MINIX2MAGIC2 : BitVec 16 := 0x2478

/-- `minixdfs_t`, as far as it is used. -/
structure Dfs where
  ninode : BitVec 16
  nimapblock : BitVec 16
  nzmapblock : BitVec 16
  datazone : BitVec 16
  magic : BitVec 16
  nzone : BitVec 32

/-- A disk; what `readb` returns for its blocks does not change. -/
structure Volume where
  dfs : Dfs
  /-- The data of a block, as a bitmap. -/
  map : Nat → Bitmapt 8192
  /-- What `readb` returns. -/
  readb : Nat → Int
  /-- What `geti` returns for the root: `none` is no inode, `true` one that has been read
  before. -/
  geti : Option Bool

/-- A call, with its argument. -/
inductive Fscall where
  | alloci
  | freei (ino : BitVec 32)
  | allocb
  | freeb (bno : BitVec 32)
  | seeki (ino : BitVec 32)

namespace Volume

/-! ## `fs_t` -/

def alloci (f : Fsmaps) : Except Stray (Option (Nat × Fsmaps)) := do
  let r ← f.imap.allocFrom IDIRTY 0 f.imap.nblock
  .ok (r.map fun (ino, m) => (ino, { f with imap := m }))

def freei (f : Fsmaps) (ino : BitVec 32) : Except Stray Fsmaps :=
  if ino = 0 ∨ f.ninode ≤ ino.toNat then .ok f
  else do
    let m ← f.imap.clear IDIRTY (ino >>> 13).toNat (ino &&& 8191).toNat
    .ok { f with imap := m }

def allocb (f : Fsmaps) : Except Stray (Option (Nat × Fsmaps)) := do
  let r ← f.zmap.allocFrom BDIRTY 0 f.zmap.nblock
  .ok (r.map fun (k, m) => (k + f.datazone - 1, { f with zmap := m }))

/-- `bno` is a `long`, and the `int` behind the checks is shifted as one. -/
def freeb (f : Fsmaps) (bno : BitVec 32) : Except Stray Fsmaps :=
  if bno.toInt < f.datazone ∨ f.nzone ≤ bno.toNat then .ok f
  else do
    let i := bno - BitVec.ofNat 32 f.datazone + 1
    let m ← f.zmap.clear BDIRTY (i.sshiftRight 13).toInt (i &&& 8191).toNat
    .ok { f with zmap := m }

def seeki (d : Volume) (f : Fsmaps) (ino : BitVec 32) : Except Int (Nat × Nat) := do
  let (bno, off) ← f.seeki ino.toNat
  if d.readb bno ≠ 0 then .error (d.readb bno) else .ok (bno, off)

/-- `readi(this, MINIXROOTINO, &root)`. -/
def readroot (d : Volume) (f : Fsmaps) : Int :=
  match d.geti with
  | none => ENFILE
  | some true => 0
  | some false =>
      match d.seeki f 1 with
      | .error e => e
      | .ok _ => 0

/-- `n` blocks from `bno` on, as a bitmap. -/
def loadmap (d : Volume) (bno n : Nat) : Blockmap where
  nblock := n
  map := fun i => d.map (bno + i)
  state := fun _ => BCLEAN

/-- `imap[0].set(0)`; without blocks this is beyond the array. -/
def setfirst (m : Blockmap) : Blockmap :=
  { m with map := update m.map 0 ((m.map 0).set 0) }

/-- What `fs_t::read` makes of the superblock and the bitmaps. -/
def load (d : Volume) : Fsmaps where
  ninode := d.dfs.ninode.toNat
  nzone := d.dfs.nzone.toNat
  datazone := d.dfs.datazone.toNat
  imap := setfirst (d.loadmap 2 d.dfs.nimapblock.toNat)
  zmap := setfirst (d.loadmap (2 + d.dfs.nimapblock.toNat) d.dfs.nzmapblock.toNat)

/-- `fs_t::read`. -/
def fsread (d : Volume) : Except Int Fsmaps :=
  if d.readb 1 ≠ 0 then .error (d.readb 1)
  else if d.dfs.magic ≠ MINIX2MAGIC2 then .error EINVAL
  else if 64 < d.dfs.nimapblock.toNat ∨ 64 < d.dfs.nzmapblock.toNat then .error ENOMEM
  else
    match (List.range (d.dfs.nimapblock.toNat + d.dfs.nzmapblock.toNat)).find? fun i =>
      d.readb (2 + i) ≠ 0 with
    | some i => .error (d.readb (2 + i))
    | none => if d.readroot d.load ≠ 0 then .error (d.readroot d.load) else .ok d.load

/-! ## Calls -/

/-- What a call leaves; one that goes astray leaves nothing. -/
def step (f : Fsmaps) : Fscall → Option Fsmaps
  | .alloci =>
      match alloci f with
      | .error _ => none
      | .ok r => some ((r.map Prod.snd).getD f)
  | .freei ino => (freei f ino).toOption
  | .allocb =>
      match allocb f with
      | .error _ => none
      | .ok r => some ((r.map Prod.snd).getD f)
  | .freeb bno => (freeb f bno).toOption
  | .seeki _ => some f

/-- No index is astray, no number that is handed out is without a zone, and no inode 0 has a
place. -/
def Safe (d : Volume) (f : Fsmaps) (a : Fscall) : Prop :=
  (step f a).isSome = true ∧
    match a with
    | .allocb => ∀ bno f', allocb f = .ok (some (bno, f')) → f.IsBno bno
    | .seeki ino => ∀ place, d.seeki f ino = .ok place → ino ≠ 0
    | _ => True

/-- The bit of the zone bitmap, as it is on the disk. -/
def zbit (d : Volume) (k : Nat) : Bool :=
  (d.map (2 + d.dfs.nimapblock.toNat + k / 8192)).tst (Fin.ofNat 8192 k)

/-- There are bits for all inodes and all zones and none is clear for what is no zone, and
where inode 0 would be the disk cannot be read. -/
structure Sound (d : Volume) : Prop where
  imap : d.dfs.ninode.toNat ≤ 1 ∨ d.dfs.ninode.toNat ≤ d.dfs.nimapblock.toNat * 8192
  zmap : d.dfs.nzone.toNat ≤ d.dfs.datazone.toNat ∨
    d.dfs.nzone.toNat - d.dfs.datazone.toNat < d.dfs.nzmapblock.toNat * 8192
  zend : ∀ k, 0 < k → k < d.dfs.nzmapblock.toNat * 8192 →
    d.dfs.nzone.toNat < k + d.dfs.datazone.toNat → d.zbit k = true
  table : d.dfs.ninode = 0 ∨
    d.readb (2 + d.dfs.nimapblock.toNat + d.dfs.nzmapblock.toNat + 4194303) ≠ 0

variable {d : Volume} {f f' : Fsmaps} {a : Fscall} {k : Nat}

/-! ## What the calls compute -/

theorem and_mask (i : BitVec 32) : (i &&& 8191).toNat = i.toNat % 8192 := by
  exact Nat.and_two_pow_sub_one_eq_mod i.toNat 13

/-- The block of a number, as an `int` has it. -/
theorem sshiftRight_toInt (i : BitVec 32) :
    (i.sshiftRight 13).toInt =
      if i.toNat < 2 ^ 31 then ((i.toNat >>> 13 : Nat) : Int)
      else ((i.toNat : Int) - 2 ^ 32) / 2 ^ 13 := by
  rw [toInt_sshiftRight, Int.shiftRight_eq_div_pow, toInt_eq_toNat_cond,
    Nat.shiftRight_eq_div_pow]
  split_ifs
  · simp
  · omega
  · omega
  · simp

theorem alloci_eq (f : Fsmaps) : alloci f = .ok f.alloci := by
  rw [alloci, allocFrom_zero]
  rfl

theorem allocb_eq (f : Fsmaps) : allocb f = .ok f.allocb := by
  rw [allocb, allocFrom_zero]
  rfl

theorem freei_eq {ino : BitVec 32} (hino : ¬ (ino = 0 ∨ f.ninode ≤ ino.toNat)) :
    freei f ino =
      if ino.toNat < f.imap.nblock * 8192 then .ok ((f.freei ino.toNat).getD f)
      else .error .block := by
  have hzero : ¬ (ino.toNat = 0 ∨ f.ninode ≤ ino.toNat) := by
    simpa [← toNat_inj] using hino
  rw [freei, if_neg hino, Fsmaps.freei, if_neg hzero, toNat_ushiftRight, and_mask]
  split_ifs with hlt
  · have hblock : ino.toNat >>> 13 < f.imap.nblock := by
      omega
    rw [clear_of_lt hblock, ok_bind]
    cases f.imap.free IDIRTY ino.toNat with
    | none => rfl
    | some m => rfl
  · have hblock : ¬ (0 ≤ ((ino.toNat >>> 13 : Nat) : Int) ∧
        ((ino.toNat >>> 13 : Nat) : Int) < f.imap.nblock) := by
      omega
    rw [clear_of_not hblock]
    rfl

theorem freeb_eq {bno : BitVec 32} (hzone : f.datazone < 2 ^ 16) (hsmall : f.zmap.nblock ≤ 64)
    (hbno : ¬ (bno.toInt < f.datazone ∨ f.nzone ≤ bno.toNat)) :
    freeb f bno =
      if bno.toNat - f.datazone + 1 < f.zmap.nblock * 8192 then .ok ((f.freeb bno.toNat).getD f)
      else .error .block := by
  rw [toInt_eq_toNat_cond] at hbno
  have hin : ¬ (bno.toNat < f.datazone ∨ f.nzone ≤ bno.toNat) := by omega
  have hi : (bno - BitVec.ofNat 32 f.datazone + 1).toNat = bno.toNat - f.datazone + 1 := by
    have hone : (1 : BitVec 32).toNat = 1 := rfl
    rw [toNat_add, toNat_sub, toNat_ofNat, hone]
    omega
  rw [freeb, if_neg (by rw [toInt_eq_toNat_cond]; exact hbno), Fsmaps.freeb, if_neg hin]
  dsimp only
  rw [sshiftRight_toInt, and_mask, hi]
  by_cases hlt : bno.toNat - f.datazone + 1 < f.zmap.nblock * 8192
  · have hblock : (bno.toNat - f.datazone + 1) >>> 13 < f.zmap.nblock := by
      omega
    rw [if_pos hlt, if_pos (by omega), clear_of_lt hblock, ok_bind]
    cases f.zmap.free BDIRTY (bno.toNat - f.datazone + 1) with
    | none => rfl
    | some m => rfl
  · rw [if_neg hlt, clear_of_not]
    · rfl
    split_ifs
    · rw [shiftRight_eq]
      omega
    · -- one more than the highest `int`, which has become the lowest
      omega

/-! ## What stays -/

/-- The counts are those of the superblock. -/
structure Held (d : Volume) (f : Fsmaps) : Prop where
  ninode : f.ninode = d.dfs.ninode.toNat
  nzone : f.nzone = d.dfs.nzone.toNat
  datazone : f.datazone = d.dfs.datazone.toNat
  imap : f.imap.nblock = d.dfs.nimapblock.toNat
  zmap : f.zmap.nblock = d.dfs.nzmapblock.toNat
  small : f.zmap.nblock ≤ 64
  first : f.zmap.bit 0 = true

theorem Held.datazone_lt (h : Held d f) : f.datazone < 2 ^ 16 := h.datazone ▸ d.dfs.datazone.isLt

theorem setfirst_bit (m : Blockmap) (hk : 0 < k) : (setfirst m).bit k = m.bit k := by
  unfold setfirst bit
  dsimp only
  by_cases hblock : k >>> 13 = 0
  · rw [hblock, Function.update_self, Bitmapt.tst_set]
    have hne : Fin.ofNat 8192 k ≠ 0 := by
      rw [ne_eq, Fin.ext_iff, Fin.val_ofNat]
      show ¬ k % 8192 = 0
      omega
    rw [decide_eq_false hne, Bool.or_false]
  · rw [Function.update_of_ne hblock]

theorem setfirst_first (m : Blockmap) : (setfirst m).bit 0 = true := by
  unfold setfirst bit
  simp

/-- A disk that is read has at most 64 blocks in each of its bitmaps. -/
theorem fsread_ok (h : d.fsread = .ok f) : f = d.load ∧ d.dfs.nzmapblock.toNat ≤ 64 := by
  obtain ⟨-, h⟩ := ite_error_eq_ok.mp h
  obtain ⟨-, h⟩ := ite_error_eq_ok.mp h
  obtain ⟨hlarge, h⟩ := ite_error_eq_ok.mp h
  split at h
  · cases h
  obtain ⟨-, h⟩ := ite_error_eq_ok.mp h
  cases h
  exact ⟨rfl, by omega⟩

theorem Held.load (hsmall : d.dfs.nzmapblock.toNat ≤ 64) : Held d d.load where
  ninode := rfl
  nzone := rfl
  datazone := rfl
  imap := rfl
  zmap := rfl
  small := hsmall
  first := setfirst_first _

theorem load_bit (hk : 0 < k) : d.load.zmap.bit k = d.zbit k := by
  unfold load
  rw [setfirst_bit _ hk, bit, shiftRight_eq]
  rfl

/-- What a step does to the maps: in the zone bitmap one bit is set, or one of a zone is
cleared. -/
theorem Held.step_cases (h : Held d f) (hstep : step f a = some f') :
    f' = f ∨ (∃ m, m.nblock = f.imap.nblock ∧ f' = { f with imap := m }) ∨
      ∃ k m b, f.zmap.Puts m k b BDIRTY ∧ f' = { f with zmap := m } ∧
        (b = false → 0 < k ∧ k + f.datazone ≤ f.nzone) := by
  cases a with
  | alloci =>
      simp only [step, alloci_eq] at hstep
      cases halloc : f.alloci with
      | none =>
          rw [halloc] at hstep
          cases hstep
          exact .inl rfl
      | some r =>
          obtain ⟨⟨k, m⟩, hmap, rfl⟩ := map_eq_some_iff.mp halloc
          rw [halloc] at hstep
          cases hstep
          exact .inr (.inl ⟨m, (alloc_eq_some hmap).2.2.2.nblock, rfl⟩)
  | freei ino =>
      simp only [step] at hstep
      by_cases hino : ino = 0 ∨ f.ninode ≤ ino.toNat
      · rw [freei, if_pos hino] at hstep
        cases hstep
        exact .inl rfl
      rw [freei_eq hino] at hstep
      split_ifs at hstep
      · cases hfree : f.freei ino.toNat with
        | none =>
            rw [hfree] at hstep
            cases hstep
            exact .inl rfl
        | some g =>
            obtain ⟨m, rfl, hm⟩ := Fsmaps.freei_eq_some hfree
            rw [hfree] at hstep
            cases hstep
            exact .inr (.inl ⟨m, hm.nblock, rfl⟩)
      · cases hstep
  | allocb =>
      simp only [step, allocb_eq] at hstep
      cases halloc : f.allocb with
      | none =>
          rw [halloc] at hstep
          cases hstep
          exact .inl rfl
      | some r =>
          obtain ⟨⟨k, m⟩, hmap, rfl⟩ := map_eq_some_iff.mp halloc
          rw [halloc] at hstep
          cases hstep
          have hputs := (alloc_eq_some hmap).2.2.2
          exact .inr (.inr ⟨k, m, true, hputs, rfl, fun hb => by cases hb⟩)
  | freeb bno =>
      simp only [step] at hstep
      by_cases hbno : bno.toInt < f.datazone ∨ f.nzone ≤ bno.toNat
      · rw [freeb, if_pos hbno] at hstep
        cases hstep
        exact .inl rfl
      rw [freeb_eq h.datazone_lt h.small hbno] at hstep
      split_ifs at hstep
      · cases hfree : f.freeb bno.toNat with
        | none =>
            rw [hfree] at hstep
            cases hstep
            exact .inl rfl
        | some g =>
            have hzone := (Fsmaps.freeb_isSome.mp (isSome_of_eq_some hfree)).1
            obtain ⟨m, rfl, hm⟩ := Fsmaps.freeb_eq_some hfree
            rw [hfree] at hstep
            cases hstep
            obtain ⟨hlow, hhigh⟩ := hzone
            exact .inr (.inr ⟨_, m, false, hm, rfl, fun _ => ⟨by omega, by omega⟩⟩)
      · cases hstep
  | seeki ino =>
      cases hstep
      exact .inl rfl

theorem Held.step (h : Held d f) (hstep : Volume.step f a = some f') : Held d f' := by
  rcases h.step_cases hstep with rfl | ⟨m, hm, rfl⟩ | ⟨k, m, b, hm, rfl, hb⟩
  · exact h
  · exact { h with imap := hm.trans h.imap }
  · have hfirst : m.bit 0 = true := by
      rw [hm.bit 0]
      split_ifs with hk
      · cases b with
        | true => rfl
        | false => exact absurd (hb rfl).1 (by omega)
      · exact h.first
    exact { h with
      zmap := hm.nblock.trans h.zmap
      small := hm.nblock ▸ h.small
      first := hfirst }

/-- Every bit behind those of the zones is set. -/
def Sealed (f : Fsmaps) : Prop :=
  ∀ k, 0 < k → k < f.zmap.nblock * 8192 → f.nzone < k + f.datazone → f.zmap.bit k = true

theorem Sealed.step (h : Held d f) (hs : Sealed f) (hstep : Volume.step f a = some f') :
    Sealed f' := by
  rcases h.step_cases hstep with rfl | ⟨m, -, rfl⟩ | ⟨j, m, b, hm, rfl, hb⟩
  · exact hs
  · exact hs
  · intro k hpos hk hend
    rw [hm.nblock] at hk
    rw [hm.bit k]
    dsimp only at hend
    split_ifs with hkj
    · cases b with
      | true => rfl
      | false =>
          have hzone := (hb rfl).2
          omega
    · exact hs k hpos hk hend

/-! ## A disk that is sound -/

theorem seeki_zero (d : Volume) (f : Fsmaps) : d.seeki f 0 =
    if f.ninode = 0 then .error EINVAL
    else if d.readb (2 + f.imap.nblock + f.zmap.nblock + 4194303) ≠ 0 then
      .error (d.readb (2 + f.imap.nblock + f.zmap.nblock + 4194303))
    else .ok (2 + f.imap.nblock + f.zmap.nblock + 4194303, 960) := by
  unfold seeki Fsmaps.seeki
  by_cases hzero : f.ninode = 0
  · have hle : f.ninode ≤ (0 : BitVec 32).toNat := Nat.le_of_eq hzero
    rw [if_pos hle, if_pos hzero]
    rfl
  · have hle : ¬ f.ninode ≤ (0 : BitVec 32).toNat := fun hle => hzero (Nat.le_zero.mp hle)
    rw [if_neg hle, if_neg hzero]
    rfl

/-- The calls are safe as long as the disk is sound and the bits at the end are set. -/
theorem Sound.safe (hd : Sound d) (h : Held d f) (hs : Sealed f) (a : Fscall) : Safe d f a := by
  cases a with
  | alloci =>
      refine ⟨?_, trivial⟩
      simp [step, alloci_eq]
  | freei ino =>
      refine ⟨?_, trivial⟩
      by_cases hino : ino = 0 ∨ f.ninode ≤ ino.toNat
      · rw [step, freei, if_pos hino]
        rfl
      · have hpos : ino.toNat ≠ 0 := fun hzero => hino (.inl (eq_of_toNat_eq hzero))
        have hlt : ino.toNat < f.imap.nblock * 8192 := by
          have himap := hd.imap
          rw [← h.ninode, ← h.imap] at himap
          omega
        simp [step, freei_eq hino, hlt, Except.toOption]
  | allocb =>
      refine ⟨by simp [step, allocb_eq], fun bno f' halloc => ?_⟩
      rw [allocb_eq] at halloc
      obtain ⟨⟨k, m⟩, hmap, hk⟩ := map_eq_some_iff.mp (Except.ok.inj halloc)
      cases hk
      obtain ⟨hlt, hclear, -, -⟩ := alloc_eq_some hmap
      have hpos : 0 < k := by
        rcases Nat.eq_zero_or_pos k with rfl | hpos
        · rw [h.first] at hclear
          cases hclear
        · exact hpos
      have hin : ¬ f.nzone < k + f.datazone := by
        intro hend
        rw [hs k hpos hlt hend] at hclear
        cases hclear
      exact ⟨by omega, by omega⟩
  | freeb bno =>
      refine ⟨?_, trivial⟩
      by_cases hbno : bno.toInt < f.datazone ∨ f.nzone ≤ bno.toNat
      · rw [step, freeb, if_pos hbno]
        rfl
      · have hlt : bno.toNat - f.datazone + 1 < f.zmap.nblock * 8192 := by
          have hzmap := hd.zmap
          rw [← h.nzone, ← h.datazone, ← h.zmap] at hzmap
          have hle : f.datazone ≤ bno.toNat := by
            have hint := toInt_eq_toNat_cond bno
            split_ifs at hint
            · omega
            · omega
          omega
        simp [step, freeb_eq h.datazone_lt h.small hbno, hlt, Except.toOption]
  | seeki ino =>
      refine ⟨rfl, fun place hplace hino => ?_⟩
      rw [hino, seeki_zero] at hplace
      have hninode : f.ninode ≠ 0 := by
        intro hzero
        rw [if_pos hzero] at hplace
        cases hplace
      have htable := hd.table.resolve_left fun hzero => hninode (by rw [h.ninode, hzero]; rfl)
      rw [← h.imap, ← h.zmap] at htable
      rw [if_neg hninode, if_pos htable] at hplace
      cases hplace

/-- In every run all calls are safe. -/
def Secure (d : Volume) (f : Fsmaps) : Prop := ∀ as, Each step (Safe d) f as

theorem Secure.safe (h : Secure d f) (a : Fscall) : Safe d f a := (h [a]).1

theorem Secure.next (h : Secure d f) (hstep : Volume.step f a = some f') : Secure d f' :=
  fun as => (h (a :: as)).2 f' hstep

theorem Sound.secure (hd : Sound d) (h : Held d f) (hs : Sealed f) : Secure d f := by
  intro as
  induction as generalizing f with
  | nil => trivial
  | cons a as ih => exact ⟨hd.safe h hs a, fun f' hf' => ih (h.step hf') (hs.step h hf')⟩

/-- With `allocb` again and again every clear bit is come to. -/
theorem Secure.zend (hsec : Secure d f) (h : Held d f) {j : Nat}
    (hset : ∀ i < j, f.zmap.bit i = true) (hk : k < f.zmap.nblock * 8192)
    (hclear : f.zmap.bit k = false) : k + f.datazone ≤ f.nzone := by
  have hjk : j ≤ k := by
    by_contra hlt
    rw [hset k (by omega)] at hclear
    cases hclear
  induction hn : k - j using Nat.strong_induction_on generalizing f j with
  | _ n ih =>
      cases halloc : f.allocb with
      | none =>
          rw [alloc_eq_none (map_eq_none_iff.mp halloc) hk] at hclear
          cases hclear
      | some r =>
          obtain ⟨⟨i, m⟩, hmap, rfl⟩ := map_eq_some_iff.mp halloc
          obtain ⟨-, hi, hlow, hm⟩ := alloc_eq_some hmap
          have hji : j ≤ i := by
            by_contra hlt
            rw [hset i (by omega)] at hi
            cases hi
          by_cases hik : i = k
          · have hzone := (hsec.safe .allocb).2 _ _ ((allocb_eq f).trans (congrArg _ halloc))
            have hlast := hzone.2
            omega
          have hle : i < k := by
            by_contra hge
            rw [hlow k (by omega)] at hclear
            cases hclear
          have hstep : step f .allocb = some { f with zmap := m } := by
            simp only [step, allocb_eq, halloc]
            rfl
          have hset' : ∀ i' < i + 1, m.bit i' = true := by
            intro i' hi'
            rw [hm.bit i']
            split_ifs with heq
            · rfl
            · exact hlow i' (by omega)
          have hclear' : m.bit k = false := by
            rw [hm.bit k, if_neg (Ne.symm hik)]
            exact hclear
          have hk' : k < m.nblock * 8192 := hm.nblock ▸ hk
          exact ih (k - (i + 1)) (by omega) (f := { f with zmap := m }) (hsec.next hstep)
            (h.step hstep) hset' hk' hclear' hle rfl

/-- There are bits for all inodes, or the inode behind them is freed astray. -/
theorem Secure.imap (hsec : Secure d f) (h : Held d f) :
    f.ninode ≤ 1 ∨ f.ninode ≤ f.imap.nblock * 8192 := by
  by_contra hnot
  have hbound : f.ninode < 2 ^ 16 := h.ninode ▸ d.dfs.ninode.isLt
  obtain ⟨n, hn, hpos, hlt⟩ : ∃ n, f.imap.nblock * 8192 ≤ n ∧ 0 < n ∧ n < f.ninode :=
    ⟨max 1 (f.imap.nblock * 8192), by omega, by omega, by omega⟩
  have hsafe := (hsec.safe (.freei (BitVec.ofNat 32 n))).1
  have htoNat : (BitVec.ofNat 32 n).toNat = n := by
    rw [toNat_ofNat]
    omega
  have hino : ¬ (BitVec.ofNat 32 n = 0 ∨ f.ninode ≤ (BitVec.ofNat 32 n).toNat) := by
    rintro (hzero | hle)
    · have hzero' := congrArg BitVec.toNat hzero
      rw [htoNat] at hzero'
      exact absurd hzero' (Nat.ne_of_gt hpos)
    · omega
  rw [Volume.step, freei_eq hino, htoNat, if_neg (Nat.not_lt.mpr hn)] at hsafe
  cases hsafe

/-- There are bits for all zones, or the zone behind them is freed astray. -/
theorem Secure.zmap (hsec : Secure d f) (h : Held d f) :
    f.nzone ≤ f.datazone ∨ f.nzone - f.datazone < f.zmap.nblock * 8192 := by
  by_contra hnot
  have hbound := h.datazone_lt
  have hsmall := h.small
  obtain ⟨n, hn, hle, hlt, hint⟩ : ∃ n, f.zmap.nblock * 8192 ≤ n - f.datazone + 1 ∧
      f.datazone ≤ n ∧ n < f.nzone ∧ n < 2 ^ 31 :=
    ⟨f.datazone + (f.zmap.nblock * 8192 - 1), by omega, by omega, by omega, by omega⟩
  have hsafe := (hsec.safe (.freeb (BitVec.ofNat 32 n))).1
  have htoNat : (BitVec.ofNat 32 n).toNat = n := by
    rw [toNat_ofNat]
    omega
  have hbno : ¬ ((BitVec.ofNat 32 n).toInt < f.datazone ∨
      f.nzone ≤ (BitVec.ofNat 32 n).toNat) := by
    rw [toInt_eq_toNat_cond, htoNat, if_pos (by omega)]
    omega
  rw [Volume.step, freeb_eq h.datazone_lt h.small hbno, htoNat, if_neg (Nat.not_lt.mpr hn)] at hsafe
  cases hsafe

theorem Secure.table (hsec : Secure d f) :
    f.ninode = 0 ∨ d.readb (2 + f.imap.nblock + f.zmap.nblock + 4194303) ≠ 0 := by
  by_contra hnot
  obtain ⟨hninode, hread⟩ := not_or.mp hnot
  have hplace := d.seeki_zero f
  rw [if_neg hninode, if_neg hread] at hplace
  exact (hsec.safe (.seeki 0)).2 _ hplace rfl

theorem Secure.sound (hsmall : d.dfs.nzmapblock.toNat ≤ 64) (hsec : Secure d d.load) : Sound d where
  imap := hsec.imap (Held.load hsmall)
  zmap := hsec.zmap (Held.load hsmall)
  zend k hpos hk hend := by
    by_contra hclear
    have hbit : d.load.zmap.bit k = false := (load_bit hpos).trans ((Bool.not_eq_true _).mp hclear)
    have hle := hsec.zend (Held.load hsmall) (fun i hi => absurd hi (Nat.not_lt_zero i)) hk hbit
    exact Nat.not_le_of_lt hend hle
  table := by
    rcases hsec.table with hzero | hread
    · exact .inl (eq_of_toNat_eq hzero)
    · exact .inr hread

/-- On a disk that is read every run of calls is safe exactly when the disk is sound. -/
theorem read_safe_iff (h : d.fsread = .ok f) :
    (∀ as, Each step (Safe d) f as) ↔ Sound d := by
  obtain ⟨rfl, hsmall⟩ := fsread_ok h
  constructor
  · exact fun hsec => Secure.sound hsmall hsec
  · intro hd
    refine hd.secure (Held.load hsmall) fun k hpos hk hend => ?_
    rw [load_bit hpos]
    exact hd.zend k hpos hk hend

/-! ## Two disks -/

/-- The zones 8 to 99 are clear. -/
def zones : Longs := fun j => if j < 2 then 0 else if j = 2 then 0xE0000000 else -1

/-- 64 inodes and 100 blocks. -/
def tiny : Volume where
  dfs :=
    { ninode := 64, nimapblock := 1, nzmapblock := 1, datazone := 8, magic := MINIX2MAGIC2,
      nzone := 100 }
  map := fun _ => Bitmapt.construct zones Numbers.longs_block
  readb := fun bno => if bno < 100 then 0 else EIO
  geti := some false

theorem tiny_read : tiny.fsread = .ok tiny.load := rfl

theorem zones_end (hk : 93 ≤ k) : tstbit zones k = true := by
  unfold tstbit zones
  by_cases hlong : k / 32 = 2
  · have hlow : 29 ≤ k % 32 ∧ k % 32 < 32 := by omega
    rw [hlong, if_neg (by decide), if_pos rfl]
    obtain hbit | hbit | hbit : k % 32 = 29 ∨ k % 32 = 30 ∨ k % 32 = 31 := by omega
    all_goals
      rw [hbit]
      decide
  · rw [if_neg (by omega), if_neg hlong, show (-1 : BitVec 32) = BitVec.allOnes 32 from rfl,
      getLsbD_allOnes]
    exact decide_eq_true (Nat.mod_lt k (by decide))

theorem tiny_sound : Sound tiny where
  imap := by decide
  zmap := by decide
  zend k _ hk hend := by
    have hk' : k < 8192 := hk
    have hlast : 100 < k + 8 := hend
    show tstbit zones (k % 8192) = true
    exact zones_end (by omega)
  table := by decide

/-- Whatever is called on this disk is safe. -/
theorem tiny_read_safe :
    tiny.fsread = .ok tiny.load ∧ ∀ as, Each step (Safe tiny) tiny.load as :=
  ⟨tiny_read, (read_safe_iff tiny_read).mpr tiny_sound⟩

/-- The same disk with a superblock that tells of more inodes. -/
def manyinodes : Volume := { tiny with dfs := { tiny.dfs with ninode := 8193 } }

/-- Freeing inode 8192 goes beyond the bitmaps. -/
theorem manyinodes_not_safe :
    ¬ ∀ d f, Volume.fsread d = .ok f → ∀ as, Each step (Safe d) f as := by
  intro hall
  have hsec : Secure manyinodes manyinodes.load := hall manyinodes manyinodes.load rfl
  rcases hsec.imap (Held.load (by decide)) with hfew | hfew
  · exact absurd hfew (by decide)
  · exact absurd hfew (by decide)

end Volume

end Unixlite.Fs
