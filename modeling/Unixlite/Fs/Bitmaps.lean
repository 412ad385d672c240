import Unixlite.Fs.Inode
import Unixlite.Lib.Bitmap
import Unixlite.Verified.Run

/-!
# Inode and zone numbers

Port of `alloci`, `freei`, `allocb`, `freeb` and `seeki` of `fs/fs.cc`.  A bitmap is spread
over several blocks; the buffer of each of them has its state.  `freei` and `freeb` are `none`
where they warn and do nothing.

Numbers are handed out and given back in any order (`step`).  They stay distinct and are what
the bitmaps say, but `seeki` and `freei` refuse the last inode, which `alloci` hands out
(`run_lawful_iff`).
-/

namespace Unixlite.Fs

open Unixlite.Lib Unixlite.Verified.Run Option List
open Function (update update_of_ne update_self)

/-! ## A bitmap of several blocks -/

def BCLEAN : Nat := 1
def BDIRTY : Nat := 2
def IDIRTY : Nat := 2

/-- The bitmaps of the blocks, and the states of their buffers. -/
structure Blockmap where
  nblock : Nat
  map : Nat → Bitmapt 8192
  state : Nat → Nat

namespace Blockmap

variable {m m' : Blockmap} {dirty k : Nat}

instance : NeZero 8192 := ⟨by decide⟩

/-- The bit of a number: in the block `k>>BITS`, at `k&MASK`. -/
def bit (m : Blockmap) (k : Nat) : Bool := (m.map (k >>> 13)).tst (Fin.ofNat 8192 k)

/-- The first block with a clear bit. -/
def ff0 (m : Blockmap) : Option (Nat × Fin 8192) :=
  (List.range m.nblock).findSome? fun i => (m.map i).ff0.map fun j => (i, j)

/-- The loop of `alloci` and `allocb`. -/
def alloc (m : Blockmap) (dirty : Nat) : Option (Nat × Blockmap) :=
  m.ff0.map fun (i, j) =>
    ((i <<< 13) + j,
      { m with
        map := update m.map i ((m.map i).set j)
        state := update m.state i dirty })

/-- `freei` and `freeb`, behind the check of the number. -/
def free (m : Blockmap) (dirty k : Nat) : Option Blockmap :=
  if !m.bit k then none
  else some
    { m with
      map := update m.map (k >>> 13) ((m.map (k >>> 13)).clr (Fin.ofNat 8192 k))
      state := update m.state (k >>> 13) dirty }

theorem shiftRight_eq (k : Nat) : k >>> 13 = k / 8192 := Nat.shiftRight_eq_div_pow k 13

/-- A number is the block and the place in it. -/
theorem split (i : Nat) (j : Fin 8192) :
    ((i <<< 13) + j) >>> 13 = i ∧ Fin.ofNat 8192 ((i <<< 13) + j) = j := by
  refine ⟨by rw [shiftRight_eq]; omega, Fin.ext ?_⟩
  rw [Fin.val_ofNat]
  omega

theorem eq_iff_split (k k' : Nat) :
    k = k' ↔ k >>> 13 = k' >>> 13 ∧ Fin.ofNat 8192 k = Fin.ofNat 8192 k' := by
  rw [shiftRight_eq, shiftRight_eq, Fin.ext_iff, Fin.val_ofNat, Fin.val_ofNat]
  omega

/-- The blocks are searched one after the other. -/
theorem ff0_spec (m : Blockmap) (n : Nat) :
    match (List.range n).findSome? fun i => (m.map i).ff0.map fun j => (i, j) with
    | some (i, j) => i < n ∧ (m.map i).tst j = false ∧ ∀ k < (i <<< 13) + j, m.bit k = true
    | none => ∀ k < n * 8192, m.bit k = true := by
  induction n with
  | zero => exact fun k hk => by omega
  | succ n ih =>
      rw [range_succ, List.findSome?_append]
      cases hbefore : (List.range n).findSome? fun i => (m.map i).ff0.map fun j => (i, j) with
      | some x =>
          rw [hbefore] at ih
          exact ⟨by omega, ih.2⟩
      | none =>
          rw [hbefore] at ih
          rw [none_or, List.findSome?_singleton]
          have hblock : ∀ k, ¬ k < n * 8192 → k < (n + 1) * 8192 → k >>> 13 = n := by
            intro k hk hlt
            omega
          cases hlast : (m.map n).ff0 with
          | some j =>
              obtain ⟨hbit, hlow⟩ := Bitmapt.ff0_eq_some hlast
              refine ⟨by omega, hbit, fun k hk => ?_⟩
              by_cases hk' : k < n * 8192
              · exact ih k hk'
              · have hj := j.isLt
                rw [bit, hblock k hk' (by omega)]
                refine hlow _ ?_
                rw [Fin.lt_def, Fin.val_ofNat]
                omega
          | none =>
              intro k hk
              by_cases hk' : k < n * 8192
              · exact ih k hk'
              · rw [bit, hblock k hk' hk]
                exact Bitmapt.ff0_eq_none (by decide) hlast _

/-- What `m'` has of a bitmap `m` in which only the bit of `k` has been changed. -/
structure Puts (m m' : Blockmap) (k : Nat) (b : Bool) (dirty : Nat) : Prop where
  nblock : m'.nblock = m.nblock
  bit : ∀ k', m'.bit k' = if k' = k then b else m.bit k'
  state : m'.state (k >>> 13) = dirty

/-- The lowest number whose bit is clear is handed out. -/
theorem alloc_eq_some (h : m.alloc dirty = some (k, m')) :
    k < m.nblock * 8192 ∧ m.bit k = false ∧ (∀ k' < k, m.bit k' = true) ∧
      Puts m m' k true dirty := by
  obtain ⟨⟨i, j⟩, hff, hk⟩ := map_eq_some_iff.mp h
  obtain ⟨rfl, rfl⟩ := Prod.mk.injEq .. ▸ hk
  have hspec := m.ff0_spec m.nblock
  rw [show (List.range m.nblock).findSome? (fun i => (m.map i).ff0.map fun j => (i, j)) =
    some (i, j) from hff] at hspec
  obtain ⟨hi, hbit, hlow⟩ := hspec
  obtain ⟨hblock, hplace⟩ := split i j
  refine ⟨by omega, by rw [bit, hblock, hplace]; exact hbit, hlow, rfl, fun k' => ?_, ?_⟩
  · unfold bit
    dsimp only
    by_cases hk' : k' >>> 13 = i
    · rw [hk', update_self, Bitmapt.tst_set]
      by_cases heq : Fin.ofNat 8192 k' = j
      · rw [if_pos ((eq_iff_split _ _).mpr ⟨hk'.trans hblock.symm, heq.trans hplace.symm⟩),
          decide_eq_true heq, Bool.or_true]
      · rw [if_neg fun h => heq ((congrArg (Fin.ofNat 8192) h).trans hplace),
          decide_eq_false heq, Bool.or_false]
    · rw [update_of_ne hk', if_neg fun h => hk' ((congrArg (· >>> 13) h).trans hblock)]
  · dsimp only
    rw [hblock, update_self]

theorem alloc_eq_none (h : m.alloc dirty = none) (hk : k < m.nblock * 8192) : m.bit k = true := by
  have hspec := m.ff0_spec m.nblock
  rw [show (List.range m.nblock).findSome? (fun i => (m.map i).ff0.map fun j => (i, j)) =
    none from map_eq_none_iff.mp h] at hspec
  exact hspec k hk

theorem free_isSome : (m.free dirty k).isSome = m.bit k := by
  unfold free
  cases m.bit k <;> rfl

theorem free_eq_some (h : m.free dirty k = some m') : m.bit k = true ∧ Puts m m' k false dirty := by
  have hbit : m.bit k = true := by
    rw [← @free_isSome m dirty k, h]
    rfl
  unfold free at h
  rw [if_neg (by rw [hbit]; decide)] at h
  cases h
  refine ⟨hbit, rfl, fun k' => ?_, update_self ..⟩
  unfold bit
  dsimp only
  by_cases hk' : k' >>> 13 = k >>> 13
  · rw [hk', update_self, Bitmapt.tst_clr]
    by_cases heq : Fin.ofNat 8192 k' = Fin.ofNat 8192 k
    · rw [if_pos ((eq_iff_split _ _).mpr ⟨hk', heq⟩), decide_eq_false (not_not.mpr heq),
        Bool.and_false]
    · rw [if_neg fun h => heq (congrArg (Fin.ofNat 8192) h), decide_eq_true heq, Bool.and_true]
  · rw [update_of_ne hk', if_neg fun h => hk' (congrArg (· >>> 13) h)]

/-- The buffer of a bit that has changed is dirty. -/
def Dirtied (m m' : Blockmap) : Prop := ∀ k, m'.bit k ≠ m.bit k → m'.state (k >>> 13) = BDIRTY

theorem Puts.dirtied {b : Bool} (h : Puts m m' k b BDIRTY) : Dirtied m m' := by
  intro k' hk'
  have heq : k' = k := by
    by_contra hne
    exact hk' ((h.bit k').trans (if_neg hne))
  rw [heq]
  exact h.state

end Blockmap

/-! ## `fs_t` -/

/-- The part of `fs_t` that numbers come from. -/
structure Fsmaps where
  ninode : Nat
  nzone : Nat
  datazone : Nat
  imap : Blockmap
  zmap : Blockmap

namespace Fsmaps

/-- `alloci`; `none` is `ENOSPC`. -/
def alloci (f : Fsmaps) : Option (Nat × Fsmaps) :=
  (f.imap.alloc IDIRTY).map fun (ino, m) => (ino, { f with imap := m })

def freei (f : Fsmaps) (ino : Nat) : Option Fsmaps :=
  if ino = 0 ∨ f.ninode ≤ ino then none
  else (f.imap.free IDIRTY ino).map fun m => { f with imap := m }

/-- `allocb`; `none` is `ENOSPC`. -/
def allocb (f : Fsmaps) : Option (Nat × Fsmaps) :=
  (f.zmap.alloc BDIRTY).map fun (k, m) => (k + f.datazone - 1, { f with zmap := m })

def freeb (f : Fsmaps) (bno : Nat) : Option Fsmaps :=
  if bno < f.datazone ∨ f.nzone ≤ bno then none
  else (f.zmap.free BDIRTY (bno - f.datazone + 1)).map fun m => { f with zmap := m }

/-- `seeki`: the block of the inode and the offset in it. -/
def seeki (f : Fsmaps) (ino : Nat) : Except Int (Nat × Nat) :=
  if f.ninode ≤ ino then .error EINVAL
  else
    let i : BitVec 32 := BitVec.ofNat 32 ino - 1
    .ok (2 + f.imap.nblock + f.zmap.nblock + (i * 64).toNat / 1024, (i * 64).toNat % 1024)

/-- The numbers there are. -/
def IsIno (f : Fsmaps) (ino : Nat) : Prop := 1 ≤ ino ∧ ino ≤ f.ninode

def IsBno (f : Fsmaps) (bno : Nat) : Prop := f.datazone ≤ bno ∧ bno < f.nzone

/-- The free pools. -/
def FreeIno (f : Fsmaps) (ino : Nat) : Prop := f.IsIno ino ∧ f.imap.bit ino = false

def FreeBno (f : Fsmaps) (bno : Nat) : Prop :=
  f.IsBno bno ∧ f.zmap.bit (bno - f.datazone + 1) = false

/-- The maps as they are on a disk: there are blocks for all numbers, and what is no number is
marked. -/
structure Marked (f : Fsmaps) : Prop where
  imap : f.ninode < f.imap.nblock * 8192
  zmap : f.nzone - f.datazone < f.zmap.nblock * 8192
  imap0 : f.imap.bit 0 = true
  zmap0 : f.zmap.bit 0 = true
  imapend : ∀ k < f.imap.nblock * 8192, f.ninode < k → f.imap.bit k = true
  zmapend : ∀ k < f.zmap.nblock * 8192, f.nzone - f.datazone < k → f.zmap.bit k = true

variable {f f' : Fsmaps} {ino bno : Nat}

/-- The maps with the bit of one number changed are maps as they are on a disk. -/
theorem Marked.iput (h : f.Marked) {m : Blockmap} {b : Bool} {dirty : Nat}
    (hm : f.imap.Puts m ino b dirty) (hino : f.IsIno ino) : Marked { f with imap := m } := by
  obtain ⟨hlow, hhigh⟩ := hino
  refine ⟨hm.nblock ▸ h.imap, h.zmap, ?_, h.zmap0, fun k hk hlt => ?_, h.zmapend⟩
  · exact (hm.bit 0).trans ((if_neg (by omega)).trans h.imap0)
  · have hne : k ≠ ino := by
      dsimp only at hlt
      omega
    exact (hm.bit k).trans ((if_neg hne).trans (h.imapend k (hm.nblock ▸ hk) hlt))

theorem Marked.zput (h : f.Marked) {m : Blockmap} {b : Bool} {dirty : Nat}
    (hm : f.zmap.Puts m (bno - f.datazone + 1) b dirty) (hbno : f.IsBno bno) :
    Marked { f with zmap := m } := by
  obtain ⟨hlow, hhigh⟩ := hbno
  refine ⟨h.imap, hm.nblock ▸ h.zmap, h.imap0, ?_, h.imapend, fun k hk hlt => ?_⟩
  · exact (hm.bit 0).trans ((if_neg (by omega)).trans h.zmap0)
  · have hne : k ≠ bno - f.datazone + 1 := by
      dsimp only at hlt
      omega
    exact (hm.bit k).trans ((if_neg hne).trans (h.zmapend k (hm.nblock ▸ hk) hlt))

/-- The lowest free inode is handed out. -/
theorem alloci_eq_some (hf : f.Marked) (h : f.alloci = some (ino, f')) :
    f.FreeIno ino ∧ (∀ k < ino, f.imap.bit k = true) ∧
      ∃ m, f' = { f with imap := m } ∧ f.imap.Puts m ino true IDIRTY := by
  obtain ⟨⟨k, m⟩, halloc, hk⟩ := map_eq_some_iff.mp h
  cases hk
  obtain ⟨hlt, hbit, hlow, hputs⟩ := Blockmap.alloc_eq_some halloc
  refine ⟨⟨⟨?_, ?_⟩, hbit⟩, hlow, m, rfl, hputs⟩
  · by_contra hzero
    rw [show ino = 0 by omega, hf.imap0] at hbit
    cases hbit
  · by_contra hbig
    rw [hf.imapend ino hlt (by omega)] at hbit
    cases hbit

theorem alloci_eq_none (hf : f.Marked) (h : f.alloci = none) : ¬ f.FreeIno ino := by
  rintro ⟨⟨-, hle⟩, hbit⟩
  have hset := Blockmap.alloc_eq_none (map_eq_none_iff.mp h)
    (show ino < f.imap.nblock * 8192 from Nat.lt_of_le_of_lt hle hf.imap)
  rw [hset] at hbit
  cases hbit

theorem freei_isSome : (f.freei ino).isSome = true ↔
    ino ≠ 0 ∧ ino < f.ninode ∧ f.imap.bit ino = true := by
  unfold freei
  by_cases hbad : ino = 0 ∨ f.ninode ≤ ino
  · rw [if_pos hbad]
    exact iff_of_false (by simp) fun h => by omega
  · rw [if_neg hbad, isSome_map, Blockmap.free_isSome]
    exact ⟨fun h => ⟨by omega, by omega, h⟩, fun h => h.2.2⟩

theorem freei_eq_some (h : f.freei ino = some f') :
    ∃ m, f' = { f with imap := m } ∧ f.imap.Puts m ino false IDIRTY := by
  unfold freei at h
  split_ifs at h
  obtain ⟨m, hfree, rfl⟩ := map_eq_some_iff.mp h
  exact ⟨m, rfl, (Blockmap.free_eq_some hfree).2⟩

/-- The lowest free zone is handed out. -/
theorem allocb_eq_some (hf : f.Marked) (h : f.allocb = some (bno, f')) :
    f.FreeBno bno ∧
      ∃ m, f' = { f with zmap := m } ∧ f.zmap.Puts m (bno - f.datazone + 1) true BDIRTY := by
  obtain ⟨⟨k, m⟩, halloc, hk⟩ := map_eq_some_iff.mp h
  cases hk
  obtain ⟨hlt, hbit, -, hputs⟩ := Blockmap.alloc_eq_some halloc
  have hpos : k ≠ 0 := by
    rintro rfl
    rw [hf.zmap0] at hbit
    cases hbit
  have hle : k ≤ f.nzone - f.datazone := by
    by_contra hbig
    rw [hf.zmapend k hlt (by omega)] at hbit
    cases hbit
  have hk : k + f.datazone - 1 - f.datazone + 1 = k := by omega
  exact ⟨⟨⟨by omega, by omega⟩, by rw [hk]; exact hbit⟩, m, rfl, by rw [hk]; exact hputs⟩

theorem allocb_eq_none (hf : f.Marked) (h : f.allocb = none) : ¬ f.FreeBno bno := by
  rintro ⟨⟨hle, hlt⟩, hbit⟩
  have hset := Blockmap.alloc_eq_none (map_eq_none_iff.mp h)
    (show bno - f.datazone + 1 < f.zmap.nblock * 8192 by have := hf.zmap; omega)
  rw [hset] at hbit
  cases hbit

theorem freeb_isSome : (f.freeb bno).isSome = true ↔
    f.IsBno bno ∧ f.zmap.bit (bno - f.datazone + 1) = true := by
  unfold freeb IsBno
  by_cases hbad : bno < f.datazone ∨ f.nzone ≤ bno
  · rw [if_pos hbad]
    exact iff_of_false (by simp) fun h => by omega
  · rw [if_neg hbad, isSome_map, Blockmap.free_isSome]
    exact ⟨fun h => ⟨⟨by omega, by omega⟩, h⟩, fun h => h.2⟩

theorem freeb_eq_some (h : f.freeb bno = some f') :
    ∃ m, f' = { f with zmap := m } ∧ f.zmap.Puts m (bno - f.datazone + 1) false BDIRTY := by
  unfold freeb at h
  split_ifs at h
  obtain ⟨m, hfree, rfl⟩ := map_eq_some_iff.mp h
  exact ⟨m, rfl, (Blockmap.free_eq_some hfree).2⟩

theorem seeki_ne : f.seeki ino ≠ .error EINVAL ↔ ino < f.ninode := by
  unfold seeki
  split_ifs with hbad
  · exact iff_of_false (fun h => h rfl) (by omega)
  · exact iff_of_true (fun h => by cases h) (by omega)

/-- The inode bitmap as one sequence of bits. -/
structure Refines (f : Fsmaps) (fs : Filesys) : Prop where
  ninode : fs.ninode = f.ninode
  nimap : fs.nimap = f.imap.nblock * 8192
  imap : fs.imap = f.imap.bit

theorem Refines.alloci {fs : Filesys} (h : Refines f fs) :
    match f.alloci, fs.alloci with
    | some (ino, f'), some (ino', fs') => ino = ino' ∧ Refines f' fs'
    | none, none => True
    | _, _ => False := by
  unfold Filesys.alloci
  rw [h.nimap, h.imap]
  cases halloc : f.alloci with
  | none =>
      have hnone : (List.range (f.imap.nblock * 8192)).find? (fun i => !f.imap.bit i) = none := by
        rw [List.find?_eq_none]
        intro k hk
        rw [Blockmap.alloc_eq_none (map_eq_none_iff.mp halloc) (mem_range.mp hk)]
        decide
      rw [hnone]
      trivial
  | some x =>
      obtain ⟨ino, f'⟩ := x
      obtain ⟨⟨k, m⟩, hmap, hk⟩ := map_eq_some_iff.mp halloc
      cases hk
      obtain ⟨hlt, hbit, hlow, hputs⟩ := Blockmap.alloc_eq_some hmap
      have hsome : (List.range (f.imap.nblock * 8192)).find? (fun i => !f.imap.bit i) =
          some ino := by
        rw [List.find?_range_eq_some]
        refine ⟨by rw [hbit]; rfl, mem_range.mpr hlt, fun k hk => ?_⟩
        rw [hlow k hk]
        rfl
      rw [hsome]
      exact ⟨rfl, h.ninode, congrArg (· * 8192) hputs.nblock.symm,
        funext fun k => (hputs.bit k).symm⟩

theorem Refines.freei {fs : Filesys} (h : Refines f fs) (ino : Nat) :
    Refines ((f.freei ino).getD f) (fs.freei ino) := by
  unfold Fsmaps.freei Filesys.freei
  rw [h.ninode]
  by_cases hbad : ino = 0 ∨ f.ninode ≤ ino
  · rw [if_pos hbad, if_pos hbad]
    exact h
  rw [if_neg hbad, if_neg hbad]
  cases hfree : f.imap.free IDIRTY ino with
  | none =>
      have hclear : f.imap.bit ino = false := by
        rw [← @Blockmap.free_isSome f.imap IDIRTY ino, hfree]
        rfl
      refine ⟨rfl, h.nimap, funext fun k => ?_⟩
      dsimp only
      rw [h.imap]
      split_ifs with hk
      · rw [hk, ← hclear]
        rfl
      · rfl
  | some m =>
      obtain ⟨-, hputs⟩ := Blockmap.free_eq_some hfree
      refine ⟨rfl, h.nimap.trans (congrArg (· * 8192) hputs.nblock.symm), funext fun k => ?_⟩
      rw [h.imap]
      exact (hputs.bit k).symm

end Fsmaps

/-! ## Handing out and giving back -/

/-- A file system with the numbers that are outstanding. -/
structure Numbers where
  fs : Fsmaps
  inos : List Nat
  bnos : List Nat

inductive Numop where
  | alloci
  | freei (ino : Nat)
  | allocb
  | freeb (bno : Nat)

namespace Numbers

/-- Only what is outstanding is freed. -/
def step (s : Numbers) : Numop → Option Numbers
  | .alloci =>
      match s.fs.alloci with
      | none => some s
      | some (ino, fs) => some { s with fs := fs, inos := ino :: s.inos }
  | .freei ino =>
      if ino ∈ s.inos then
        some { s with fs := (s.fs.freei ino).getD s.fs, inos := s.inos.erase ino }
      else none
  | .allocb =>
      match s.fs.allocb with
      | none => some s
      | some (bno, fs) => some { s with fs := fs, bnos := bno :: s.bnos }
  | .freeb bno =>
      if bno ∈ s.bnos then
        some { s with fs := (s.fs.freeb bno).getD s.fs, bnos := s.bnos.erase bno }
      else none

/-- What is outstanding is in the maps. -/
structure Inv (s : Numbers) : Prop where
  marked : s.fs.Marked
  inodup : s.inos.Nodup
  bnodup : s.bnos.Nodup
  ibit : ∀ ino ∈ s.inos, s.fs.IsIno ino ∧ s.fs.imap.bit ino = true
  zbit : ∀ bno ∈ s.bnos, s.fs.IsBno bno ∧ s.fs.zmap.bit (bno - s.fs.datazone + 1) = true

/-- The outstanding numbers are distinct, and they are accepted. -/
structure Good (s : Numbers) : Prop where
  inodup : s.inos.Nodup
  bnodup : s.bnos.Nodup
  seeki : ∀ ino ∈ s.inos, s.fs.seeki ino ≠ .error EINVAL
  freei : ∀ ino ∈ s.inos, (s.fs.freei ino).isSome = true
  freeb : ∀ bno ∈ s.bnos, (s.fs.freeb bno).isSome = true

/-- What a step does to the free pools and to the buffers. -/
def Right (s : Numbers) (a : Numop) : Prop :=
  match a with
  | .alloci =>
      match s.fs.alloci with
      | none => ∀ ino, ¬ s.fs.FreeIno ino
      | some (ino, fs) => s.fs.FreeIno ino ∧ (∀ k, fs.FreeIno k ↔ s.fs.FreeIno k ∧ k ≠ ino) ∧
          Blockmap.Dirtied s.fs.imap fs.imap
  | .freei ino => ino ∈ s.inos → ∃ fs, s.fs.freei ino = some fs ∧
      (∀ k, fs.FreeIno k ↔ s.fs.FreeIno k ∨ k = ino) ∧ Blockmap.Dirtied s.fs.imap fs.imap
  | .allocb =>
      match s.fs.allocb with
      | none => ∀ bno, ¬ s.fs.FreeBno bno
      | some (bno, fs) => s.fs.FreeBno bno ∧ (∀ k, fs.FreeBno k ↔ s.fs.FreeBno k ∧ k ≠ bno) ∧
          Blockmap.Dirtied s.fs.zmap fs.zmap
  | .freeb bno => bno ∈ s.bnos → ∃ fs, s.fs.freeb bno = some fs ∧
      (∀ k, fs.FreeBno k ↔ s.fs.FreeBno k ∨ k = bno) ∧ Blockmap.Dirtied s.fs.zmap fs.zmap

/-- In every state of the run `Good` holds, and every step is `Right`. -/
def Lawful (s : Numbers) (as : List Numop) : Prop :=
  Always step Good s as ∧ Each step Right s as

/-- `alloci` does not come to the last inode. -/
def Keeps (s : Numbers) (a : Numop) : Prop :=
  match a with
  | .alloci => s.fs.imap.bit s.fs.ninode = true ∨
      ∃ ino, 1 ≤ ino ∧ ino < s.fs.ninode ∧ s.fs.imap.bit ino = false
  | _ => True

/-! ### What is kept -/

variable {s t : Numbers} {a : Numop}

/-- A number that is handed out was in nobody's hands. -/
theorem Inv.iput (h : Inv s) {ino : Nat} {m : Blockmap} (hfree : s.fs.FreeIno ino)
    (hm : s.fs.imap.Puts m ino true IDIRTY) :
    Inv ⟨{ s.fs with imap := m }, ino :: s.inos, s.bnos⟩ := by
  refine ⟨h.marked.iput hm hfree.1, nodup_cons.mpr ⟨fun hin => ?_, h.inodup⟩, h.bnodup,
    fun k hk => ?_, h.zbit⟩
  · have hbit := (h.ibit ino hin).2
    rw [hfree.2] at hbit
    cases hbit
  · rcases mem_cons.mp hk with rfl | hk
    · exact ⟨hfree.1, (hm.bit k).trans (if_pos rfl)⟩
    · obtain ⟨hino, hbit⟩ := h.ibit k hk
      refine ⟨hino, (hm.bit k).trans ?_⟩
      split_ifs
      · rfl
      · exact hbit

theorem Inv.zput (h : Inv s) {bno : Nat} {m : Blockmap} (hfree : s.fs.FreeBno bno)
    (hm : s.fs.zmap.Puts m (bno - s.fs.datazone + 1) true BDIRTY) :
    Inv ⟨{ s.fs with zmap := m }, s.inos, bno :: s.bnos⟩ := by
  refine ⟨h.marked.zput hm hfree.1, h.inodup, nodup_cons.mpr ⟨fun hin => ?_, h.bnodup⟩,
    h.ibit, fun k hk => ?_⟩
  · have hbit := (h.zbit bno hin).2
    rw [hfree.2] at hbit
    cases hbit
  · rcases mem_cons.mp hk with rfl | hk
    · exact ⟨hfree.1, (hm.bit _).trans (if_pos rfl)⟩
    · obtain ⟨hbno, hbit⟩ := h.zbit k hk
      refine ⟨hbno, (hm.bit _).trans ?_⟩
      split_ifs
      · rfl
      · exact hbit

/-- A number that is given back is in nobody's hands. -/
theorem Inv.iclear (h : Inv s) {ino : Nat} (hin : ino ∈ s.inos) :
    Inv ⟨(s.fs.freei ino).getD s.fs, s.inos.erase ino, s.bnos⟩ := by
  cases hfree : s.fs.freei ino with
  | none =>
      exact ⟨h.marked, h.inodup.erase ino, h.bnodup,
        fun k hk => h.ibit k (mem_of_mem_erase hk), h.zbit⟩
  | some f =>
      obtain ⟨m, rfl, hm⟩ := Fsmaps.freei_eq_some hfree
      refine ⟨h.marked.iput hm (h.ibit ino hin).1, h.inodup.erase ino, h.bnodup,
        fun k hk => ?_, h.zbit⟩
      obtain ⟨hne, hk⟩ := h.inodup.mem_erase_iff.mp hk
      exact ⟨(h.ibit k hk).1, (hm.bit k).trans ((if_neg hne).trans (h.ibit k hk).2)⟩

theorem Inv.zclear (h : Inv s) {bno : Nat} (hin : bno ∈ s.bnos) :
    Inv ⟨(s.fs.freeb bno).getD s.fs, s.inos, s.bnos.erase bno⟩ := by
  cases hfree : s.fs.freeb bno with
  | none =>
      exact ⟨h.marked, h.inodup, h.bnodup.erase bno, h.ibit,
        fun k hk => h.zbit k (mem_of_mem_erase hk)⟩
  | some f =>
      obtain ⟨m, rfl, hm⟩ := Fsmaps.freeb_eq_some hfree
      have hbno := (h.zbit bno hin).1
      refine ⟨h.marked.zput hm hbno, h.inodup, h.bnodup.erase bno, h.ibit, fun k hk => ?_⟩
      obtain ⟨hne, hk⟩ := h.bnodup.mem_erase_iff.mp hk
      have hkz := (h.zbit k hk).1
      refine ⟨hkz, (hm.bit _).trans ((if_neg ?_).trans (h.zbit k hk).2)⟩
      have hlow := hbno.1
      have hlow' := hkz.1
      rw [getD_some]
      dsimp only
      omega

/-- What is outstanding is in the maps, whatever is done. -/
theorem Inv.step (h : Inv s) (ht : step s a = some t) : Inv t := by
  cases a with
  | alloci =>
      simp only [Numbers.step] at ht
      cases halloc : s.fs.alloci with
      | none =>
          rw [halloc] at ht
          cases ht
          exact h
      | some x =>
          obtain ⟨ino, f⟩ := x
          rw [halloc] at ht
          cases ht
          obtain ⟨hfree, -, m, rfl, hm⟩ := Fsmaps.alloci_eq_some h.marked halloc
          exact h.iput hfree hm
  | freei ino =>
      simp only [Numbers.step] at ht
      split_ifs at ht with hin
      cases ht
      exact h.iclear hin
  | allocb =>
      simp only [Numbers.step] at ht
      cases halloc : s.fs.allocb with
      | none =>
          rw [halloc] at ht
          cases ht
          exact h
      | some x =>
          obtain ⟨bno, f⟩ := x
          rw [halloc] at ht
          cases ht
          obtain ⟨hfree, m, rfl, hm⟩ := Fsmaps.allocb_eq_some h.marked halloc
          exact h.zput hfree hm
  | freeb bno =>
      simp only [Numbers.step] at ht
      split_ifs at ht with hin
      cases ht
      exact h.zclear hin

/-- Everything outstanding is accepted, the last inode apart. -/
theorem Inv.good_iff (h : Inv s) : Good s ↔ s.fs.ninode ∉ s.inos := by
  constructor
  · intro hgood hin
    exact absurd (Fsmaps.seeki_ne.mp (hgood.seeki _ hin)) (Nat.lt_irrefl _)
  · intro hout
    have hlt : ∀ ino ∈ s.inos, ino < s.fs.ninode := by
      intro ino hin
      refine Nat.lt_of_le_of_ne (h.ibit ino hin).1.2 ?_
      rintro rfl
      exact hout hin
    refine ⟨h.inodup, h.bnodup, fun ino hin => Fsmaps.seeki_ne.mpr (hlt ino hin),
      fun ino hin => ?_, fun bno hin => Fsmaps.freeb_isSome.mpr (h.zbit bno hin)⟩
    have hpos := (h.ibit ino hin).1.1
    exact Fsmaps.freei_isSome.mpr ⟨by omega, hlt ino hin, (h.ibit ino hin).2⟩

/-- A step takes its number from the pool or brings it back, and writes to its buffer. -/
theorem Inv.right (h : Inv s) (hgood : Good s) (a : Numop) : Right s a := by
  cases a with
  | alloci =>
      unfold Right
      cases halloc : s.fs.alloci with
      | none => exact fun ino => Fsmaps.alloci_eq_none h.marked halloc
      | some x =>
          obtain ⟨ino, f⟩ := x
          obtain ⟨hfree, -, m, rfl, hm⟩ := Fsmaps.alloci_eq_some h.marked halloc
          refine ⟨hfree, fun k => ?_, hm.dirtied⟩
          unfold Fsmaps.FreeIno Fsmaps.IsIno
          rw [hm.bit k]
          split_ifs with hk
          · exact iff_of_false (fun h => by cases h.2) fun h => h.2 hk
          · exact (and_iff_left hk).symm
  | freei ino =>
      intro hin
      obtain ⟨f, hf⟩ := isSome_iff_exists.mp (hgood.freei ino hin)
      obtain ⟨m, rfl, hm⟩ := Fsmaps.freei_eq_some hf
      refine ⟨_, hf, fun k => ?_, hm.dirtied⟩
      unfold Fsmaps.FreeIno
      rw [hm.bit k]
      split_ifs with hk
      · rw [hk]
        exact iff_of_true ⟨(h.ibit ino hin).1, rfl⟩ (.inr rfl)
      · exact (or_iff_left hk).symm
  | allocb =>
      unfold Right
      cases halloc : s.fs.allocb with
      | none => exact fun bno => Fsmaps.allocb_eq_none h.marked halloc
      | some x =>
          obtain ⟨bno, f⟩ := x
          obtain ⟨hfree, m, rfl, hm⟩ := Fsmaps.allocb_eq_some h.marked halloc
          refine ⟨hfree, fun k => ?_, hm.dirtied⟩
          unfold Fsmaps.FreeBno
          rw [hm.bit (k - s.fs.datazone + 1)]
          by_cases hk : k = bno
          · rw [if_pos (by rw [hk])]
            exact iff_of_false (fun h => by cases h.2) fun h => h.2 hk
          · constructor
            · rintro ⟨hbno, hbit⟩
              have hlow := hbno.1
              have hlow' := hfree.1.1
              dsimp only at hlow
              rw [if_neg (by omega)] at hbit
              exact ⟨⟨hbno, hbit⟩, hk⟩
            · rintro ⟨⟨hbno, hbit⟩, -⟩
              have hlow := hbno.1
              have hlow' := hfree.1.1
              rw [if_neg (by omega)]
              exact ⟨hbno, hbit⟩
  | freeb bno =>
      intro hin
      obtain ⟨f, hf⟩ := isSome_iff_exists.mp (hgood.freeb bno hin)
      obtain ⟨m, rfl, hm⟩ := Fsmaps.freeb_eq_some hf
      refine ⟨_, hf, fun k => ?_, hm.dirtied⟩
      have hbno := (h.zbit bno hin).1
      unfold Fsmaps.FreeBno
      rw [hm.bit (k - s.fs.datazone + 1)]
      by_cases hk : k = bno
      · rw [if_pos (by rw [hk]), hk]
        exact iff_of_true ⟨hbno, rfl⟩ (.inr rfl)
      · rw [or_iff_left hk]
        refine and_congr_right fun hkz => ?_
        have hlow := hkz.1
        have hlow' := hbno.1
        dsimp only at hlow
        rw [if_neg (by omega)]

/-- The number of inodes does not change. -/
theorem step_ninode (h : Inv s) (ht : step s a = some t) : t.fs.ninode = s.fs.ninode := by
  cases a with
  | alloci =>
      simp only [step] at ht
      cases halloc : s.fs.alloci with
      | none =>
          rw [halloc] at ht
          cases ht
          rfl
      | some x =>
          rw [halloc] at ht
          cases ht
          obtain ⟨-, -, m, hf, -⟩ := Fsmaps.alloci_eq_some h.marked halloc
          rw [hf]
  | freei ino =>
      simp only [step] at ht
      split_ifs at ht
      cases ht
      cases hfree : s.fs.freei ino with
      | none => rfl
      | some f =>
          obtain ⟨m, rfl, -⟩ := Fsmaps.freei_eq_some hfree
          rfl
  | allocb =>
      simp only [step] at ht
      cases halloc : s.fs.allocb with
      | none =>
          rw [halloc] at ht
          cases ht
          rfl
      | some x =>
          rw [halloc] at ht
          cases ht
          obtain ⟨-, m, hf, -⟩ := Fsmaps.allocb_eq_some h.marked halloc
          rw [hf]
  | freeb bno =>
      simp only [step] at ht
      split_ifs at ht
      cases ht
      cases hfree : s.fs.freeb bno with
      | none => rfl
      | some f =>
          obtain ⟨m, rfl, -⟩ := Fsmaps.freeb_eq_some hfree
          rfl

/-- The last inode is handed out when `alloci` comes to it. -/
theorem Inv.keeps_iff (h : Inv s) (hout : s.fs.ninode ∉ s.inos) :
    Keeps s a ↔ ∀ t, Numbers.step s a = some t → t.fs.ninode ∉ t.inos := by
  have hsame : ∀ t, Numbers.step s a = some t → (t.fs.ninode ∉ t.inos ↔ s.fs.ninode ∉ t.inos) :=
    fun t ht => by rw [step_ninode h ht]
  cases a with
  | alloci =>
      unfold Keeps
      cases halloc : s.fs.alloci with
      | none =>
          refine iff_of_true ?_ fun t ht => ?_
          · by_contra hnot
            rw [not_or] at hnot
            have hfull := @Fsmaps.alloci_eq_none s.fs s.fs.ninode h.marked halloc
            refine hfull ⟨⟨?_, Nat.le_refl _⟩, (Bool.not_eq_true _).mp hnot.1⟩
            by_contra hzero
            rw [show s.fs.ninode = 0 by omega] at hnot
            exact hnot.1 h.marked.imap0
          · simp only [Numbers.step, halloc] at ht
            cases ht
            exact hout
      | some x =>
          obtain ⟨ino, f⟩ := x
          obtain ⟨hfree, hlow, m, rfl, hm⟩ := Fsmaps.alloci_eq_some h.marked halloc
          have hstep : Numbers.step s .alloci =
              some ⟨{ s.fs with imap := m }, ino :: s.inos, s.bnos⟩ := by
            simp only [Numbers.step, halloc]
          have hiff : (∀ t, Numbers.step s .alloci = some t → t.fs.ninode ∉ t.inos) ↔
              s.fs.ninode ≠ ino := by
            rw [hstep]
            constructor
            · intro hall heq
              exact hall _ rfl (heq ▸ mem_cons_self)
            · rintro hne t ht
              cases ht
              exact fun hin => (mem_cons.mp hin).elim hne hout
          rw [hiff]
          constructor
          · rintro (hset | ⟨k, hk, hlt, hclear⟩) heq
            · rw [heq, hfree.2] at hset
              cases hset
            · rw [hlow k (by omega)] at hclear
              cases hclear
          · intro hne
            exact .inr ⟨ino, hfree.1.1, Nat.lt_of_le_of_ne hfree.1.2 hne.symm, hfree.2⟩
  | freei ino =>
      refine iff_of_true trivial fun t ht => (hsame t ht).mpr ?_
      simp only [Numbers.step] at ht
      split_ifs at ht
      cases ht
      exact fun hin => hout (mem_of_mem_erase hin)
  | allocb =>
      refine iff_of_true trivial fun t ht => (hsame t ht).mpr ?_
      simp only [Numbers.step] at ht
      cases halloc : s.fs.allocb with
      | none | some =>
          rw [halloc] at ht
          cases ht
          exact hout
  | freeb bno =>
      refine iff_of_true trivial fun t ht => (hsame t ht).mpr ?_
      simp only [Numbers.step] at ht
      split_ifs at ht
      cases ht
      exact hout

/-- **The numbers are handed out and given back as they should be if and only if the last
inode is not in use and `alloci` never comes to it.** -/
theorem run_lawful_iff (h : Inv s) (as : List Numop) :
    Lawful s as ↔ s.fs.ninode ∉ s.inos ∧ Each step Keeps s as := by
  have hrun : s.fs.ninode ∉ s.inos → (Always step Good s as ↔ Each step Keeps s as) :=
    fun hout => always_iff_each (I := fun s => Inv s ∧ s.fs.ninode ∉ s.inos)
      (fun s hs => hs.1.good_iff.mpr hs.2)
      (fun s a t hs hok ht => ⟨hs.1.step ht, (hs.1.keeps_iff hs.2).mp hok t ht⟩)
      (fun s a hs hall => (hs.1.keeps_iff hs.2).mpr fun t ht =>
        (hs.1.step ht).good_iff.mp (hall t ht)) ⟨h, hout⟩
  constructor
  · rintro ⟨hgood, -⟩
    have hout := h.good_iff.mp hgood.head
    exact ⟨hout, (hrun hout).mp hgood⟩
  · rintro ⟨hout, hkeeps⟩
    have hgood := (hrun hout).mpr hkeeps
    have hinv : Always step Inv s as := always_of_step (fun s a t hs ht => hs.step ht) as h
    exact ⟨hgood, (hinv.and hgood).each fun s a hs => hs.1.right hs.2 a⟩

/-! ### The last inode -/

theorem longs_block : 8192 % 32 = 0 := by decide

/-- A bitmap of one block whose first long is `first`; the others are full. -/
def onelong (first : BitVec 32) : Blockmap where
  nblock := 1
  map _ := Bitmapt.construct (fun j => if j = 0 then first else -1) longs_block
  state _ := BCLEAN

theorem bit_onelong (first : BitVec 32) {k : Nat} (hk : k < 8192) :
    (onelong first).bit k = if k < 32 then first.getLsbD k else true := by
  change tstbit (fun j => if j = 0 then first else -1) (k % 8192) = _
  rw [Nat.mod_eq_of_lt hk, tstbit]
  by_cases hlow : k < 32
  · rw [if_pos (by omega), if_pos hlow, Nat.mod_eq_of_lt hlow]
  · rw [if_neg (by omega), if_neg hlow, show (-1 : BitVec 32) = BitVec.allOnes 32 from rfl,
      BitVec.getLsbD_allOnes]
    exact decide_eq_true (Nat.mod_lt k (by decide))

/-- Three inodes, of which `inos` are in use, and two zones. -/
def threeinodes (first : BitVec 32) (inos : List Nat) : Numbers where
  fs := ⟨3, 10, 8, onelong first, onelong 0xfffffff9⟩
  inos := inos
  bnos := []

theorem inv_threeinodes {first : BitVec 32} {inos : List Nat} (hnodup : inos.Nodup)
    (hin : ∀ ino ∈ inos, 1 ≤ ino ∧ ino ≤ 3 ∧ first.getLsbD ino = true)
    (hzero : first.getLsbD 0 = true) (hend : ∀ k < 32, 3 < k → first.getLsbD k = true) :
    Inv (threeinodes first inos) := by
  have hfull : ∀ (word : BitVec 32) (n : Nat), (∀ k < 32, n < k → word.getLsbD k = true) →
      ∀ k < 1 * 8192, n < k → (onelong word).bit k = true := by
    intro word n hword k hk hlt
    rw [bit_onelong word (by omega)]
    split_ifs with hlow
    · exact hword k hlow hlt
    · rfl
  refine ⟨⟨Nat.lt_of_lt_of_le (show 3 < 4 by decide) (by decide : 4 ≤ 1 * 8192),
      Nat.lt_of_lt_of_le (show 10 - 8 < 4 by decide) (by decide : 4 ≤ 1 * 8192),
      ?_, ?_, hfull first 3 hend, hfull 0xfffffff9 2 (by decide)⟩, hnodup, nodup_nil,
    fun ino h => ?_, fun bno h => by cases h⟩
  · exact (bit_onelong first (by decide)).trans hzero
  · exact (bit_onelong _ (by decide)).trans (by decide)
  · obtain ⟨hlow, hhigh, hbit⟩ := hin ino h
    exact ⟨⟨hlow, hhigh⟩, (bit_onelong first (by omega)).trans
      ((if_pos (by omega)).trans hbit)⟩

/-- With the second inode free `alloci` stops there. -/
theorem second_lawful : Lawful (threeinodes 0xfffffff3 [1]) [.alloci] :=
  (run_lawful_iff (inv_threeinodes (by decide) (by decide) (by decide) (by decide)) _).mpr
    ⟨by decide, .inr ⟨2, by decide, by decide,
      (bit_onelong _ (by decide)).trans (by decide)⟩, fun _ _ => trivial⟩

/-- The third inode is handed out, and `seeki` refuses it. -/
theorem last_refused : ¬ ∀ (s : Numbers) (as : List Numop), Inv s → Lawful s as := by
  intro h
  have hinv : Inv (threeinodes 0xfffffff7 [1, 2]) :=
    inv_threeinodes (by decide) (by decide) (by decide) (by decide)
  have hgood := (h _ [.alloci] hinv).1
  have hkeeps := (hinv.keeps_iff (a := .alloci) (by decide)).mpr fun t ht =>
    (hinv.step ht).good_iff.mp (hgood.2 t ht)
  rcases hkeeps with hset | ⟨ino, hpos, hlt, hclear⟩
  · exact absurd ((bit_onelong 0xfffffff7 (by decide : 3 < 8192)).symm.trans hset) (by decide)
  · have hbit := (bit_onelong 0xfffffff7 (show ino < 8192 from Nat.lt_trans hlt (by decide))).symm.trans
      hclear
    have hall : ∀ ino < 3, 1 ≤ ino →
        ¬ (if ino < 32 then (0xfffffff7 : BitVec 32).getLsbD ino else true) = false := by decide
    exact hall ino hlt hpos hbit

end Numbers

end Unixlite.Fs
