import Unixlite.Fs.Mount
import Unixlite.Verified.Heap

/-!
# Reading a superblock

Port of `freeimap`, `freezmap` and `fs_t::read` of `fs/fs.cc`, and of the constructor, the
destructor and `readfs` of `fs/mount.cc`, with the four arrays of the bitmaps as memory that
is taken from `allockm` and given back to `freekm`; `allockm` has memory left.  An element of
`imapbuf` is the block whose buffer it points at, one of `imap` the block whose data it is
made of.

A read that fails after `allockm` runs `freeimap` on its own, and the destructor runs it
again; and `imap[0]` is set also when there is no `imap[0]`.  Elsewhere everything is given
back once (`readfs_clean_iff`).
-/

namespace Unixlite.Fs

open Verified Verified.Partial
open Bcache (validdev)
open Function (update update_apply update_eq_self update_idem update_of_ne update_self)
open Heap
open Mounts (Pins goodDisk loseopt readb)
open List

/-! ## Data -/

/-- `fs_t`; it lies at `self`, and the arrays at the pointers. -/
structure Fsobj where
  self : Nat
  mount : Option Ref
  root : Option Ref
  nimapblock : Nat
  nzmapblock : Nat
  imapbuf : Option Nat
  imap : Option Nat
  zmapbuf : Option Nat
  zmap : Option Nat

/-- The kernel, with its memory; of `m` there are the inodes and the reference counts of the
buffers, and `fsq` has the pointers. -/
structure Ker where
  m : Mounts
  fsq : Nat → Option Fsobj
  heap : Heap (Option Nat)

namespace Ker

/-- What touches memory. -/
abbrev Touch (α : Type) := Except Fault α

/-! ## The bitmaps -/

/-- `readb(dev, block++, buf + i)` and the bitmap of its data, `n` times. -/
def readmap (disk : Disk) (dev buf map : Nat) : Nat → Nat → Nat → Ker → Touch (Int × Ker)
  | _, _, 0, k => .ok (0, k)
  | block, i, n + 1, k =>
      match k.m.readb disk dev block with
      | .error e => do
          let heap ← k.heap.store buf i none
          .ok (e, { k with heap := heap })
      | .ok m => do
          let heap ← k.heap.store buf i (some block)
          let heap ← heap.store map i (some block)
          readmap disk dev buf map (block + 1) (i + 1) n { k with m := m, heap := heap }

/-- The loop of `freeimap`, and of `freezmap`. -/
def losemap (dev : Nat) (buf : Option Nat) : Nat → Nat → Ker → Touch Ker
  | _, 0, k => .ok k
  | i, n + 1, k =>
      match buf with
      | none => losemap dev buf (i + 1) n k
      | some p => do
          match ← k.heap.load p i with
          | none => losemap dev buf (i + 1) n k
          | some b =>
              let heap ← k.heap.store p i none
              losemap dev buf (i + 1) n { k with m := k.m.loseb dev b, heap := heap }

/-- `if (p) freekm(p)`. -/
def freekm (p : Option Nat) (k : Ker) : Touch Ker :=
  match p with
  | none => .ok k
  | some p => do .ok { k with heap := ← k.heap.free p }

/-- The pointers stay as they are. -/
def freemap (dev n : Nat) (buf map : Option Nat) (k : Ker) : Touch Ker := do
  freekm map (← freekm buf (← losemap dev buf 0 n k))

def freeimap (dev : Nat) (f : Fsobj) (k : Ker) : Touch Ker :=
  freemap dev f.nimapblock f.imapbuf f.imap k

def freezmap (dev : Nat) (f : Fsobj) (k : Ker) : Touch Ker :=
  freemap dev f.nzmapblock f.zmapbuf f.zmap k

/-! ## `fs_t::read` -/

def allockm (n : Nat) (k : Ker) : Nat × Ker :=
  (k.heap.fresh, { k with heap := k.heap.alloc n none })

/-- The four arrays. -/
def allocmaps (f : Fsobj) (k : Ker) : Fsobj × Ker :=
  let (imapbuf, k) := k.allockm f.nimapblock
  let (imap, k) := k.allockm f.nimapblock
  let (zmapbuf, k) := k.allockm f.nzmapblock
  let (zmap, k) := k.allockm f.nzmapblock
  ({ f with imapbuf := imapbuf, imap := imap, zmapbuf := zmapbuf, zmap := zmap }, k)

/-- The loops, with what is freed when a read fails. -/
def loadmaps (disk : Disk) (dev : Nat) (f : Fsobj) (k : Ker) : Touch (Int × Ker) :=
  match f.imapbuf, f.imap, f.zmapbuf, f.zmap with
  | some imapbuf, some imap, some zmapbuf, some zmap => do
      let (e, k) ← readmap disk dev imapbuf imap 2 0 f.nimapblock k
      if e ≠ 0 then .ok (e, ← freeimap dev f k)
      else
        let (e, k) ← readmap disk dev zmapbuf zmap (2 + f.nimapblock) 0 f.nzmapblock k
        if e ≠ 0 then .ok (e, ← freezmap dev f (← freeimap dev f k))
        else
          -- `imap[0].set(0)` and `zmap[0].set(0)`
          let _ ← k.heap.load imap 0
          let _ ← k.heap.load zmap 0
          .ok (0, k)
  | _, _, _, _ => .ok (0, k)

/-- `readi(this, MINIXROOTINO, &root)`. -/
def readroot (disk : Disk) (dev : Nat) (f : Fsobj) (k : Ker) : Int × Fsobj × Ker :=
  match k.m.readroot disk dev with
  | .error e => (e, { f with root := none }, k)
  | .ok m => (0, { f with root := some (dev, MINIXROOTINO) }, { k with m := m })

/-- What is taken from the superblock. -/
def counts (disk : Disk) (f : Fsobj) : Fsobj :=
  { f with nimapblock := disk.super.nimapblock, nzmapblock := disk.super.nzmapblock }

/-- `fs_t::read`. -/
def fsread (disk : Disk) (dev : Nat) (f : Fsobj) (k : Ker) : Touch (Int × Fsobj × Ker) :=
  match k.m.readb disk dev 1 with
  | .error e => .ok (e, f, k)
  | .ok m =>
      let f := counts disk f
      let k := { k with m := m.loseb dev 1 }
      if disk.super.magic ≠ MAGIC then .ok (EINVAL, f, k)
      else if 64 < f.nimapblock ∨ 64 < f.nzmapblock then .ok (ENOMEM, f, k)
      else do
        let (f, k) := k.allocmaps f
        let (e, k) ← loadmaps disk dev f k
        if e ≠ 0 then .ok (e, f, k) else .ok (readroot disk dev f k)

/-! ## `readfs` -/

def setfs (k : Ker) (dev : Nat) (f : Option Fsobj) : Ker :=
  { k with fsq := update k.fsq dev f }

/-- `new fs_t(dev)`; the counts are what the memory had in it. -/
def newfs (junk : Nat × Nat) (dev : Nat) (k : Ker) : Fsobj × Ker :=
  let f : Fsobj :=
    { self := k.heap.fresh, mount := none, root := none,
      nimapblock := junk.1, nzmapblock := junk.2,
      imapbuf := none, imap := none, zmapbuf := none, zmap := none }
  (f, { (k.setfs dev (some f)) with heap := k.heap.alloc 1 none })

/-- `delete fs`. -/
def delete (dev : Nat) (f : Fsobj) (k : Ker) : Touch Ker := do
  let k := k.setfs dev none
  let kern := loseopt (loseopt k.m.kern f.mount) f.root
  let k := { k with m := { k.m with kern := kern } }
  freekm (some f.self) (← freezmap dev f (← freeimap dev f k))

def readfs (junk : Nat × Nat) (disk : Disk) (dev : Nat) (k : Ker) : Touch (Int × Ker) := do
  let (f, k) := match k.fsq dev with
    | some f => (f, k)
    | none => k.newfs junk dev
  let (e, f, k) ← fsread disk dev f k
  if e ≠ 0 then .ok (e, ← delete dev f k) else .ok (0, k.setfs dev (some f))

/-! ## Clean -/

/-- The array has its first `i` elements, for the blocks from `block` on. -/
def Upto (heap : Heap (Option Nat)) (p block size i : Nat) : Prop :=
  ∃ c, heap.cell p = some c ∧ c.size = size ∧ ∀ j < i, c.elem j = some (block + j)

def Filled (heap : Heap (Option Nat)) (p : Option Nat) (block n : Nat) : Prop :=
  ∃ q, p = some q ∧ Upto heap q block n n

/-- A file system is there; the blocks of its bitmaps and its root are held once more, and
nothing else is. -/
structure Loaded (disk : Disk) (dev : Nat) (k k' : Ker) : Prop where
  fsq : ∃ f, k'.fsq = update k.fsq dev (some f) ∧ f.root = some (dev, MINIXROOTINO) ∧
    Filled k'.heap f.imapbuf 2 disk.super.nimapblock ∧
    Filled k'.heap f.imap 2 disk.super.nimapblock ∧
    Filled k'.heap f.zmapbuf (2 + disk.super.nimapblock) disk.super.nzmapblock ∧
    Filled k'.heap f.zmap (2 + disk.super.nimapblock) disk.super.nzmapblock
  bref : ∀ d b, k'.m.bref d b = k.m.bref d b +
    if d = dev ∧ 2 ≤ b ∧ b < 2 + disk.super.nimapblock + disk.super.nzmapblock then 1 else 0
  refcnt : ∀ r, (k'.m.kern.inode r).refcnt = (k.m.kern.inode r).refcnt +
    if r = (dev, MINIXROOTINO) then 1 else 0

/-- Everything is as it was: what has been held is released, and what has been taken is given
back. -/
structure Restored (k k' : Ker) : Prop where
  fsq : k'.fsq = k.fsq
  m : k'.m = k.m
  cell : k'.heap.cell = k.heap.cell

/-- Nothing is touched that is not there, and either everything is there or nothing is. -/
def Clean (disk : Disk) (dev : Nat) (k : Ker) (x : Touch (Int × Ker)) : Prop :=
  Meets (fun r => if r.1 = 0 then Loaded disk dev k r.2 else Restored k r.2) x

/-- The superblock is turned down, or its bitmaps are not empty and can be read. -/
def Fits (disk : Disk) (dev : Nat) : Prop :=
  validdev dev = true → disk.bad 1 = false → disk.super.magic = MAGIC →
    disk.super.nimapblock ≤ 64 → disk.super.nzmapblock ≤ 64 →
      0 < disk.super.nimapblock ∧ 0 < disk.super.nzmapblock ∧
        ∀ i < disk.super.nimapblock + disk.super.nzmapblock, disk.bad (2 + i) = false

variable {disk : Disk} {dev buf map block size n i : Nat} {k k' k₀ : Ker} {e : Int}

/-! ## Reading the bitmaps -/

variable {heap : Heap (Option Nat)} {bno p : Nat} {c : Cell (Option Nat)} {m m' : Mounts}
  {q : Option Nat}

theorem Upto.zero (hc : heap.cell p = some c) (block : Nat) : Upto heap p block c.size 0 :=
  ⟨c, hc, rfl, fun _ hj => absurd hj (Nat.not_lt_zero _)⟩

/-- One more element. -/
theorem Upto.store (h : Upto heap p block size i) (hi : i < size) :
    ∃ heap', heap.store p i (some (block + i)) = .ok heap' ∧ heap'.fresh = heap.fresh ∧
      (∀ q, q ≠ p → heap'.cell q = heap.cell q) ∧ Upto heap' p block size (i + 1) := by
  obtain ⟨c, hc, hsize, helem⟩ := h
  obtain ⟨heap', hstore, hfresh, hcell⟩ :=
    store_ok hc (i := i) (by omega) (some (block + i))
  refine ⟨heap', hstore, hfresh, ?_, ?_⟩
  · intro q hq
    rw [hcell, update_of_ne hq]
  · refine ⟨⟨c.size, update c.elem i (some (block + i))⟩, ?_, hsize, ?_⟩
    · rw [hcell, update_self]
    intro j hj
    by_cases hji : j = i
    · rw [hji]
      exact update_self ..
    · rw [← helem j (by omega)]
      exact update_of_ne hji ..

theorem Upto.congr {heap' : Heap (Option Nat)} (h : Upto heap p block size i)
    (hcell : heap'.cell p = heap.cell p) : Upto heap' p block size i := by
  obtain ⟨c, hc, hrest⟩ := h
  exact ⟨c, hcell.trans hc, hrest⟩

/-- The loop before its turn `i`; it has begun at `k₀`. -/
structure Loading (dev buf map block size : Nat) (k₀ : Ker) (i : Nat) (k : Ker) : Prop where
  pins : Pins k₀.m k.m dev (List.range' block i)
  fsq : k.fsq = k₀.fsq
  fresh : k.heap.fresh = k₀.heap.fresh
  cell : ∀ q, q ≠ buf → q ≠ map → k.heap.cell q = k₀.heap.cell q
  buf : Upto k.heap buf block size i
  map : Upto k.heap map block size i

theorem Loading.start {c' : Cell (Option Nat)} (hbuf : k.heap.cell buf = some c)
    (hmap : k.heap.cell map = some c') (hsize : c.size = size) (hsize' : c'.size = size) :
    Loading dev buf map block size k 0 k where
  pins := Pins.refl k.m dev
  fsq := rfl
  fresh := rfl
  cell := fun _ _ _ => rfl
  buf := hsize ▸ Upto.zero hbuf block
  map := hsize' ▸ Upto.zero hmap block

theorem readb_good (m : Mounts) (hdev : validdev dev = true)
    (hgood : disk.bad bno = false) : ∃ m', m.readb disk dev bno = .ok m' := by
  unfold readb
  rw [hdev, hgood]
  exact ⟨_, rfl⟩

theorem readb_fine (hread : m.readb disk dev bno = .ok m') : disk.bad bno = false := by
  unfold readb at hread
  split_ifs at hread with hdev hbad
  exact Bool.eq_false_iff.mpr hbad

theorem readb_valid (hread : m.readb disk dev bno = .ok m') : validdev dev = true := by
  unfold readb at hread
  by_contra hdev
  rw [Bool.not_eq_true] at hdev
  rw [hdev] at hread
  cases hread

theorem Loading.readmap (disk : Disk) (hne : buf ≠ map) (hdev : validdev dev = true)
    (hgood : ∀ j < size, disk.bad (block + j) = false) (hn : i + n = size)
    (h : Loading dev buf map block size k₀ i k) :
    ∃ k', Ker.readmap disk dev buf map (block + i) i n k = .ok (0, k') ∧
      Loading dev buf map block size k₀ size k' := by
  induction n generalizing i k with
  | zero =>
      exact ⟨k, rfl, hn ▸ h⟩
  | succ n ih =>
      obtain ⟨m, hread⟩ := readb_good k.m hdev (hgood i (by omega))
      obtain ⟨heap₁, hstore₁, hfresh₁, hcell₁, hbuf₁⟩ := h.buf.store (by omega)
      obtain ⟨heap₂, hstore₂, hfresh₂, hcell₂, hmap₂⟩ :=
        (h.map.congr (hcell₁ map hne.symm)).store (by omega)
      have hnext : Loading dev buf map block size k₀ (i + 1)
          { k with m := m, heap := heap₂ } := by
        refine ⟨?_, h.fsq, ?_, ?_, hbuf₁.congr (hcell₂ buf hne), hmap₂⟩
        · refine (h.pins.readb hread).perm ?_
          rw [List.range'_1_concat]
          exact (perm_append_singleton _ _).symm
        · exact (hfresh₂.trans hfresh₁).trans h.fresh
        · intro q hbuf hmap
          exact ((hcell₂ q hmap).trans (hcell₁ q hbuf)).trans (h.cell q hbuf hmap)
      obtain ⟨k', hrun, hdone⟩ := ih (by omega) hnext
      refine ⟨k', ?_, hdone⟩
      rw [Ker.readmap, hread]
      dsimp only
      rw [hstore₁, ok_bind, hstore₂, ok_bind]
      exact hrun

/-! ## Giving the bitmaps back -/

/-- The loop before its turn `i`; the blocks from there on are held yet. -/
structure Losing (m : Mounts) (dev buf block size : Nat) (held : List Nat) (k₀ : Ker) (i : Nat)
    (k : Ker) : Prop where
  pins : Pins m k.m dev (List.range' (block + i) (size - i) ++ held)
  fsq : k.fsq = k₀.fsq
  fresh : k.heap.fresh = k₀.heap.fresh
  cell : ∀ q, q ≠ buf → k.heap.cell q = k₀.heap.cell q
  buf : ∃ c, k.heap.cell buf = some c ∧ c.size = size ∧
    ∀ j, i ≤ j → j < size → c.elem j = some (block + j)

theorem Losing.losemap {held : List Nat} (hn : i + n = size)
    (h : Losing m dev buf block size held k₀ i k) :
    ∃ k', Ker.losemap dev (some buf) i n k = .ok k' ∧
      Losing m dev buf block size held k₀ size k' := by
  induction n generalizing i k with
  | zero =>
      exact ⟨k, rfl, hn ▸ h⟩
  | succ n ih =>
      obtain ⟨c, hc, hsize, helem⟩ := h.buf
      have hload : k.heap.load buf i = .ok (some (block + i)) := by
        rw [load_eq hc (by omega), helem i (Nat.le_refl i) (by omega)]
      obtain ⟨heap, hstore, hfresh, hcell⟩ := store_ok hc (i := i) (by omega) none
      have hnext : Losing m dev buf block size held k₀ (i + 1)
          { k with m := k.m.loseb dev (block + i), heap := heap } := by
        refine ⟨?_, h.fsq, hfresh.trans h.fresh, ?_, ?_⟩
        · have hpins := h.pins
          rw [show size - i = (size - (i + 1)) + 1 by omega, List.range'_succ] at hpins
          exact hpins.loseb
        · intro q hq
          rw [hcell, update_of_ne hq]
          exact h.cell q hq
        · refine ⟨⟨c.size, update c.elem i none⟩, ?_, hsize, ?_⟩
          · dsimp only
            rw [hcell, update_self]
          intro j hij hj
          dsimp only
          rw [update_of_ne (by omega)]
          exact helem j (by omega) hj
      obtain ⟨k', hrun, hdone⟩ := ih (by omega) hnext
      refine ⟨k', ?_, hdone⟩
      rw [Ker.losemap, hload, ok_bind]
      dsimp only
      rw [hstore, ok_bind]
      exact hrun

theorem losemap_none (dev n : Nat) : ∀ i (k : Ker), losemap dev none i n k = .ok k := by
  induction n with
  | zero => exact fun _ _ => rfl
  | succ n ih => exact fun i k => ih (i + 1) k

/-- What has never been allocated is not freed. -/
theorem freemap_none (dev n : Nat) (k : Ker) : freemap dev n none none k = .ok k := by
  rw [freemap, losemap_none]
  rfl

theorem freekm_some (hc : k.heap.cell p = some c) :
    ∃ k', freekm (some p) k = .ok k' ∧ k'.m = k.m ∧ k'.fsq = k.fsq ∧
      k'.heap.cell = update k.heap.cell p none := by
  obtain ⟨heap, hfree, -, hcell⟩ := free_ok hc
  refine ⟨{ k with heap := heap }, ?_, rfl, rfl, hcell⟩
  rw [freekm, hfree, ok_bind]

/-- A bitmap that has been loaded is given back. -/
theorem freemap_upto {held : List Nat} (hne : buf ≠ map)
    (hbuf : Upto k.heap buf block size size) (hmap : Upto k.heap map block size size)
    (hpins : Pins m k.m dev (List.range' block size ++ held)) :
    ∃ k', freemap dev size (some buf) (some map) k = .ok k' ∧ Pins m k'.m dev held ∧
      k'.fsq = k.fsq ∧
      k'.heap.cell = update (update k.heap.cell buf none) map none := by
  obtain ⟨c, hc, hsize, helem⟩ := hbuf
  obtain ⟨c', hc', -⟩ := hmap
  have hstart : Losing m dev buf block size held k 0 k :=
    ⟨by rwa [Nat.add_zero, Nat.sub_zero], rfl, rfl, fun _ _ => rfl, c, hc, hsize,
      fun j _ hj => helem j hj⟩
  obtain ⟨k₁, hlose, hlost⟩ := hstart.losemap (Nat.zero_add size)
  obtain ⟨c₁, hc₁, -⟩ := hlost.buf
  obtain ⟨k₂, hfree₂, hm₂, hfsq₂, hcell₂⟩ := freekm_some hc₁
  have hmap₂ : k₂.heap.cell map = some c' := by
    rw [hcell₂, update_of_ne hne.symm, hlost.cell map hne.symm, hc']
  obtain ⟨k₃, hfree₃, hm₃, hfsq₃, hcell₃⟩ := freekm_some hmap₂
  refine ⟨k₃, ?_, ?_, ?_, ?_⟩
  · rw [freemap, hlose, ok_bind, hfree₂, ok_bind, hfree₃]
  · have hdone := hlost.pins
    rw [Nat.sub_self] at hdone
    rw [hm₃, hm₂]
    exact hdone
  · rw [hfsq₃, hfsq₂, hlost.fsq]
  · funext q
    rw [hcell₃]
    by_cases hqm : q = map
    · rw [hqm, update_self, update_self]
    rw [update_of_ne hqm, update_of_ne hqm, hcell₂]
    by_cases hqb : q = buf
    · rw [hqb, update_self, update_self]
    rw [update_of_ne hqb, update_of_ne hqb]
    exact hlost.cell q hqb

/-! ## What a run without a fault says -/

/-- The loop writes into arrays that are there, and comes to its end when every block can be
read. -/
theorem readmap_eq (disk : Disk) (dev buf map : Nat) : ∀ (n block i : Nat) {k k' : Ker},
    readmap disk dev buf map block i n k = .ok (e, k') →
      (∀ q, k'.heap.size q = k.heap.size q) ∧ (e = 0 → ∀ j < n, disk.bad (block + j) = false)
  | 0, _, _, k, k', hrun => by
      cases hrun
      exact ⟨fun _ => rfl, fun _ j hj => absurd hj (Nat.not_lt_zero j)⟩
  | n + 1, block, i, k, k', hrun => by
      rw [readmap] at hrun
      cases hread : k.m.readb disk dev block with
      | error e' =>
          rw [hread] at hrun
          obtain ⟨heap, hstore, hend⟩ := bind_ok hrun
          cases hend
          exact ⟨size_store hstore, fun he => absurd he (Mounts.readb_error hread)⟩
      | ok m =>
          rw [hread] at hrun
          obtain ⟨heap₁, hstore₁, hrun⟩ := bind_ok hrun
          obtain ⟨heap₂, hstore₂, hrun⟩ := bind_ok hrun
          obtain ⟨hsize, hgood⟩ := readmap_eq disk dev buf map n (block + 1) (i + 1) hrun
          refine ⟨fun q => ?_, fun he j hj => ?_⟩
          · rw [hsize, size_store hstore₂, size_store hstore₁]
          · cases j with
            | zero => exact readb_fine hread
            | succ j =>
                have := hgood he j (by omega)
                rwa [Nat.add_assoc, Nat.add_comm 1 j] at this

theorem losemap_size {p : Option Nat} (q : Nat) : ∀ (n i : Nat) {k k' : Ker},
    losemap dev p i n k = .ok k' → k'.heap.size q = k.heap.size q
  | 0, _, _, _, hrun => by
      cases hrun
      rfl
  | n + 1, i, k, k', hrun => by
      cases p with
      | none => exact losemap_size q n (i + 1) hrun
      | some p =>
          obtain ⟨x, hload, hrun⟩ := bind_ok hrun
          cases x with
          | none => exact losemap_size q n (i + 1) hrun
          | some b =>
              obtain ⟨heap, hstore, hrun⟩ := bind_ok hrun
              rw [losemap_size q n (i + 1) hrun]
              exact size_store hstore q

/-- What is not there is not there after a `freekm`. -/
theorem freekm_gone {p : Option Nat} {q : Nat} (hq : k.heap.size q = none)
    (hrun : freekm p k = .ok k') : k'.heap.size q = none := by
  cases p with
  | none =>
      cases hrun
      exact hq
  | some p =>
      obtain ⟨heap, hfree, hend⟩ := bind_ok hrun
      cases hend
      exact size_free_none hq hfree

theorem freemap_parts {p : Option Nat} (hrun : freemap dev n p q k = .ok k') :
    ∃ k₁ k₂, losemap dev p 0 n k = .ok k₁ ∧ freekm p k₁ = .ok k₂ ∧ freekm q k₂ = .ok k' := by
  obtain ⟨k₁, hlose, hrun⟩ := bind_ok hrun
  obtain ⟨k₂, hbuf, hmap⟩ := bind_ok hrun
  exact ⟨k₁, k₂, hlose, hbuf, hmap⟩

/-- The array of the buffers is not there after `freeimap`, -/
theorem freemap_freed (hrun : freemap dev n (some buf) q k = .ok k') : k'.heap.size buf = none := by
  obtain ⟨k₁, k₂, -, hbuf, hmap⟩ := freemap_parts hrun
  refine freekm_gone ?_ hmap
  obtain ⟨heap, hfree, hend⟩ := bind_ok hbuf
  cases hend
  exact size_free_self hfree

theorem freemap_gone {p : Option Nat} {r : Nat} (hr : k.heap.size r = none)
    (hrun : freemap dev n p q k = .ok k') : k'.heap.size r = none := by
  obtain ⟨k₁, k₂, hlose, hbuf, hmap⟩ := freemap_parts hrun
  refine freekm_gone (freekm_gone ?_ hbuf) hmap
  rwa [losemap_size r n 0 hlose]

/-- so that `freeimap` does not come through again. -/
theorem freemap_again (hgone : k.heap.size buf = none) : freemap dev n (some buf) q k ≠ .ok k' := by
  intro hrun
  obtain ⟨k₁, k₂, hlose, hbuf, -⟩ := freemap_parts hrun
  obtain ⟨heap, hfree, -⟩ := bind_ok hbuf
  refine free_freed ?_ hfree
  rwa [losemap_size buf n 0 hlose]

/-! ## The arrays -/

/-- The four arrays of `f` lie from `p` on, and the memory below `p` is that of `heap`. -/
structure Arrays (f : Fsobj) (p : Nat) (heap heap' : Heap (Option Nat)) : Prop where
  imapbuf : f.imapbuf = some p
  imap : f.imap = some (p + 1)
  zmapbuf : f.zmapbuf = some (p + 2)
  zmap : f.zmap = some (p + 3)
  cell : ∀ q, q < p ∨ p + 4 ≤ q → heap'.cell q = heap.cell q

/-- What `allocmaps` gives: the arrays, none of whose elements is anything yet. -/
theorem allocmaps_arrays (f : Fsobj) (k : Ker) :
    ∃ f' heap, k.allocmaps f = (f', { k with heap := heap }) ∧
      f' = { f with imapbuf := f'.imapbuf, imap := f'.imap, zmapbuf := f'.zmapbuf,
                    zmap := f'.zmap } ∧
      Arrays f' k.heap.fresh k.heap heap ∧
      (∀ j < 2, heap.cell (k.heap.fresh + j) = some ⟨f.nimapblock, fun _ => none⟩) ∧
      ∀ j < 2, heap.cell (k.heap.fresh + 2 + j) = some ⟨f.nzmapblock, fun _ => none⟩ := by
  let a := k.heap.alloc f.nimapblock none
  let b := a.alloc f.nimapblock none
  let c := b.alloc f.nzmapblock none
  let d := c.alloc f.nzmapblock none
  have hcell : ∀ q, d.cell q =
      if q = k.heap.fresh + 3 then some ⟨f.nzmapblock, fun _ => none⟩
      else if q = k.heap.fresh + 2 then some ⟨f.nzmapblock, fun _ => none⟩
      else if q = k.heap.fresh + 1 then some ⟨f.nimapblock, fun _ => none⟩
      else if q = k.heap.fresh then some ⟨f.nimapblock, fun _ => none⟩ else k.heap.cell q := by
    intro q
    simp only [d, c, b, a, cell_alloc, fresh_alloc, update_apply]
  refine ⟨_, d, rfl, rfl, ⟨rfl, rfl, rfl, rfl, ?_⟩, ?_, ?_⟩
  · intro q hq
    rw [hcell, if_neg (by omega), if_neg (by omega), if_neg (by omega), if_neg (by omega)]
  · intro j hj
    rw [hcell, if_neg (by omega), if_neg (by omega)]
    by_cases hj1 : j = 1
    · rw [if_pos (by omega)]
    · rw [if_neg (by omega), if_pos (by omega)]
  · intro j hj
    rw [hcell]
    by_cases hj1 : j = 1
    · rw [if_pos (by omega)]
    · rw [if_neg (by omega), if_pos (by omega)]

/-- The bitmaps of `f` are loaded; their blocks are what is held beyond `m`. -/
structure Full (dev : Nat) (f : Fsobj) (p : Nat) (heap : Heap (Option Nat))
    (m : Mounts) (k : Ker) : Prop extends Arrays f p heap k.heap where
  pins : Pins m k.m dev (List.range' 2 f.nimapblock ++
    List.range' (2 + f.nimapblock) f.nzmapblock)
  uptoi : ∀ j < 2, Upto k.heap (p + j) 2 f.nimapblock f.nimapblock
  uptoz : ∀ j < 2, Upto k.heap (p + 2 + j) (2 + f.nimapblock) f.nzmapblock f.nzmapblock

variable {f : Fsobj} {p : Nat} {heap : Heap (Option Nat)} {m : Mounts}

theorem Full.setroot (h : Full dev f p heap m k) (root : Option Ref) :
    Full dev { f with root := root } p heap m k := { h with }

theorem loadmaps_full (disk : Disk) (dev : Nat) (harr : Arrays f p heap k.heap)
    (hi : ∀ j < 2, k.heap.cell (p + j) = some ⟨f.nimapblock, fun _ => none⟩)
    (hz : ∀ j < 2, k.heap.cell (p + 2 + j) = some ⟨f.nzmapblock, fun _ => none⟩)
    (hdev : validdev dev = true) (hpos : 0 < f.nimapblock ∧ 0 < f.nzmapblock)
    (hgood : ∀ j < f.nimapblock + f.nzmapblock, disk.bad (2 + j) = false) :
    ∃ k', loadmaps disk dev f k = .ok (0, k') ∧ k'.fsq = k.fsq ∧ Full dev f p heap k.m k' := by
  have hloadi : Loading dev p (p + 1) 2 f.nimapblock k 0 k :=
    .start (hi 0 (by omega)) (hi 1 (by omega)) rfl rfl
  obtain ⟨k₁, hrun₁, h₁⟩ := hloadi.readmap (n := f.nimapblock) disk (by omega) hdev
    (fun j hj => hgood j (by omega)) (by omega)
  have hcell₁ : ∀ j < 2, k₁.heap.cell (p + 2 + j) = some ⟨f.nzmapblock, fun _ => none⟩ := by
    intro j hj
    rw [h₁.cell _ (by omega) (by omega)]
    exact hz j hj
  have hloadz : Loading dev (p + 2) (p + 3) (2 + f.nimapblock) f.nzmapblock k₁ 0 k₁ :=
    .start (hcell₁ 0 (by omega)) (hcell₁ 1 (by omega)) rfl rfl
  obtain ⟨k₂, hrun₂, h₂⟩ := hloadz.readmap (n := f.nzmapblock) disk (by omega) hdev
    (fun j hj => by rw [Nat.add_assoc]; exact hgood _ (by omega)) (by omega)
  have huptoi : ∀ j < 2, Upto k₂.heap (p + j) 2 f.nimapblock f.nimapblock := by
    intro j hj
    have hj' : j = 0 ∨ j = 1 := by omega
    rcases hj' with rfl | rfl
    · exact h₁.buf.congr (h₂.cell _ (by omega) (by omega))
    · exact h₁.map.congr (h₂.cell _ (by omega) (by omega))
  have huptoz : ∀ j < 2,
      Upto k₂.heap (p + 2 + j) (2 + f.nimapblock) f.nzmapblock f.nzmapblock := by
    intro j hj
    have hj' : j = 0 ∨ j = 1 := by omega
    rcases hj' with rfl | rfl
    · exact h₂.buf
    · exact h₂.map
  have hfull : Full dev f p heap k.m k₂ :=
    { harr with
      cell := fun q hq => by
        rw [h₂.cell q (by omega) (by omega), h₁.cell q (by omega) (by omega), harr.cell q hq]
      pins := (h₁.pins.trans h₂.pins).perm perm_append_comm
      uptoi := huptoi
      uptoz := huptoz }
  refine ⟨k₂, ?_, h₂.fsq.trans h₁.fsq, hfull⟩
  simp only [Nat.add_zero] at hrun₁ hrun₂
  obtain ⟨c, hc, hsize, -⟩ := huptoi 1 (by omega)
  obtain ⟨c', hc', hsize', -⟩ := huptoz 1 (by omega)
  unfold loadmaps
  rw [harr.imapbuf, harr.imap, harr.zmapbuf, harr.zmap]
  dsimp only
  rw [hrun₁, ok_bind]
  rw [if_neg (not_not.mpr rfl), hrun₂, ok_bind]
  rw [if_neg (not_not.mpr rfl), load_eq hc (by omega), ok_bind,
    load_eq hc' (by omega), ok_bind]

/-- The destructor of a file system whose root has not been read. -/
theorem delete_full (hfull : Full dev f p heap m k)
    (hself : heap.cell f.self = some c) (hlt : f.self < p) (hmount : f.mount = none)
    (hroot : f.root = none) :
    ∃ k', delete dev f k = .ok k' ∧ Pins m k'.m dev [] ∧
      k'.fsq = update k.fsq dev none ∧
      ∀ q, k'.heap.cell q = if q = f.self ∨ p ≤ q ∧ q < p + 4 then none else heap.cell q := by
  have hfreei : ∃ k₁, freeimap dev f (k.setfs dev none) = .ok k₁ ∧
      Pins m k₁.m dev (List.range' (2 + f.nimapblock) f.nzmapblock) ∧
      k₁.fsq = update k.fsq dev none ∧ k₁.heap.cell =
        update (update k.heap.cell p none) (p + 1) none := by
    unfold freeimap
    rw [hfull.imapbuf, hfull.imap]
    exact freemap_upto (k := k.setfs dev none) (by omega) (hfull.uptoi 0 (by omega))
      (hfull.uptoi 1 (by omega)) hfull.pins
  obtain ⟨k₁, hrun₁, hpins₁, hfsq₁, hcell₁⟩ := hfreei
  have hkeep : ∀ j < 2, k₁.heap.cell (p + 2 + j) = k.heap.cell (p + 2 + j) := by
    intro j hj
    rw [hcell₁, update_of_ne (by omega), update_of_ne (by omega)]
  have hfreez : ∃ k₂, freezmap dev f k₁ = .ok k₂ ∧ Pins m k₂.m dev [] ∧
      k₂.fsq = k₁.fsq ∧ k₂.heap.cell =
        update (update k₁.heap.cell (p + 2) none) (p + 3) none := by
    unfold freezmap
    rw [hfull.zmapbuf, hfull.zmap]
    refine freemap_upto (by omega) ((hfull.uptoz 0 (by omega)).congr (hkeep 0 (by omega)))
      ((hfull.uptoz 1 (by omega)).congr (hkeep 1 (by omega))) ?_
    rwa [append_nil]
  obtain ⟨k₂, hrun₂, hpins₂, hfsq₂, hcell₂⟩ := hfreez
  have hcell : ∀ q, q < p ∨ p + 4 ≤ q → k₂.heap.cell q = heap.cell q := by
    intro q hq
    rw [hcell₂, update_of_ne (by omega), update_of_ne (by omega), hcell₁,
      update_of_ne (by omega), update_of_ne (by omega)]
    exact hfull.cell q hq
  obtain ⟨k₃, hrun₃, hm₃, hfsq₃, hcell₃⟩ :=
    freekm_some ((hcell f.self (.inl hlt)).trans hself)
  refine ⟨k₃, ?_, hm₃ ▸ hpins₂, by rw [hfsq₃, hfsq₂, hfsq₁], ?_⟩
  · unfold delete
    rw [hmount, hroot]
    dsimp only [loseopt]
    rw [hrun₁, ok_bind, hrun₂, ok_bind, hrun₃]
  · intro q
    rw [hcell₃]
    by_cases hqs : q = f.self
    · rw [if_pos (.inl hqs), hqs, update_self]
    rw [update_of_ne hqs]
    by_cases hq : p ≤ q ∧ q < p + 4
    · rw [if_pos (.inr hq), hcell₂, hcell₁]
      simp only [update_apply]
      split_ifs <;> first | rfl | omega
    · rw [if_neg (by tauto)]
      exact hcell q (by omega)

/-! ## The superblock -/

/-- The superblock is taken. -/
structure Passes (disk : Disk) (dev : Nat) : Prop where
  dev : validdev dev = true
  one : disk.bad 1 = false
  magic : disk.super.magic = MAGIC
  nimapblock : disk.super.nimapblock ≤ 64
  nzmapblock : disk.super.nzmapblock ≤ 64

theorem fits_iff : Fits disk dev ↔ (Passes disk dev →
    (0 < disk.super.nimapblock ∧ 0 < disk.super.nzmapblock) ∧
      ∀ i < disk.super.nimapblock + disk.super.nzmapblock, disk.bad (2 + i) = false) := by
  constructor
  · intro h hp
    obtain ⟨hi, hz, hgood⟩ := h hp.dev hp.one hp.magic hp.nimapblock hp.nzmapblock
    exact ⟨⟨hi, hz⟩, hgood⟩
  · intro h hdev hone hmagic hi hz
    obtain ⟨⟨hi', hz'⟩, hgood⟩ := h ⟨hdev, hone, hmagic, hi, hz⟩
    exact ⟨hi', hz', hgood⟩

/-- Reading the superblock leaves its buffer as it was. -/
theorem readsuper (m : Mounts) (hp : Passes disk dev) :
    ∃ m', m.readb disk dev 1 = .ok m' ∧ m'.loseb dev 1 = m := by
  obtain ⟨m', hread⟩ := readb_good m hp.dev hp.one
  exact ⟨m', hread, (((Pins.refl m dev).readb hread).loseb).eq⟩

theorem fsread_passes (f : Fsobj) (k : Ker) (hp : Passes disk dev) :
    fsread disk dev f k = (do
      let (f, k) := k.allocmaps (counts disk f)
      let (e, k) ← loadmaps disk dev f k
      if e ≠ 0 then .ok (e, f, k) else .ok (readroot disk dev f k)) := by
  obtain ⟨m', hread, hlose⟩ := readsuper k.m hp
  unfold fsread
  rw [hread]
  dsimp only
  rw [hlose, if_neg (not_not.mpr hp.magic),
    if_neg (by simp only [counts, not_or, not_lt]; exact ⟨hp.nimapblock, hp.nzmapblock⟩)]

/-- A superblock that is turned down. -/
theorem fsread_fails (f : Fsobj) (k : Ker) (hp : ¬ Passes disk dev) :
    ∃ e f', fsread disk dev f k = .ok (e, f', k) ∧ e ≠ 0 ∧
      f' = { f with nimapblock := f'.nimapblock, nzmapblock := f'.nzmapblock } := by
  unfold fsread
  cases hread : k.m.readb disk dev 1 with
  | error e => exact ⟨e, f, rfl, Mounts.readb_error hread, rfl⟩
  | ok m' =>
      have hlose : m'.loseb dev 1 = k.m :=
        (((Pins.refl k.m dev).readb hread).loseb).eq
      dsimp only
      rw [hlose]
      by_cases hmagic : disk.super.magic ≠ MAGIC
      · exact ⟨EINVAL, counts disk f, if_pos hmagic, by decide, rfl⟩
      · rw [if_neg hmagic]
        refine ⟨ENOMEM, counts disk f, if_pos ?_, by decide, rfl⟩
        by_contra hsmall
        rw [not_or, not_lt, not_lt] at hsmall
        exact hp ⟨readb_valid hread, readb_fine hread, not_not.mp hmagic, hsmall.1, hsmall.2⟩

/-! ## `readfs` -/

theorem readfs_new (junk : Nat × Nat) (disk : Disk) (hnew : k.fsq dev = none) :
    readfs junk disk dev k = (do
      let (e, f, k) ← fsread disk dev (k.newfs junk dev).1 (k.newfs junk dev).2
      if e ≠ 0 then .ok (e, ← delete dev f k) else .ok (0, k.setfs dev (some f))) := by
  rw [readfs, hnew]

/-- A superblock that is turned down leaves nothing behind. -/
theorem readfs_fails (junk : Nat × Nat) (hnew : k.fsq dev = none) (hp : ¬ Passes disk dev) :
    Clean disk dev k (readfs junk disk dev k) := by
  obtain ⟨e, f', hrun, he, hf'⟩ :=
    fsread_fails (k.newfs junk dev).1 (k.newfs junk dev).2 hp
  have hself : (k.newfs junk dev).2.heap.cell k.heap.fresh = some ⟨1, fun _ => none⟩ :=
    update_self ..
  obtain ⟨k', hfree, hm, hfsq, hcell⟩ :=
    freekm_some (k := (k.newfs junk dev).2.setfs dev none) hself
  have hdelete : delete dev f' (k.newfs junk dev).2 = .ok k' := by
    rw [hf']
    unfold delete freeimap freezmap
    dsimp only [newfs]
    rw [freemap_none, ok_bind, freemap_none, ok_bind]
    exact hfree
  rw [readfs_new junk disk hnew, hrun, ok_bind]
  dsimp only
  rw [if_pos he, hdelete, ok_bind]
  refine meets_ok.mpr ?_
  rw [if_neg he]
  refine ⟨?_, hm, ?_⟩
  · rw [hfsq]
    funext d
    by_cases hd : d = dev
    · rw [hd, hnew]
      exact update_self ..
    · exact (update_of_ne hd ..).trans (update_of_ne hd ..)
  · rw [hcell]
    funext q
    by_cases hq : q = k.heap.fresh
    · rw [hq, update_self, k.heap.unused _ (Nat.le_refl _)]
    · rw [update_of_ne hq]
      exact update_of_ne hq ..

theorem readroot_ok (hroot : m.readroot disk dev = .ok m') :
    m'.bref = m.bref ∧ ∀ r, (m'.kern.inode r).refcnt = (m.kern.inode r).refcnt +
      if r = (dev, MINIXROOTINO) then 1 else 0 := by
  unfold Mounts.readroot at hroot
  cases hread : (m.kern.world.vol dev).readi MINIXROOTINO with
  | error e =>
      rw [hread] at hroot
      cases hroot
  | ok v =>
      rw [hread] at hroot
      split_ifs at hroot
      cases hroot
      refine ⟨rfl, fun r => ?_⟩
      have hheld := ((Kernel.Holds.refl m.kern).readi hread).refcnt r
      rw [hheld, count_singleton]
      by_cases hr : r = (dev, MINIXROOTINO)
      · rw [if_pos hr, hr, beq_self_eq_true, if_pos rfl]
      · rw [if_neg hr, if_neg (by simpa using fun h => hr h.symm)]

/-- The blocks from `2` on. -/
theorem count_blocks (b ni nz : Nat) :
    (List.range' 2 ni ++ List.range' (2 + ni) nz).count b =
      if 2 ≤ b ∧ b < 2 + ni + nz then 1 else 0 := by
  rw [List.range'_append_1, count_range_1', Nat.add_assoc]

/-- Up to the root, when everything can be read. -/
theorem fsread_full (junk : Nat × Nat) (k : Ker) (hp : Passes disk dev)
    (hpos : 0 < disk.super.nimapblock ∧ 0 < disk.super.nzmapblock)
    (hgood : ∀ i < disk.super.nimapblock + disk.super.nzmapblock, disk.bad (2 + i) = false) :
    ∃ f k', fsread disk dev (k.newfs junk dev).1 (k.newfs junk dev).2 =
        .ok (readroot disk dev f k') ∧
      f = { counts disk (k.newfs junk dev).1 with
        imapbuf := f.imapbuf, imap := f.imap, zmapbuf := f.zmapbuf, zmap := f.zmap } ∧
      k'.fsq = update k.fsq dev (some (k.newfs junk dev).1) ∧
      Full dev f (k.heap.fresh + 1) (k.heap.alloc 1 none) k.m k' := by
  obtain ⟨f, heap, halloc, hf, harr, hi, hz⟩ :=
    allocmaps_arrays (counts disk (k.newfs junk dev).1) (k.newfs junk dev).2
  have hni : f.nimapblock = disk.super.nimapblock := by
    rw [hf]
    rfl
  have hnz : f.nzmapblock = disk.super.nzmapblock := by
    rw [hf]
    rfl
  obtain ⟨k', hload, hfsq, hfull⟩ := loadmaps_full
    (k := { (k.newfs junk dev).2 with heap := heap }) disk dev harr (by rw [hni]; exact hi)
    (by rw [hnz]; exact hz) hp.dev (by rwa [hni, hnz]) (by rwa [hni, hnz])
  refine ⟨f, k', ?_, hf, hfsq, hfull⟩
  rw [fsread_passes _ _ hp, halloc]
  dsimp only
  rw [hload, ok_bind]
  exact if_neg (not_not.mpr rfl)

theorem readfs_passes (junk : Nat × Nat) (hnew : k.fsq dev = none) (hp : Passes disk dev)
    (hpos : 0 < disk.super.nimapblock ∧ 0 < disk.super.nzmapblock)
    (hgood : ∀ i < disk.super.nimapblock + disk.super.nzmapblock, disk.bad (2 + i) = false) :
    Clean disk dev k (readfs junk disk dev k) := by
  obtain ⟨f, k', hrun, hf, hfsq, hfull⟩ := fsread_full junk k hp hpos hgood
  have hself : f.self = k.heap.fresh := by rw [hf]; rfl
  have hmount : f.mount = none := by rw [hf]; rfl
  have hni : f.nimapblock = disk.super.nimapblock := by rw [hf]; rfl
  have hnz : f.nzmapblock = disk.super.nzmapblock := by rw [hf]; rfl
  have hforget : ∀ x, update k'.fsq dev x = update k.fsq dev x := by
    intro x
    rw [hfsq, update_idem]
  rw [readfs_new junk disk hnew, hrun, ok_bind, readroot]
  cases hroot : k'.m.readroot disk dev with
  | error e =>
      have he := Mounts.readroot_error hroot
      have hlive : (k.heap.alloc 1 none).cell f.self = some ⟨1, fun _ => none⟩ := by
        rw [hself]
        exact update_self ..
      obtain ⟨k'', hdelete, hback, hfsq', hcell⟩ :=
        delete_full (hfull.setroot none) hlive (by rw [hself]; exact Nat.lt_succ_self _)
          hmount rfl
      dsimp only
      rw [if_pos he, hdelete, ok_bind]
      refine meets_ok.mpr ?_
      rw [if_neg he]
      refine ⟨?_, hback.eq, ?_⟩
      · rw [hfsq', hforget, ← hnew, update_eq_self]
      · funext q
        rw [hcell, hself, cell_alloc, update_apply]
        by_cases hq : q < k.heap.fresh
        · rw [if_neg (by omega), if_neg (by omega)]
        · rw [k.heap.unused q (by omega)]
          split_ifs <;> first | rfl | omega
  | ok m' =>
      obtain ⟨hbref, hrefcnt⟩ := readroot_ok hroot
      refine meets_ok.mpr ?_
      refine ⟨⟨{ f with root := some (dev, MINIXROOTINO) }, hforget _, rfl, ?_⟩, ?_, ?_⟩
      · rw [← hni, ← hnz]
        exact ⟨⟨_, hfull.imapbuf, hfull.uptoi 0 (by omega)⟩,
          ⟨_, hfull.imap, hfull.uptoi 1 (by omega)⟩,
          ⟨_, hfull.zmapbuf, hfull.uptoz 0 (by omega)⟩,
          ⟨_, hfull.zmap, hfull.uptoz 1 (by omega)⟩⟩
      · intro d b
        refine (congrFun (congrFun hbref d) b).trans ?_
        rw [hfull.pins.bref, hni, hnz, count_blocks]
        split_ifs <;> first | rfl | omega
      · intro r
        refine (hrefcnt r).trans ?_
        rw [hfull.pins.kern]

/-- After a `freeimap` the destructor does not come through. -/
theorem delete_imapbuf (hbuf : f.imapbuf = some buf) (hgone : k.heap.size buf = none) :
    delete dev f k ≠ .ok k' := by
  intro hrun
  obtain ⟨k₁, hi, -⟩ := bind_ok hrun
  unfold freeimap at hi
  rw [hbuf] at hi
  refine freemap_again ?_ hi
  exact hgone

/-- The bitmaps are loaded when their blocks can be read and they are not empty; otherwise
`freeimap` has been there. -/
theorem loadmaps_eq (harr : Arrays f p heap k.heap)
    (hi : k.heap.size (p + 1) = some f.nimapblock) (hz : k.heap.size (p + 3) = some f.nzmapblock)
    (hrun : loadmaps disk dev f k = .ok (e, k')) :
    e ≠ 0 ∧ k'.heap.size p = none ∨
      (0 < f.nimapblock ∧ 0 < f.nzmapblock) ∧
        ∀ i < f.nimapblock + f.nzmapblock, disk.bad (2 + i) = false := by
  unfold loadmaps at hrun
  rw [harr.imapbuf, harr.imap, harr.zmapbuf, harr.zmap] at hrun
  dsimp only at hrun
  obtain ⟨⟨e₁, k₁⟩, hrun₁, hrun⟩ := bind_ok hrun
  obtain ⟨hsize₁, hgood₁⟩ := readmap_eq _ _ _ _ _ _ _ hrun₁
  split_ifs at hrun with he₁
  · obtain ⟨k₂, hfree, hend⟩ := bind_ok hrun
    cases hend
    unfold freeimap at hfree
    rw [harr.imapbuf] at hfree
    exact .inl ⟨he₁, freemap_freed hfree⟩
  obtain ⟨⟨e₂, k₂⟩, hrun₂, hrun⟩ := bind_ok hrun
  obtain ⟨hsize₂, hgood₂⟩ := readmap_eq _ _ _ _ _ _ _ hrun₂
  split_ifs at hrun with he₂
  · obtain ⟨k₃, hfree, hrun⟩ := bind_ok hrun
    obtain ⟨k₄, hfreez, hend⟩ := bind_ok hrun
    cases hend
    unfold freeimap at hfree
    rw [harr.imapbuf] at hfree
    exact .inl ⟨he₂, freemap_gone (freemap_freed hfree) hfreez⟩
  · obtain ⟨x, hload, hrun⟩ := bind_ok hrun
    obtain ⟨y, hload', -⟩ := bind_ok hrun
    obtain ⟨n, hn, hpos⟩ := load_inside hload
    obtain ⟨n', hn', hpos'⟩ := load_inside hload'
    rw [hsize₂, hsize₁, hi, Option.some_inj] at hn
    rw [hsize₂, hsize₁, hz, Option.some_inj] at hn'
    refine .inr ⟨⟨hn ▸ hpos, hn' ▸ hpos'⟩, fun i hlt => ?_⟩
    by_cases hside : i < f.nimapblock
    · exact hgood₁ (not_not.mp he₁) i hside
    · have hz := hgood₂ (not_not.mp he₂) (i - f.nimapblock) (by omega)
      rwa [show 2 + f.nimapblock + (i - f.nimapblock) = 2 + i by omega] at hz

/-- A run without a fault has loaded the bitmaps. -/
theorem readfs_loads (junk : Nat × Nat) (hnew : k.fsq dev = none) (hp : Passes disk dev)
    (hrun : readfs junk disk dev k = .ok (e, k')) :
    (0 < disk.super.nimapblock ∧ 0 < disk.super.nzmapblock) ∧
      ∀ i < disk.super.nimapblock + disk.super.nzmapblock, disk.bad (2 + i) = false := by
  obtain ⟨f, heap, halloc, hf, harr, hi, hz⟩ :=
    allocmaps_arrays (counts disk (k.newfs junk dev).1) (k.newfs junk dev).2
  have hni : f.nimapblock = disk.super.nimapblock := by rw [hf]; rfl
  have hnz : f.nzmapblock = disk.super.nzmapblock := by rw [hf]; rfl
  rw [readfs_new junk disk hnew, fsread_passes _ _ hp, halloc] at hrun
  obtain ⟨⟨e₁, f₁, k₁⟩, hread, hrun⟩ := bind_ok hrun
  obtain ⟨⟨e₂, k₂⟩, hload, hend⟩ := bind_ok hread
  have hcases := loadmaps_eq harr (by rw [hni, size, hi 1 (by omega)]; rfl)
    (by rw [hnz, size, hz 1 (by omega)]; rfl) hload
  rw [hni, hnz] at hcases
  refine hcases.resolve_left ?_
  rintro ⟨he₂, hgone⟩
  dsimp only at hend hrun
  rw [if_pos he₂] at hend
  cases hend
  rw [if_pos he₂] at hrun
  obtain ⟨k₃, hdelete, -⟩ := bind_ok hrun
  exact delete_imapbuf harr.imapbuf hgone hdelete

/-- No file system yet, and no memory taken. -/
def empty : Ker := ⟨Mounts.unmounted, fun _ => none, ⟨0, fun _ => none, fun _ _ => rfl⟩⟩

/-- The inode bitmap cannot be read. -/
def noimap : Disk := ⟨⟨MAGIC, 1, 1⟩, fun b => b == 2, false⟩

end Ker

end Unixlite.Fs
