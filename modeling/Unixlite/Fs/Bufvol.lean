import Unixlite.Fs.Dirbuf
import Unixlite.Fs.Links

/-!
# File systems and their buffers

Port of the parts of `fs/dir.cc` that `rename2` rests on, with the buffers that they hold and
with I/O errors: `lookup2`, `parentchild`, `emptydir` and the loop of `addde`.

`Out` says what a call holds at some point.  What `readi` and `parentchild` return there is
what the state before the call says (`loads`, `above`).
-/

namespace Unixlite.Fs

open Verified Counter
open Filesys
open Option Finset

/-- A file system, and the reference counts of the buffers of its device. -/
structure Bufvol where
  vol : Vol
  pins : Nat → Nat

namespace Vol

/-- The directory grows by one entry, in `addde`. -/
def grow (v : Vol) (dir : Nat) : Option (Nat × Vol) :=
  let slots := v.fs.slots dir
  let cost :=
    if slots.length % DEPERBLOCK = 0 then zonecost (slots.length / DEPERBLOCK) else 0
  if slots = [] ∨ v.fs.zfree < cost then none
  else
    let fs := v.fs.upd dir fun i =>
      { i with slots := i.slots ++ [⟨MINIXFREEINO, []⟩], zones := i.zones + cost }
    some (slots.length, { v with fs := { fs with zfree := fs.zfree - cost } })

end Vol

namespace Bufvol

/-! ## The source -/

def slots (s : Bufvol) (dir : Nat) : List De := s.vol.fs.slots dir

def ino (s : Bufvol) (dir k : Nat) : Nat := (s.vol.fs.de dir k).ino

def inode (s : Bufvol) (ino : Nat) : Inode := s.vol.fs.inode ino

def hold (s : Bufvol) (ino : Nat) : Bufvol := { s with vol := s.vol.hold ino }

def lose (s : Bufvol) (ino : Nat) : Bufvol := { s with vol := s.vol.lose ino }

def upd (s : Bufvol) (ino : Nat) (f : Inode → Inode) : Bufvol :=
  { s with vol := s.vol.upd ino f }

/-- `b->lose()`. -/
def losebuf (s : Bufvol) (b : Nat) : Bufvol := { s with pins := Counter.lose s.pins b }

def findde (d : Dirdisk) (s : Bufvol) (dir : Nat) (name : Name) :
    Option (Nat × Nat) × Bufvol :=
  let x := d.findde dir name (s.slots dir) s.pins
  (x.1, { s with pins := x.2 })

/-- `readi`.  The block of an inode that is not in the cache is held while it is read. -/
def readi (d : Dirdisk) (s : Bufvol) (ino : Nat) : Except Int Bufvol :=
  match s.vol.readi ino with
  | .error e => .error e
  | .ok v =>
      if (s.inode ino).refcnt = 0 && d.lost ino then .error EIO
      else if (s.inode ino).cached then .ok { s with vol := v }
      else .ok ⟨v, Counter.lose (Counter.hold s.pins (d.itab ino)) (d.itab ino)⟩

def lookup2 (d : Dirdisk) (s : Bufvol) (dir : Nat) (name : Name) : Except Int Nat × Bufvol :=
  let x := s.findde d dir name
  match x.1 with
  | none => (.error ENOENT, x.2)
  | some (k, b) =>
      match x.2.readi d (s.ino dir k) with
      | .error e => (.error e, x.2.losebuf b)
      | .ok t => (.ok (s.ino dir k), t.losebuf b)

/-- The loop of `parentchild`, with `c` held.  A chain longer than the number of inodes never
ends. -/
def climb (d : Dirdisk) (p : Nat) : Nat → Nat → Bufvol → Option (Bool × Bufvol)
  | 0, _, _ => none
  | fuel + 1, c, s =>
      if c = MINIXROOTINO then some (false, s.lose c)
      else if c = p then some (true, s.lose c)
      else
        let x := s.lookup2 d c dotdot
        match x.1 with
        | .error _ => some (false, x.2.lose c)
        | .ok sub => climb d p fuel sub (x.2.lose c)

def parentchild (d : Dirdisk) (s : Bufvol) (p c : Nat) : Option (Bool × Bufvol) :=
  climb d p (s.vol.fs.ninode + 1) c (s.hold c)

def emptydir (d : Dirdisk) (s : Bufvol) (dir : Nat) : Bool × Bufvol :=
  let x := d.emptydir dir (s.slots dir) s.pins
  (x.1, { s with pins := x.2 })

def addcheck (d : Dirdisk) (s : Bufvol) (dir : Nat) (name : Name) : Int × Bufvol :=
  let x := d.addcheck dir name (s.slots dir) s.pins
  (x.1, { s with pins := x.2 })

/-- The loop of `addde`: a free slot and its buffer, which is held.  Behind it there is a
panic. -/
def freede (d : Dirdisk) (s : Bufvol) (dir : Nat) : Option (Nat × Nat × Bufvol) :=
  let x := d.scan dir (fun de => de.ino == MINIXFREEINO) (s.slots dir) 0 s.pins
  match x.1 with
  | some (k, b) => some (k, b, { s with pins := Counter.lose (Counter.hold x.2 b) b })
  | none =>
      let n := (s.slots dir).length
      -- the scan has to come to the last entry, and then to the new one
      if d.bad (d.blockof dir (n - 1)) || d.bad (d.blockof dir n) then none
      else
        (s.vol.grow dir).map fun (k, v) =>
          (k, d.blockof dir k, ⟨v, Counter.hold x.2 (d.blockof dir k)⟩)

/-! ## What the lookups find -/

/-- The slot that `findde` finds. -/
def place (d : Dirdisk) (s : Bufvol) (dir : Nat) (name : Name) : Option Nat :=
  d.find dir (Dirdisk.named name) (s.slots dir) 0

/-- Slots of the inode cache that are taken for the inodes of `held`. -/
def fresh (s : Bufvol) (held : List Nat) : Nat :=
  (held.toFinset.filter fun i => (s.inode i).refcnt = 0).card

/-- `readi` has no error, when the call holds the inodes of `held` besides. -/
def loads (d : Dirdisk) (s : Bufvol) (held : List Nat) (ino : Nat) : Bool :=
  ((s.inode ino).refcnt != 0 || held.contains ino || decide (s.fresh held < s.vol.nfree) &&
    !d.lost ino) && ((s.inode ino).cached || decide (ino < s.vol.fs.ninode))

/-- `p` is `c` or above it, as far as the way up can be read. -/
def above (d : Dirdisk) (s : Bufvol) (p : Nat) : Nat → Nat → Option Bool
  | 0, _ => none
  | fuel + 1, c =>
      if c = MINIXROOTINO then some false
      else if c = p then some true
      else
        match s.place d c dotdot with
        | none => some false
        | some k =>
            if s.loads d [c, p] (s.ino c k) then above d s p fuel (s.ino c k) else some false

/-! ## What is out -/

/-- The inodes of `is` and the blocks of `bs` are held; nothing else has changed. -/
structure Out (s t : Bufvol) (is bs : List Nat) : Prop where
  tree : t.vol.fs.tree = s.vol.fs.tree
  inodes : Taken (fun i => (s.inode i).refcnt) (fun i => (t.inode i).refcnt) is
  bufs : Taken s.pins t.pins bs
  nfree : t.vol.nfree + s.fresh is = s.vol.nfree
  range : ∀ i, s.vol.fs.ninode ≤ i → (t.inode i).cached = (s.inode i).cached

variable {d : Dirdisk} {s t u : Bufvol} {is bs : List Nat} {i b c dir k : Nat} {name : Name}

theorem Out.refl (s : Bufvol) : Out s s [] [] := by
  refine ⟨rfl, Taken.refl _, Taken.refl _, ?_, fun _ _ => rfl⟩
  exact Nat.add_zero _

theorem Out.slots (h : Out s t is bs) (dir : Nat) : t.slots dir = s.slots dir :=
  slots_of_tree h.tree

theorem Out.ino (h : Out s t is bs) (dir k : Nat) : t.ino dir k = s.ino dir k := by
  unfold Bufvol.ino
  rw [de_of_tree h.tree]

theorem Out.isdir (h : Out s t is bs) (i : Nat) : (t.inode i).isdir = (s.inode i).isdir :=
  isdir_of_tree h.tree

theorem Out.nlink (h : Out s t is bs) (i : Nat) : (t.inode i).nlink = (s.inode i).nlink :=
  nlink_of_tree h.tree

/-- `findde` holds the block of what it finds. -/
theorem Out.findde (h : Out s t is bs) (dir : Nat) (name : Name) :
    (t.findde d dir name).1 = (s.place d dir name).map (fun m => (m, d.blockof dir m)) ∧
      Out s (t.findde d dir name).2 is
        ((s.place d dir name).elim bs fun m => d.blockof dir m :: bs) := by
  unfold Bufvol.findde
  rw [Dirdisk.findde_eq, h.slots]
  refine ⟨rfl, h.tree, h.inodes, ?_, h.nfree, h.range⟩
  unfold Bufvol.place
  cases d.find dir (Dirdisk.named name) (s.slots dir) 0 with
  | none => exact h.bufs
  | some m => exact h.bufs.hold _

theorem Out.losebuf (h : Out s t is bs) (hb : b ∈ bs) : Out s (t.losebuf b) is (bs.erase b) :=
  ⟨h.tree, h.inodes, h.bufs.lose hb, h.nfree, h.range⟩

/-- An inode that the call does not hold yet takes a slot, unless somebody else holds it. -/
theorem fresh_cons (s : Bufvol) (i : Nat) (is : List Nat) : s.fresh (i :: is) =
    s.fresh is + if (s.inode i).refcnt = 0 ∧ i ∉ is then 1 else 0 := by
  unfold fresh
  rw [List.toFinset_cons, filter_insert]
  by_cases hzero : (s.inode i).refcnt = 0
  · rw [if_pos hzero]
    by_cases hi : i ∈ is
    · rw [if_neg fun h => h.2 hi, insert_eq_of_mem]
      · rfl
      · rw [mem_filter, List.mem_toFinset]
        exact ⟨hi, hzero⟩
    · rw [if_pos ⟨hzero, hi⟩, card_insert_of_notMem]
      rw [mem_filter, List.mem_toFinset]
      exact fun h => hi h.1
  · rw [if_neg hzero, if_neg fun h => hzero h.1]
    rfl

theorem fresh_congr {is' : List Nat} (h : ∀ i, i ∈ is ↔ i ∈ is') : s.fresh is = s.fresh is' := by
  unfold fresh
  congr 2
  ext i
  rw [List.mem_toFinset, List.mem_toFinset, h]

theorem Out.refcnt_eq_zero (h : Out s t is bs) (i : Nat) :
    (t.inode i).refcnt = 0 ↔ (s.inode i).refcnt = 0 ∧ i ∉ is := by
  have hcount := h.inodes i
  dsimp only at hcount
  rw [hcount, Nat.add_eq_zero_iff, List.count_eq_zero]

/-- There is a slot of the inode cache for the inode, and its number is in range. -/
def Fits (v : Vol) (i : Nat) : Prop :=
  ((v.fs.inode i).refcnt ≠ 0 ∨ 0 < v.nfree) ∧
    ((v.fs.inode i).cached = true ∨ i < v.fs.ninode)

theorem vol_readi (v : Vol) (i : Nat) :
    (Fits v i ∧
      v.readi i = .ok { v.upd i (fun i => { i with refcnt := i.refcnt + 1, cached := true }) with
        nfree := if (v.fs.inode i).refcnt = 0 then v.nfree - 1 else v.nfree }) ∨
    (¬Fits v i ∧ ∃ e, v.readi i = .error e ∧ e ≠ 0) := by
  unfold Vol.readi
  by_cases hfull : (v.fs.inode i).refcnt = 0 ∧ v.nfree = 0
  · rw [if_pos hfull]
    refine .inr ⟨fun h => ?_, ENFILE, rfl, by decide⟩
    have hroom := h.1
    omega
  · rw [if_neg hfull]
    by_cases hrange : (!(v.fs.inode i).cached && decide (v.fs.ninode ≤ i)) = true
    · rw [if_pos hrange]
      refine .inr ⟨fun h => ?_, EINVAL, rfl, by decide⟩
      rw [Bool.and_eq_true, Bool.not_eq_true', decide_eq_true_eq] at hrange
      rcases h.2 with hcached | hlt
      · rw [hrange.1] at hcached
        cases hcached
      · omega
    · rw [if_neg hrange]
      refine .inl ⟨⟨by omega, ?_⟩, rfl⟩
      rw [Bool.and_eq_true, Bool.not_eq_true', decide_eq_true_eq, not_and, Nat.not_le] at hrange
      cases hcached : (v.fs.inode i).cached with
      | true => exact .inl rfl
      | false => exact .inr (hrange hcached)

/-- The inode is held by somebody, or it can be read. -/
def Loadable (d : Dirdisk) (t : Bufvol) (i : Nat) : Prop :=
  Fits t.vol i ∧ ((t.inode i).refcnt = 0 → d.lost i = false)

theorem lost_iff (d : Dirdisk) (t : Bufvol) (i : Nat) :
    (((t.inode i).refcnt = 0 : Bool) && d.lost i) = true ↔
      ¬((t.inode i).refcnt = 0 → d.lost i = false) := by
  rw [Bool.and_eq_true, decide_eq_true_eq, Classical.not_imp, Bool.not_eq_false]

theorem readi_loadable (h : Loadable d t i) : ∃ u, t.readi d i = .ok u ∧ u.pins = t.pins ∧
    u.vol = { t.vol.upd i (fun i => { i with refcnt := i.refcnt + 1, cached := true }) with
      nfree := if (t.inode i).refcnt = 0 then t.vol.nfree - 1 else t.vol.nfree } := by
  obtain ⟨hfits, hgood⟩ := h
  obtain ⟨-, hvol⟩ := (vol_readi t.vol i).resolve_right fun h => h.1 hfits
  unfold Bufvol.readi
  rw [hvol]
  dsimp only
  rw [if_neg fun h => (lost_iff d t i).mp h hgood]
  by_cases hcached : (t.inode i).cached = true
  · rw [if_pos hcached]
    exact ⟨_, rfl, rfl, rfl⟩
  · rw [if_neg hcached]
    exact ⟨_, rfl, lose_hold _ _, rfl⟩

theorem readi_not_loadable (h : ¬Loadable d t i) : ∃ e, t.readi d i = .error e ∧ e ≠ 0 := by
  unfold Bufvol.readi
  rcases vol_readi t.vol i with ⟨hfits, hvol⟩ | ⟨-, e, hvol, he⟩
  · rw [hvol]
    dsimp only
    rw [if_pos ((lost_iff d t i).mpr fun hgood => h ⟨hfits, hgood⟩)]
    exact ⟨ EIO, rfl, by decide⟩
  · rw [hvol]
    exact ⟨e, rfl, he⟩

theorem Out.ninode (h : Out s t is bs) : t.vol.fs.ninode = s.vol.fs.ninode := by
  rw [← tree_bound, h.tree, tree_bound]

theorem Out.loads_iff (h : Out s t is bs) : s.loads d is i = true ↔ Loadable d t i := by
  have hzero := h.refcnt_eq_zero i
  have hfree := h.nfree
  have hnum := h.ninode
  have hrange := h.range i
  have hvalid : (s.inode i).cached = true ∨ i < s.vol.fs.ninode ↔
      (t.inode i).cached = true ∨ i < t.vol.fs.ninode := by
    rw [hnum]
    by_cases hi : i < s.vol.fs.ninode
    · exact iff_of_true (.inr hi) (.inr hi)
    · rw [hrange (Nat.not_lt.mp hi)]
  have hroom : s.fresh is < s.vol.nfree ↔ 0 < t.vol.nfree := by omega
  have hheld : (s.inode i).refcnt ≠ 0 ∨ i ∈ is ↔ (t.inode i).refcnt ≠ 0 := by
    rw [Ne, Ne, hzero, not_and_or, not_not]
  unfold loads
  rw [Bool.and_eq_true, Bool.or_eq_true, Bool.or_eq_true, Bool.or_eq_true, Bool.and_eq_true,
    bne_iff_ne, List.contains_iff_mem, decide_eq_true_eq, decide_eq_true_eq, Bool.not_eq_true',
    hvalid, hroom, hheld]
  constructor
  · rintro ⟨hne | ⟨hfree, hgood⟩, hin⟩
    · exact ⟨⟨.inl hne, hin⟩, fun h => absurd h hne⟩
    · exact ⟨⟨.inr hfree, hin⟩, fun _ => hgood⟩
  · rintro ⟨⟨hfree, hin⟩, hgood⟩
    by_cases hne : (t.inode i).refcnt = 0
    · exact ⟨.inr ⟨hfree.resolve_left (not_not.mpr hne), hgood hne⟩, hin⟩
    · exact ⟨.inl hne, hin⟩

/-- `readi` comes back with the inode. -/
theorem Out.readi_ok (h : Out s t is bs) (hload : s.loads d is i = true) :
    ∃ u, t.readi d i = .ok u ∧ Out s u (i :: is) bs := by
  have hfull := h.refcnt_eq_zero i
  have hfree := h.nfree
  have hloadable := h.loads_iff.mp hload
  obtain ⟨u, hu, hpins, hvol⟩ := readi_loadable hloadable
  have hinode : ∀ j, u.inode j =
      if j = i then { t.inode j with refcnt := (t.inode j).refcnt + 1, cached := true }
      else t.inode j := by
    intro j
    unfold inode
    rw [hvol]
    rfl
  refine ⟨u, hu, ?_, h.inodes.add fun j => ?_, hpins ▸ h.bufs, ?_, fun j hj => ?_⟩
  · rw [hvol, ← h.tree]
    exact tree_upd rfl rfl rfl
  · rw [hinode]
    split_ifs <;> rfl
  · rw [hvol, fresh_cons]
    dsimp only
    by_cases hzero : (t.inode i).refcnt = 0
    · have hroom := hloadable.1.1.resolve_left (not_not.mpr hzero)
      rw [if_pos hzero, if_pos (hfull.mp hzero)]
      omega
    · rw [if_neg hzero, if_neg fun h => hzero (hfull.mpr h)]
      exact hfree
  · rw [hinode]
    split_ifs with hji
    · have hcached := hloadable.1.2
      rw [h.ninode] at hcached
      rw [hji, ← h.range i (hji ▸ hj)]
      exact (hcached.resolve_right (by omega)).symm
    · exact h.range j hj

theorem Out.readi_error (h : Out s t is bs) (hload : s.loads d is i = false) :
    ∃ e, t.readi d i = .error e ∧ e ≠ 0 := by
  apply readi_not_loadable
  rw [← h.loads_iff, hload]
  exact Bool.false_ne_true

/-! ## Letting go -/

/-- Letting go of the inode does not release it: it has links, or the caller holds it. -/
def Safe (s : Bufvol) (i : Nat) : Prop := (s.inode i).nlink ≠ 0 ∨ (s.inode i).refcnt ≠ 0

theorem vol_lose {v : Vol} (h : ¬v.Last i) :
    v.lose i = { v.upd i (fun i => { i with refcnt := i.refcnt - 1 }) with
      nfree := if (v.fs.inode i).refcnt - 1 = 0 then v.nfree + 1 else v.nfree } := by
  have hfs := Vol.lose_keep h
  have hnfree : (v.lose i).nfree =
      if (v.fs.inode i).refcnt - 1 = 0 then v.nfree + 1 else v.nfree := by
    unfold Vol.lose
    simp only [Vol.upd, upd_inode_self]
    by_cases hzero : (v.fs.inode i).refcnt - 1 = 0
    · rw [if_neg (not_not.mpr hzero), if_pos hzero]
      split_ifs <;> rfl
    · rw [if_pos hzero, if_neg hzero]
  exact congrArg₂ Vol.mk hfs hnfree

theorem Out.not_last (h : Out s t is bs) (hsafe : s.Safe i) (hi : i ∈ is) : ¬t.vol.Last i := by
  rintro ⟨hone, -, hzero⟩
  have hcount := h.inodes i
  have hpos := List.count_pos_iff.mpr hi
  rcases hsafe with hlink | hheld
  · exact hlink ((h.nlink i).symm.trans hzero)
  · unfold inode at hcount hheld
    dsimp only at hcount
    omega

/-- An inode that the call holds is given back. -/
theorem Out.lose (h : Out s t is bs) (hsafe : s.Safe i) (hi : i ∈ is) :
    Out s (t.lose i) (is.erase i) bs := by
  have hvol := vol_lose (h.not_last hsafe hi)
  have hcount := h.inodes i
  have hfree := h.nfree
  have hpos := List.count_pos_iff.mpr hi
  have hinode : ∀ j, (t.lose i).inode j =
      if j = i then { t.inode j with refcnt := (t.inode j).refcnt - 1 } else t.inode j := by
    intro j
    unfold inode Bufvol.lose
    rw [hvol]
    rfl
  refine ⟨?_, h.inodes.sub hi fun j => ?_, h.bufs, ?_, fun j hj => ?_⟩
  · rw [← h.tree]
    exact Vol.tree_lose_keep (h.not_last hsafe hi)
  · rw [hinode]
    split_ifs <;> rfl
  · have hfresh : s.fresh is = s.fresh (i :: is.erase i) :=
      fresh_congr fun j => (List.perm_cons_erase hi).mem_iff
    have hmem : i ∉ is.erase i ↔ is.count i = 1 := by
      rw [← List.count_eq_zero, List.count_erase_self]
      omega
    rw [hfresh, fresh_cons] at hfree
    unfold Bufvol.lose
    rw [hvol]
    unfold inode at hcount hfree
    dsimp only at hcount ⊢
    by_cases hzero : (t.vol.fs.inode i).refcnt - 1 = 0
    · rw [if_pos ⟨by omega, hmem.mpr (by omega)⟩] at hfree
      rw [if_pos hzero]
      omega
    · rw [if_neg fun hnot => hzero (by have := hmem.mp hnot.2; omega)] at hfree
      rw [if_neg hzero]
      omega
  · rw [hinode]
    split_ifs
    · exact h.range j hj
    · exact h.range j hj

/-- An inode that the caller holds is held once more. -/
theorem Out.hold (h : Out s t is bs) (hheld : (s.inode i).refcnt ≠ 0) :
    Out s (t.hold i) (i :: is) bs := by
  have hinode : ∀ j, (t.hold i).inode j =
      if j = i then { t.inode j with refcnt := (t.inode j).refcnt + 1 } else t.inode j :=
    fun _ => rfl
  refine ⟨?_, h.inodes.add fun j => ?_, h.bufs, ?_, fun j hj => ?_⟩
  · rw [← h.tree]
    exact tree_upd rfl rfl rfl
  · rw [hinode]
    split_ifs <;> rfl
  · rw [fresh_cons, if_neg fun h => hheld h.1]
    exact h.nfree
  · rw [hinode]
    split_ifs
    · exact h.range j hj
    · exact h.range j hj

/-- What a live entry names has links. -/
def Linked (s : Bufvol) : Prop :=
  ∀ dir, ∀ de ∈ s.slots dir, de.ino ≠ MINIXFREEINO → (s.inode de.ino).nlink ≠ 0

theorem Linked.safe (hl : s.Linked) (h : s.place d dir name = some k) : s.Safe (s.ino dir k) := by
  obtain ⟨-, de, hde, hq, -⟩ := Dirdisk.find_spec h
  rw [Nat.sub_zero] at hde
  unfold Dirdisk.named at hq
  rw [Bool.and_eq_true, bne_iff_ne] at hq
  have hino : s.ino dir k = de.ino := by
    show ((s.slots dir)[k]?.getD _).ino = _
    rw [hde]
    rfl
  rw [hino]
  exact .inl (hl dir de (List.mem_of_getElem? hde) hq.1)

/-! ## Walking up -/

/-- `lookup2` finds no entry, or cannot read the inode, -/
theorem Out.lookup2_error (h : Out s t is bs) (dir : Nat) (name : Name)
    (hnone : ∀ k, s.place d dir name = some k → s.loads d is (s.ino dir k) = false) :
    ∃ e u, t.lookup2 d dir name = (.error e, u) ∧ Out s u is bs := by
  obtain ⟨hfind, hout⟩ := h.findde (d := d) dir name
  unfold Bufvol.lookup2
  dsimp only
  cases hplace : s.place d dir name with
  | none =>
      rw [hplace] at hfind hout
      rw [hfind]
      exact ⟨ENOENT, _, rfl, hout⟩
  | some k =>
      rw [hplace] at hfind hout
      obtain ⟨e, herr, -⟩ := hout.readi_error (hnone k hplace)
      rw [hfind]
      dsimp only [map_some]
      rw [h.ino, herr]
      refine ⟨e, _, rfl, ?_⟩
      have hlose := hout.losebuf List.mem_cons_self
      rwa [elim_some, List.erase_cons_head] at hlose

/-- or comes back with the inode, held. -/
theorem Out.lookup2_ok (h : Out s t is bs) {dir k : Nat} {name : Name}
    (hplace : s.place d dir name = some k) (hload : s.loads d is (s.ino dir k) = true) :
    ∃ u, t.lookup2 d dir name = (.ok (s.ino dir k), u) ∧ Out s u (s.ino dir k :: is) bs := by
  obtain ⟨hfind, hout⟩ := h.findde (d := d) dir name
  rw [hplace] at hfind hout
  obtain ⟨u, hu, hout'⟩ := hout.readi_ok hload
  unfold Bufvol.lookup2
  dsimp only
  rw [hfind]
  dsimp only [map_some]
  rw [h.ino, hu]
  refine ⟨_, rfl, ?_⟩
  have hlose := hout'.losebuf List.mem_cons_self
  rwa [elim_some, List.erase_cons_head] at hlose

theorem erase_second (a b : Nat) (l : List Nat) : (a :: b :: l).erase b = a :: l := by
  by_cases hab : a = b
  · rw [hab, List.erase_cons_head]
  · rw [List.erase_cons_tail (by simpa using hab), List.erase_cons_head]

/-- The way up holds one directory at a time, and gives all of them back. -/
theorem Out.climb {p fuel : Nat} (hl : s.Linked) (h : Out s t [c, p] bs) (hc : s.Safe c) :
    (climb d p fuel c t).map Prod.fst = s.above d p fuel c ∧
      ∀ x, climb d p fuel c t = some x → Out s x.2 [p] bs := by
  induction fuel generalizing t c with
  | zero => exact ⟨rfl, fun x hx => by cases hx⟩
  | succ fuel ih =>
      have hlose : ∀ {u : Bufvol}, Out s u [c, p] bs → Out s (u.lose c) [p] bs := by
        intro u hu
        have hback := hu.lose hc List.mem_cons_self
        rwa [List.erase_cons_head] at hback
      have hstop : ∀ {u : Bufvol}, Out s u [c, p] bs → ∀ {r : Bool},
          (some (r, u.lose c)).map Prod.fst = some r ∧
            ∀ x, some (r, u.lose c) = some x → Out s x.2 [p] bs := by
        intro u hu r
        refine ⟨rfl, fun x hx => ?_⟩
        cases hx
        exact hlose hu
      rw [Bufvol.climb, above]
      by_cases hroot : c = MINIXROOTINO
      · rw [if_pos hroot, if_pos hroot]
        exact hstop h
      rw [if_neg hroot, if_neg hroot]
      by_cases hcp : c = p
      · rw [if_pos hcp, if_pos hcp]
        exact hstop h
      rw [if_neg hcp, if_neg hcp]
      cases hplace : s.place d c dotdot with
      | none =>
          obtain ⟨e, u, hu, hout⟩ := h.lookup2_error (d := d) c dotdot
            fun k hk => by rw [hplace] at hk; cases hk
          rw [hu]
          exact hstop hout
      | some k =>
          dsimp only
          cases hload : s.loads d [c, p] (s.ino c k) with
          | false =>
              obtain ⟨e, u, hu, hout⟩ := h.lookup2_error (d := d) c dotdot
                fun m hm => by rw [hplace] at hm; cases hm; exact hload
              rw [hu, if_neg Bool.false_ne_true]
              exact hstop hout
          | true =>
              obtain ⟨u, hu, hout⟩ := h.lookup2_ok hplace hload
              rw [hu, if_pos rfl]
              have hback := hout.lose hc (List.mem_cons_of_mem _ List.mem_cons_self)
              rw [erase_second] at hback
              exact ih hback (hl.safe hplace)

/-- `parentchild` gives back what it holds. -/
theorem Out.parentchild {oldi newdir : Nat} (hl : s.Linked) (h : Out s t [oldi] bs)
    (hheld : (s.inode newdir).refcnt ≠ 0) :
    (t.parentchild d oldi newdir).map Prod.fst =
        s.above d oldi (s.vol.fs.ninode + 1) newdir ∧
      ∀ x, t.parentchild d oldi newdir = some x → Out s x.2 [oldi] bs := by
  unfold Bufvol.parentchild
  rw [h.ninode]
  exact (h.hold hheld).climb hl (.inr hheld)

theorem Out.emptydir (h : Out s t is bs) (dir : Nat) :
    (t.emptydir d dir).1 = (s.emptydir d dir).1 ∧ (t.emptydir d dir).2 = t := by
  unfold Bufvol.emptydir
  rw [Dirdisk.emptydir_eq, Dirdisk.emptydir_eq, h.slots]
  exact ⟨rfl, rfl⟩

theorem Out.addcheck (h : Out s t is bs) (dir : Nat) (name : Name) :
    t.addcheck d dir name = (d.addcode dir name (s.slots dir), t) := by
  unfold Bufvol.addcheck
  rw [Dirdisk.addcheck_eq, h.slots]

/-- The entries that say something. -/
def live (s : Bufvol) (dir : Nat) : List De :=
  (s.slots dir).filter fun de => de.ino != MINIXFREEINO

/-- The entries, the link counts and the reference counts are as before. -/
structure Asbefore (s t : Bufvol) : Prop where
  live : ∀ dir, t.live dir = s.live dir
  nlink : ∀ i, (t.inode i).nlink = (s.inode i).nlink
  refcnt : ∀ i, (t.inode i).refcnt = (s.inode i).refcnt
  pins : ∀ b, t.pins b = s.pins b

theorem Out.asbefore (h : Out s t [] []) : Asbefore s t := by
  refine ⟨fun dir => ?_, h.nlink, congrFun h.inodes.eq, congrFun h.bufs.eq⟩
  unfold live
  rw [h.slots]

theorem Asbefore.refl (s : Bufvol) : Asbefore s s := (Out.refl s).asbefore

theorem Out.not_asbefore (h : Out s t [i] bs) : ¬Asbefore s t :=
  fun hsame => h.inodes.ne List.mem_cons_self (hsame.refcnt i)

theorem nlink_lose (v : Vol) (i j : Nat) :
    ((v.lose i).fs.inode j).nlink = (v.fs.inode j).nlink := by
  by_cases hlast : v.Last i
  · have hdrop : ∀ (fs : Filesys) (f : Inode → Inode), (∀ x, (f x).nlink = x.nlink) →
        ((fs.upd i f).inode j).nlink = (fs.inode j).nlink := by
      intro fs f hf
      rw [upd_inode]
      split_ifs
      · exact hf _
      · rfl
    rw [Vol.lose_free hlast]
    refine (hdrop _ _ (by intro x; rfl)).trans ?_
    rw [(Vol.freei_inode _ i).1, (Vol.truncate_inode _ i j).2.1]
    exact hdrop _ _ (by intro x; rfl)
  · exact nlink_of_tree (Vol.tree_lose_keep hlast)

/-- An update that changes nothing, in one step or in two. -/
theorem upd_eq {f : Inode → Inode} (h : f (t.inode i) = t.inode i) : t.upd i f = t := by
  have hinode : (t.vol.fs.upd i f).inode = t.vol.fs.inode := by
    funext j
    rw [upd_inode]
    split_ifs with hj
    · rw [hj]
      exact h
    · rfl
  have hfs : t.vol.fs.upd i f = t.vol.fs :=
    congrArg (fun n => { t.vol.fs with inode := n }) hinode
  exact congrArg (fun fs => { t with vol := { t.vol with fs := fs } }) hfs

theorem upd_upd_eq {f g : Inode → Inode} (h : g (f (t.inode i)) = t.inode i) :
    (t.upd i f).upd i g = t := by
  have hinode : ((t.vol.fs.upd i f).upd i g).inode = t.vol.fs.inode := by
    funext j
    rw [upd_inode, upd_inode]
    split_ifs with hj
    · rw [hj]
      exact h
    · rfl
  have hfs : (t.vol.fs.upd i f).upd i g = t.vol.fs :=
    congrArg (fun n => { t.vol.fs with inode := n }) hinode
  exact congrArg (fun fs => { t with vol := { t.vol with fs := fs } }) hfs

end Bufvol

end Unixlite.Fs
