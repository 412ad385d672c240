import Unixlite.Fs.Icache
import Unixlite.Verified.Run

/-!
# Inodes that are released while others are read

Port of `readi`, `geti`, `inode_t::lose`, `read`, `write` and `synci` of `fs/icache.cc`
and of `truncate` of `fs/trunc.cc`, for any number of tasks.  A task is switched where it
sleeps: in `lock` and `wait` of an inode, in `wlock`, and for a block of the disk.  What
the disk answers comes with the event that wakes the task.

`lose` puts a slot on the free list before it truncates an inode without links, and
`geti` looks at nothing that would tell it so.  A release keeps its slot as long as every
scan of the free list takes another one (`run_safe_iff`).
-/

namespace Unixlite.Fs.Icache

open Verified.Run List

/-! ## Data -/

/-- A reference that a task has from `readi`; `rwlock` is locked through it. -/
structure Handle where
  slot : Nat
  key : Key
  rwlock : Bool

/-- Where a call sleeps. -/
inductive Call where
  /-- `geti`, in `wait` of the inode that was found. -/
  | hit (i : Nat) (key : Key)
  /-- `geti`, in `wait` of a candidate. -/
  | await (i candidates : Nat) (key : Key)
  /-- `geti`, in `write` of a candidate, for its block. -/
  | flush (i candidates : Nat) (key : Key)
  /-- `read`, in `lock` and for its block. -/
  | readlock (i : Nat) (key : Key)
  | read (i : Nat) (key : Key)
  /-- `write` of `synci`, in `lock` and for its block. -/
  | synclock (i : Nat) (key : Key)
  | sync (i : Nat) (key : Key)
  /-- `truncate` of `lose`, in `wlock` and for its blocks. -/
  | wlock (i : Nat) (key : Key)
  | trunc (i : Nat) (key : Key)

/-- The reference that goes with a call. -/
def Call.holds : Call → Option (Nat × Key)
  | .hit i key | .readlock i key | .read i key | .synclock i key | .sync i key => some (i, key)
  | .await .. | .flush .. | .wlock .. | .trunc .. => none

/-- The inode that a call releases. -/
def Call.releases : Call → Option (Nat × Key)
  | .wlock i key | .trunc i key => some (i, key)
  | .hit .. | .await .. | .flush .. | .readlock .. | .read .. | .synclock .. | .sync .. => none

/-- `rwlock` is locked by the call. -/
def Call.truncates (i : Nat) : Call → Bool
  | .trunc j _ => j == i
  | _ => false

structure Sys extends Cache where
  refs : List Handle
  calls : List Call
  /-- An assertion of `geti` has failed for a slot under release. -/
  failed : Bool
  /-- `fs->dev`. -/
  fsdev : Nat → Nat

inductive Event where
  | readi (key : Key)
  /-- `lose`, of the `k`th reference. -/
  | lose (k : Nat)
  /-- Another `Dinode`, by a task that holds the inode; and its flag and `peer`. -/
  | setdirty (k : Nat) (di : Dinode)
  | setmount (k : Nat) (mount : Bool) (peer : Option Nat)
  | rwlock (k : Nat)
  | rwunlock (k : Nat)
  /-- One turn of `synci`. -/
  | synci (i : Nat)
  | invali (fs : Nat)
  /-- The `k`th call goes on; `ok` is what its block came to. -/
  | wake (k : Nat) (ok : Bool) (di : Dinode)

namespace Sys

/-! ## Operations -/

def upd (s : Sys) (i : Nat) (f : Slot → Slot) : Sys := { s with toCache := s.toCache.upd i f }

def addcall (s : Sys) (c : Call) : Sys := { s with calls := c :: s.calls }

def hold (s : Sys) (i : Nat) : Sys := s.upd i fun x => { x with refcnt := x.refcnt + 1 }

/-- `readi` returns. -/
def give (s : Sys) (i : Nat) (key : Key) : Sys := { s with refs := ⟨i, key, false⟩ :: s.refs }

def rwlocked (s : Sys) (i : Nat) : Bool :=
  s.refs.any (fun h => h.slot == i && h.rwlock) || s.calls.any (Call.truncates i)

/-- A call is releasing the slot. -/
def releasing (s : Sys) (i : Nat) : Bool :=
  s.calls.any fun c => (c.releases.map Prod.fst) == some i

/-- `lose` behind `truncate`. -/
def released (s : Sys) (i : Nat) : Sys :=
  if (s.slot i).refcnt ≠ 0 ∨ (s.slot i).di.nlink ≠ 0 then s
  else s.upd i fun x => { x with state := .inval }

/-- `truncate`, up to where it sleeps. -/
def truncate (s : Sys) (i : Nat) (key : Key) : Sys :=
  if !(s.slot i).di.isreg && !(s.slot i).di.isdir then s.released i
  else if s.rwlocked i then s.addcall (.wlock i key)
  else s.addcall (.trunc i key)

/-- `freeq.enqtail`, of a slot that is not on the list. -/
def tofree (s : Sys) (i : Nat) : Sys :=
  if i ∈ s.freeq then s else { s with freeq := s.freeq ++ [i] }

def lose (s : Sys) (i : Nat) (key : Key) : Sys :=
  let s := s.upd i fun x => { x with refcnt := x.refcnt - 1 }
  if (s.slot i).refcnt ≠ 0 then s
  else
    let s := s.tofree i
    if (s.slot i).state = .inval then s
    else if (s.slot i).di.nlink ≠ 0 then s
    else s.truncate i key

/-- `readi` behind `geti`. -/
def got (s : Sys) (i : Nat) (key : Key) : Sys :=
  if (s.slot i).state ≠ .inval then s.give i key
  else if (s.slot i).locked then s.addcall (.readlock i key)
  else (s.upd i fun x => { x with locked := true }).addcall (.read i key)

/-- The end of `geti`, with its assertions. -/
def take (s : Sys) (i : Nat) (key : Key) : Sys :=
  { s with
    toCache := s.toCache.take i key (s.fsdev key.1)
    failed := s.failed ||
      (s.releasing i && ((s.slot i).mount || (s.slot i).peer.isSome || s.rwlocked i)) }

/-- `geti`, from `repeat` on. -/
def geti (s : Sys) (key : Key) (candidates : Nat) : Sys :=
  match s.findi key with
  | some i =>
      let s := s.hold i
      if (s.slot i).locked then s.addcall (.hit i key)
      else got { s with freeq := s.freeq.erase i } i key
  | none =>
      match Cache.scan s.slot candidates s.freeq with
      | .full => s
      | .wait i n => s.addcall (.await i n key)
      | .write i n => (s.upd i fun x => { x with locked := true }).addcall (.flush i n key)
      | .take i => (s.take i key).got i key

/-- `write` of `synci`, with the lock. -/
def syncwrite (s : Sys) (i : Nat) (key : Key) : Sys :=
  if (s.slot i).state ≠ .dirty then s.lose i key
  else (s.upd i fun x => { x with locked := true }).addcall (.sync i key)

/-- The end of `write`. -/
def wrote (s : Sys) (i : Nat) (ok : Bool) : Sys :=
  s.upd i fun x => { x with locked := false, state := if ok then .clean else x.state }

/-! ## Steps -/

/-- A call goes on; `none` when it still has to wait. -/
def resume (s : Sys) (c : Call) (ok : Bool) (di : Dinode) : Option Sys :=
  match c with
  | .hit i key =>
      if (s.slot i).locked then none else some (got { s with freeq := s.freeq.erase i } i key)
  | .await i n key => if (s.slot i).locked then none else some (s.geti key n)
  | .flush i n key => some ((s.wrote i ok).geti key n)
  | .readlock i key => if (s.slot i).locked then none else some (s.got i key)
  | .read i key =>
      if ok then
        some ((s.upd i fun x => { x with locked := false, state := .clean, di := di }).give i key)
      else some ((s.upd i fun x => { x with locked := false }).lose i key)
  | .synclock i key => if (s.slot i).locked then none else some (s.syncwrite i key)
  | .sync i key => some ((s.wrote i ok).lose i key)
  | .wlock i key => if s.rwlocked i then none else some (s.addcall (.trunc i key))
  | .trunc i _ =>
      -- what is left of the zones comes with the event
      let s := s.upd i fun x =>
        { x with
          state := if ok then .dirty else x.state
          di := { x.di with rest := di.rest } }
      some (s.released i)

def dropcall (s : Sys) (k : Nat) : Sys := { s with calls := s.calls.eraseIdx k }

/-- One event; `none` when it cannot happen. -/
def step (s : Sys) : Event → Option Sys
  | .readi key => some (s.geti key 8)
  | .lose k =>
      (s.refs[k]?).bind fun h =>
        if h.rwlock then none
        else some (lose { s with refs := s.refs.eraseIdx k } h.slot h.key)
  | .setdirty k di =>
      (s.refs[k]?).map fun h => s.upd h.slot fun x => { x with state := .dirty, di := di }
  | .setmount k mount peer =>
      (s.refs[k]?).map fun h => s.upd h.slot fun x => { x with mount := mount, peer := peer }
  | .rwlock k =>
      (s.refs[k]?).bind fun h =>
        if s.calls.any (Call.truncates h.slot) then none
        else some { s with refs := s.refs.set k { h with rwlock := true } }
  | .rwunlock k =>
      (s.refs[k]?).map fun h => { s with refs := s.refs.set k { h with rwlock := false } }
  | .synci i =>
      if i ∈ s.hashq then
        let key := (s.slot i).key
        let s := s.hold i
        some (if (s.slot i).locked then s.addcall (.synclock i key) else s.syncwrite i key)
      else none
  | .invali fs =>
      some { s with slot := fun i =>
        if (s.slot i).fs = fs then { s.slot i with state := .inval } else s.slot i }
  | .wake k ok di => (s.calls[k]?).bind fun c => (s.dropcall k).resume c ok di

/-- No inode is in the cache. -/
def boot (n : Nat) (fsdev : Nat → Nat) : Sys :=
  { Cache.boot n with refs := [], calls := [], failed := false, fsdev := fsdev }

/-! ## What is promised -/

/-- The references there are, with the keys they were taken under. -/
def held (s : Sys) : List (Nat × Key) :=
  s.refs.map (fun h => (h.slot, h.key)) ++ s.calls.filterMap Call.holds

def releases (s : Sys) : List (Nat × Key) := s.calls.filterMap Call.releases

/-- A slot under release keeps its key, nobody has it under another one, and it makes
`geti` fail no assertion. -/
structure Safe (s : Sys) : Prop where
  key : ∀ p ∈ s.releases, (s.slot p.1).key = p.2
  handed : ∀ p ∈ s.releases, ∀ q ∈ s.held, q.1 = p.1 → q.2 = p.2
  failed : s.failed = false

/-- A call of `geti` from `repeat` on, with the state it begins in. -/
def enters (s : Sys) : Event → Option (Sys × Key × Nat)
  | .readi key => some (s, key, 8)
  | .wake k ok _ =>
      match s.calls[k]? with
      | some (.await i n key) =>
          if (s.slot i).locked then none else some (s.dropcall k, key, n)
      | some (.flush i n key) => some ((s.dropcall k).wrote i ok, key, n)
      | _ => none
  | _ => none

/-- In front of every slot under release that the scan could take it stops. -/
def Sheltered (s : Sys) (key : Key) (candidates : Nat) : Prop :=
  s.findi key = none → ∀ i, s.releasing i = true → (s.slot i).Takeable →
    ¬ Reached s.slot candidates s.freeq i

def Fine (s : Sys) (e : Event) : Prop :=
  ∀ t key n, s.enters e = some (t, key, n) → t.Sheltered key n

/-! ## The invariant -/

/-- The count of a slot is that of its references; `x` are those in the hands of the call
that runs. -/
structure Inv (s : Sys) (x : List (Nat × Key)) : Prop where
  refcnt : ∀ i, (s.slot i).refcnt = ((x ++ s.held).map Prod.fst).count i
  key : ∀ p ∈ x ++ s.held, (s.slot p.1).key = p.2
  hashed : ∀ p ∈ x ++ s.held, p.1 ∈ s.hashq
  freeq : ∀ i ∈ s.freeq, i ∈ s.hashq
  kept : ∀ p ∈ s.releases, (s.slot p.1).key = p.2
  failed : s.failed = false

variable {s t : Sys} {x y : List (Nat × Key)} {i k n : Nat} {key : Key} {c : Call}
  {f : Slot → Slot}

theorem Inv.safe (h : Inv s x) : Safe s := by
  refine ⟨h.kept, fun p hp q hq heq => ?_, h.failed⟩
  rw [← h.kept p hp, ← heq]
  exact (h.key q (mem_append_right _ hq)).symm

theorem releasing_iff : s.releasing i = true ↔ ∃ key, (i, key) ∈ s.releases := by
  unfold releasing releases
  simp only [any_eq_true, mem_filterMap, beq_iff_eq]
  constructor
  · rintro ⟨c, hc, hrel⟩
    obtain ⟨p, hp, rfl⟩ := Option.map_eq_some_iff.mp hrel
    exact ⟨p.2, c, hc, hp⟩
  · rintro ⟨key, c, hc, hrel⟩
    exact ⟨c, hc, by rw [hrel]; rfl⟩

/-- Counts and keys stay, and the references change hands. -/
theorem Inv.move (h : Inv s x) (hrefcnt : ∀ i, (t.slot i).refcnt = (s.slot i).refcnt)
    (hkey : ∀ i, (t.slot i).key = (s.slot i).key) (hhash : t.hashq = s.hashq)
    (hfree : ∀ i ∈ t.freeq, i ∈ s.hashq) (hheld : (y ++ t.held).Perm (x ++ s.held))
    (hrel : ∀ p ∈ t.releases, p ∈ s.releases ∨ (s.slot p.1).key = p.2)
    (hfailed : t.failed = s.failed) : Inv t y where
  refcnt i := by rw [hrefcnt, h.refcnt, (hheld.map Prod.fst).count_eq]
  key p hp := by rw [hkey, h.key p (hheld.mem_iff.mp hp)]
  hashed p hp := by rw [hhash]; exact h.hashed p (hheld.mem_iff.mp hp)
  freeq i hi := by rw [hhash]; exact hfree i hi
  kept p hp := by
    rw [hkey]
    rcases hrel p hp with hold | hnew
    · exact h.kept p hold
    · exact hnew
  failed := by rw [hfailed]; exact h.failed

theorem upd_same {β : Type*} (p : Slot → β) (hf : ∀ y, p (f y) = p y) (s : Sys) (i j : Nat) :
    p ((s.upd i f).slot j) = p (s.slot j) :=
  Cache.upd_same p hf s.toCache i j

theorem Inv.upd (h : Inv s x) (hrefcnt : ∀ y, (f y).refcnt = y.refcnt)
    (hkey : ∀ y, (f y).key = y.key) : Inv (s.upd i f) x :=
  h.move (fun j => upd_same Slot.refcnt hrefcnt s i j)
    (fun j => upd_same Slot.key hkey s i j) rfl h.freeq (.refl _)
    (fun _ hp => .inl hp) rfl

theorem Inv.give (h : Inv s ((i, key) :: x)) : Inv (s.give i key) x :=
  h.move (fun _ => rfl) (fun _ => rfl) rfl h.freeq perm_middle (fun _ hp => .inl hp) rfl

theorem Inv.addcall (h : Inv s (c.holds.toList ++ x))
    (hrel : ∀ p, c.releases = some p → (s.slot p.1).key = p.2) : Inv (s.addcall c) x := by
  refine h.move (fun _ => rfl) (fun _ => rfl) rfl h.freeq ?_ (fun p hp => ?_) rfl
  · have hheld : (s.addcall c).held.Perm (c.holds.toList ++ s.held) := by
      unfold held Sys.addcall
      rw [filterMap_cons]
      cases c.holds with
      | none => exact .refl _
      | some p => exact perm_middle
    calc x ++ (s.addcall c).held
      _ |>.Perm (x ++ (c.holds.toList ++ s.held)) := hheld.append_left x
      _ |>.Perm (c.holds.toList ++ x ++ s.held) := by
        rw [← append_assoc]
        exact perm_append_comm.append_right _
  · unfold releases Sys.addcall at hp
    obtain ⟨c', hc', hrel'⟩ := mem_filterMap.mp hp
    rcases mem_cons.mp hc' with rfl | hc'
    · exact .inr (hrel p hrel')
    · exact .inl (mem_filterMap.mpr ⟨c', hc', hrel'⟩)

theorem Inv.unfree (h : Inv s x) (i : Nat) : Inv { s with freeq := s.freeq.erase i } x :=
  h.move (fun _ => rfl) (fun _ => rfl) rfl (fun j hj => h.freeq j (mem_of_mem_erase hj))
    (.refl _) (fun _ hp => .inl hp) rfl

theorem hold_key (s : Sys) (i j : Nat) : ((s.hold i).slot j).key = (s.slot j).key := by
  exact upd_same Slot.key (fun _ => by rfl) s i j

theorem Inv.hold (h : Inv s x) (hi : i ∈ s.hashq) (hkey : (s.slot i).key = key) :
    Inv (s.hold i) ((i, key) :: x) where
  refcnt j := by
    unfold Sys.hold Sys.upd
    rw [Cache.upd_slot, cons_append, map_cons]
    by_cases hj : j = i
    · subst hj
      rw [if_pos rfl, count_cons_self]
      exact congrArg (· + 1) (h.refcnt j)
    · rw [if_neg hj, count_cons_of_ne (Ne.symm hj)]
      exact h.refcnt j
  key p hp := by
    rw [hold_key]
    rcases mem_cons.mp hp with rfl | hp
    · exact hkey
    · exact h.key p hp
  hashed p hp := by
    rcases mem_cons.mp hp with rfl | hp
    · exact hi
    · exact h.hashed p hp
  freeq := h.freeq
  kept p hp := by
    rw [hold_key]
    exact h.kept p hp
  failed := h.failed

/-- `lose` takes one off the count. -/
theorem Inv.unhold (h : Inv s ((i, key) :: x)) :
    Inv (s.upd i fun y => { y with refcnt := y.refcnt - 1 }) x := by
  have hsame : ∀ j, ((s.upd i fun y => { y with refcnt := y.refcnt - 1 }).slot j).key =
      (s.slot j).key := fun j => upd_same Slot.key (fun _ => by rfl) s i j
  refine ⟨fun j => ?_, fun p hp => ?_, fun p hp => h.hashed p (mem_cons_of_mem _ hp),
    h.freeq, fun p hp => ?_, h.failed⟩
  · have hcount := h.refcnt j
    rw [cons_append, map_cons] at hcount
    unfold Sys.upd
    rw [Cache.upd_slot]
    by_cases hj : j = i
    · subst hj
      rw [count_cons_self] at hcount
      rw [if_pos rfl]
      exact congrArg (· - 1) hcount
    · rw [count_cons_of_ne (Ne.symm hj)] at hcount
      rw [if_neg hj]
      exact hcount
  · rw [hsame]
    exact h.key p (mem_cons_of_mem _ hp)
  · rw [hsame]
    exact h.kept p hp

/-- A slot that nobody holds or releases gets another key. -/
theorem Inv.take (h : Inv s x) (hrefcnt : (s.slot i).refcnt = 0) (hi : i ∈ s.freeq)
    (hrel : s.releasing i = false) : Inv (s.take i key) ((i, key) :: x) := by
  have hfree : ∀ p ∈ x ++ s.held, p.1 ≠ i := by
    intro p hp heq
    have hcount := h.refcnt i
    rw [hrefcnt, eq_comm, List.count_eq_zero] at hcount
    exact hcount (mem_map.mpr ⟨p, hp, heq⟩)
  have hmem : ∀ j, j ∈ s.hashq → j ∈ i :: s.hashq.erase i := by
    intro j hj
    by_cases hji : j = i
    · rw [hji]
      exact mem_cons_self
    · exact mem_cons_of_mem _ ((mem_erase_of_ne hji).mpr hj)
  refine ⟨fun j => ?_, fun p hp => ?_, fun p hp => ?_, fun j hj => ?_, fun p hp => ?_, ?_⟩
  · unfold Sys.take Cache.take
    rw [Cache.upd_slot, cons_append, map_cons]
    by_cases hj : j = i
    · subst hj
      rw [if_pos rfl, count_cons_self]
      exact congrArg (· + 1) (h.refcnt j)
    · rw [if_neg hj, count_cons_of_ne (Ne.symm hj)]
      exact h.refcnt j
  · unfold Sys.take Cache.take
    rw [Cache.upd_slot]
    rcases mem_cons.mp hp with rfl | hp
    · rw [if_pos rfl]
      rfl
    · rw [if_neg (hfree p hp)]
      exact h.key p hp
  · rcases mem_cons.mp hp with rfl | hp
    · exact mem_cons_self
    · exact hmem _ (h.hashed p hp)
  · exact hmem _ (h.freeq j (mem_of_mem_erase hj))
  · have hne : p.1 ≠ i := by
      intro heq
      have hyes : s.releasing i = true := releasing_iff.mpr ⟨p.2, heq ▸ hp⟩
      rw [hrel] at hyes
      cases hyes
    unfold Sys.take Cache.take
    rw [Cache.upd_slot, if_neg hne]
    exact h.kept p hp
  · unfold Sys.take
    rw [h.failed, hrel]
    rfl

/-! ## Every operation keeps it -/

theorem Inv.got (h : Inv s ((i, key) :: x)) : Inv (s.got i key) x := by
  unfold Sys.got
  split
  · exact h.give
  split
  · exact h.addcall nofun
  · have hlock : Inv (s.upd i fun x => { x with locked := true }) ((i, key) :: x) :=
      h.upd (fun _ => rfl) fun _ => rfl
    exact hlock.addcall nofun

theorem Inv.released (h : Inv s x) : Inv (s.released i) x := by
  unfold Sys.released
  split
  · exact h
  · exact h.upd (fun _ => rfl) fun _ => rfl

theorem Inv.truncate (h : Inv s x) (hkey : (s.slot i).key = key) : Inv (s.truncate i key) x := by
  have hrel : ∀ {c : Call} {p}, c.releases = some p → c.releases = some (i, key) →
      (s.slot p.1).key = p.2 := by
    intro c p hp hc
    rw [hc] at hp
    cases hp
    exact hkey
  unfold Sys.truncate
  split
  · exact h.released
  split
  · exact h.addcall fun p hp => hrel hp rfl
  · exact h.addcall fun p hp => hrel hp rfl

theorem Inv.tofree (h : Inv s x) (hi : i ∈ s.hashq) : Inv (s.tofree i) x := by
  unfold Sys.tofree
  split
  · exact h
  · refine h.move (fun _ => rfl) (fun _ => rfl) rfl (fun j hj => ?_) (.refl _)
      (fun _ hp => .inl hp) rfl
    rcases mem_append.mp hj with hj | hj
    · exact h.freeq j hj
    · rw [mem_singleton.mp hj]
      exact hi

theorem tofree_slot (s : Sys) (i : Nat) : (s.tofree i).slot = s.slot := by
  unfold Sys.tofree
  split
  · rfl
  · rfl

theorem Inv.lose (h : Inv s ((i, key) :: x)) : Inv (s.lose i key) x := by
  unfold Sys.lose
  dsimp only
  split
  · exact h.unhold
  have hfree := h.unhold.tofree (h.hashed (i, key) mem_cons_self)
  split
  · exact hfree
  split
  · exact hfree
  · refine hfree.truncate ?_
    rw [tofree_slot]
    unfold Sys.upd
    rw [Cache.upd_slot, if_pos rfl]
    exact h.key (i, key) mem_cons_self

theorem Inv.geti (h : Inv s x) (hsheltered : s.Sheltered key n) : Inv (s.geti key n) x := by
  unfold Sys.geti
  split
  · next i hfind =>
    obtain ⟨hi, hkey⟩ := Cache.findi_some hfind
    have hhold := h.hold hi hkey
    dsimp only
    split
    · exact hhold.addcall nofun
    · exact (hhold.unfree i).got
  · next hfind =>
    split
    · exact h
    · exact h.addcall nofun
    · next i n _ =>
      have hlock : Inv (s.upd i fun x => { x with locked := true }) x :=
        h.upd (fun _ => rfl) fun _ => rfl
      exact hlock.addcall nofun
    · next i hscan =>
      obtain ⟨htake, hreached⟩ := (scan_take _ _).mp hscan
      have hrel : s.releasing i = false := by
        rw [← Bool.not_eq_true]
        exact fun hrel => hsheltered hfind i hrel htake hreached
      exact (h.take htake.refcnt hreached.mem hrel).got

theorem Inv.wrote (h : Inv s x) (ok : Bool) : Inv (s.wrote i ok) x :=
  h.upd (fun _ => rfl) fun _ => rfl

theorem Inv.syncwrite (h : Inv s ((i, key) :: x)) : Inv (s.syncwrite i key) x := by
  unfold Sys.syncwrite
  split
  · exact h.lose
  · have hlock : Inv (s.upd i fun x => { x with locked := true }) ((i, key) :: x) :=
      h.upd (fun _ => rfl) fun _ => rfl
    exact hlock.addcall nofun

/-! ## Steps -/

/-- The call that goes on has its reference in its hands. -/
theorem Inv.dropcall (h : Inv s x) (hc : s.calls[k]? = some c) :
    Inv (s.dropcall k) (c.holds.toList ++ x) ∧
      ∀ p, c.releases = some p → (s.slot p.1).key = p.2 := by
  obtain ⟨hk, rfl⟩ := List.getElem?_eq_some_iff.mp hc
  have hperm : (s.calls[k] :: s.calls.eraseIdx k).Perm s.calls := getElem_cons_eraseIdx_perm hk
  constructor
  · refine h.move (fun _ => rfl) (fun _ => rfl) rfl h.freeq ?_ (fun p hp => .inl ?_) rfl
    · have hheld : (s.calls[k].holds.toList ++ (s.dropcall k).held).Perm s.held := by
        have hcalls := hperm.filterMap Call.holds
        have hcons : (s.calls[k] :: s.calls.eraseIdx k).filterMap Call.holds =
            s.calls[k].holds.toList ++ (s.calls.eraseIdx k).filterMap Call.holds := by
          rw [filterMap_cons]
          cases s.calls[k].holds with
          | none => rfl
          | some p => rfl
        rw [hcons] at hcalls
        unfold held Sys.dropcall
        refine .trans ?_ (hcalls.append_left _)
        rw [← append_assoc, ← append_assoc]
        exact perm_append_comm.append_right _
      rw [append_assoc]
      refine .trans ?_ (hheld.append_left x)
      rw [← append_assoc, ← append_assoc]
      exact perm_append_comm.append_right _
    · obtain ⟨c, hc, hrel⟩ := mem_filterMap.mp hp
      exact mem_filterMap.mpr ⟨c, mem_of_mem_eraseIdx hc, hrel⟩
  · intro p hp
    exact h.kept p (mem_filterMap.mpr ⟨_, getElem_mem hk, hp⟩)

theorem Inv.droprefs (h : Inv s x) {g : Handle} (hg : s.refs[k]? = some g) :
    Inv { s with refs := s.refs.eraseIdx k } ((g.slot, g.key) :: x) := by
  obtain ⟨hk, rfl⟩ := List.getElem?_eq_some_iff.mp hg
  have hperm : (s.refs[k] :: s.refs.eraseIdx k).Perm s.refs := getElem_cons_eraseIdx_perm hk
  refine h.move (fun _ => rfl) (fun _ => rfl) rfl h.freeq ?_ (fun _ hp => .inl hp) rfl
  have hrefs := hperm.map fun g : Handle => (g.slot, g.key)
  refine .trans ?_ ((hrefs.append_right _).append_left x)
  exact perm_middle.symm

/-- `rwlock` of a reference is locked or unlocked. -/
theorem Inv.setrwlock (h : Inv s x) {g : Handle} (hg : s.refs[k]? = some g) (b : Bool) :
    Inv { s with refs := s.refs.set k { g with rwlock := b } } x := by
  obtain ⟨hk, rfl⟩ := List.getElem?_eq_some_iff.mp hg
  refine h.move (fun _ => rfl) (fun _ => rfl) rfl h.freeq ?_ (fun _ hp => .inl hp) rfl
  have hsame : (s.refs.set k { s.refs[k] with rwlock := b }).map (fun g => (g.slot, g.key)) =
      s.refs.map fun g => (g.slot, g.key) := by
    have hlen : k < (s.refs.map fun g : Handle => (g.slot, g.key)).length := by
      rw [length_map]
      exact hk
    have hself := set_getElem_self hlen
    rw [getElem_map] at hself
    rw [map_set]
    exact hself
  unfold held
  rw [hsame]

/-- A call that goes on, with the reference in its hands. -/
theorem Inv.resume {ok : Bool} {di : Dinode} (h : Inv s c.holds.toList)
    (hrel : ∀ p, c.releases = some p → (s.slot p.1).key = p.2)
    (hawait : ∀ i n key, c = .await i n key → (s.slot i).locked = false → s.Sheltered key n)
    (hflush : ∀ i n key, c = .flush i n key → (s.wrote i ok).Sheltered key n)
    (hstep : s.resume c ok di = some t) : Inv t [] := by
  cases c with
  | hit i key =>
      unfold Sys.resume at hstep
      dsimp only at hstep
      split at hstep
      · cases hstep
      · cases hstep
        have hone : Inv s [(i, key)] := h
        exact (hone.unfree i).got
  | await i n key =>
      unfold Sys.resume at hstep
      dsimp only at hstep
      split at hstep
      · cases hstep
      · next hfree =>
        cases hstep
        exact h.geti (hawait i n key rfl (Bool.not_eq_true _ ▸ hfree))
  | flush i n key =>
      cases hstep
      exact (h.wrote ok).geti (hflush i n key rfl)
  | readlock i key =>
      unfold Sys.resume at hstep
      dsimp only at hstep
      split at hstep
      · cases hstep
      · cases hstep
        have hone : Inv s [(i, key)] := h
        exact hone.got
  | read i key =>
      have hone : Inv s [(i, key)] := h
      unfold Sys.resume at hstep
      dsimp only at hstep
      split at hstep
      · cases hstep
        have hread : Inv (s.upd i fun x =>
            { x with locked := false, state := .clean, di := di }) [(i, key)] :=
          hone.upd (fun _ => rfl) fun _ => rfl
        exact hread.give
      · cases hstep
        have hread : Inv (s.upd i fun x => { x with locked := false }) [(i, key)] :=
          hone.upd (fun _ => rfl) fun _ => rfl
        exact hread.lose
  | synclock i key =>
      unfold Sys.resume at hstep
      dsimp only at hstep
      split at hstep
      · cases hstep
      · cases hstep
        have hone : Inv s [(i, key)] := h
        exact hone.syncwrite
  | sync i key =>
      cases hstep
      have hone : Inv s [(i, key)] := h
      exact (hone.wrote ok).lose
  | wlock i key =>
      unfold Sys.resume at hstep
      dsimp only at hstep
      split at hstep
      · cases hstep
      · cases hstep
        exact h.addcall fun p hp => hrel p hp
  | trunc i key =>
      cases hstep
      have hempty : Inv (s.upd i fun x =>
          { x with
            state := if ok then .dirty else x.state
            di := { x.di with rest := di.rest } }) [] :=
        h.upd (fun _ => rfl) fun _ => rfl
      exact hempty.released

/-- **Step lemma.** -/
theorem Inv.step {e : Event} (h : Inv s []) (hfine : s.Fine e) (hstep : s.step e = some t) :
    Inv t [] := by
  cases e with
  | readi key =>
      cases hstep
      exact h.geti (hfine s key 8 rfl)
  | lose k =>
      obtain ⟨g, hg, hstep⟩ := Option.bind_eq_some_iff.mp hstep
      split at hstep
      · cases hstep
      · cases hstep
        exact (h.droprefs hg).lose
  | setdirty | setmount =>
      obtain ⟨g, -, rfl⟩ := Option.map_eq_some_iff.mp hstep
      exact h.upd (fun _ => rfl) fun _ => rfl
  | rwlock k =>
      obtain ⟨g, hg, hstep⟩ := Option.bind_eq_some_iff.mp hstep
      split at hstep
      · cases hstep
      · cases hstep
        exact h.setrwlock hg true
  | rwunlock k =>
      obtain ⟨g, hg, rfl⟩ := Option.map_eq_some_iff.mp hstep
      exact h.setrwlock hg false
  | synci i =>
      unfold Sys.step at hstep
      dsimp only at hstep
      split at hstep
      · next hi =>
        cases hstep
        have hhold := h.hold hi rfl
        split
        · exact hhold.addcall nofun
        · exact hhold.syncwrite
      · cases hstep
  | invali fs =>
      cases hstep
      refine h.move (fun i => ?_) (fun i => ?_) rfl h.freeq (.refl _) (fun _ hp => .inl hp) rfl
      · dsimp only
        split
        · rfl
        · rfl
      · dsimp only
        split
        · rfl
        · rfl
  | wake k ok di =>
      obtain ⟨c, hc, hstep⟩ := Option.bind_eq_some_iff.mp hstep
      obtain ⟨hdrop, hrel⟩ := h.dropcall hc
      rw [append_nil] at hdrop
      refine hdrop.resume hrel (fun i n key hcall hfree => ?_) (fun i n key hcall => ?_) hstep
      · refine hfine _ key n ?_
        unfold enters
        dsimp only
        rw [hc, hcall]
        exact if_neg (Bool.not_eq_true _ ▸ hfree)
      · refine hfine _ key n ?_
        unfold enters
        dsimp only
        rw [hc, hcall]

/-! ## A scan that takes a slot under release -/

theorem got_key (s : Sys) (i : Nat) (key : Key) (j : Nat) :
    ((s.got i key).slot j).key = (s.slot j).key := by
  unfold Sys.got
  split
  · rfl
  split
  · rfl
  · unfold Sys.addcall
    dsimp only
    exact upd_same Slot.key (fun _ => by rfl) s i j

theorem got_releases {p : Nat × Key} (hp : p ∈ s.releases) : p ∈ (s.got i key).releases := by
  have hcons : ∀ u : Sys, u.releases = s.releases → ∀ c, p ∈ (u.addcall c).releases := by
    intro u hu c
    rw [← hu] at hp
    obtain ⟨c', hc', hrel⟩ := mem_filterMap.mp hp
    exact mem_filterMap.mpr ⟨c', mem_cons_of_mem _ hc', hrel⟩
  unfold Sys.got
  split
  · exact hp
  split
  · exact hcons _ rfl _
  · exact hcons _ rfl _

theorem geti_unsafe (h : Inv s x) (hnot : ¬ s.Sheltered key n) : ¬ Safe (s.geti key n) := by
  intro hsafe
  refine hnot fun hfind i hrel htake hreached => ?_
  obtain ⟨old, hold⟩ := releasing_iff.mp hrel
  have hkey : ((s.slot i).key) = old := h.kept _ hold
  have hne : (s.slot i).key ≠ key := Cache.findi_none hfind (h.freeq i hreached.mem)
  have hgeti : s.geti key n = (s.take i key).got i key := by
    unfold Sys.geti
    rw [hfind]
    rw [(scan_take _ _).mpr ⟨htake, hreached⟩]
  have hkept := hsafe.key (i, old) (hgeti ▸ got_releases hold)
  rw [hgeti, got_key] at hkept
  have hnew : ((s.take i key).slot i).key = key := by
    unfold Sys.take Cache.take
    rw [Cache.upd_slot, if_pos rfl]
    rfl
  exact hne (hkey.trans (hkept.symm.trans hnew))

/-- An event with a call of `geti` is that call from its state on. -/
theorem enters_step {e : Event} (h : Inv s []) (hsome : s.enters e = some (t, key, n)) :
    s.step e = some (t.geti key n) ∧ ∃ x, Inv t x := by
  unfold enters at hsome
  split at hsome
  · cases hsome
    exact ⟨rfl, [], h⟩
  · next k ok di =>
    split at hsome
    · next i n' key' hc =>
      split at hsome
      · cases hsome
      · next hfree =>
        cases hsome
        refine ⟨?_, _, (h.dropcall hc).1⟩
        unfold Sys.step
        dsimp only
        rw [hc, Option.bind_some]
        exact if_neg hfree
    · next i n' key' hc =>
      cases hsome
      refine ⟨?_, _, (h.dropcall hc).1.wrote ok⟩
      unfold Sys.step
      dsimp only
      rw [hc, Option.bind_some]
      rfl
    · cases hsome
  · cases hsome

theorem boot_inv (n : Nat) (fsdev : Nat → Nat) : Inv (boot n fsdev) [] :=
  ⟨fun _ => rfl, fun _ hp => absurd hp not_mem_nil, fun _ hp => absurd hp not_mem_nil,
    fun _ hi => hi, fun _ hp => absurd hp not_mem_nil, rfl⟩

end Sys

end Unixlite.Fs.Icache
