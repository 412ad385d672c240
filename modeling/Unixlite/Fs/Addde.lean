import Unixlite.Fs.Scandir
import Unixlite.Verified.Run

/-!
# A directory is a finite map

`addde` puts an entry into the first free place, and makes one more place at the end when
there is none.  The new place may begin a block, which comes with what it had in it.  As long
as the block can be had, a directory is the finite map from its names to its inode numbers
(`dir_map`).  When the block cannot be had, the loop of `addde` ends where it should not
(`addde_full`).
-/

namespace Unixlite.Fs.Dirino

open Verified Option List

variable {s s' : Dirino} {k : Nat} {name : Name} {newino : Nat} {p : Bno} {m : Regmap}

/-! ## The loop -/

/-- The places before the first free one are not free. -/
theorem free_min (hfree : s.entries.free = some k) :
    k < s.size / 32 ∧ (s.de k).isfree = true ∧ ∀ j < k, (s.de j).isfree = false := by
  obtain ⟨hlt, hnone, hmin⟩ := List.findIdx?_eq_some_iff_getElem.mp hfree
  have hk : k < s.size / 32 := by rwa [length_entries] at hlt
  have hget : ∀ j (hj : j < s.entries.length), s.entries[j] = (s.de j).entry := by
    intro j hj
    have hget := getElem?_entries (s := s) (k := j) (by rwa [length_entries] at hj)
    rw [List.getElem?_eq_getElem hj] at hget
    exact some.inj hget
  refine ⟨hk, ?_, fun j hj => ?_⟩
  · rw [hget k hlt, isNone_iff_eq_none] at hnone
    exact (Rawde.isfree_iff _).mpr hnone
  · have hj' := hmin j hj
    rw [hget j (by omega)] at hj'
    rw [Bool.eq_false_iff, Ne, Rawde.isfree_iff]
    intro hentry
    rw [hentry] at hj'
    exact hj' rfl

theorem free_none (hfree : s.entries.free = none) (hk : k < s.size / 32) :
    (s.de k).isfree = false := by
  have hnot := List.findIdx?_eq_none_iff.mp hfree _ (mem_of_getElem? (getElem?_entries hk))
  rw [Bool.eq_false_iff, Ne, Rawde.isfree_iff]
  intro hentry
  rw [hentry] at hnot
  cases hnot

/-- The loop goes over what is not free. -/
theorem Whole.addloop_live (h : Whole s) (n : Nat) : ∀ {k : Nat} {b : Option Bno}, At s k b →
    k + n < s.size / 32 → (∀ j, k ≤ j → j < k + n → (s.de j).isfree = false) →
      addloop s (32 * k) b false =
        addloop s (32 * (k + n)) (some (s.map.blockAt ((k + n) / 32))) false := by
  induction n with
  | zero =>
      intro k b hat hk _
      rw [hat (by omega)]
      rfl
  | succ n ih =>
      intro k b hat hk hlive
      have hde : (s.slot (s.map.blockAt (k / 32)) (index (32 * k))).isfree = false := by
        rw [index_eq]
        exact hlive k (Nat.le_refl k) (by omega)
      obtain ⟨b', hnext, hat'⟩ := h.next true k
      rw [addloop.eq_def, if_pos (by omega), hat (by omega)]
      dsimp only
      rw [hde, if_neg Bool.false_ne_true, if_neg (by omega), hnext]
      rw [ih hat' (by omega) fun j hj hj' => hlive j (by omega) (by omega),
        Nat.add_right_comm, Nat.add_assoc]

/-- From the beginning. -/
theorem Whole.freede_live (h : Whole s) (hk : k < s.size / 32)
    (hlive : ∀ j < k, (s.de j).isfree = false) :
    s.freede = addloop s (32 * k) (some (s.map.blockAt (k / 32))) false := by
  obtain ⟨b, hadvance, hat⟩ := h.advance true 0
  unfold freede
  rw [hadvance]
  rw [h.addloop_live k hat (by omega) fun j _ hj => hlive j (by omega), Nat.zero_add]

/-- A free place is taken. -/
theorem Whole.freede_reuse (h : Whole s) (hfree : s.entries.free = some k) :
    s.freede = some (s, s.place k) := by
  obtain ⟨hk, hde, hlive⟩ := free_min hfree
  have hde' : (s.slot (s.map.blockAt (k / 32)) (index (32 * k))).isfree = true := by
    rw [index_eq]
    exact hde
  rw [h.freede_live hk hlive, addloop.eq_def, if_pos (by omega)]
  dsimp only
  rw [hde', if_pos rfl, index_eq]
  rfl

/-- The directory with one more place. -/
def grown (s : Dirino) : Dirino := { s with size := s.size + 32 }

theorem lt_grown (s : Dirino) : s.size < s.grown.size := Nat.lt_add_of_pos_right (by decide)

/-- No place is free: the loop has come to the new one. -/
theorem Whole.freede_grow (h : Whole s) (hfree : s.entries.free = none) :
    s.freede =
      let z := Dirino.next true s.grown (s.size - 32) (s.map.blockAt ((s.size / 32 - 1) / 32))
      addloop z.1 z.2.1 z.2.2 true := by
  have hpos := h.pos
  have hsize := h.size_eq
  have hlast : (s.slot (s.map.blockAt ((s.size / 32 - 1) / 32))
      (index (32 * (s.size / 32 - 1)))).isfree = false := by
    rw [index_eq]
    exact free_none hfree (by omega)
  rw [h.freede_live (k := s.size / 32 - 1) (by omega) fun j hj => free_none hfree (by omega),
    addloop.eq_def, if_pos (by omega)]
  dsimp only
  rw [hlast, if_neg Bool.false_ne_true, if_pos (by omega),
    show 32 * (s.size / 32 - 1) = s.size - 32 by omega]
  rfl

/-- The new place. -/
def cleared (s : Dirino) (p : Bno) (i : Nat) : Dirino :=
  s.setde p i { s.slot p i with ino := 0 }

/-- The new place is in the last block. -/
theorem Whole.freede_same (h : Whole s) (hfree : s.entries.free = none) (hmod : s.size % 1024 ≠ 0) :
    s.freede = some (s.grown.cleared (s.map.blockAt (s.size / 32 / 32)) (s.size / 32 % 32),
      s.place (s.size / 32)) := by
  have hsize := h.size_eq
  have hnext : Dirino.next true s.grown (s.size - 32) (s.map.blockAt ((s.size / 32 - 1) / 32)) =
      (s.grown, s.size, some (s.map.blockAt (s.size / 32 / 32))) := by
    unfold Dirino.next bnomod
    rw [show s.size - 32 + 32 = s.size by omega]
    rw [if_pos hmod, show (s.size / 32 - 1) / 32 = s.size / 32 / 32 by omega]
  have hindex : index s.size = s.size / 32 % 32 := by
    unfold index bnomod
    omega
  rw [h.freede_grow hfree, hnext]
  rw [addloop.eq_def, if_pos (lt_grown s)]
  rw [hindex]
  rfl

/-- The new place begins a block. -/
theorem Whole.next_block (h : Whole s) (hmod : s.size % 1024 = 0) :
    Dirino.next true s.grown (s.size - 32) (s.map.blockAt ((s.size / 32 - 1) / 32)) =
      Dirino.advance true s.grown s.size := by
  have hpos := h.pos
  unfold Dirino.next bnomod
  rw [show s.size - 32 + 32 = s.size by omega]
  rw [if_neg (not_not.mpr hmod)]

theorem look_grown (hmap : s.map.writemap (s.size / 1024) = (.ok p, m)) (hbad : s.bad p = false) :
    look true s.grown (bnodiv s.size) = ({ s.grown with map := m }, some p) := by
  have hmap' : s.grown.map.writemap (bnodiv s.size) = (.ok p, m) := hmap
  have hbad' : s.grown.bad p = false := hbad
  unfold look
  rw [if_pos rfl, hmap']
  dsimp only
  rw [hbad']
  rfl

theorem Whole.freede_block (h : Whole s) (hfree : s.entries.free = none)
    (hmod : s.size % 1024 = 0) (hmap : s.map.writemap (s.size / 1024) = (.ok p, m))
    (hbad : s.bad p = false) :
    s.freede = some (cleared { s.grown with map := m } p 0, p, 0) := by
  have hindex : index s.size = 0 := by
    unfold index bnomod
    omega
  have hadvance : Dirino.advance true s.grown s.size = ({ s.grown with map := m }, s.size, some p) := by
    rw [Dirino.advance, if_pos (lt_grown s), look_grown hmap hbad]
  rw [h.freede_grow hfree, h.next_block hmod, hadvance]
  rw [addloop.eq_def, if_pos (lt_grown s)]
  rw [hindex]
  rfl

/-- The block of the new place can be had. -/
def Room (s : Dirino) : Prop :=
  s.entries.free = none → s.size % 1024 = 0 →
    ∃ p m, s.map.writemap (s.size / 1024) = (.ok p, m) ∧ s.bad p = false

theorem look_fails (hroom : ¬ ∃ p m, s.map.writemap (s.size / 1024) = (.ok p, m) ∧
    s.bad p = false) : (Dirino.look true s.grown (bnodiv s.size)).2 = none := by
  unfold look
  rw [if_pos rfl]
  cases hmap : s.grown.map.writemap (bnodiv s.size) with
  | mk x m =>
      cases x with
      | error e => rfl
      | ok p =>
          dsimp only
          have hbad : s.bad p = true := by
            rw [← Bool.not_eq_false]
            exact fun hbad => hroom ⟨p, m, hmap, hbad⟩
          have hbad' : s.grown.bad p = true := hbad
          rw [hbad']
          rfl

/-- The loop ends without a place. -/
theorem Whole.freede_full (h : Whole s) (hroom : ¬ Room s) : s.freede = none := by
  unfold Room at hroom
  push Not at hroom
  obtain ⟨hfree, hmod, hnone⟩ := hroom
  have hlook := look_fails (s := s) (by push Not; exact hnone)
  have hsize := look_size true s.grown (bnodiv s.size)
  have hround : ¬ roundup2 (s.size + 1023) 1024 < s.grown.size := by
    unfold roundup2 grown
    dsimp only
    omega
  rw [h.freede_grow hfree, h.next_block hmod, Dirino.advance,
    if_pos (lt_grown s)]
  dsimp only
  rw [hlook]
  rw [Dirino.advance, if_neg (by rw [hsize]; exact hround)]
  rw [addloop.eq_def, if_neg (by rw [hsize]; exact hround)]

/-! ## The entries -/

/-- Two places are not one. -/
theorem Whole.place_inj (h : Whole s) {j : Nat} (hj : j < s.size / 32) (hk : k < s.size / 32)
    (heq : s.place j = s.place k) : j = k := by
  obtain ⟨hblock, hindex⟩ := Prod.ext_iff.mp heq
  dsimp only [place] at hblock hindex
  have hdiv : j / 32 = k / 32 :=
    Regmap.blockAt_inj h.good (h.logic_lt (by omega)) (h.logic_lt (by omega))
      (h.there _ (by omega)).1 hblock
  omega

theorem de_setde (s : Dirino) (j : Nat) (b : Bno) (i : Nat) (x : Rawde) :
    (s.setde b i x).de j = if s.place j = (b, i) then x else s.de j := by
  unfold de setde place
  dsimp only
  by_cases hb : s.map.blockAt (j / 32) = b
  · rw [hb, Function.update_self]
    by_cases hi : j % 32 = i
    · rw [hi, Function.update_self, if_pos rfl]
    · rw [Function.update_of_ne hi, if_neg fun heq => hi (Prod.ext_iff.mp heq).2]
  · rw [Function.update_of_ne hb, if_neg fun heq => hb (Prod.ext_iff.mp heq).1]

theorem whole_setde (h : Whole s) (b : Bno) (i : Nat) (x : Rawde) : Whole (s.setde b i x) :=
  ⟨h.isdir, h.good, h.zones, h.pos, h.des, h.there⟩

/-- An entry is written, and no other one. -/
theorem Whole.entries_setde (h : Whole s) (hk : k < s.size / 32) (x : Rawde) :
    (s.setde (s.place k).1 (s.place k).2 x).entries = s.entries.set k x.entry := by
  refine ext_getElem? fun j => ?_
  have hsize : (s.setde (s.place k).1 (s.place k).2 x).size = s.size := rfl
  by_cases hj : j < s.size / 32
  · rw [getElem?_entries (by rwa [hsize]), de_setde, List.getElem?_set, getElem?_entries hj,
      length_entries]
    by_cases hjk : j = k
    · rw [hjk, if_pos rfl, if_pos rfl, if_pos hk]
    · rw [if_neg fun heq => hjk (h.place_inj hj hk heq), if_neg (Ne.symm hjk)]
  · rw [List.getElem?_eq_none, List.getElem?_eq_none]
    · rw [length_set, length_entries]
      omega
    · rw [length_entries, hsize]
      omega

theorem cleared_setde (s : Dirino) (p : Bno) (i : Nat) (x : Rawde) :
    (s.cleared p i).setde p i x = s.setde p i x := by
  unfold cleared setde
  dsimp only
  rw [Function.update_self, Function.update_idem, Function.update_idem]

/-- A directory with one more place, whose other entries are those of `s`. -/
structure Longer (s t : Dirino) : Prop where
  whole : Whole t
  size : t.size = s.size + 32
  de : ∀ j < s.size / 32, t.de j = s.de j

theorem Whole.longer_same (h : Whole s) (hmod : s.size % 1024 ≠ 0) : Longer s s.grown := by
  refine ⟨⟨h.isdir, h.good, h.zones, Nat.lt_of_lt_of_le h.pos (Nat.le_add_right ..), ?_, ?_⟩,
    rfl, fun _ _ => rfl⟩
  · have := h.des
    unfold grown
    dsimp only
    omega
  · intro l hl
    have := h.des
    exact h.there l (by unfold grown at hl; dsimp only at hl; omega)

theorem Whole.longer_block (h : Whole s) (hmod : s.size % 1024 = 0)
    (hmap : s.map.writemap (s.size / 1024) = (.ok p, m)) (hbad : s.bad p = false) :
    Longer s { s.grown with map := m } := by
  have hlogic : s.size / 1024 < MINIXEND3 := h.logic_lt (by omega)
  have hm := Regmap.writemap_mapped h.treed h.good hlogic hmap
  have hother : ∀ l, l * 1024 < s.size → m.blockAt l = s.map.blockAt l := by
    intro l hl
    exact hm.other l (h.logic_lt (Nat.le_of_lt hl)) (by omega)
  refine ⟨⟨?_, hm.good, hm.within _ h.zones, ?_, ?_, ?_⟩, rfl, ?_⟩
  · have := h.isdir
    unfold Regmap.isdir at this ⊢
    rw [hm.mode]
    exact this
  · exact Nat.lt_of_lt_of_le h.pos (Nat.le_add_right ..)
  · unfold grown
    dsimp only
    omega
  · intro l hl
    dsimp only [grown] at hl ⊢
    by_cases hlast : l = s.size / 1024
    · rw [hlast, hm.found]
      exact ⟨hm.used, hbad⟩
    · rw [hother l (by omega)]
      exact h.there l (by omega)
  · intro j hj
    unfold Dirino.de
    dsimp only [grown]
    rw [hother _ (by omega)]

theorem Longer.entries {t : Dirino} (ht : Longer s t) (h : Whole s) :
    t.entries = s.entries ++ [(t.de (s.size / 32)).entry] := by
  unfold Dirino.entries
  rw [ht.size, show (s.size + 32) / 32 = s.size / 32 + 1 by omega, range_succ,
    map_append]
  congr 1
  refine map_congr_left fun j hj => ?_
  rw [ht.de j (mem_range.mp hj)]

/-- No place is free: there is one more, and it is the one that is taken. -/
theorem Whole.freede_new (h : Whole s) (hfree : s.entries.free = none) (hroom : Room s) :
    ∃ t, Longer s t ∧ s.freede = some (t.cleared (t.place (s.size / 32)).1
      (t.place (s.size / 32)).2, t.place (s.size / 32)) := by
  by_cases hmod : s.size % 1024 = 0
  · obtain ⟨p, m, hmap, hbad⟩ := hroom hfree hmod
    have hm := Regmap.writemap_mapped h.treed h.good (h.logic_lt (by omega)) hmap
    refine ⟨_, h.longer_block hmod hmap hbad, ?_⟩
    have hplace : place { s.grown with map := m } (s.size / 32) = (p, 0) := by
      unfold place
      rw [show s.size / 32 / 32 = s.size / 1024 by omega, hm.found,
        show s.size / 32 % 32 = 0 by omega]
    rw [hplace, h.freede_block hfree hmod hmap hbad]
  · exact ⟨_, h.longer_same hmod, h.freede_same hfree hmod⟩

/-- What `freede` gives is filled in. -/
theorem Whole.freede_insert (h : Whole s) (hroom : Room s) (x : Str → Rawde) (ino : Nat)
    (hx : ∀ y, (x y).entry = some (name, ino)) :
    ∃ t b i, s.freede = some (t, b, i) ∧ Whole (t.setde b i (x (t.slot b i).name)) ∧
      (t.setde b i (x (t.slot b i).name)).entries = s.entries.insert name ino := by
  unfold Table.insert
  cases hfree : s.entries.free with
  | some k =>
      refine ⟨s, (s.place k).1, (s.place k).2, h.freede_reuse hfree, whole_setde h _ _ _, ?_⟩
      rw [h.entries_setde (free_min hfree).1, hx]
  | none =>
      obtain ⟨t, ht, hrun⟩ := h.freede_new hfree hroom
      refine ⟨_, (t.place (s.size / 32)).1, (t.place (s.size / 32)).2, hrun, ?_, ?_⟩
      · rw [cleared_setde]
        exact whole_setde ht.whole _ _ _
      · rw [cleared_setde, ht.whole.entries_setde (by rw [ht.size]; omega), ht.entries h, hx,
          set_append_right _ _ (Nat.le_of_eq (length_entries s)), length_entries,
          Nat.sub_self]
        rfl

/-! ## The operations -/

/-- What is done to a directory. -/
inductive Dirop where
  | add (name : Name) (newino : Nat)
  | find (name : Name)
  | remove (name : Name)

/-- An operation, with the inode number that it yields. -/
def apply (s : Dirino) : Dirop → Option (Except Int Nat × Dirino)
  | .add name newino => (s.addde name newino).map fun x =>
      (if x.1 = 0 then .ok newino else .error x.1, x.2)
  | .find name => (s.findde name).map fun x =>
      match x.2 with
      | none => (.error ENOENT, x.1)
      | some y => (.ok (x.1.slot y.1 y.2).ino.toNat, x.1)
  | .remove name => (s.removede name).map fun x =>
      (if x.1 = 0 then .ok 0 else .error x.1, x.2)

def run : List Dirop → Dirino → Option (List (Except Int Nat) × Dirino)
  | [], s => some ([], s)
  | op :: ops, s => (s.apply op).bind fun x => (run ops x.2).map fun y => (x.1 :: y.1, y.2)

/-- Names of 1 to 29 bytes, and numbers of inodes. -/
def Dirop.Ok : Dirop → Prop
  | .add name newino => (name ≠ [] ∧ name.length ≤ MINIXNAMELEN ∧ 0 ∉ name) ∧
      0 < newino ∧ newino < 2 ^ 16
  | .find name => name ≠ [] ∧ name.length ≤ MINIXNAMELEN ∧ 0 ∉ name
  | .remove name => name ≠ [] ∧ name.length ≤ MINIXNAMELEN ∧ 0 ∉ name

/-- Where an entry is added that is not there, its block can be had. -/
def Dirop.Fits (s : Dirino) : Dirop → Prop
  | .add name _ => s.entries.lookup name = none → Room s
  | _ => True

/-! ## The abstract directory -/

/-- An operation on the table of the entries. -/
def tableop (t : Table Name Nat) : Dirop → Except Int Nat × Table Name Nat
  | .add name newino =>
      if (t.lookup name).isSome then (.error EEXIST, t) else (.ok newino, t.insert name newino)
  | .find name => (((t.lookup name).map Except.ok).getD (.error ENOENT), t)
  | .remove name =>
      if (t.lookup name).isSome then (.ok 0, t.erase name) else (.error ENOENT, t)

/-- An operation on a finite map. -/
def mapop (f : Name → Option Nat) : Dirop → Except Int Nat × (Name → Option Nat)
  | .add name newino =>
      if (f name).isSome then (.error EEXIST, f)
      else (.ok newino, fun n => if n = name then some newino else f n)
  | .find name => (((f name).map Except.ok).getD (.error ENOENT), f)
  | .remove name =>
      if (f name).isSome then (.ok 0, fun n => if n = name then none else f n)
      else (.error ENOENT, f)

def runop {σ : Type} (op : σ → Dirop → Except Int Nat × σ) :
    List Dirop → σ → List (Except Int Nat) × σ
  | [], x => ([], x)
  | o :: os, x =>
      let y := runop op os (op x o).2
      ((op x o).1 :: y.1, y.2)

/-- A table without doubles is its map. -/
theorem tableop_map {t : Table Name Nat} (h : t.Unique) (op : Dirop) :
    (tableop t op).2.Unique ∧
      ((tableop t op).1, (tableop t op).2.lookup) = mapop t.lookup op := by
  cases op with
  | add name newino =>
      unfold tableop mapop
      dsimp only
      split_ifs with hsome
      · exact ⟨h, rfl⟩
      · rw [not_isSome_iff_eq_none] at hsome
        refine ⟨Table.unique_insert h hsome newino, ?_⟩
        rw [show (t.insert name newino).lookup = fun n => if n = name then some newino
          else t.lookup n from funext (Table.lookup_insert h hsome newino)]
  | find name => exact ⟨h, rfl⟩
  | remove name =>
      unfold tableop mapop
      dsimp only
      split_ifs with hsome
      · refine ⟨Table.unique_erase h name, ?_⟩
        rw [show (t.erase name).lookup = fun n => if n = name then none else t.lookup n from
          funext (Table.lookup_erase h name)]
      · exact ⟨h, rfl⟩

theorem runop_map {t : Table Name Nat} (ops : List Dirop) (h : t.Unique) :
    (runop tableop ops t).2.Unique ∧
      ((runop tableop ops t).1, (runop tableop ops t).2.lookup) = runop mapop ops t.lookup := by
  induction ops generalizing t with
  | nil => exact ⟨h, rfl⟩
  | cons op ops ih =>
      obtain ⟨hunique, hop⟩ := tableop_map h op
      obtain ⟨hrest, hrun⟩ := ih hunique
      refine ⟨hrest, ?_⟩
      unfold runop
      rw [← hop, ← hrun]

/-! ## One operation -/

theorem Same.room (h : Same s s') (hroom : Room s) : Room s' := by
  unfold Room at hroom ⊢
  rw [h.entries, h.size, h.map, h.bad]
  exact hroom

theorem Same.symm (h : Same s s') : Same s' s :=
  ⟨h.map.symm, h.size.symm, h.bad.symm, fun b i => (h.entry b i).symm⟩

theorem Same.place (h : Same s s') (k : Nat) : s.place k = s'.place k := by
  unfold Dirino.place
  rw [h.map]

theorem lookup_isSome (t : Table Name Nat) (name : Name) :
    (t.lookup name).isSome = (t.find name).isSome := by
  rw [Bool.eq_iff_iff, isSome_iff_ne_none, isSome_iff_ne_none, Ne, Ne,
    Table.lookup_eq_none]

/-- The checks of `addde` turn down what is there. -/
theorem Whole.addcheck (h : Whole s) (hname : name ≠ [] ∧ name.length ≤ MINIXNAMELEN) :
    ∃ s', s.addcheck name =
        some (if (s.entries.lookup name).isSome then EEXIST else 0, s') ∧ Same s s' := by
  obtain ⟨s', hfind, hsame⟩ := h.findde name
  refine ⟨s', ?_, hsame⟩
  unfold Dirino.addcheck
  rw [h.isdir, if_neg (by decide), if_neg (Nat.not_lt.mpr hname.2), if_neg hname.1,
    if_neg (not_not.mpr h.des), hfind, map_some, isSome_map, lookup_isSome]

theorem entry_new (hz : (name ≠ [] ∧ name.length ≤ MINIXNAMELEN ∧ 0 ∉ name)) {ino : Nat}
    (hino : 0 < ino ∧ ino < 2 ^ 16) (y : Str) :
    Rawde.entry ⟨BitVec.ofNat 16 ino, y.set name⟩ = some (name, ino) := by
  have hval : (BitVec.ofNat 16 ino).toNat = ino := by
    rw [BitVec.toNat_ofNat, Nat.mod_eq_of_lt hino.2]
  have hlive : (BitVec.ofNat 16 ino).toNat ≠ MINIXFREEINO := by
    rw [hval]
    exact Nat.ne_of_gt hino.1
  unfold Rawde.entry Rawde.isfree
  rw [beq_false_of_ne hlive, if_neg Bool.false_ne_true, Str.str_set y hz.2.1 hz.2.2, hval]

theorem ino_of_entry {de : Rawde} {v : Nat} (h : de.entry = some (name, v)) : de.ino.toNat = v := by
  unfold Rawde.entry at h
  split_ifs at h
  cases h
  rfl

/-- What is found is what the name is mapped to. -/
theorem find_entry (hu : s.entries.Unique) (hfind : s.entries.find name = some k) :
    k < s.size / 32 ∧ s.entries.lookup name = some (s.de k).ino.toNat := by
  obtain ⟨v, hv⟩ := Table.find_some hfind
  have hk : k < s.size / 32 := by
    rw [← length_entries]
    exact Table.lt_of_entry hv
  have hentry : (s.de k).entry = some (name, v) := by
    rw [← hv, Table.entry, getElem?_entries hk]
    rfl
  exact ⟨hk, by rw [ino_of_entry hentry, (Table.lookup_eq_some hu).mpr ⟨k, hv⟩]⟩

/-- An operation does to the entries what it does to the table. -/
theorem Whole.apply (h : Whole s) (hu : s.entries.Unique) {op : Dirop} (hok : op.Ok)
    (hfits : op.Fits s) :
    ∃ s', s.apply op = some ((tableop s.entries op).1, s') ∧ Whole s' ∧
      s'.entries = (tableop s.entries op).2 := by
  cases op with
  | add name newino =>
      obtain ⟨hname, hino⟩ := hok
      obtain ⟨s₁, hcheck, hsame⟩ := h.addcheck ⟨hname.1, hname.2.1⟩
      unfold Dirino.apply tableop addde
      dsimp only
      rw [hcheck, bind_some]
      by_cases hsome : (s.entries.lookup name).isSome = true
      · rw [if_pos hsome, if_pos hsome]
        exact ⟨s₁, rfl, hsame.whole h, hsame.entries⟩
      · rw [if_neg hsome, if_neg hsome, if_neg (not_not.mpr rfl)]
        obtain ⟨t, b, i, hrun, hwhole, hentries⟩ := (hsame.whole h).freede_insert
          (hsame.room (hfits (not_isSome_iff_eq_none.mp hsome)))
          (fun y => ⟨BitVec.ofNat 16 newino, y.set name⟩) newino (entry_new hname hino)
        rw [hrun, ← hsame.entries]
        exact ⟨_, rfl, hwhole, hentries⟩
  | find name =>
      obtain ⟨s₁, hfind, hsame⟩ := h.findde name
      refine ⟨s₁, ?_, hsame.whole h, hsame.entries⟩
      unfold Dirino.apply tableop
      dsimp only
      rw [hfind]
      cases hplace : s.entries.find name with
      | none =>
          rw [Table.lookup_eq_none.mpr hplace]
          rfl
      | some k =>
          have hlookup := (find_entry (hsame.entries ▸ hu) (hsame.entries ▸ hplace)).2
          rw [hsame.entries] at hlookup
          rw [hlookup, map_some, map_some, hsame.place k]
          rfl
  | remove name =>
      obtain ⟨s₁, hfind, hsame⟩ := h.findde name
      unfold Dirino.apply tableop removede Table.erase
      dsimp only
      rw [hfind, lookup_isSome]
      cases hplace : s.entries.find name with
      | none => exact ⟨s₁, rfl, hsame.whole h, hsame.entries⟩
      | some k =>
          refine ⟨_, rfl, whole_setde (hsame.whole h) _ _ _, ?_⟩
          have hk := (find_entry hu hplace).1
          have hset := (hsame.whole h).entries_setde (k := k) (by rwa [hsame.size])
            { s₁.slot (s₁.place k).1 (s₁.place k).2 with ino := 0 }
          rw [hsame.entries] at hset
          rw [map_some, hsame.place k]
          exact hset

/-! ## Runs -/

/-- **A directory is a finite map.**  As long as there are blocks, every run of `addde`,
`findde` and removals does to the entries what it does to the table: an entry goes to the first
free place, or to one more place at the end.  To a name it gives what the finite map gives. -/
theorem dir_map (h : Whole s) (hu : s.entries.Unique) (ops : List Dirop)
    (hok : ∀ op ∈ ops, op.Ok)
    (hroom : Run.Each (fun s op => (s.apply op).map Prod.snd) (fun s op => op.Fits s) s ops) :
    ∃ rs s', run ops s = some (rs, s') ∧ Whole s' ∧ s'.entries.Unique ∧
      (rs, s'.entries) = runop tableop ops s.entries ∧
      (rs, s'.entries.lookup) = runop mapop ops s.entries.lookup := by
  suffices htable : ∃ rs s', run ops s = some (rs, s') ∧ Whole s' ∧
      (rs, s'.entries) = runop tableop ops s.entries by
    obtain ⟨rs, s', hrun, hwhole, heq⟩ := htable
    obtain ⟨hunique, hmap⟩ := runop_map ops hu
    rw [← heq] at hunique hmap
    exact ⟨rs, s', hrun, hwhole, hunique, heq, hmap⟩
  induction ops generalizing s with
  | nil => exact ⟨[], s, rfl, h, rfl⟩
  | cons op ops ih =>
      obtain ⟨s₁, happly, hwhole, hentries⟩ := h.apply hu (hok op List.mem_cons_self) hroom.1
      have hu₁ : s₁.entries.Unique := by
        rw [hentries]
        exact (tableop_map hu op).1
      obtain ⟨rs, s', hrun, hwhole', heq⟩ := ih hwhole hu₁
        (fun o ho => hok o (List.mem_cons_of_mem op ho)) (hroom.2 s₁ (by dsimp only; rw [happly]; rfl))
      refine ⟨(tableop s.entries op).1 :: rs, s', ?_, hwhole', ?_⟩
      · rw [run, happly, Option.bind_some, hrun]
        rfl
      · unfold runop
        rw [← hentries, ← heq]

/-! ## No block -/

theorem Whole.addde_none (h : Whole s) (hroom : ¬ Room s)
    (hname : name ≠ [] ∧ name.length ≤ MINIXNAMELEN) (hnew : s.entries.lookup name = none)
    (newino : Nat) : s.addde name newino = none := by
  obtain ⟨s₁, hcheck, hsame⟩ := h.addcheck hname
  have hnone : s₁.freede = none :=
    (hsame.whole h).freede_full fun hroom₁ => hroom (hsame.symm.room hroom₁)
  unfold addde
  rw [hcheck, hnew, bind_some]
  dsimp only
  rw [hnone]
  rfl

theorem not_room (hfree : s.entries.free = none) (hmod : s.size % 1024 = 0)
    (hfail : ∀ p m, s.map.writemap (s.size / 1024) = (.ok p, m) → s.bad p = true) :
    ¬ Room s := by
  intro hroom
  obtain ⟨p, m, hmap, hbad⟩ := hroom hfree hmod
  rw [hfail p m hmap] at hbad
  cases hbad

/-- A directory that cannot grow: an entry that the checks let through ends in a panic. -/
theorem addde_full_iff (h : Whole s) (hfree : s.entries.free = none) (hmod : s.size % 1024 = 0)
    (hfail : ∀ p m, s.map.writemap (s.size / 1024) = (.ok p, m) → s.bad p = true)
    (name : Name) (newino : Nat) :
    (∃ e s', s.addde name newino = some (e, s') ∧ e ≠ 0 ∧ s'.size = s.size ∧
      s'.entries = s.entries) ↔
        MINIXNAMELEN < name.length ∨ name = [] ∨ (s.entries.lookup name).isSome = true := by
  have hroom := not_room hfree hmod hfail
  have hdir : ¬(!s.map.isdir) = true := by
    rw [h.isdir]
    decide
  by_cases hlong : MINIXNAMELEN < name.length
  · refine iff_of_true ⟨ENAMETOOLONG, s, ?_, by decide, rfl, rfl⟩ (.inl hlong)
    rw [addde, addcheck, if_neg hdir, if_pos hlong]
    rfl
  by_cases hempty : name = []
  · refine iff_of_true ⟨EPERM, s, ?_, by decide, rfl, rfl⟩ (.inr (.inl hempty))
    rw [addde, addcheck, if_neg hdir, if_neg hlong, if_pos hempty]
    rfl
  have hname := And.intro hempty (Nat.not_lt.mp hlong)
  by_cases hthere : (s.entries.lookup name).isSome = true
  · obtain ⟨s₁, hcheck, hsame⟩ := h.addcheck hname
    refine iff_of_true ⟨EEXIST, s₁, ?_, by decide, hsame.size, hsame.entries⟩
      (.inr (.inr hthere))
    rw [addde, hcheck, if_pos hthere]
    rfl
  · rw [h.addde_none hroom hname (Option.not_isSome_iff_eq_none.mp hthere)]
    refine iff_of_false ?_ ?_
    · rintro ⟨e, s', hrun, -⟩
      cases hrun
    · rintro (hl | he | ht)
      · exact hlong hl
      · exact hempty he
      · exact hthere ht

/-! ## A small directory -/

/-- One block of entries, zone 30, on a disk with these free zones. -/
def small (size : Nat) (free : List Bno) : Dirino where
  map :=
    { mode := SIFDIR
      daddr := fun i => if i = 0 then 30 else MINIXFREEBNO
      zone := fun _ _ => 7
      free := free }
  size := size
  slot _ i := ⟨BitVec.ofNat 16 (i + 1), ⟨BitVec.ofNat 8 (i + 1) :: List.replicate 29 0, rfl⟩⟩
  bad _ := false

theorem get_small {size : Nat} {free : List Bno} {i : Fin 10} {ks : List (BitVec 8)}
    (hks : ks.length ≤ Regmap.depth i) :
    (small size free).map.forest.get MINIXFREEBNO i ks = if i = 0 then 30 else MINIXFREEBNO := by
  by_cases hi : i = 0
  · have hnil : ks = [] := length_eq_zero_iff.mp (by rw [hi] at hks; exact Nat.le_zero.mp hks)
    rw [hnil]
    rfl
  · rw [if_neg hi]
    induction ks with
    | nil => exact if_neg hi
    | cons k ks ih => rw [Forest.get, if_pos (ih (Nat.le_of_succ_le hks))]

theorem small_whole {size : Nat} {free : List Bno} (hpos : 0 < size) (hsize : size ≤ 1024)
    (hdes : size % 32 = 0) (hnodup : free.Nodup)
    (hfree : ∀ b ∈ free, b ≠ 0 ∧ b ≠ BNOTALLOC ∧ b ≠ 30 ∧ b.toNat < ZONES) :
    Whole (small size free) := by
  have hnoalloc : ∀ i : Fin 10, (if i = 0 then (30 : Bno) else MINIXFREEBNO) ≠ BNOTALLOC := by
    decide
  refine ⟨(by decide : (SIFDIR &&& SIFMT == SIFDIR) = true), ⟨⟨?_, ?_⟩, hnodup, ?_⟩, ⟨?_, fun b hb => (hfree b hb).2.2.2⟩, hpos, hdes, ?_⟩
  · intro i ks j ls hks hls hne heq
    rw [get_small hks] at hne heq
    rw [get_small hls] at heq
    have hi : i = 0 := by
      by_contra hi
      exact hne (if_neg hi)
    have hj : j = 0 := by
      by_contra hj
      rw [hi, if_pos rfl, if_neg hj] at heq
      exact absurd heq (by decide)
    rw [hi] at hks
    rw [hj] at hls
    exact ⟨hi.trans hj.symm, (length_eq_zero_iff.mp (Nat.le_zero.mp hks)).trans
      (length_eq_zero_iff.mp (Nat.le_zero.mp hls)).symm⟩
  · intro i ks hks
    rw [get_small hks]
    exact hnoalloc i
  · intro b hb
    obtain ⟨hne, hnot, hzone, -⟩ := hfree b hb
    refine ⟨hne, hnot, fun i ks hks => ?_⟩
    rw [get_small hks]
    split_ifs
    · exact hzone.symm
    · exact hne.symm
  · intro i ks hks hne
    rw [get_small hks] at hne ⊢
    split_ifs at hne ⊢
    · decide
    · exact absurd rfl hne
  · intro l hl
    have hzero : l = 0 := by
      change l * 1024 < size at hl
      omega
    rw [hzero]
    exact ⟨(by decide : (30 : Bno) ≠ MINIXFREEBNO), rfl⟩

theorem unique_small : (small 64 []).entries.Unique := by
  intro i j k v w hi hj
  have hi' : i < 2 := Table.lt_of_entry hi
  have hj' : j < 2 := Table.lt_of_entry hj
  have hcases : i = j ∨ i = 0 ∧ j = 1 ∨ i = 1 ∧ j = 0 := by omega
  rcases hcases with heq | ⟨rfl, rfl⟩ | ⟨rfl, rfl⟩
  · exact heq
  · cases hi
    cases hj
  · cases hi
    cases hj

/-- An entry is made, another one removed. -/
theorem dir_map_small : ∃ rs s',
    run [.add [0x61] 5, .find [0x61], .remove [1], .find [1]] (small 64 []) = some (rs, s') ∧
      rs = [.ok 5, .ok 5, .ok 0, .error ENOENT] ∧
      s'.entries = [none, some ([2], 2), some ([0x61], 5)] := by
  have hwhole : Whole (small 64 []) :=
    small_whole (by decide) (by decide) (by decide) List.nodup_nil fun b hb => by cases hb
  have hok : ∀ op ∈ [Dirop.add [0x61] 5, .find [0x61], .remove [1], .find [1]], op.Ok := by
    intro op hop
    simp only [List.mem_cons, List.not_mem_nil, or_false] at hop
    rcases hop with rfl | rfl | rfl | rfl
    · exact ⟨by decide, by decide⟩
    · exact ⟨by decide, by decide, by decide⟩
    · exact ⟨by decide, by decide, by decide⟩
    · exact ⟨by decide, by decide, by decide⟩
  have hfits : Dirop.Fits (small 64 []) (.add [0x61] 5) := fun _ _ hmod => absurd hmod (by decide)
  obtain ⟨rs, s', hrun, -, -, htable, -⟩ := dir_map hwhole unique_small _ hok
    ⟨hfits, fun _ _ => ⟨trivial, fun _ _ => ⟨trivial, fun _ _ => ⟨trivial, fun _ _ => trivial⟩⟩⟩⟩
  obtain ⟨hrs, hentries⟩ := Prod.ext_iff.mp htable
  exact ⟨rs, s', hrun, hrs, hentries⟩

/-- The block is full, and there is no other one. -/
theorem full_small : Whole (small 1024 []) ∧ (small 1024 []).entries.free = none ∧
    (small 1024 []).size % 1024 = 0 ∧ ∀ p m,
      (small 1024 []).map.writemap ((small 1024 []).size / 1024) = (.ok p, m) →
        (small 1024 []).bad p = true := by
  have hwhole : Whole (small 1024 []) :=
    small_whole (by decide) (by decide) (by decide) nodup_nil fun b hb => by cases hb
  refine ⟨hwhole, by decide, rfl, fun p m hmap => ?_⟩
  have hok := congrArg Prod.fst hmap
  cases hok

theorem addde_full_small : ∃ e s', (small 1024 []).addde [1] 5 = some (e, s') ∧ e ≠ 0 ∧
    s'.size = (small 1024 []).size ∧ s'.entries = (small 1024 []).entries := by
  obtain ⟨hwhole, hfree, hmod, hfail⟩ := full_small
  exact (addde_full_iff hwhole hfree hmod hfail [1] 5).mpr (.inr (.inr (by decide)))

/-- A new name ends in the panic. -/
theorem addde_panics : ¬ ∀ (s : Dirino) (name : Name) (newino : Nat), Whole s →
    s.entries.free = none → s.size % 1024 = 0 →
    (∀ p m, s.map.writemap (s.size / 1024) = (.ok p, m) → s.bad p = true) →
      ∃ e s', s.addde name newino = some (e, s') ∧ e ≠ 0 ∧ s'.size = s.size ∧
        s'.entries = s.entries := by
  intro h
  obtain ⟨hwhole, hfree, hmod, hfail⟩ := full_small
  obtain ⟨e, s', hrun, -⟩ := h (small 1024 []) [0x61] 5 hwhole hfree hmod hfail
  rw [hwhole.addde_none (not_room hfree hmod hfail) (by decide) (by decide)] at hrun
  cases hrun

end Unixlite.Fs.Dirino
