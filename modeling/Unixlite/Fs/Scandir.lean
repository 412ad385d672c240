import Mathlib.Data.Finset.Card
import Unixlite.Fs.Regmap
import Unixlite.Verified.Table

/-!
# Scanning a directory

Port of `fs/dirent.cc`, `minixde_t` of `fs/minix.h`, and of `findde` and `addde` of
`fs/dir.cc`, with a directory as the blocks that it is kept in, for one task.  A block has 32
entries of 32 bytes.  `none` is a panic.

Index blocks can be read; what cannot be read is a block of entries, and a scan goes on
behind it.  A directory has less than 2^30 bytes (`Whole.size_lt`), so that an `off_t` does
not wrap.
-/

namespace Unixlite.Fs

open Verified List

/-! ## Entries -/

/-- `str_tl<MINIXNAMELEN+1>`. -/
structure Str where
  room : List (BitVec 8)
  len : room.length = 30

namespace Str

/-- `get` ends the string at the last byte, and leaves it so. -/
def get (s : Str) : Str := ⟨s.room.set 29 0, by rw [length_set, s.len]⟩

/-- The string in the room. -/
def str (s : Str) : Name := s.room.takeWhile (· != 0)

/-- `set`, which is `strncpy`: what is behind the end of the name stays. -/
def set (s : Str) (name : Name) : Str where
  room := (name ++ 0 :: s.room.drop (name.length + 1)).take 30
  len := by
    have := s.len
    simp only [length_take, length_append, length_cons, length_drop]
    omega

end Str

/-- `minixde_t`. -/
structure Rawde where
  ino : BitVec 16
  name : Str

namespace Rawde

def isfree (de : Rawde) : Bool := de.ino.toNat == MINIXFREEINO

/-- The entry after its name has been read. -/
def get (de : Rawde) : Rawde := { de with name := de.name.get }

def nameequ (de : Rawde) (target : Name) : Bool := de.name.get.str == target

/-- What the entry says: a name and an inode number. -/
def entry (de : Rawde) : Option (Name × Nat) :=
  if de.isfree then none else some (de.name.get.str, de.ino.toNat)

end Rawde

/-! ## Directories -/

/-- A directory and the blocks under it. -/
structure Dirino where
  map : Regmap
  size : Nat
  /-- The entries of a block. -/
  slot : Bno → Nat → Rawde
  /-- The block cannot be read. -/
  bad : Bno → Bool

namespace Dirino

def setde (s : Dirino) (b : Bno) (i : Nat) (de : Rawde) : Dirino :=
  { s with slot := Function.update s.slot b (Function.update (s.slot b) i de) }

def bnodiv (off : Nat) : Nat := off / 1024

def bnomod (off : Nat) : Nat := off % 1024

/-- Which entry of its block the offset is at. -/
def index (off : Nat) : Nat := bnomod off / 32

def roundup2 (size balign : Nat) : Nat := (size + balign - 1) / balign * balign

/-! ## `scandir_t` -/

/-- A turn of `advance`: the block, if there is one and it can be read. -/
def look (create : Bool) (s : Dirino) (logic : Nat) : Dirino × Option Bno :=
  let x := if create then s.map.writemap logic else (s.map.readmap logic, s.map)
  let s := { s with map := x.2 }
  match x.1 with
  | .error _ => (s, none)
  | .ok phys =>
      if !create && phys == BNOTALLOC then (s, none)
      else if s.bad phys then (s, none)
      else (s, some phys)

theorem look_size (create : Bool) (s : Dirino) (logic : Nat) :
    (look create s logic).1.size = s.size := by
  unfold look
  dsimp only
  split
  · rfl
  · split_ifs <;> rfl

theorem lt_roundup2 (off : Nat) : off < roundup2 (off + 1023) 1024 := by
  unfold roundup2
  omega

/-- `advance`, with the offset and the buffer that it leaves. -/
def advance (create : Bool) (s : Dirino) (off : Nat) : Dirino × Nat × Option Bno :=
  if off < s.size then
    let x := look create s (bnodiv off)
    match x.2 with
    | some b => (x.1, off, some b)
    | none => advance create x.1 (roundup2 (off + 1023) 1024)
  else (s, off, none)
termination_by s.size - off
decreasing_by
  have hlt := lt_roundup2 off
  rw [look_size]
  omega

/-- A scan goes forward. -/
theorem advance_forth (create : Bool) (s : Dirino) (off : Nat) :
    (advance create s off).1.size = s.size ∧ off ≤ (advance create s off).2.1 := by
  induction s, off using advance.induct create with
  | case1 s off h x b hb =>
      rw [advance, if_pos h]
      dsimp only
      rw [hb]
      exact ⟨look_size create s (bnodiv off), Nat.le_refl off⟩
  | case2 s off h x hb ih =>
      rw [advance, if_pos h]
      dsimp only
      rw [hb]
      have hlt := lt_roundup2 off
      refine ⟨ih.1.trans (look_size create s (bnodiv off)), ?_⟩
      exact Nat.le_trans (Nat.le_of_lt hlt) ih.2
  | case3 s off h =>
      rw [advance, if_neg h]
      exact ⟨rfl, Nat.le_refl off⟩

def next (create : Bool) (s : Dirino) (off : Nat) (b : Bno) : Dirino × Nat × Option Bno :=
  let off := off + 32
  if bnomod off ≠ 0 then (s, off, some b) else advance create s off

theorem next_forth (create : Bool) (s : Dirino) (off : Nat) (b : Bno) :
    (next create s off b).1.size = s.size ∧ off < (next create s off b).2.1 := by
  unfold next
  dsimp only
  split_ifs
  · exact ⟨rfl, Nat.lt_add_of_pos_right (by decide)⟩
  · have hforth := advance_forth create s (off + 32)
    exact ⟨hforth.1, by omega⟩

/-- `for (; scan.more(); scan.next())`, of a scan that does not create.  The body gets the
buffer, the offset and the entry; it leaves the entry, and goes on or breaks. -/
def foreach {σ ρ : Type} (body : Bno → Nat → Rawde → σ → Rawde × (σ ⊕ ρ)) (s : Dirino)
    (off : Nat) (b : Option Bno) (x : σ) : Option (Dirino × (σ ⊕ ρ)) :=
  if off < s.size then
    match b with
    | none => none
    | some b =>
        let y := body b off (s.slot b (index off)) x
        let t := s.setde b (index off) y.1
        match y.2 with
        | .inr r => some (t, .inr r)
        | .inl x' =>
            let z := next false t off b
            foreach body z.1 z.2.1 z.2.2 x'
  else some (s, .inl x)
termination_by s.size - off
decreasing_by
  have hforth := next_forth false
    (s.setde b (index off) (body b off (s.slot b (index off)) x).1) off b
  have hsize : (s.setde b (index off) (body b off (s.slot b (index off)) x).1).size = s.size := rfl
  omega

/-- A scan from `off` on. -/
def scan {σ ρ : Type} (body : Bno → Nat → Rawde → σ → Rawde × (σ ⊕ ρ)) (s : Dirino)
    (off : Nat) (x : σ) : Option (Dirino × (σ ⊕ ρ)) :=
  let z := advance false s off
  foreach body z.1 z.2.1 z.2.2 x

/-! ## `findde` and `addde` -/

/-- The body of `findde`. -/
def findbody (name : Name) (b : Bno) (off : Nat) (de : Rawde) (_ : Unit) :
    Rawde × (Unit ⊕ (Bno × Nat)) :=
  if de.isfree then (de, .inl ())
  else (de.get, if de.nameequ name then .inr (b, index off) else .inl ())

/-- `findde`, with the place of the entry. -/
def findde (s : Dirino) (name : Name) : Option (Dirino × Option (Bno × Nat)) :=
  (s.scan (findbody name) 0 ()).map fun x => (x.1, x.2.getRight?)

/-- The checks of `addde`. -/
def addcheck (s : Dirino) (name : Name) : Option (Int × Dirino) :=
  if !s.map.isdir then none
  else if MINIXNAMELEN < name.length then some (ENAMETOOLONG, s)
  else if name = [] then some (EPERM, s)
  else if s.size % 32 ≠ 0 then some (EINVAL, s)
  else (s.findde name).map fun x => (if x.2.isSome then EEXIST else 0, x.1)

/-- The loop of `addde`: the place of a free entry.  Behind it there is a panic. -/
def addloop (s : Dirino) (off : Nat) (b : Option Bno) (grow : Bool) :
    Option (Dirino × Bno × Nat) :=
  if off < s.size then
    match b with
    | none => none
    | some b =>
        let de := s.slot b (index off)
        match grow with
        | true =>
            -- `de->ino = MINIXFREEINO`
            some (s.setde b (index off) { de with ino := 0 }, b, index off)
        | false =>
            if de.isfree then some (s, b, index off)
            else if s.size ≤ off + 32 then
              let z := next true { s with size := s.size + 32 } off b
              addloop z.1 z.2.1 z.2.2 true
            else
              let z := next true s off b
              addloop z.1 z.2.1 z.2.2 false
  else none
termination_by (1 - grow.toNat, s.size - off)
decreasing_by
  · exact Prod.Lex.left _ _ (by decide)
  · have hforth := next_forth true s off b
    exact Prod.Lex.right _ (by omega)

def freede (s : Dirino) : Option (Dirino × Bno × Nat) :=
  let z := advance true s 0
  addloop z.1 z.2.1 z.2.2 false

def addde (s : Dirino) (name : Name) (newino : Nat) : Option (Int × Dirino) :=
  (s.addcheck name).bind fun (e, s) =>
    if e ≠ 0 then some (e, s)
    else s.freede.map fun (s, b, i) =>
      (0, s.setde b i ⟨BitVec.ofNat 16 newino, (s.slot b i).name.set name⟩)

/-- An entry is removed, as `unlink2` and `rmdir2` do it. -/
def removede (s : Dirino) (name : Name) : Option (Int × Dirino) :=
  (s.findde name).map fun (s, x) =>
    match x with
    | none => (ENOENT, s)
    | some (b, i) => (0, s.setde b i { s.slot b i with ino := 0 })

end Dirino

/-! ## Names -/

namespace Str

theorem get_get (s : Str) : s.get.get = s.get := by
  unfold get
  congr 1
  exact set_set ..

/-- A name that fits is what is read afterwards. -/
theorem str_set {name : Name} (s : Str) (hlen : name.length ≤ MINIXNAMELEN) (hz : 0 ∉ name) :
    (s.set name).get.str = name := by
  have hlen' : name.length < 30 := Nat.lt_succ_of_le hlen
  have hall : ∀ c ∈ name, (c != 0) = true := by
    intro c hc
    rw [bne_iff_ne]
    rintro rfl
    exact hz hc
  have hroom : ∃ rest, (s.set name).get.room = name ++ 0 :: rest := by
    unfold get set
    dsimp only
    obtain ⟨n, hn⟩ : ∃ n, 30 - name.length = n + 1 := ⟨29 - name.length, by omega⟩
    rw [take_append, take_of_length_le (Nat.le_of_lt hlen'), hn, take_succ_cons,
      set_append_right _ _ (Nat.le_of_lt_succ hlen')]
    cases 29 - name.length with
    | zero => exact ⟨_, rfl⟩
    | succ m => exact ⟨_, rfl⟩
  obtain ⟨rest, hroom⟩ := hroom
  unfold str
  rw [hroom, takeWhile_append_of_pos hall, takeWhile_cons_of_neg (by decide),
    append_nil]

end Str

namespace Rawde

theorem entry_get (de : Rawde) : de.get.entry = de.entry := by
  unfold entry get
  rw [Str.get_get]
  rfl

theorem isfree_iff (de : Rawde) : de.isfree = true ↔ de.entry = none := by
  unfold entry
  cases de.isfree with
  | true => exact iff_of_true rfl rfl
  | false => exact iff_of_false Bool.false_ne_true fun h => by cases h

theorem entry_of_live {de : Rawde} (h : de.isfree = false) :
    de.entry = some (de.name.get.str, de.ino.toNat) := by
  unfold entry
  rw [h, if_neg Bool.false_ne_true]

end Rawde

/-! ## Well-formed directories -/

/-- More zones than there are in a file system: `fs_t::read` takes 64 blocks of bitmap, and
`datazone` has 16 bits. -/
def ZONES : Nat := 64 * 8192 + 65536

namespace Dirino

/-- The `k`th entry of the directory. -/
def de (s : Dirino) (k : Nat) : Rawde := s.slot (s.map.blockAt (k / 32)) (k % 32)

/-- What the entries say. -/
def entries (s : Dirino) : Table Name Nat :=
  (List.range (s.size / 32)).map fun k => (s.de k).entry

/-- Every block below the size is there and can be read, and is a zone. -/
structure Whole (s : Dirino) : Prop where
  isdir : s.map.isdir = true
  good : s.map.Good
  zones : s.map.Within fun b => b.toNat < ZONES
  pos : 0 < s.size
  des : s.size % 32 = 0
  there : ∀ l, l * 1024 < s.size →
    s.map.blockAt l ≠ MINIXFREEBNO ∧ s.bad (s.map.blockAt l) = false

variable {s s' : Dirino} {k : Nat}

theorem Whole.zone (h : Whole s) {l : Nat} (hl : l * 1024 < s.size) :
    (s.map.blockAt l).toNat < ZONES :=
  h.zones.get _ _ (Nat.le_of_eq (Regmap.length_way ..)) (h.there l hl).1

/-- Distinct blocks are distinct zones, and there are not that many. -/
theorem Whole.size_lt (h : Whole s) : s.size < 2 ^ 30 := by
  suffices hle : s.size ≤ ZONES * 1024 by
    unfold ZONES at hle
    omega
  by_contra hbig
  have hmaps : ∀ l ∈ Finset.range (ZONES + 1),
      (s.map.blockAt l).toNat ∈ Finset.range ZONES := by
    intro l hl
    rw [Finset.mem_range] at hl ⊢
    exact h.zone (by omega)
  obtain ⟨l, hl, l', hl', hne, heq⟩ := Finset.exists_ne_map_eq_of_card_lt_of_maps_to
    (by rw [Finset.card_range, Finset.card_range]; exact Nat.lt_succ_self _) hmaps
  rw [Finset.mem_range] at hl hl'
  refine hne (Regmap.blockAt_inj h.good ?_ ?_ (h.there l (by omega)).1 (BitVec.eq_of_toNat_eq heq))
  · unfold ZONES MINIXEND3 at *
    omega
  · unfold ZONES MINIXEND3 at *
    omega

theorem Whole.treed (h : Whole s) : s.map.Treed := .inl h.isdir

theorem Whole.logic_lt (h : Whole s) {l : Nat} (hl : l * 1024 ≤ s.size) : l < MINIXEND3 := by
  have := h.size_lt
  unfold MINIXEND3
  omega

theorem Whole.size_eq (h : Whole s) : s.size = 32 * (s.size / 32) := by
  have := h.des
  omega

theorem length_entries (s : Dirino) : s.entries.length = s.size / 32 := by
  rw [entries, length_map, length_range]

theorem getElem?_entries (hk : k < s.size / 32) : s.entries[k]? = some (s.de k).entry := by
  rw [Dirino.entries, List.getElem?_map, List.getElem?_range hk]
  rfl

theorem drop_entries (hk : k < s.size / 32) :
    s.entries.drop k = (s.de k).entry :: s.entries.drop (k + 1) := by
  have hlt : k < s.entries.length := by rwa [length_entries]
  have hget := getElem?_entries hk
  rw [List.getElem?_eq_getElem hlt, Option.some_inj] at hget
  rw [drop_eq_getElem_cons hlt, hget]

/-! ## A scan -/

/-- Every block that a scan looks for is found, and nothing changes. -/
theorem Whole.look (h : Whole s) (create : Bool) {l : Nat} (hl : l * 1024 < s.size) :
    look create s l = (s, some (s.map.blockAt l)) := by
  obtain ⟨hused, hgood⟩ := h.there l hl
  have hlogic := h.logic_lt (Nat.le_of_lt hl)
  have hnot : s.map.blockAt l ≠ BNOTALLOC :=
    h.good.distinct.valid _ _ (Nat.le_of_eq (Regmap.length_way ..))
  unfold Dirino.look
  cases create with
  | true =>
      rw [if_pos rfl, Regmap.writemap_same h.treed hlogic hused]
      dsimp only
      rw [hgood]
      rfl
  | false =>
      rw [if_neg Bool.false_ne_true, Regmap.readmap_eq h.treed hlogic, if_neg hused]
      dsimp only
      rw [beq_false_of_ne hnot, hgood]
      rfl

/-- The buffer of a scan before its `k`th entry. -/
def At (s : Dirino) (k : Nat) (b : Option Bno) : Prop :=
  32 * k < s.size → b = some (s.map.blockAt (k / 32))

theorem Whole.advance (h : Whole s) (create : Bool) (k : Nat) :
    ∃ b, advance create s (32 * k) = (s, 32 * k, b) ∧ At s k b := by
  rw [Dirino.advance]
  by_cases hk : 32 * k < s.size
  · have hdiv : bnodiv (32 * k) = k / 32 := by
      unfold bnodiv
      omega
    rw [if_pos hk, hdiv, h.look create (by omega)]
    exact ⟨_, rfl, fun _ => rfl⟩
  · rw [if_neg hk]
    exact ⟨none, rfl, fun hlt => absurd hlt hk⟩

theorem Whole.next (h : Whole s) (create : Bool) (k : Nat) :
    ∃ b, next create s (32 * k) (s.map.blockAt (k / 32)) = (s, 32 * (k + 1), b) ∧
      At s (k + 1) b := by
  unfold Dirino.next
  rw [show 32 * k + 32 = 32 * (k + 1) by omega]
  unfold bnomod
  by_cases hmod : 32 * (k + 1) % 1024 = 0
  · rw [if_neg (not_not.mpr hmod)]
    exact h.advance create (k + 1)
  · rw [if_pos hmod]
    refine ⟨_, rfl, fun _ => ?_⟩
    rw [show (k + 1) / 32 = k / 32 by omega]

/-- Reading a directory changes at most what is behind the names. -/
structure Same (s s' : Dirino) : Prop where
  map : s'.map = s.map
  size : s'.size = s.size
  bad : s'.bad = s.bad
  entry : ∀ b i, (s'.slot b i).entry = (s.slot b i).entry

theorem Same.refl (s : Dirino) : Same s s := ⟨rfl, rfl, rfl, fun _ _ => rfl⟩

theorem Same.trans {s'' : Dirino} (h : Same s s') (h' : Same s' s'') : Same s s'' where
  map := h'.map.trans h.map
  size := h'.size.trans h.size
  bad := h'.bad.trans h.bad
  entry b i := (h'.entry b i).trans (h.entry b i)

theorem Same.setde (s : Dirino) {b : Bno} {i : Nat} {x : Rawde}
    (hx : x.entry = (s.slot b i).entry) : Same s (s.setde b i x) := by
  refine ⟨rfl, rfl, rfl, fun c j => ?_⟩
  unfold Dirino.setde
  dsimp only
  by_cases hc : c = b
  · rw [hc, Function.update_self]
    by_cases hj : j = i
    · rw [hj, Function.update_self, hx]
    · rw [Function.update_of_ne hj]
  · rw [Function.update_of_ne hc]

theorem Same.entries (h : Same s s') : s'.entries = s.entries := by
  unfold Dirino.entries de
  rw [h.size, h.map]
  exact map_congr_left fun k _ => h.entry _ _

theorem Same.whole (h : Same s s') (hs : Whole s) : Whole s' where
  isdir := h.map ▸ hs.isdir
  good := h.map ▸ hs.good
  zones := h.map ▸ hs.zones
  pos := h.size ▸ hs.pos
  des := h.size ▸ hs.des
  there l hl := by
    rw [h.map, h.bad]
    exact hs.there l (h.size ▸ hl)

/-- What a scan does to the entries, from the `k`th one on. -/
def scanlist {σ ρ : Type} (f : Nat → Option (Name × Nat) → σ → σ ⊕ ρ) :
    Nat → Table Name Nat → σ → σ ⊕ ρ
  | _, [], x => .inl x
  | k, e :: es, x =>
      match f k e x with
      | .inr r => .inr r
      | .inl x => scanlist f (k + 1) es x

/-- The body reads the entries, and does what `f` says. -/
def Reads {σ ρ : Type} (s : Dirino) (body : Bno → Nat → Rawde → σ → Rawde × (σ ⊕ ρ))
    (f : Nat → Option (Name × Nat) → σ → σ ⊕ ρ) : Prop :=
  ∀ k de x, (body (s.map.blockAt (k / 32)) (32 * k) de x).1.entry = de.entry ∧
    (body (s.map.blockAt (k / 32)) (32 * k) de x).2 = f k de.entry x

theorem index_eq (k : Nat) : index (32 * k) = k % 32 := by
  unfold index bnomod
  omega

theorem Whole.foreach {σ ρ : Type} {body : Bno → Nat → Rawde → σ → Rawde × (σ ⊕ ρ)}
    {f : Nat → Option (Name × Nat) → σ → σ ⊕ ρ} (n : Nat) : ∀ {s : Dirino} {k : Nat}
    {b : Option Bno} {x : σ}, Whole s → Reads s body f → At s k b → s.size / 32 - k = n →
      ∃ s', foreach body s (32 * k) b x = some (s', scanlist f k (s.entries.drop k) x) ∧
        Same s s' := by
  induction n with
  | zero =>
      intro s k b x h _ _ hn
      have hsize := h.size_eq
      rw [Dirino.foreach.eq_def, if_neg (by omega), drop_eq_nil_iff.mpr]
      · exact ⟨s, rfl, .refl s⟩
      · rw [length_entries]
        omega
  | succ n ih =>
      intro s k b x h hreads hat hn
      obtain ⟨hentry, hturn⟩ := hreads k (s.de k) x
      rw [Dirino.foreach.eq_def, if_pos (by omega), hat (by omega), drop_entries (by omega), scanlist]
      dsimp only
      rw [index_eq]
      have hsame : Same s (s.setde (s.map.blockAt (k / 32)) (k % 32)
          (body (s.map.blockAt (k / 32)) (32 * k) (s.de k) x).1) := .setde s hentry
      have hde : s.slot (s.map.blockAt (k / 32)) (k % 32) = s.de k := rfl
      rw [hde, hturn]
      cases hf : f k (s.de k).entry x with
      | inr r => exact ⟨_, rfl, hsame⟩
      | inl y =>
          obtain ⟨b', hnext, hat'⟩ := (hsame.whole h).next false k
          rw [hsame.map] at hnext
          rw [hnext]
          obtain ⟨s', hrun, hrest⟩ := ih (x := y) (hsame.whole h)
            (by unfold Reads; rw [hsame.map]; exact hreads) hat' (by rw [hsame.size]; omega)
          rw [hsame.entries] at hrun
          exact ⟨s', hrun, hsame.trans hrest⟩

/-- **A scan goes through the entries**, and through each of them once. -/
theorem Whole.scan {σ ρ : Type} {body : Bno → Nat → Rawde → σ → Rawde × (σ ⊕ ρ)}
    {f : Nat → Option (Name × Nat) → σ → σ ⊕ ρ} (h : Whole s) (hreads : Reads s body f)
    (k : Nat) (x : σ) :
    ∃ s', scan body s (32 * k) x = some (s', scanlist f k (s.entries.drop k) x) ∧
      Same s s' := by
  obtain ⟨b, hadvance, hat⟩ := h.advance false k
  unfold Dirino.scan
  rw [hadvance]
  exact h.foreach _ hreads hat rfl

/-! ## Finding an entry -/

/-- A scan that stops at the first entry that meets `p`. -/
theorem scanlist_find {ρ : Type} (p : Option (Name × Nat) → Bool) (g : Nat → ρ) :
    ∀ (es : Table Name Nat) (k : Nat),
      scanlist (fun k e (_ : Unit) => if p e then .inr (g k) else .inl ()) k es () =
        match es.findIdx? p with
        | some i => .inr (g (k + i))
        | none => .inl ()
  | [], _ => rfl
  | e :: es, k => by
      rw [scanlist, List.findIdx?_cons]
      by_cases he : p e = true
      · rw [if_pos he, if_pos he]
        rfl
      · rw [if_neg he, if_neg he]
        dsimp only
        rw [scanlist_find p g es (k + 1)]
        cases es.findIdx? p with
        | none => rfl
        | some i => exact congrArg (fun j => Sum.inr (g j)) (by omega : k + 1 + i = k + (i + 1))

theorem hasKey_entry (de : Rawde) (name : Name) :
    Table.hasKey name de.entry = (!de.isfree && de.nameequ name) := by
  unfold Rawde.entry
  cases de.isfree with
  | true => rfl
  | false => simp [Table.hasKey, Rawde.nameequ]

/-- The place of the `k`th entry. -/
def place (s : Dirino) (k : Nat) : Bno × Nat := (s.map.blockAt (k / 32), k % 32)

theorem Whole.findde (h : Whole s) (name : Name) :
    ∃ s', s.findde name = some (s', (s.entries.find name).map s.place) ∧ Same s s' := by
  have hreads : Reads s (findbody name) fun k e (_ : Unit) =>
      if Table.hasKey name e then .inr (s.place k) else .inl () := by
    intro k de x
    dsimp only
    rw [hasKey_entry]
    unfold findbody
    cases hfree : de.isfree with
    | true => exact ⟨rfl, rfl⟩
    | false =>
        refine ⟨de.entry_get, ?_⟩
        rw [index_eq]
        rfl
  obtain ⟨s', hscan, hsame⟩ := h.scan hreads 0 ()
  refine ⟨s', ?_, hsame⟩
  unfold Dirino.findde
  rw [hscan, drop_zero, scanlist_find, Table.find]
  cases hfind : s.entries.findIdx? (Table.hasKey name) with
  | none => rfl
  | some i =>
      dsimp only
      rw [Nat.zero_add]
      rfl

end Dirino

end Unixlite.Fs
