import Unixlite.Fs.Append
import Unixlite.Fs.Regmap
import Unixlite.Verified.Splice

/-!
# Writes that fail half-way

Port of `regfd_t::write` and `inode_t::write`, and of `wtranslate` with blocks that cannot be
read, for one task.  What a block holds is what the buffer cache gives for it; the buffer of a
block that is not read holds whatever was in it.
-/

namespace Unixlite.Fs

open Unixlite.Verified
open Regmap
open List Option

/-! ## The source -/

namespace Regmap

/-- `wtranslate` from a loop iteration on. -/
def wtranslate2 (bad : Bno → Bool) (s : Regmap) : (n : Nat) → (indexp : Zoneptr) →
    (offset : Nat) → Except Int Bno × Regmap
  | 0, indexp, _ =>
      (s.allocdatab indexp).elim (.error ENOSPC, s) fun s => (.ok (s.load indexp), s)
  | n + 1, indexp, offset =>
      (s.allocindexb indexp).elim (.error ENOSPC, s) fun s =>
        if bad (s.load indexp) then (.error EIO, s)
        else s.wtranslate2 bad n (.zone (s.load indexp) (digit offset n)) offset

/-- `writemap`. -/
def writemap2 (bad : Bno → Bool) (s : Regmap) (logic : Nat) : Except Int Bno × Regmap :=
  if !s.isdir && !s.isreg && !s.isblk then (.error EINVAL, s)
  else if s.isblk then (.ok (BitVec.ofNat 32 logic), s)
  else if h : logic < MINIXEND0 then
    s.wtranslate2 bad 0 (.daddr ⟨logic, daddr_lt h⟩) logic
  else if logic < MINIXEND1 then s.wtranslate2 bad 1 (.daddr 7) (logic - MINIXEND0)
  else if logic < MINIXEND2 then s.wtranslate2 bad 2 (.daddr 8) (logic - MINIXEND1)
  else if logic < MINIXEND3 then s.wtranslate2 bad 3 (.daddr 9) (logic - MINIXEND2)
  else (.error EINVAL, s)

end Regmap

/-- What the buffer cache does in each turn of the loop: which blocks it cannot read, and what
the buffers hold that it gives without reading. -/
structure Bufenv where
  bad : Nat → Bno → Bool
  old : Nat → Bno → Nat → Byte

/-- A file, and what its blocks hold. -/
structure Wrfile where
  map : Regmap
  size : Nat
  data : Bno → Nat → Byte

namespace Wrfile

/-- `chars`, with `n` bytes left. -/
def chars (pos n : Nat) : Nat := min (BSIZE - pos % BSIZE) n

theorem chars_le_left (pos n : Nat) : chars pos n ≤ n := Nat.min_le_right _ _

theorem chars_ne_zero (pos : Nat) {n : Nat} (h : n ≠ 0) : chars pos n ≠ 0 := by
  have hmod : pos % BSIZE < BSIZE := Nat.mod_lt _ (by decide)
  unfold chars
  omega

/-- The block is not read when all that the file has of it is overwritten. -/
def overwritten (size pos n : Nat) : Bool :=
  decide (chars pos n = BSIZE) ||
    decide (pos % BSIZE = 0) && decide (size ≤ (pos + chars pos n) % OFFT)

/-- A turn of the loop up to `getb` or `readb`. -/
def fetch (bad : Bno → Bool) (m : Regmap) (size pos n : Nat) : Except Int Bno × Regmap :=
  match m.writemap2 bad (pos / BSIZE) with
  | (.error e, m) => (.error e, m)
  | (.ok phys, m) =>
      if !overwritten size pos n && bad phys then (.error EIO, m) else (.ok phys, m)

/-- `if (pos > size) size = pos`. -/
def grown (size pos : Nat) : Nat := if size < pos then pos else size

/-- `memcpy(b->data + off, buf, chars)`. -/
def memcpy (data : Nat → Byte) (off : Nat) (bytes : List Byte) : Nat → Byte := fun x =>
  if off ≤ x ∧ x < off + bytes.length then bytes.getD (x - off) 0 else data x

/-- A turn of the loop from `memcpy` on. -/
def copy (s : Wrfile) (old : Bno → Nat → Byte) (phys : Bno) (map : Regmap) (pos : Nat)
    (rest : List Byte) : Wrfile where
  map := map
  size := grown s.size ((pos + chars pos rest.length) % OFFT)
  data := Function.update s.data phys
    (memcpy (if overwritten s.size pos rest.length then old phys else s.data phys) (pos % BSIZE)
      (rest.take (chars pos rest.length)))

/-- The loop; `some e` is an error. -/
def loop (c : Bufenv) (turn : Nat) (s : Wrfile) (pos : Nat) (rest : List Byte) :
    Option Int × Wrfile :=
  if rest = [] then (none, s)
  else
    match fetch (c.bad turn) s.map s.size pos rest.length with
    | (.error e, map) => (some e, { s with map := map })
    | (.ok phys, map) =>
        loop c (turn + 1) (s.copy (c.old turn) phys map pos rest)
          ((pos + chars pos rest.length) % OFFT) (rest.drop (chars pos rest.length))
termination_by rest.length
decreasing_by
  have hpos := chars_ne_zero pos (n := rest.length) (by simpa)
  have hlen : rest.length ≠ 0 := by simpa
  rw [length_drop]
  omega

/-- `inode_t::write`. -/
def write (c : Bufenv) (s : Wrfile) (pos : Nat) (buf : List Byte) : Int × Wrfile :=
  if !s.map.isdir && !s.map.isreg && !s.map.isblk then (EINVAL, s)
  else
    match s.loop c 0 pos buf with
    | (some e, s) => (e, s)
    | (none, s) => (buf.length, s)

/-- The byte that `inode_t::read` gives. -/
def byteAt (s : Wrfile) (q : Nat) : Byte :=
  match s.map.readmap (q / BSIZE) with
  | .error _ => 0
  | .ok phys => if phys = BNOTALLOC then 0 else s.data phys (q % BSIZE)

end Wrfile

/-- `regfd_t`. -/
structure Regfd where
  file : Wrfile
  curpos : Nat
  append : Bool

namespace Regfd

/-- The position that `write` begins at. -/
def pos (s : Regfd) : Nat := if s.append then s.file.size else s.curpos

/-- `regfd_t::write`. -/
def write (c : Bufenv) (s : Regfd) (buf : List Byte) : Int × Regfd :=
  let s := { s with curpos := s.pos }
  let r := s.file.write c s.curpos buf
  (r.1, { s with
    file := r.2
    curpos := if 0 < r.1 then (s.curpos + r.1.toNat) % OFFT else s.curpos })

end Regfd

/-! ## What a write promises -/

/-- `r` bytes are in the file, the position is behind them, and nothing else has changed. -/
structure Written (s s' : Regfd) (buf : List Byte) (r : Nat) : Prop where
  le : r ≤ buf.length
  bytes : ∀ i < r, s'.file.byteAt (s.pos + i) = buf.getD i 0
  size : s'.file.size = if 0 < r then max s.file.size (s.pos + r) else s.file.size
  curpos : s'.curpos = s.pos + r
  other : ∀ q < s.file.size, ¬(s.pos ≤ q ∧ q < s.pos + r) → s'.file.byteAt q = s.file.byteAt q

namespace Wrfile

/-- The turn in which a block cannot be had. -/
def stops (bad : Nat → Bno → Bool) (turn : Nat) (m : Regmap) (size pos n : Nat) : Option Nat :=
  if n = 0 then none
  else
    match fetch (bad turn) m size pos n with
    | (.error _, _) => some turn
    | (.ok _, m) =>
        stops bad (turn + 1) m (grown size ((pos + chars pos n) % OFFT))
          ((pos + chars pos n) % OFFT) (n - chars pos n)
termination_by n
decreasing_by
  have hpos := chars_ne_zero pos (n := n) (by assumption)
  omega

/-- The block is there, or all that the file has of it is in what is written. -/
def Covered (m : Regmap) (size pos n l : Nat) : Prop :=
  m.blockAt l ≠ MINIXFREEBNO ∨ ∀ q, q / BSIZE = l → q < size → pos ≤ q ∧ q < pos + n

/-- A turn that fails does so in `writemap`, or it has put nothing that the file has into a
block. -/
def Harmless (bad : Bno → Bool) (m : Regmap) (size pos : Nat) : Prop :=
  (∃ e, (m.writemap2 bad (pos / BSIZE)).1 = .error e) ∨ Covered m size pos 0 (pos / BSIZE)

/-- Nothing fails behind the first chunk, the end is below 2^32, and no hole is filled that is
not overwritten. -/
def Holds (bad : Nat → Bno → Bool) (m : Regmap) (size pos n : Nat) : Prop :=
  match stops bad 0 m size pos n with
  | none => pos + n < OFFT ∧ ∀ q, pos ≤ q → q < pos + n → Covered m size pos n (q / BSIZE)
  | some 0 => Harmless (bad 0) m size pos
  -- the first chunk is behind the end of the file, and the size has no room for it
  | some 1 => size ≤ pos ∧ pos + chars pos n = OFFT ∧ Covered m size pos 0 (pos / BSIZE) ∧
      Harmless (bad 1) (fetch (bad 0) m size pos n).2 size 0
  | some _ => False

end Wrfile

/-! ## The block map -/

namespace Regmap

variable {bad : Bno → Bool} {s s' : Regmap} {i : Fin 10} {offset logic n m : Nat} {p : Bno}
  {e : Int}

/-- A walk that ends well is the one without failures. -/
theorem wtranslate2_ok {z : Zoneptr} (h : s.wtranslate2 bad n z offset = (.ok p, s')) :
    s.wtranslate n z offset = (.ok p, s') := by
  induction n generalizing s z with
  | zero => exact h
  | succ n ih =>
      rw [wtranslate2] at h
      rw [wtranslate]
      cases halloc : s.allocindexb z with
      | none =>
          rw [halloc] at h
          cases h
      | some t =>
          rw [halloc, elim_some] at h
          split at h
          · cases h
          · exact ih h

/-- What a walk leaves behind that fails: index blocks, but no other data blocks. -/
structure Failed (s s' : Regmap) (e : Int) : Prop where
  neg : e < 0
  good : Good s'
  mode : s'.mode = s.mode
  same : ∀ j ls, ls.length = depth j →
    s'.forest.get MINIXFREEBNO j ls = s.forest.get MINIXFREEBNO j ls

theorem Good.wtranslate2_error (h : Good s) (hdepth : n + m = depth i)
    (hparent : ∀ k ks', way offset n m = k :: ks' →
      s.forest.get MINIXFREEBNO i ks' ≠ MINIXFREEBNO)
    (hs' : s.wtranslate2 bad n (s.slot i (way offset n m)) offset = (.error e, s')) :
    Failed s s' e := by
  have hlen : (way offset n m).length ≤ depth i := by
    rw [length_way]
    omega
  induction n generalizing s m with
  | zero =>
      rw [wtranslate2] at hs'
      cases halloc : s.allocdatab (s.slot i (way offset 0 m)) with
      | none =>
          rw [halloc, elim_none] at hs'
          cases hs'
          exact ⟨by decide, h, rfl, fun _ _ _ => rfl⟩
      | some t =>
          rw [halloc, elim_some] at hs'
          cases hs'
  | succ n ih =>
      rw [wtranslate2] at hs'
      cases halloc : s.allocindexb (s.slot i (way offset (n + 1) m)) with
      | none =>
          rw [halloc, elim_none] at hs'
          cases hs'
          exact ⟨by decide, h, rfl, fun _ _ _ => rfl⟩
      | some t =>
          rw [halloc, elim_some] at hs'
          have hfilled := h.allocindexb hlen hparent halloc
          have hdata := hfilled.same (by rw [length_way]; omega)
          split at hs'
          · cases hs'
            exact ⟨by decide, hfilled.good, hfilled.mode, hdata⟩
          rw [hfilled.load hlen hparent] at hs'
          have hrest := ih hfilled.good (by omega) hfilled.parent hs' (by rw [length_way]; omega)
          exact ⟨hrest.neg, hrest.good, hrest.mode.trans hfilled.mode,
            fun j ls hls => (hrest.same j ls hls).trans (hdata j ls hls)⟩

/-- The four branches of `writemap` are one walk. -/
theorem writemap2_eq (htreed : Treed s) (hlogic : logic < MINIXEND3) :
    s.writemap2 bad logic =
      s.wtranslate2 bad (depth (root logic)) (.daddr (root logic)) (offsetOf logic) := by
  rw [writemap2, if_neg (ne_true_of_eq_false htreed.sort),
    if_neg (ne_true_of_eq_false (not_isblk htreed))]
  obtain ⟨h0, hroot, hdepth, hoffset⟩ | ⟨h0, h1, hroot, hoffset⟩ |
    ⟨h0, h1, h2, hroot, hoffset⟩ | ⟨h0, h1, h2, hroot, hoffset⟩ := ranges logic
  · rw [dif_pos h0, hdepth, hroot, hoffset]
  · rw [dif_neg h0, if_pos h1, hroot, hoffset]
    rfl
  · rw [dif_neg h0, if_neg h1, if_pos h2, hroot, hoffset]
    rfl
  · rw [dif_neg h0, if_neg h1, if_neg h2, if_pos hlogic, hroot, hoffset]
    rfl

theorem writemap2_ok (htreed : Treed s) (hlogic : logic < MINIXEND3)
    (h : s.writemap2 bad logic = (.ok p, s')) : s.writemap logic = (.ok p, s') := by
  rw [writemap2_eq htreed hlogic] at h
  rw [writemap_eq htreed hlogic]
  exact wtranslate2_ok h

theorem writemap2_error (htreed : Treed s) (h : Good s) (hlogic : logic < MINIXEND3)
    (hs' : s.writemap2 bad logic = (.error e, s')) : Failed s s' e := by
  rw [writemap2_eq htreed hlogic] at hs'
  exact h.wtranslate2_error (m := 0) (Nat.add_zero _) (fun _ _ hcons => by cases hcons) hs'

theorem Failed.blockAt (h : Failed s s' e) (l : Nat) : s'.blockAt l = s.blockAt l :=
  h.same _ _ (length_way ..)

end Regmap

/-! ## One turn -/

namespace Wrfile

open Regmap (Treed Good Mapped Failed)

/-- A block of a file that an `off_t` can reach is in the map. -/
theorem logic_lt {q : Nat} (hq : q < OFFT) : q / BSIZE < MINIXEND3 := by
  have hlt : OFFT = 4194304 * BSIZE := by decide
  rw [hlt] at hq
  exact Nat.lt_trans (Nat.div_lt_of_lt_mul (by rwa [Nat.mul_comm])) (by decide)

section

variable {bad : Bno → Bool} {m m' : Regmap} {size pos n q : Nat} {phys : Bno} {e : Int}

/-- The places of a chunk in its block. -/
theorem chunk_iff (hblock : q / BSIZE = pos / BSIZE) (n : Nat) :
    pos ≤ q ∧ q < pos + chars pos n ↔
      pos % BSIZE ≤ q % BSIZE ∧ q % BSIZE < pos % BSIZE + chars pos n := by
  have hq := Nat.div_add_mod q BSIZE
  have hpos := Nat.div_add_mod pos BSIZE
  rw [hblock] at hq
  omega

/-- A chunk ends in its block, and there or with the last byte. -/
theorem chars_spec (pos n : Nat) : pos % BSIZE + chars pos n ≤ BSIZE ∧
    (chars pos n = n ∨ pos % BSIZE + chars pos n = BSIZE) := by
  have hmod : pos % BSIZE < BSIZE := Nat.mod_lt _ (by decide)
  unfold chars
  omega

theorem chunk_block (hin : pos ≤ q ∧ q < pos + chars pos n) : q / BSIZE = pos / BSIZE := by
  have hposdiv := Nat.div_add_mod pos BSIZE
  have hchars := (chars_spec pos n).1
  rw [Nat.mul_comm] at hposdiv
  refine Nat.div_eq_of_lt_le (by omega) ?_
  rw [Nat.succ_mul]
  omega

/-- A chunk ends at most at the end of an `off_t`. -/
theorem chunk_le (hpos : pos < OFFT) (n : Nat) : pos + chars pos n ≤ OFFT := by
  have hlogic : pos / BSIZE < 4194304 := Nat.div_lt_of_lt_mul hpos
  have hdiv := Nat.div_add_mod pos BSIZE
  have hchars := (chars_spec pos n).1
  have hsize : BSIZE = 1024 := rfl
  have hofft : OFFT = 4294967296 := rfl
  rw [hsize] at hdiv hchars hlogic
  omega

/-- A block that is not read is overwritten as far as the file goes. -/
theorem overwritten_spec (hover : overwritten size pos n = true) (hpos : pos < OFFT)
    (hblock : q / BSIZE = pos / BSIZE) (hq : q < size) :
    pos ≤ q ∧ q < pos + chars pos n := by
  rw [chunk_iff hblock]
  have hmod : q % BSIZE < BSIZE := Nat.mod_lt _ (by decide)
  have hchars := chars_spec pos n
  rw [overwritten, Bool.or_eq_true, Bool.and_eq_true, decide_eq_true_eq, decide_eq_true_eq,
    decide_eq_true_eq] at hover
  rcases hover with hfull | ⟨hoff, hend⟩
  · omega
  · have hle := chunk_le hpos n
    have hqdiv := Nat.div_add_mod q BSIZE
    have hposdiv := Nat.div_add_mod pos BSIZE
    rw [hblock] at hqdiv
    by_cases hwrap : pos + chars pos n = OFFT
    · rw [hwrap, Nat.mod_self] at hend
      omega
    · rw [Nat.mod_eq_of_lt (by omega)] at hend
      omega

/-- What a turn has found when `writemap` returns. -/
structure Fetched (m : Regmap) (pos : Nat) (phys : Bno) (m' : Regmap) : Prop where
  mapped : Mapped m (pos / BSIZE) phys m'
  same : m.blockAt (pos / BSIZE) ≠ MINIXFREEBNO → phys = m.blockAt (pos / BSIZE)

variable (htreed : Treed m) (h : Good m) (hpos : pos < OFFT)

include htreed h hpos

theorem writemap2_fetched (hmap : m.writemap2 bad (pos / BSIZE) = (.ok phys, m')) :
    Fetched m pos phys m' := by
  have hok := writemap2_ok htreed (logic_lt hpos) hmap
  refine ⟨writemap_mapped htreed h (logic_lt hpos) hok, fun hused => ?_⟩
  rw [writemap_same htreed (logic_lt hpos) hused] at hok
  exact (Except.ok.inj (Prod.mk.inj hok).1).symm

theorem fetch_ok (hfetch : fetch bad m size pos n = (.ok phys, m')) : Fetched m pos phys m' := by
  unfold fetch at hfetch
  cases hmap : m.writemap2 bad (pos / BSIZE) with
  | mk r t =>
      rw [hmap] at hfetch
      cases r with
      | error e => cases hfetch
      | ok p =>
          dsimp only at hfetch
          split at hfetch
          · cases hfetch
          · cases hfetch
            exact writemap2_fetched htreed h hpos hmap

/-- A turn fails in `writemap`, or when the block is read. -/
theorem fetch_error (hfetch : fetch bad m size pos n = (.error e, m')) :
    Failed m m' e ∧ (m.writemap2 bad (pos / BSIZE)).1 = .error e ∨
      e < 0 ∧ overwritten size pos n = false ∧
        ∃ phys, m.writemap2 bad (pos / BSIZE) = (.ok phys, m') := by
  unfold fetch at hfetch
  cases hmap : m.writemap2 bad (pos / BSIZE) with
  | mk r t =>
      rw [hmap] at hfetch
      cases r with
      | error e' =>
          cases hfetch
          exact .inl ⟨writemap2_error htreed h (logic_lt hpos) hmap, rfl⟩
      | ok p =>
          dsimp only at hfetch
          split at hfetch
          · next hbad =>
            cases hfetch
            rw [Bool.and_eq_true, Bool.not_eq_true'] at hbad
            exact .inr ⟨by decide, hbad.1, p, rfl⟩
          · cases hfetch

end

/-! ## What the file holds -/

/-- A regular file with blocks of its own. -/
structure Sound (s : Wrfile) : Prop where
  good : Good s.map
  reg : s.map.isreg = true
  size : s.size < OFFT

variable {c : Bufenv} {s : Wrfile} {old : Bno → Nat → Byte} {phys : Bno} {m : Regmap}
  {pos q : Nat} {rest : List Byte} {e : Int}

theorem byteAt_eq (h : Sound s) (hq : q < OFFT) :
    s.byteAt q = if s.map.blockAt (q / BSIZE) = MINIXFREEBNO then 0
      else s.data (s.map.blockAt (q / BSIZE)) (q % BSIZE) := by
  rw [byteAt, readmap_eq (.inr h.reg) (logic_lt hq)]
  by_cases hnull : s.map.blockAt (q / BSIZE) = MINIXFREEBNO
  · rw [if_pos hnull, if_pos hnull]
    exact if_pos rfl
  · rw [if_neg hnull, if_neg hnull]
    exact if_neg (h.good.distinct.valid _ _ (Nat.le_of_eq (length_way ..)))

theorem grown_lt {size : Nat} (hsize : size < OFFT) (pos : Nat) : grown size (pos % OFFT) < OFFT := by
  have hmod : pos % OFFT < OFFT := Nat.mod_lt _ (by decide)
  unfold grown
  split
  · exact hmod
  · exact hsize

theorem le_grown (size pos : Nat) : size ≤ grown size pos := by
  unfold grown
  split
  · omega
  · exact Nat.le_refl _

theorem isreg_congr {m m' : Regmap} (h : m'.mode = m.mode) : m'.isreg = m.isreg := by
  rw [isreg, isreg, h]

theorem Sound.copy (h : Sound s) (hmapped : Mapped s.map (pos / BSIZE) phys m) :
    Sound (s.copy old phys m pos rest) where
  good := hmapped.good
  reg := (isreg_congr hmapped.mode).trans h.reg
  size := grown_lt h.size _

/-- A turn changes one block, and of a block that was there only what it writes. -/
theorem copy_byteAt (h : Sound s) (hpos : pos < OFFT) (hmapped : Mapped s.map (pos / BSIZE) phys m)
    (hq : q < OFFT) : (s.copy old phys m pos rest).byteAt q =
      if q / BSIZE = pos / BSIZE then
        if pos ≤ q ∧ q < pos + chars pos rest.length then rest.getD (q - pos) 0
        else if overwritten s.size pos rest.length then old phys (q % BSIZE)
        else s.data phys (q % BSIZE)
      else s.byteAt q := by
  rw [byteAt_eq (h.copy hmapped) hq]
  unfold copy
  dsimp only
  by_cases hblock : q / BSIZE = pos / BSIZE
  · rw [if_pos hblock, hblock, hmapped.found, if_neg hmapped.used, Function.update_self, memcpy]
    have hlen : (rest.take (chars pos rest.length)).length = chars pos rest.length := by
      rw [length_take]
      exact Nat.min_eq_left (chars_le_left ..)
    rw [hlen]
    by_cases hin : pos ≤ q ∧ q < pos + chars pos rest.length
    · have hplace : q % BSIZE - pos % BSIZE = q - pos := by
        have hqdiv := Nat.div_add_mod q BSIZE
        have hposdiv := Nat.div_add_mod pos BSIZE
        rw [hblock] at hqdiv
        omega
      rw [if_pos ((chunk_iff hblock _).mp hin), if_pos hin, hplace, getD_eq_getElem?_getD,
        getD_eq_getElem?_getD, List.getElem?_take_of_lt (by omega)]
    · rw [if_neg fun hchunk => hin ((chunk_iff hblock _).mpr hchunk), if_neg hin]
      split
      · rfl
      · rfl
  · have hother := hmapped.other _ (logic_lt hq) hblock
    rw [if_neg hblock, byteAt_eq h hq, hother]
    by_cases hnull : s.map.blockAt (q / BSIZE) = MINIXFREEBNO
    · rw [if_pos hnull, if_pos hnull]
    · rw [if_neg hnull, if_neg hnull, Function.update_of_ne]
      intro heq
      have hsame : m.blockAt (q / BSIZE) = m.blockAt (pos / BSIZE) := by
        rw [hother, heq, hmapped.found]
      exact hblock (blockAt_inj hmapped.good (logic_lt hpos) (logic_lt hq)
        (by rwa [hother]) hsame)

/-- What a turn does not write stays, if it was in a block. -/
theorem copy_keeps (h : Sound s) (hpos : pos < OFFT) (hfetched : Fetched s.map pos phys m)
    (hq : q < s.size) (hout : ¬(pos ≤ q ∧ q < pos + chars pos rest.length))
    (hblock : q / BSIZE = pos / BSIZE → s.map.blockAt (pos / BSIZE) ≠ MINIXFREEBNO) :
    (s.copy old phys m pos rest).byteAt q = s.byteAt q := by
  have hlt := Nat.lt_trans hq h.size
  rw [copy_byteAt h hpos hfetched.mapped hlt]
  by_cases hsame : q / BSIZE = pos / BSIZE
  · have hover : ¬overwritten s.size pos rest.length = true := fun hover =>
      hout (overwritten_spec hover hpos hsame hq)
    have hused := hblock hsame
    rw [if_pos hsame, if_neg hout, if_neg hover, byteAt_eq h hlt, hsame, if_neg hused,
      hfetched.same hused]
  · rw [if_neg hsame]

/-- What a turn writes is there. -/
theorem copy_writes (h : Sound s) (hpos : pos < OFFT) (hfetched : Fetched s.map pos phys m)
    (hin : pos ≤ q ∧ q < pos + chars pos rest.length) :
    (s.copy old phys m pos rest).byteAt q = rest.getD (q - pos) 0 := by
  have hlt : q < OFFT := Nat.lt_of_lt_of_le hin.2 (chunk_le hpos _)
  rw [copy_byteAt h hpos hfetched.mapped hlt, if_pos (chunk_block hin), if_pos hin]

theorem grown_eq (size pos : Nat) : grown size pos = max size pos := by
  unfold grown
  split
  · omega
  · omega

/-- A turn writes its chunk. -/
theorem copy_spliced (h : Sound s) (hpos : pos < OFFT) (hfetched : Fetched s.map pos phys m)
    (hrest : rest ≠ []) (hend : pos + rest.length < OFFT)
    (hcov : Covered s.map s.size pos rest.length (pos / BSIZE)) :
    Spliced 0 s.byteAt (s.copy old phys m pos rest).byteAt s.size pos
      (rest.take (chars pos rest.length)) (s.copy old phys m pos rest).size := by
  have hchars := chars_ne_zero pos fun hlen => hrest (length_eq_zero_iff.mp hlen)
  have hle := chars_le_left pos rest.length
  have hlen : (rest.take (chars pos rest.length)).length = chars pos rest.length := by
    rw [length_take]
    exact Nat.min_eq_left hle
  refine ⟨fun i hi => ?_, ?_, fun q hq hout => ?_⟩
  · rw [hlen] at hi
    rw [copy_writes h hpos hfetched (by omega), getD_eq_getElem?_getD,
      getD_eq_getElem?_getD, List.getElem?_take_of_lt hi, Nat.add_sub_cancel_left]
  · rw [hlen, if_pos (Nat.pos_of_ne_zero hchars)]
    show grown s.size ((pos + chars pos rest.length) % OFFT) = _
    rw [Nat.mod_eq_of_lt (by omega), grown_eq]
  · rw [hlen] at hout
    refine copy_keeps h hpos hfetched hq hout fun hblock => hcov.resolve_right fun hall => hout ?_
    -- a hole, of which the file has only what is written
    have hin := hall q hblock hq
    have hmod : q % BSIZE < BSIZE := Nat.mod_lt _ (by decide)
    have hqdiv := Nat.div_add_mod q BSIZE
    have hposdiv := Nat.div_add_mod pos BSIZE
    have hspec := chars_spec pos rest.length
    rw [hblock] at hqdiv
    omega

end Wrfile

end Unixlite.Fs
