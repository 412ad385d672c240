import Unixlite.Fs.Write

/-!
# When a write keeps its promise

The chunks of a write add up to one run of bytes as long as none fails, no position comes to
2^32 and no hole is filled that the file has more of (`loop_spliced`).  In any other case there
are contents of the blocks and of the buffer with which the promise is broken, but for a failure
of the first chunk (`write_partial_iff`).
-/

namespace Unixlite.Fs

open Unixlite.Verified
open Wrfile
open List Option
open Nat (div_add_mod le_of_not_lt mod_eq_of_lt mod_self not_lt_zero)

namespace Wrfile

open Regmap (Treed Good Mapped Failed)

variable {c : Bufenv} {turn : Nat} {s : Wrfile} {pos q n : Nat} {rest : List Byte}
  {phys : Bno} {m m' : Regmap} {size : Nat} {e : Int} {bad : Nat → Bno → Bool}

/-! ## The two loops -/

theorem loop_nil : loop c turn s pos [] = (none, s) := by
  rw [loop, if_pos rfl]

theorem loop_error (hrest : rest ≠ [])
    (hfetch : fetch (c.bad turn) s.map s.size pos rest.length = (.error e, m)) :
    loop c turn s pos rest = (some e, { s with map := m }) := by
  rw [loop, if_neg hrest, hfetch]

theorem loop_ok (hrest : rest ≠ [])
    (hfetch : fetch (c.bad turn) s.map s.size pos rest.length = (.ok phys, m)) :
    loop c turn s pos rest = loop c (turn + 1) (s.copy (c.old turn) phys m pos rest)
      ((pos + chars pos rest.length) % OFFT) (rest.drop (chars pos rest.length)) := by
  rw [loop, if_neg hrest, hfetch]

theorem stops_zero : stops bad turn m size pos 0 = none := by
  rw [stops, if_pos rfl]

theorem stops_error (hn : n ≠ 0) (hfetch : fetch (bad turn) m size pos n = (.error e, m')) :
    stops bad turn m size pos n = some turn := by
  rw [stops, if_neg hn, hfetch]

theorem stops_ok (hn : n ≠ 0) (hfetch : fetch (bad turn) m size pos n = (.ok phys, m')) :
    stops bad turn m size pos n = stops bad (turn + 1) m'
      (grown size ((pos + chars pos n) % OFFT)) ((pos + chars pos n) % OFFT)
      (n - chars pos n) := by
  rw [stops, if_neg hn, hfetch]

theorem mod_lt (n : Nat) : n % OFFT < OFFT := Nat.mod_lt _ (by decide)

theorem length_ne_zero (hrest : ¬rest = []) : rest.length ≠ 0 := fun hlen =>
  hrest (length_eq_zero_iff.mp hlen)

/-- An error is negative. -/
theorem fetch_neg (h : Sound s) (hpos : pos < OFFT)
    (hfetch : fetch (bad turn) s.map s.size pos n = (.error e, m)) : e < 0 := by
  rcases fetch_error (.inr h.reg) h.good hpos hfetch with ⟨hfailed, -⟩ | ⟨hneg, -⟩
  · exact hfailed.neg
  · exact hneg

/-- Both loops end in the same way. -/
theorem loop_stops (h : Sound s) (hpos : pos < OFFT) :
    (stops c.bad turn s.map s.size pos rest.length = none →
      (loop c turn s pos rest).1 = none) ∧
    (stops c.bad turn s.map s.size pos rest.length ≠ none →
      ∃ e < 0, (loop c turn s pos rest).1 = some e) := by
  induction turn, s, pos, rest using loop.induct c with
  | case1 turn s pos =>
      rw [loop_nil]
      exact ⟨fun _ => rfl, fun hne => absurd stops_zero hne⟩
  | case2 turn s pos rest hrest e m hfetch =>
      rw [loop_error hrest hfetch, stops_error (length_ne_zero hrest) hfetch]
      exact ⟨fun hnone => (by cases hnone), fun _ => ⟨e, fetch_neg h hpos hfetch, rfl⟩⟩
  | case3 turn s pos rest hrest phys m hfetch ih =>
      have hmapped := (fetch_ok (.inr h.reg) h.good hpos hfetch).mapped
      rw [loop_ok hrest hfetch, stops_ok (length_ne_zero hrest) hfetch, ← length_drop]
      exact ih (h.copy hmapped) (mod_lt _)

/-- What a turn leaves behind that fails is a file. -/
theorem Sound.fail (h : Sound s) (hpos : pos < OFFT)
    (hfetch : fetch (bad turn) s.map s.size pos n = (.error e, m)) :
    Sound { s with map := m } := by
  rcases fetch_error (.inr h.reg) h.good hpos hfetch with ⟨hfailed, -⟩ | ⟨-, -, phys, hmap⟩
  · exact ⟨hfailed.good, (isreg_congr hfailed.mode).trans h.reg, h.size⟩
  · have hmapped := (writemap2_fetched (.inr h.reg) h.good hpos hmap).mapped
    exact ⟨hmapped.good, (isreg_congr hmapped.mode).trans h.reg, h.size⟩

theorem loop_sound (h : Sound s) (hpos : pos < OFFT) : Sound (loop c turn s pos rest).2 := by
  induction turn, s, pos, rest using loop.induct c with
  | case1 turn s pos =>
      rw [loop_nil]
      exact h
  | case2 turn s pos rest hrest e m hfetch =>
      rw [loop_error hrest hfetch]
      exact h.fail hpos hfetch
  | case3 turn s pos rest hrest phys m hfetch ih =>
      have hmapped := (fetch_ok (.inr h.reg) h.good hpos hfetch).mapped
      rw [loop_ok hrest hfetch]
      exact ih (h.copy hmapped) (mod_lt _)

/-- A file does not shrink. -/
theorem loop_size (c : Bufenv) (turn : Nat) (s : Wrfile) (pos : Nat) (rest : List Byte) :
    s.size ≤ (loop c turn s pos rest).2.size := by
  induction turn, s, pos, rest using loop.induct c with
  | case1 turn s pos =>
      rw [loop_nil]
  | case2 turn s pos rest hrest e m hfetch =>
      rw [loop_error hrest hfetch]
  | case3 turn s pos rest hrest phys m hfetch ih =>
      rw [loop_ok hrest hfetch]
      exact Nat.le_trans (le_grown ..) ih

/-! ## When it is kept -/

/-- A place behind a chunk with bytes left is in another block. -/
theorem block_lt (hleft : chars pos n < n) (hq : pos + chars pos n ≤ q) : pos / BSIZE < q / BSIZE := by
  have hfull := (chars_spec pos n).2.resolve_left (Nat.ne_of_lt hleft)
  have hposdiv := div_add_mod pos BSIZE
  have hle : (pos / BSIZE + 1) * BSIZE ≤ q := by
    rw [Nat.succ_mul, Nat.mul_comm]
    omega
  exact (Nat.le_div_iff_mul_le (by decide)).mpr hle

/-- The condition on the blocks, behind the first chunk. -/
theorem Covered.tail (hmapped : Mapped m (pos / BSIZE) phys m') (hend : pos + n < OFFT)
    (hq : pos + chars pos n ≤ q) (hqend : q < pos + n) (hcov : Covered m size pos n (q / BSIZE)) :
    Covered m' (grown size (pos + chars pos n)) (pos + chars pos n) (n - chars pos n)
      (q / BSIZE) := by
  have hleft : chars pos n < n := by omega
  have hblock := block_lt hleft hq
  rcases hcov with hused | hall
  · refine .inl ?_
    rw [hmapped.other _ (logic_lt (by omega)) (Nat.ne_of_gt hblock)]
    exact hused
  · refine .inr fun q' hq' hsize => ?_
    have hbehind : pos + chars pos n ≤ q' := by
      have hfull := (chars_spec pos n).2.resolve_left (Nat.ne_of_lt hleft)
      have hposdiv := div_add_mod pos BSIZE
      have hqdiv := div_add_mod q' BSIZE
      have hmul := Nat.mul_le_mul_left BSIZE (Nat.succ_le_of_lt hblock)
      rw [hq'] at hqdiv
      rw [Nat.mul_succ] at hmul
      omega
    rw [grown_eq] at hsize
    have hin := hall q' hq' (by omega)
    omega

/-- **A run of chunks writes a run of bytes.** -/
theorem loop_spliced (h : Sound s) (hend : pos + rest.length < OFFT)
    (hcov : ∀ q, pos ≤ q → q < pos + rest.length →
      Covered s.map s.size pos rest.length (q / BSIZE))
    (hstops : stops c.bad turn s.map s.size pos rest.length = none) :
    Spliced 0 s.byteAt (loop c turn s pos rest).2.byteAt s.size pos rest
      (loop c turn s pos rest).2.size := by
  induction turn, s, pos, rest using loop.induct c with
  | case1 turn s pos =>
      rw [loop_nil]
      exact Spliced.nil
  | case2 turn s pos rest hrest e m hfetch =>
      rw [stops_error (length_ne_zero hrest) hfetch] at hstops
      cases hstops
  | case3 turn s pos rest hrest phys m hfetch ih =>
      have hpos : pos < OFFT := by omega
      have hlen := length_ne_zero hrest
      have hle := chars_le_left pos rest.length
      have hfetched := fetch_ok (.inr h.reg) h.good hpos hfetch
      have hmod : (pos + chars pos rest.length) % OFFT = pos + chars pos rest.length :=
        mod_eq_of_lt (by omega)
      rw [stops_ok hlen hfetch, ← length_drop] at hstops
      rw [loop_ok hrest hfetch]
      rw [hmod] at ih hstops ⊢
      have hturn := @copy_spliced s (c.old turn) phys m pos rest h hpos hfetched hrest hend
        (hcov pos (Nat.le_refl _) (by omega))
      have hsize : (s.copy (c.old turn) phys m pos rest).size =
          grown s.size (pos + chars pos rest.length) := by
        rw [← hmod]
        rfl
      have hrun := ih (h.copy hfetched.mapped) (by rw [length_drop]; omega) ?_ ?_
      · have htake : (rest.take (chars pos rest.length)).length = chars pos rest.length := by
          rw [length_take]
          exact Nat.min_eq_left hle
        have happend := hturn.append htake hrun
        rw [take_append_drop] at happend
        exact happend
      · intro q hq hqend
        rw [length_drop] at hqend ⊢
        rw [hsize]
        exact Covered.tail hfetched.mapped hend hq (by omega) (hcov q (by omega) (by omega))
      · rw [hsize]
        exact hstops

/-! ## A turn that fails -/

/-- The blocks that are there stay, and so do the others but one. -/
theorem fail_blockAt (h : Sound s) (hpos : pos < OFFT)
    (hfetch : fetch (bad turn) s.map s.size pos n = (.error e, m)) {l : Nat} (hl : l < MINIXEND3)
    (hsame : s.map.blockAt l ≠ MINIXFREEBNO ∨ l ≠ pos / BSIZE) :
    m.blockAt l = s.map.blockAt l := by
  rcases fetch_error (.inr h.reg) h.good hpos hfetch with ⟨hfailed, -⟩ | ⟨-, -, phys, hmap⟩
  · exact hfailed.blockAt l
  · have hfetched := writemap2_fetched (.inr h.reg) h.good hpos hmap
    by_cases hblock : l = pos / BSIZE
    · have hused := hsame.resolve_right (not_not.mpr hblock)
      rw [hblock] at hused ⊢
      rw [hfetched.mapped.found, hfetched.same hused]
    · exact hfetched.mapped.other l hl hblock

theorem fail_byteAt (h : Sound s) (hpos : pos < OFFT)
    (hfetch : fetch (bad turn) s.map s.size pos n = (.error e, m)) (hq : q < OFFT)
    (hsame : m.blockAt (q / BSIZE) = s.map.blockAt (q / BSIZE)) :
    byteAt { s with map := m } q = s.byteAt q := by
  rw [byteAt_eq (h.fail hpos hfetch) hq, byteAt_eq h hq, hsame]

/-- What the file holds is not changed. -/
theorem fail_keeps (h : Sound s) (hpos : pos < OFFT)
    (hfetch : fetch (bad turn) s.map s.size pos n = (.error e, m))
    (hharm : Harmless (bad turn) s.map s.size pos) (hq : q < s.size) :
    byteAt { s with map := m } q = s.byteAt q := by
  have hlt := Nat.lt_trans hq h.size
  refine fail_byteAt h hpos hfetch hlt ?_
  rcases hharm with ⟨e', herror⟩ | hcov
  · rcases fetch_error (.inr h.reg) h.good hpos hfetch with ⟨hfailed, -⟩ | ⟨-, -, phys, hmap⟩
    · exact hfailed.blockAt _
    · rw [hmap] at herror
      cases herror
  · refine fail_blockAt h hpos hfetch (logic_lt hlt) ?_
    by_cases hblock : q / BSIZE = pos / BSIZE
    · rw [hblock]
      refine .inl (hcov.resolve_right fun hall => ?_)
      have hin := hall q hblock hq
      omega
    · exact .inr hblock

/-! ## The turn that fails -/

theorem le_of_stops {k : Nat} (h : stops bad turn m size pos n = some k) : turn ≤ k := by
  induction turn, m, size, pos, n using stops.induct bad with
  | case1 => rw [stops_zero] at h; cases h
  | case2 turn m size pos n hn e m' hfetch =>
      rw [stops_error hn hfetch] at h
      cases h
      exact Nat.le_refl _
  | case3 turn m size pos n hn phys m' hfetch ih =>
      rw [stops_ok hn hfetch] at h
      exact Nat.le_of_succ_le (ih h)

/-- The first turn fails, or a later one. -/
theorem stops_cases {k : Nat} (h : stops bad turn m size pos n = some k) : n ≠ 0 ∧
    (k = turn ∧ (∃ e m', fetch (bad turn) m size pos n = (.error e, m')) ∨
      turn < k ∧ ∃ phys m', fetch (bad turn) m size pos n = (.ok phys, m') ∧
        stops bad (turn + 1) m' (grown size ((pos + chars pos n) % OFFT))
          ((pos + chars pos n) % OFFT) (n - chars pos n) = some k) := by
  have hn : n ≠ 0 := by
    rintro rfl
    rw [stops_zero] at h
    cases h
  refine ⟨hn, ?_⟩
  cases hfetch : fetch (bad turn) m size pos n with
  | mk r m' =>
      cases r with
      | error e =>
          rw [stops_error hn hfetch] at h
          exact .inl ⟨(some.inj h).symm, e, m', rfl⟩
      | ok phys =>
          rw [stops_ok hn hfetch] at h
          exact .inr ⟨le_of_stops h, phys, m', rfl, h⟩

/-- What the file holds has not changed. -/
def Same (s s' : Wrfile) : Prop := s'.size = s.size ∧ ∀ q < s.size, s'.byteAt q = s.byteAt q

/-- A chunk behind the end of the file, up to the end of an `off_t`. -/
theorem copy_same (h : Sound s) (hpos : pos < OFFT) (hfetched : Fetched s.map pos phys m)
    (hbehind : s.size ≤ pos) (hend : pos + chars pos rest.length = OFFT)
    (hcov : Covered s.map s.size pos 0 (pos / BSIZE)) {old : Bno → Nat → Byte} :
    Same s (s.copy old phys m pos rest) := by
  constructor
  · show grown s.size ((pos + chars pos rest.length) % OFFT) = _
    rw [hend, mod_self]
    exact if_neg (not_lt_zero _)
  · intro q hq
    refine copy_keeps h hpos hfetched hq (by omega) fun hblock => hcov.resolve_right fun hall => ?_
    have hin := hall q hblock hq
    omega

theorem Same.trans {s t u : Wrfile} (h : Same s t) (h' : Same t u) : Same s u :=
  ⟨h'.1.trans h.1, fun q hq => (h'.2 q (h.1.symm ▸ hq)).trans (h.2 q hq)⟩

/-- A loop whose first turn fails. -/
theorem loop_same (h : Sound s) (hpos : pos < OFFT) (hrest : rest ≠ [])
    (hfetch : fetch (c.bad turn) s.map s.size pos rest.length = (.error e, m))
    (hharm : Harmless (c.bad turn) s.map s.size pos) : Same s (loop c turn s pos rest).2 := by
  rw [loop_error hrest hfetch]
  exact ⟨rfl, fun q hq => fail_keeps h hpos hfetch hharm hq⟩

/-- **The condition is enough**: the bytes are all written, or none is. -/
theorem loop_holds (h : Sound s) (hpos : pos < OFFT)
    (hholds : Holds c.bad s.map s.size pos rest.length) :
    (loop c 0 s pos rest).1 = none ∧ pos + rest.length < OFFT ∧
        Spliced 0 s.byteAt (loop c 0 s pos rest).2.byteAt s.size pos rest
          (loop c 0 s pos rest).2.size ∨
      ∃ e < 0, (loop c 0 s pos rest).1 = some e ∧ Same s (loop c 0 s pos rest).2 := by
  obtain ⟨hnone, hsome⟩ := @loop_stops c 0 s pos rest h hpos
  unfold Holds at hholds
  cases hstops : stops c.bad 0 s.map s.size pos rest.length with
  | none =>
      rw [hstops] at hholds
      exact .inl ⟨hnone hstops, hholds.1, loop_spliced h hholds.1 hholds.2 hstops⟩
  | some k =>
      obtain ⟨e, hneg, herror⟩ := hsome (by rw [hstops]; exact some_ne_none k)
      refine .inr ⟨e, hneg, herror, ?_⟩
      rw [hstops] at hholds
      obtain ⟨hlen, hcases⟩ := stops_cases hstops
      have hrest : rest ≠ [] := fun hnil => hlen (by rw [hnil]; rfl)
      rcases hcases with ⟨rfl, e', m, hfetch⟩ | ⟨hk, phys, m, hfetch, hlater⟩
      · exact loop_same h hpos hrest hfetch hholds
      · cases k with
        | zero => cases hk
        | succ k =>
            cases k with
            | succ k => exact hholds.elim
            | zero =>
                obtain ⟨hbehind, hend, hcov, hharm⟩ := hholds
                have hfetched := fetch_ok (.inr h.reg) h.good hpos hfetch
                have hfirst : Same s (s.copy (c.old 0) phys m pos rest) :=
                  copy_same h hpos hfetched hbehind hend hcov
                have hsound : Sound (s.copy (c.old 0) phys m pos rest) :=
                  h.copy hfetched.mapped
                refine hfirst.trans ?_
                rw [loop_ok hrest hfetch]
                rw [hend, mod_self, ← length_drop] at hlater
                rw [hend, mod_self]
                rw [hfetch] at hharm
                obtain ⟨hlen', hcases'⟩ := stops_cases hlater
                have hsize : grown s.size 0 = (s.copy (c.old 0) phys m pos rest).size :=
                  (if_neg (not_lt_zero _)).trans hfirst.1.symm
                rcases hcases' with ⟨-, e', m', hfetch'⟩ | ⟨hk', -⟩
                · rw [hsize] at hfetch'
                  rw [← hfirst.1] at hharm
                  refine loop_same hsound (by decide) (fun hnil => hlen' ?_) hfetch' hharm
                  rw [hnil]
                  rfl
                · exact absurd hk' (Nat.lt_irrefl _)

/-! ## Contents that betray it -/

/-- Every block that is not one of the file's holds ones. -/
def Ones (s : Wrfile) : Prop :=
  ∀ b ≠ MINIXFREEBNO, (∀ l < MINIXEND3, s.map.blockAt l ≠ b) → ∀ x, s.data b x = 1

/-- A block that fills a hole was not one of the file's. -/
theorem Ones.fresh (hones : Ones s) (hpos : pos < OFFT) (hmapped : Mapped s.map (pos / BSIZE) phys m)
    (hhole : s.map.blockAt (pos / BSIZE) = MINIXFREEBNO) (x : Nat) : s.data phys x = 1 := by
  refine hones phys hmapped.used (fun l hl heq => ?_) x
  have hne : l ≠ pos / BSIZE := by
    rintro rfl
    exact hmapped.used (heq.symm.trans hhole)
  have hsame := hmapped.other l hl hne
  exact hne (Regmap.blockAt_inj hmapped.good (logic_lt hpos) hl
    (by rw [hsame, heq]; exact hmapped.used) (by rw [hsame, heq, hmapped.found]))

theorem Ones.copy (hones : Ones s) (hpos : pos < OFFT)
    (hfetched : Fetched s.map pos phys m) {old : Bno → Nat → Byte} :
    Ones (s.copy old phys m pos rest) := by
  intro b hb hunused x
  have hne : b ≠ phys := by
    rintro rfl
    exact hunused _ (logic_lt hpos) hfetched.mapped.found
  refine (congrFun (Function.update_of_ne hne _ s.data) x).trans
    (hones b hb (fun l hl heq => ?_) x)
  by_cases hl' : l = pos / BSIZE
  · rw [hl'] at heq
    have hsame := hfetched.same (by rw [heq]; exact hb)
    exact hne (by rw [hsame, heq])
  · exact hunused l hl ((hfetched.mapped.other l hl hl').trans heq)

/-- A hole that a turn fills and does not overwrite shows. -/
theorem copy_exposes (h : Sound s) (hones : Ones s) (hpos : pos < OFFT)
    (hfetched : Fetched s.map pos phys m) (hhole : s.map.blockAt (pos / BSIZE) = MINIXFREEBNO)
    (hblock : q / BSIZE = pos / BSIZE) (hq : q < s.size)
    (hout : ¬(pos ≤ q ∧ q < pos + chars pos rest.length)) {old : Bno → Nat → Byte} :
    (s.copy old phys m pos rest).byteAt q = 1 := by
  have hover : ¬overwritten s.size pos rest.length = true := fun hover =>
    hout (overwritten_spec hover hpos hblock hq)
  rw [copy_byteAt h hpos hfetched.mapped (Nat.lt_trans hq h.size), if_pos hblock, if_neg hout,
    if_neg hover]
  exact hones.fresh hpos hfetched.mapped hhole _

theorem hole_byteAt (h : Sound s) (hq : q < OFFT)
    (hhole : s.map.blockAt (q / BSIZE) = MINIXFREEBNO) : s.byteAt q = 0 := by
  rw [byteAt_eq h hq, if_pos hhole]

/-- A turn that fails with harm has filled a hole. -/
theorem fail_exposes (h : Sound s) (hones : Ones s) (hpos : pos < OFFT)
    (hfetch : fetch (bad turn) s.map s.size pos n = (.error e, m))
    (hharm : ¬Harmless (bad turn) s.map s.size pos) :
    ∃ q < s.size, q / BSIZE = pos / BSIZE ∧ s.map.blockAt (pos / BSIZE) = MINIXFREEBNO ∧
      byteAt { s with map := m } q = 1 := by
  rw [Harmless, not_or] at hharm
  obtain ⟨hnoerror, hcov⟩ := hharm
  rw [Covered, not_or, not_not] at hcov
  obtain ⟨hhole, hall⟩ := hcov
  have hfile : ∃ q < s.size, q / BSIZE = pos / BSIZE := by
    by_contra hnone
    exact hall fun q hblock hq => absurd ⟨q, hq, hblock⟩ hnone
  obtain ⟨q, hq, hblock⟩ := hfile
  refine ⟨q, hq, hblock, hhole, ?_⟩
  rcases fetch_error (.inr h.reg) h.good hpos hfetch with ⟨-, herror⟩ | ⟨-, -, phys, hmap⟩
  · exact absurd ⟨e, herror⟩ hnoerror
  · have hmapped := (writemap2_fetched (.inr h.reg) h.good hpos hmap).mapped
    rw [byteAt_eq (h.fail hpos hfetch) (Nat.lt_trans hq h.size), hblock]
    rw [hmapped.found, if_neg hmapped.used]
    exact hones.fresh hpos hmapped hhole _

/-- The blocks in front of where a loop is are not touched. -/
theorem loop_before (h : Sound s) (hend : pos + rest.length < OFFT)
    (hstops : stops c.bad turn s.map s.size pos rest.length = none)
    (hq : q / BSIZE < pos / BSIZE) : (loop c turn s pos rest).2.byteAt q = s.byteAt q := by
  induction turn, s, pos, rest using loop.induct c with
  | case1 turn s pos => rw [loop_nil]
  | case2 turn s pos rest hrest e m hfetch =>
      rw [stops_error (length_ne_zero hrest) hfetch] at hstops
      cases hstops
  | case3 turn s pos rest hrest phys m hfetch ih =>
      have hpos : pos < OFFT := by omega
      have hqpos : q < OFFT := Nat.lt_trans (Nat.lt_of_div_lt_div hq) hpos
      have hle := chars_le_left pos rest.length
      have hfetched := fetch_ok (.inr h.reg) h.good hpos hfetch
      have hmod : (pos + chars pos rest.length) % OFFT = pos + chars pos rest.length :=
        mod_eq_of_lt (by omega)
      rw [stops_ok (length_ne_zero hrest) hfetch, ← length_drop] at hstops
      rw [loop_ok hrest hfetch]
      have hstep : q / BSIZE < (pos + chars pos rest.length) % OFFT / BSIZE := by
        rw [hmod]
        exact Nat.lt_of_lt_of_le hq (Nat.div_le_div_right (Nat.le_add_right ..))
      rw [ih (h.copy hfetched.mapped) (by rw [hmod, length_drop]; omega) hstops hstep,
        copy_byteAt h hpos hfetched.mapped hqpos, if_neg (Nat.ne_of_lt hq)]

/-- A hole that a loop fills and does not overwrite shows. -/
theorem loop_exposes (h : Sound s) (hones : Ones s) (hend : pos + rest.length < OFFT)
    (hstops : stops c.bad turn s.map s.size pos rest.length = none)
    (htouch : ∃ p, pos ≤ p ∧ p < pos + rest.length ∧ p / BSIZE = q / BSIZE)
    (hhole : s.map.blockAt (q / BSIZE) = MINIXFREEBNO) (hq : q < s.size)
    (hout : ¬(pos ≤ q ∧ q < pos + rest.length)) : (loop c turn s pos rest).2.byteAt q = 1 := by
  induction turn, s, pos, rest using loop.induct c with
  | case1 turn s pos =>
      obtain ⟨p, hp, hlt, -⟩ := htouch
      exact absurd hlt (Nat.not_lt_of_le hp)
  | case2 turn s pos rest hrest e m hfetch =>
      rw [stops_error (length_ne_zero hrest) hfetch] at hstops
      cases hstops
  | case3 turn s pos rest hrest phys m hfetch ih =>
      have hpos : pos < OFFT := by omega
      have hle := chars_le_left pos rest.length
      have hfetched := fetch_ok (.inr h.reg) h.good hpos hfetch
      have hmod : (pos + chars pos rest.length) % OFFT = pos + chars pos rest.length :=
        mod_eq_of_lt (by omega)
      rw [stops_ok (length_ne_zero hrest) hfetch, ← length_drop] at hstops
      rw [loop_ok hrest hfetch]
      have hsound : Sound (s.copy (c.old turn) phys m pos rest) := h.copy hfetched.mapped
      have hend' : (pos + chars pos rest.length) % OFFT +
          (rest.drop (chars pos rest.length)).length < OFFT := by
        rw [hmod, length_drop]
        omega
      by_cases hblock : q / BSIZE = pos / BSIZE
      · -- the hole is filled in this turn
        have hone : (s.copy (c.old turn) phys m pos rest).byteAt q = 1 :=
          copy_exposes h hones hpos hfetched (hblock ▸ hhole) hblock hq (by omega)
        by_cases hleft : chars pos rest.length < rest.length
        · rw [loop_before hsound hend' hstops, hone]
          rw [hmod, hblock]
          exact block_lt hleft (Nat.le_refl _)
        · rw [drop_eq_nil_iff.mpr (le_of_not_lt hleft), loop_nil]
          exact hone
      · refine ih hsound (hones.copy hpos hfetched) hend' hstops ?_ ?_
          (Nat.lt_of_lt_of_le hq (le_grown ..)) ?_
        · obtain ⟨p, hp, hplt, hpq⟩ := htouch
          have hbehind : pos + chars pos rest.length ≤ p := by
            by_contra hin
            exact hblock (hpq.symm.trans (chunk_block ⟨hp, Nat.lt_of_not_le hin⟩))
          rw [hmod, length_drop]
          exact ⟨p, hbehind, by omega, hpq⟩
        · exact (hfetched.mapped.other _ (logic_lt (Nat.lt_trans hq h.size)) hblock).trans hhole
        · rw [hmod, length_drop]
          omega

/-- What is in the file where a loop writes the same again stays. -/
theorem loop_stays {b : Byte} (h : Sound s) (hpos : pos < OFFT) (hbytes : ∀ x ∈ rest, x = b)
    (hq : q < s.size) (hused : s.map.blockAt (q / BSIZE) ≠ MINIXFREEBNO) (hb : s.byteAt q = b) :
    (loop c turn s pos rest).2.byteAt q = b := by
  induction turn, s, pos, rest using loop.induct c with
  | case1 turn s pos =>
      rw [loop_nil]
      exact hb
  | case2 turn s pos rest hrest e m hfetch =>
      have hlt := Nat.lt_trans hq h.size
      rw [loop_error hrest hfetch]
      refine (fail_byteAt h hpos hfetch hlt ?_).trans hb
      exact fail_blockAt h hpos hfetch (logic_lt hlt) (.inl hused)
  | case3 turn s pos rest hrest phys m hfetch ih =>
      have hfetched := fetch_ok (.inr h.reg) h.good hpos hfetch
      have hlt := Nat.lt_trans hq h.size
      rw [loop_ok hrest hfetch]
      refine ih (h.copy hfetched.mapped) (mod_lt _) (fun x hx => hbytes x (mem_of_mem_drop hx))
        (Nat.lt_of_lt_of_le hq (le_grown ..)) ?_ ?_
      · show m.blockAt (q / BSIZE) ≠ MINIXFREEBNO
        by_cases hblock : q / BSIZE = pos / BSIZE
        · rw [hblock, hfetched.mapped.found]
          exact hfetched.mapped.used
        · rw [hfetched.mapped.other _ (logic_lt hlt) hblock]
          exact hused
      · by_cases hin : pos ≤ q ∧ q < pos + chars pos rest.length
        · have hle := chars_le_left pos rest.length
          rw [copy_writes h hpos hfetched hin, getD_eq_getElem _ _ (by omega)]
          exact hbytes _ (getElem_mem _)
        · rw [copy_keeps h hpos hfetched hq hin fun hblock => hblock ▸ hused]
          exact hb

/-- A turn that is not at the end of an `off_t` behind the file leaves a trace. -/
theorem loop_traces {b : Byte} (h : Sound s) (hpos : pos < OFFT) (hbytes : ∀ x ∈ rest, x = b)
    (hrest : rest ≠ []) (hfetch : fetch (c.bad turn) s.map s.size pos rest.length = (.ok phys, m))
    (hseen : pos < s.size ∨ pos + chars pos rest.length < OFFT) :
    s.size < (loop c turn s pos rest).2.size ∨
      pos < s.size ∧ (loop c turn s pos rest).2.byteAt pos = b := by
  have hfetched := fetch_ok (.inr h.reg) h.good hpos hfetch
  have hchars := chars_ne_zero pos (length_ne_zero hrest)
  have hle := chars_le_left pos rest.length
  rw [loop_ok hrest hfetch]
  by_cases hin : pos < s.size
  · refine .inr ⟨hin, loop_stays (h.copy hfetched.mapped) (mod_lt _)
      (fun x hx => hbytes x (mem_of_mem_drop hx)) (Nat.lt_of_lt_of_le hin (le_grown ..)) ?_ ?_⟩
    · show m.blockAt (pos / BSIZE) ≠ MINIXFREEBNO
      rw [hfetched.mapped.found]
      exact hfetched.mapped.used
    · rw [copy_writes h hpos hfetched ⟨Nat.le_refl _, by omega⟩,
        getD_eq_getElem _ _ (by omega)]
      exact hbytes _ (getElem_mem _)
  · refine .inl (Nat.lt_of_lt_of_le ?_ (loop_size ..))
    have hend := hseen.resolve_left hin
    show s.size < grown s.size ((pos + chars pos rest.length) % OFFT)
    rw [mod_eq_of_lt hend, grown_eq]
    omega

/-- **The condition is needed** when the write succeeds. -/
theorem holds_of_spliced (h : Sound s) (hones : Ones s) (hpos : pos < OFFT)
    (hstops : stops c.bad 0 s.map s.size pos rest.length = none)
    (hspliced : Spliced 0 s.byteAt (loop c 0 s pos rest).2.byteAt s.size pos rest
      (loop c 0 s pos rest).2.size) : Holds c.bad s.map s.size pos rest.length := by
  unfold Holds
  rw [hstops]
  have hend : pos + rest.length < OFFT := by
    have hfin := hspliced.fin
    have hlt := (@loop_sound c 0 s pos rest h hpos).size
    split at hfin
    · omega
    · omega
  refine ⟨hend, fun p hp hplt => ?_⟩
  by_contra hcov
  rw [Covered, not_or, not_not] at hcov
  obtain ⟨hhole, hall⟩ := hcov
  refine hall fun q hblock hq => ?_
  by_contra hout
  rw [← hblock] at hhole
  have hone := loop_exposes h hones hend hstops ⟨p, hp, hplt, hblock.symm⟩ hhole hq hout
  rw [hspliced.other q hq hout, hole_byteAt h (Nat.lt_trans hq h.size) hhole] at hone
  cases hone

/-- A first turn that fails. -/
theorem harmless_of_same (h : Sound s) (hones : Ones s) (hpos : pos < OFFT)
    (hfetch : fetch (bad turn) s.map s.size pos n = (.error e, m))
    (hsame : Same s { s with map := m }) : Harmless (bad turn) s.map s.size pos := by
  by_contra hharm
  obtain ⟨q, hq, hblock, hhole, hone⟩ := fail_exposes h hones hpos hfetch hharm
  rw [← hblock] at hhole
  rw [hsame.2 q hq, hole_byteAt h (Nat.lt_trans hq h.size) hhole] at hone
  cases hone

/-- A chunk that ends at 2^32 is not in the first block. -/
theorem block_ne_zero (hend : pos + chars pos n = OFFT) : pos / BSIZE ≠ 0 := by
  intro hzero
  have hposdiv := div_add_mod pos BSIZE
  have hchars := (chars_spec pos n).1
  have hlt : BSIZE < OFFT := by decide
  rw [hzero] at hposdiv
  omega

/-- The second turn fails, behind a first one at the end of an `off_t`. -/
theorem holds_second (h : Sound s) (hones : Ones s) (hpos : pos < OFFT) (hrest : rest ≠ [])
    (hbehind : s.size ≤ pos) (hend : pos + chars pos rest.length = OFFT)
    (hfetch : fetch (c.bad 0) s.map s.size pos rest.length = (.ok phys, m))
    (hrest' : rest.drop (chars pos rest.length) ≠ [])
    (hfetch' : fetch (c.bad 1) m s.size 0 (rest.drop (chars pos rest.length)).length = (.error e, m'))
    (hsame : Same s (loop c 0 s pos rest).2) :
    Covered s.map s.size pos 0 (pos / BSIZE) ∧ Harmless (c.bad 1) m s.size 0 := by
  have hfetched := fetch_ok (.inr h.reg) h.good hpos hfetch
  have hsound : Sound (s.copy (c.old 0) phys m pos rest) := h.copy hfetched.mapped
  have hsize : (s.copy (c.old 0) phys m pos rest).size = s.size := by
    show grown s.size ((pos + chars pos rest.length) % OFFT) = _
    rw [hend, mod_self]
    exact if_neg (not_lt_zero _)
  have hfetch₁ : fetch (c.bad 1) (s.copy (c.old 0) phys m pos rest).map
      (s.copy (c.old 0) phys m pos rest).size 0 (rest.drop (chars pos rest.length)).length =
      (.error e, m') := by
    rw [hsize]
    exact hfetch'
  rw [loop_ok hrest hfetch, hend, mod_self, loop_error hrest' hfetch₁] at hsame
  constructor
  · by_contra hcov
    rw [Covered, not_or, not_not] at hcov
    obtain ⟨hhole, hall⟩ := hcov
    refine hall fun q hblock hq => ?_
    have hlt := Nat.lt_trans hq h.size
    have hone : (s.copy (c.old 0) phys m pos rest).byteAt q = 1 :=
      copy_exposes h hones hpos hfetched hhole hblock hq (by omega)
    have hkept : m'.blockAt (q / BSIZE) = m.blockAt (q / BSIZE) := by
      refine fail_blockAt hsound (by decide) hfetch₁ (logic_lt hlt) (.inl ?_)
      rw [hblock]
      exact hfetched.mapped.found.trans_ne hfetched.mapped.used
    rw [← fail_byteAt hsound (by decide) hfetch₁ hlt hkept, hsame.2 q hq,
      hole_byteAt h hlt (hblock ▸ hhole)] at hone
    cases hone
  · by_contra hharm
    rw [← hsize] at hharm
    obtain ⟨q, hq, hblock, hhole, hone⟩ :=
      fail_exposes hsound (hones.copy hpos hfetched) (by decide) hfetch₁ hharm
    rw [hsize] at hq
    have hother : m.blockAt (0 / BSIZE) = s.map.blockAt (0 / BSIZE) :=
      hfetched.mapped.other _ (by decide) (block_ne_zero hend).symm
    rw [hsame.2 q hq, hole_byteAt h (Nat.lt_trans hq h.size)
      (hblock ▸ hother.symm.trans hhole)] at hone
    cases hone

/-- **The condition is needed** when the write fails. -/
theorem holds_of_same {b : Byte} (h : Sound s) (hones : Ones s) (hpos : pos < OFFT)
    (hbytes : ∀ x ∈ rest, x = b) (hb : ∀ q < s.size, s.byteAt q ≠ b)
    (hstops : stops c.bad 0 s.map s.size pos rest.length ≠ none)
    (hsame : Same s (loop c 0 s pos rest).2) : Holds c.bad s.map s.size pos rest.length := by
  obtain ⟨k, hk⟩ := ne_none_iff_exists'.mp hstops
  obtain ⟨hlen, hcases⟩ := stops_cases hk
  have hrest : rest ≠ [] := fun hnil => hlen (by rw [hnil]; rfl)
  unfold Holds
  rw [hk]
  rcases hcases with ⟨rfl, e, m, hfetch⟩ | ⟨hpositive, phys, m, hfetch, hlater⟩
  · rw [loop_error hrest hfetch] at hsame
    exact harmless_of_same h hones hpos hfetch hsame
  have hfetched := fetch_ok (.inr h.reg) h.good hpos hfetch
  have hunseen : ¬(pos < s.size ∨ pos + chars pos rest.length < OFFT) := by
    intro hseen
    rcases loop_traces h hpos hbytes hrest hfetch hseen with hsize | ⟨hin, hbyte⟩
    · rw [hsame.1] at hsize
      exact Nat.lt_irrefl _ hsize
    · exact hb pos hin ((hsame.2 pos hin).symm.trans hbyte)
  rw [not_or] at hunseen
  have hend : pos + chars pos rest.length = OFFT :=
    Nat.le_antisymm (chunk_le hpos _) (le_of_not_lt hunseen.2)
  have hgrown : grown s.size 0 = s.size := if_neg (not_lt_zero _)
  rw [hend, mod_self, ← length_drop, hgrown] at hlater
  obtain ⟨hlen', hcases'⟩ := stops_cases hlater
  have hrest' : rest.drop (chars pos rest.length) ≠ [] := fun hnil => hlen' (by rw [hnil]; rfl)
  rcases hcases' with ⟨rfl, e, m', hfetch'⟩ | ⟨hk', phys', m', hfetch', -⟩
  · have hsecond := holds_second h hones hpos hrest (le_of_not_lt hunseen.1) hend hfetch hrest'
      hfetch' hsame
    refine ⟨le_of_not_lt hunseen.1, hend, hsecond.1, ?_⟩
    rw [hfetch]
    exact hsecond.2
  · exfalso
    have hsize : (s.copy (c.old 0) phys m pos rest).size = s.size := by
      show grown s.size ((pos + chars pos rest.length) % OFFT) = _
      rw [hend, mod_self]
      exact hgrown
    rw [loop_ok hrest hfetch, hend, mod_self] at hsame
    have hsound : Sound (s.copy (c.old 0) phys m pos rest) := h.copy hfetched.mapped
    have hseen : 0 + chars 0 (rest.drop (chars pos rest.length)).length < OFFT := by
      have hchars := (chars_spec 0 (rest.drop (chars pos rest.length)).length).1
      have hlt : BSIZE < OFFT := by decide
      omega
    rw [← hsize] at hfetch'
    rcases loop_traces hsound (by decide) (fun x hx => hbytes x (mem_of_mem_drop hx)) hrest'
      hfetch' (.inr hseen) with hless | ⟨hin, hbyte⟩
    · rw [hsame.1, hsize] at hless
      exact Nat.lt_irrefl _ hless
    · rw [hsize] at hin
      exact hb 0 hin ((hsame.2 0 hin).symm.trans hbyte)

theorem write_eq (h : Sound s) (c : Bufenv) (pos : Nat) (buf : List Byte) :
    s.write c pos buf = ((loop c 0 s pos buf).1.getD buf.length, (loop c 0 s pos buf).2) := by
  rw [write, if_neg (ne_true_of_eq_false (Regmap.Treed.sort (.inr h.reg)))]
  cases loop c 0 s pos buf with
  | mk r t =>
      cases r with
      | none => rfl
      | some e => rfl

end Wrfile

/-! ## The descriptor -/

namespace Regfd

open Wrfile (Sound Same Holds Ones loop)

variable {c : Bufenv} {s : Regfd} {buf : List Byte}

/-- What `regfd_t::write` makes of the loop. -/
theorem write_loop (h : Sound s.file) :
    (s.write c buf).1 = (loop c 0 s.file s.pos buf).1.getD buf.length ∧
      (s.write c buf).2.file = (loop c 0 s.file s.pos buf).2 ∧
      (s.write c buf).2.curpos = if 0 < (s.write c buf).1 then
        (s.pos + (s.write c buf).1.toNat) % OFFT else s.pos := by
  have hwrite := write_eq h c s.pos buf
  have hret : (s.write c buf).1 = (s.file.write c s.pos buf).1 := rfl
  have hfile : (s.write c buf).2.file = (s.file.write c s.pos buf).2 := rfl
  rw [hret, hfile, hwrite]
  refine ⟨rfl, rfl, ?_⟩
  show (if 0 < (s.file.write c s.pos buf).1 then
    (s.pos + (s.file.write c s.pos buf).1.toNat) % OFFT else s.pos) = _
  rw [hwrite]

/-- A write that fails and has changed nothing is one of no bytes. -/
theorem written_iff_same (h : Sound s.file) {e : Int} (hneg : e < 0)
    (herror : (loop c 0 s.file s.pos buf).1 = some e) :
    Written s (s.write c buf).2 buf (s.write c buf).1.toNat ↔
      Same s.file (loop c 0 s.file s.pos buf).2 := by
  obtain ⟨hret, hfile, hcurpos⟩ := @write_loop c s buf h
  rw [herror, getD_some] at hret
  have hzero : (s.write c buf).1.toNat = 0 := by
    rw [hret]
    exact Int.toNat_of_nonpos (Int.le_of_lt hneg)
  rw [hret, if_neg (Int.not_lt.mpr (Int.le_of_lt hneg))] at hcurpos
  rw [hzero]
  constructor
  · intro hwritten
    rw [← hfile]
    refine ⟨hwritten.size, fun q hq => hwritten.other q hq (by omega)⟩
  · intro hsame
    rw [← hfile] at hsame
    exact ⟨Nat.zero_le _, fun i hi => absurd hi (not_lt_zero i), hsame.1, hcurpos,
      fun q hq _ => hsame.2 q hq⟩

/-- A write that does not fail is one of all bytes. -/
theorem written_iff_spliced (h : Sound s.file) (hpos : s.pos < OFFT)
    (hnone : (loop c 0 s.file s.pos buf).1 = none) :
    Written s (s.write c buf).2 buf (s.write c buf).1.toNat ↔
      Spliced 0 s.file.byteAt (loop c 0 s.file s.pos buf).2.byteAt s.file.size s.pos buf
        (loop c 0 s.file s.pos buf).2.size := by
  obtain ⟨hret, hfile, hcurpos⟩ := @write_loop c s buf h
  have hsize := (@loop_sound c 0 s.file s.pos buf h hpos).size
  rw [hnone, getD_none] at hret
  have hall : (s.write c buf).1.toNat = buf.length := by
    rw [hret]
    exact Int.toNat_natCast _
  rw [← hfile] at hsize ⊢
  rw [hall] at hcurpos ⊢
  constructor
  · intro hwritten
    exact ⟨hwritten.bytes, hwritten.size, hwritten.other⟩
  · intro hspliced
    refine ⟨Nat.le_refl _, hspliced.run, hspliced.fin, ?_, hspliced.other⟩
    have hfin := hspliced.fin
    rw [hcurpos, hret]
    split at hfin
    · rw [if_pos (by omega)]
      exact mod_eq_of_lt (by omega)
    · rw [if_neg (by omega)]
      omega

/-- **When a write keeps its promise** whatever the blocks and the caller's buffer hold: nothing
fails behind the first chunk, the end is below 2^32 and no hole is filled of which the file has
more. -/
theorem write_partial_iff (bad : Nat → Bno → Bool) (map : Regmap) (size curpos n : Nat)
    (append : Bool) (hgood : Regmap.Good map) (hreg : map.isreg = true) (hsize : size < OFFT)
    (hcur : curpos < OFFT) :
    (∀ (data : Bno → Nat → Byte) (old : Nat → Bno → Nat → Byte) (buf : List Byte),
      buf.length = n →
      Written ⟨⟨map, size, data⟩, curpos, append⟩
        (write ⟨bad, old⟩ ⟨⟨map, size, data⟩, curpos, append⟩ buf).2 buf
        (write ⟨bad, old⟩ ⟨⟨map, size, data⟩, curpos, append⟩ buf).1.toNat) ↔
    Holds bad map size (if append then size else curpos) n := by
  have hsound : ∀ data, Sound ⟨map, size, data⟩ := fun data => ⟨hgood, hreg, hsize⟩
  have hpos : (if append then size else curpos) < OFFT := by
    split
    · exact hsize
    · exact hcur
  constructor
  · intro hall
    have hwritten := hall (fun _ _ => 1) (fun _ _ _ => 1) (List.replicate n 2)
      List.length_replicate
    have hones : Ones ⟨map, size, fun _ _ => 1⟩ := fun _ _ _ _ => rfl
    obtain ⟨hnone, hsome⟩ := @loop_stops ⟨bad, fun _ _ _ => 1⟩ 0 ⟨map, size, fun _ _ => 1⟩
      _ (List.replicate n 2) (hsound _) hpos
    rw [← List.length_replicate (n := n) (a := (2 : Byte))]
    by_cases hstops : stops bad 0 map size (if append then size else curpos)
        (List.replicate n (2 : Byte)).length = none
    · refine holds_of_spliced (c := ⟨bad, fun _ _ _ => 1⟩) (hsound _) hones hpos hstops ?_
      exact (written_iff_spliced (s := ⟨⟨map, size, fun _ _ => 1⟩, curpos, append⟩) (hsound _) hpos
        (hnone hstops)).mp hwritten
    · obtain ⟨e, hneg, herror⟩ := hsome hstops
      refine holds_of_same (c := ⟨bad, fun _ _ _ => 1⟩) (hsound _) hones hpos
        (fun x hx => List.eq_of_mem_replicate hx) (fun q hq => ?_) hstops ((written_iff_same
          (s := ⟨⟨map, size, fun _ _ => 1⟩, curpos, append⟩) (hsound _) hneg herror).mp hwritten)
      rw [byteAt_eq (hsound _) (Nat.lt_trans hq hsize)]
      split
      · decide
      · show (1 : Byte) ≠ 2
        decide
  · rintro hholds data old buf rfl
    rcases loop_holds (c := ⟨bad, old⟩) (hsound data) hpos hholds with
      ⟨hnone, -, hspliced⟩ | ⟨e, hneg, herror, hsame⟩
    · exact (written_iff_spliced (s := ⟨⟨map, size, data⟩, curpos, append⟩) (hsound data) hpos
        hnone).mpr hspliced
    · exact (written_iff_same (s := ⟨⟨map, size, data⟩, curpos, append⟩) (hsound data) hneg
        herror).mpr hsame

/-! ## An empty file -/

/-- An empty file on a disk with one free block. -/
def onefree : Regmap := { Regmap.empty with free := [30] }

theorem good_onefree : Regmap.Good onefree := by
  obtain ⟨hdistinct, -, hunused⟩ := Regmap.good_empty
  refine ⟨⟨hdistinct.noShare, hdistinct.valid⟩, nodup_singleton 30, fun b hb => ?_⟩
  exact hunused b (mem_of_mem_take (i := 1) hb)

theorem sound_onefree (data : Bno → Nat → Byte) : Sound ⟨onefree, 0, data⟩ :=
  ⟨good_onefree, (by decide : onefree.isreg = true), (by decide : 0 < OFFT)⟩

/-- Ten bytes fit. -/
theorem holds_ten : Holds (fun _ _ => false) onefree 0 0 10 := by
  have hfetch : fetch (fun _ => false) onefree 0 0 10 =
      (.ok 30, (fetch (fun _ => false) onefree 0 0 10).2) := Prod.ext (by decide +kernel) rfl
  have hchars : 10 - chars 0 10 = 0 := by decide
  have hstops : stops (fun _ _ => false) 0 onefree 0 0 10 = none := by
    rw [stops_ok (by decide) hfetch, hchars, stops_zero]
  unfold Holds
  rw [hstops]
  exact ⟨by decide, fun q _ _ => .inr fun q _ hq => absurd hq (not_lt_zero q)⟩

theorem write_partial_ten :
    Written ⟨⟨onefree, 0, fun _ _ => 0⟩, 0, false⟩
      (write ⟨fun _ _ => false, fun _ _ _ => 5⟩ ⟨⟨onefree, 0, fun _ _ => 0⟩, 0, false⟩
        (List.replicate 10 7)).2 (List.replicate 10 7)
      (write ⟨fun _ _ => false, fun _ _ _ => 5⟩ ⟨⟨onefree, 0, fun _ _ => 0⟩, 0, false⟩
        (List.replicate 10 7)).1.toNat :=
  (write_partial_iff (fun _ _ => false) onefree 0 0 10 false good_onefree (by decide) (by decide)
    (by decide)).mpr holds_ten _ _ _ rfl

/-- The second of two blocks cannot be had: the first one is written, and the caller is told
that nothing is. -/
theorem write_tears : ¬ ∀ (c : Bufenv) (s : Regfd) (buf : List Byte), Sound s.file →
    s.curpos < OFFT → Written s (s.write c buf).2 buf (s.write c buf).1.toNat := by
  intro h
  obtain ⟨buf, hlen, hbytes⟩ : ∃ buf : List Byte, buf.length = 2048 ∧ ∀ x ∈ buf, x = 7 :=
    ⟨List.replicate 2048 7, List.length_replicate, fun x hx => List.eq_of_mem_replicate hx⟩
  have hsound := sound_onefree fun _ _ => 0
  have hwritten := h ⟨fun _ _ => false, fun _ _ _ => 0⟩ ⟨⟨onefree, 0, fun _ _ => 0⟩, 0, false⟩
    buf hsound (by decide)
  have hrest : buf ≠ [] := List.ne_nil_of_length_pos (by rw [hlen]; decide)
  have hfetch : fetch (fun _ => false) onefree 0 0 buf.length =
      (.ok 30, (fetch (fun _ => false) onefree 0 0 2048).2) := by
    rw [hlen]
    exact Prod.ext (by decide +kernel) rfl
  have hfetch' : fetch (fun _ => false)
      (fetch (fun _ => false) onefree 0 0 2048).2 1024 1024 1024 =
      (.error ENOSPC, (fetch (fun _ => false)
        (fetch (fun _ => false) onefree 0 0 2048).2 1024 1024 1024).2) :=
    Prod.ext (by decide +kernel) rfl
  have hstops : stops (fun _ _ => false) 0 onefree 0 0 buf.length = some 1 := by
    have hgrown : grown 0 ((0 + chars 0 2048) % OFFT) = 1024 := by decide
    have hpos : (0 + chars 0 2048) % OFFT = 1024 := by decide
    have hleft : 2048 - chars 0 2048 = 1024 := by decide
    rw [stops_ok (by rw [hlen]; decide) hfetch, hlen, hgrown, hpos, hleft]
    exact stops_error (by decide) hfetch'
  have hloop := @loop_stops ⟨fun _ _ => false, fun _ _ _ => 0⟩ 0 _ 0 buf hsound (by decide)
  obtain ⟨e, hneg, herror⟩ := hloop.2 (hstops.trans_ne (Option.some_ne_none 1))
  have hsame := (written_iff_same (s := ⟨⟨onefree, 0, fun _ _ => 0⟩, 0, false⟩) hsound hneg
    herror).mp hwritten
  have hseen : 0 + chars 0 buf.length < OFFT := by
    rw [hlen]
    decide
  have htrace := @loop_traces ⟨fun _ _ => false, fun _ _ _ => 0⟩ 0 _ 0 buf _ _ 7 hsound
    (by decide) hbytes hrest hfetch (.inr hseen)
  rcases htrace with hgrown | ⟨hin, -⟩
  · exact Nat.lt_irrefl _ (hgrown.trans_eq hsame.1)
  · exact Nat.not_lt_zero _ hin

end Regfd

end Unixlite.Fs
