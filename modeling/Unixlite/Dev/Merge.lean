import Unixlite.Dev.Hddev

/-!
# Merging requests

The requests of the disk driver, with the blocks that their buffers are for and the places of
the sectors in memory.  `scanreq_t` of `dev/blk/req.cc` is here; the rest of that file is in
`Dev/Req`.

A request is a run of blocks, and the walk over its sectors comes to each of them once and in
order.  But `merge` compares sector numbers of 32 bits: block 0 follows the last block there is
(`run_requests_iff`).
-/

namespace Unixlite.Blkdev

open Unixlite.Bcache (Bstate Rw SECTSIZE)
open Unixlite.Verified.Run List Option

def MINIXBSIZE : Nat := 1024

/-! ## Sectors in memory -/

/-- The addresses of the `n` sectors of a buffer. -/
def sects (data : Nat → Nat) (n b : Nat) : List Nat :=
  (List.range n).map fun i => data b + SECTSIZE * i

/-- `scanreq_t`, with `left` and `sect` as in `Req`. -/
structure Scanreq where
  nsect : Nat
  left : List Nat
  sect : Nat
  sectperblk : Nat

namespace Scanreq

/-- `cursect`; `none` when it is null. -/
def cursect (data : Nat → Nat) (c : Scanreq) : Option Nat :=
  c.left.head?.map fun b => data b + SECTSIZE * c.sect

def next (c : Scanreq) : Scanreq :=
  if c.nsect - 1 = 0 then { c with nsect := 0 }
  else if c.sect + 1 ≠ c.sectperblk then
    { c with nsect := c.nsect - 1, sect := c.sect + 1 }
  else { c with nsect := c.nsect - 1, left := c.left.tail, sect := 0 }

/-- `foreachsect`, for `n` turns: what `sect` is in each. -/
def foreachsect (data : Nat → Nat) : Nat → Scanreq → List Nat
  | 0, _ => []
  | n + 1, c =>
      if c.nsect = 0 then []
      else
        match c.cursect data with
        | none => []
        | some sect => sect :: foreachsect data n c.next

end Scanreq

namespace Req

variable {r r' : Req} {n : Nat} {state : Bstate} {buf : Nat → Buf} {data : Nat → Nat}

/-- `cursect`; `none` when it is null. -/
def cursect (data : Nat → Nat) (r : Req) : Option Nat :=
  r.left.head?.map fun b => data b + SECTSIZE * r.sect

/-- What `cursect` is in the turns of `error` and of `advance`. -/
def walk (data : Nat → Nat) (state : Bstate) : Nat → Req → (Nat → Buf) → List Nat
  | 0, _, _ => []
  | n + 1, r, buf =>
      match r.cursect data with
      | none => []
      | some sect =>
          let x := r.nextsect state buf
          sect :: walk data state n x.1 x.2

/-- `foreachsect(sect, req, nsect)`. -/
def foreachsect (data : Nat → Nat) (r : Req) (nsect : Nat) : List Nat :=
  Scanreq.foreachsect data nsect ⟨nsect, r.left, r.sect, r.sectperblk⟩

/-! ### What is left of a request -/

/-- The sectors from `cursect` on. -/
def restof (data : Nat → Nat) (sectperblk : Nat) (left : List Nat) (sect : Nat) : List Nat :=
  (left.flatMap (sects data sectperblk)).drop sect

def rest (data : Nat → Nat) (r : Req) : List Nat := restof data r.sectperblk r.left r.sect

theorem length_sects (data : Nat → Nat) (n b : Nat) : (sects data n b).length = n := by
  simp [sects]

theorem length_flatMap_sects (data : Nat → Nat) (n : Nat) (l : List Nat) :
    (l.flatMap (sects data n)).length = l.length * n := by
  induction l with
  | nil => simp
  | cons b l ih =>
      rw [flatMap_cons, length_append, ih, length_sects, length_cons,
        Nat.succ_mul, Nat.add_comm]

@[simp] theorem restof_nil (data : Nat → Nat) (n sect : Nat) : restof data n [] sect = [] := by
  simp [restof]

/-- One sector is the first of what is left, and the others are left after it. -/
theorem restof_cons (data : Nat → Nat) {n sect : Nat} (hsect : sect < n) (b : Nat)
    (left : List Nat) : restof data n (b :: left) sect =
      (data b + SECTSIZE * sect) ::
        if sect + 1 ≠ n then restof data n (b :: left) (sect + 1) else restof data n left 0 := by
  have hlen : sect < (sects data n b).length := by rwa [length_sects]
  have hhead : restof data n (b :: left) sect = (data b + SECTSIZE * sect) ::
      ((b :: left).flatMap (sects data n)).drop (sect + 1) := by
    unfold restof
    rw [flatMap_cons, drop_eq_getElem_cons (by rw [length_append]; omega),
      getElem_append_left hlen]
    simp [sects]
  rw [hhead]
  split_ifs with hlast
  · rfl
  · obtain rfl : sect + 1 = n := not_not.mp hlast
    unfold restof
    rw [flatMap_cons, drop_append_of_le_length (by rw [length_sects]),
      drop_of_length_le (by rw [length_sects]), nil_append, drop_zero]

theorem rest_length (r : Req) (data : Nat → Nat) : (r.rest data).length = r.remaining := by
  unfold rest restof remaining
  rw [length_drop, length_flatMap_sects]

/-- `error` and `advance` come to what is left, in order. -/
theorem walk_eq (h : r.Ok) (n : Nat) : walk data state n r buf = (r.rest data).take n := by
  induction n generalizing r buf with
  | zero => simp [walk]
  | succ n ih =>
      unfold walk cursect
      cases hl : r.left with
      | nil => simp [rest, hl]
      | cons b left =>
          have hmore : r.more = true := by simp [more, hl]
          have hok := (nextsect_spec h hmore state buf).1
          have hrest : r.rest data = (data b + SECTSIZE * r.sect) ::
              (r.nextsect state buf).1.rest data := by
            unfold rest
            rw [hl, restof_cons data h.sect]
            unfold nextsect
            split_ifs <;> simp_all
          rw [hrest, take_succ_cons]
          exact congrArg _ (ih hok)

/-- `foreachsect` comes to what is left, in order. -/
theorem scan_eq {c : Scanreq} (hsect : c.sect < c.sectperblk) :
    c.foreachsect data c.nsect = (restof data c.sectperblk c.left c.sect).take c.nsect := by
  obtain ⟨n, left, sect, sectperblk⟩ := c
  induction n generalizing left sect with
  | zero => simp [Scanreq.foreachsect]
  | succ n ih =>
      unfold Scanreq.foreachsect Scanreq.cursect
      dsimp only at hsect ⊢
      rw [if_neg (Nat.succ_ne_zero n)]
      cases left with
      | nil => simp
      | cons b left =>
          rw [restof_cons data hsect, take_succ_cons]
          simp only [List.head?_cons, map_some]
          refine congrArg _ ?_
          unfold Scanreq.next
          rw [Nat.add_sub_cancel]
          by_cases hn : n = 0
          · simp [hn, Scanreq.foreachsect]
          rw [if_neg hn]
          by_cases hlast : sect + 1 ≠ sectperblk
          · rw [if_pos hlast, if_pos hlast]
            exact ih _ _ (by dsimp only; omega)
          · rw [if_neg hlast, if_neg hlast]
            exact ih _ _ (by dsimp only; omega)

/-! ### Later -/

/-- `r` is `q` with part of it done. -/
structure Onward (q r : Req) : Prop where
  id : r.id = q.id
  cmd : r.cmd = q.cmd
  dev : r.dev = q.dev
  bsize : r.bsize = q.bsize
  sectperblk : r.sectperblk = q.sectperblk
  startsect : r.startsect = q.startsect
  nsect : r.nsect = q.nsect
  bufq : r.bufq = q.bufq
  left : r.left <:+ q.left

theorem Onward.refl (r : Req) : Onward r r :=
  ⟨rfl, rfl, rfl, rfl, rfl, rfl, rfl, rfl, suffix_refl _⟩

theorem Onward.trans {q p : Req} (h : Onward q r) (h' : Onward p q) : Onward p r :=
  ⟨h.id.trans h'.id, h.cmd.trans h'.cmd, h.dev.trans h'.dev, h.bsize.trans h'.bsize,
    h.sectperblk.trans h'.sectperblk, h.startsect.trans h'.startsect, h.nsect.trans h'.nsect,
    h.bufq.trans h'.bufq, h.left.trans h'.left⟩

theorem nextsect_onward (state : Bstate) (r : Req) (buf : Nat → Buf) :
    Onward r (r.nextsect state buf).1 := by
  unfold nextsect
  split
  · exact Onward.refl r
  · next curbuf left hl =>
    dsimp only
    split
    · exact ⟨rfl, rfl, rfl, rfl, rfl, rfl, rfl, rfl, suffix_refl _⟩
    · exact ⟨rfl, rfl, rfl, rfl, rfl, rfl, rfl, rfl, hl ▸ suffix_cons curbuf left⟩

theorem nextsects_onward (state : Bstate) (n : Nat) (r : Req) (buf : Nat → Buf) :
    Onward r (nextsects state n r buf).1 := by
  induction n generalizing r buf with
  | zero => exact Onward.refl r
  | succ n ih =>
      unfold nextsects
      split
      · exact Onward.refl r
      · exact (ih _ _).trans (nextsect_onward state r buf)

end Req

/-! ## Submitted buffers -/

/-- What a buffer has been given to `addreq` for. -/
structure Sub where
  cmd : Rw
  dev : Nat
  bno : BitVec 32

namespace Req

variable {r r' : Req} {sub : Nat → Sub} {data : Nat → Nat} {rw : Rw} {b : Nat} {k : Blk}

/-- The sectors of the buffers, each with its address in memory. -/
def places (data : Nat → Nat) (sub : Nat → Sub) (r : Req) : List (Nat × Nat) :=
  r.bufq.flatMap fun b =>
    (List.range r.sectperblk).map fun i =>
      (r.sectperblk * (sub b).bno.toNat + i, data b + SECTSIZE * i)

/-- The blocks that the buffers are for. -/
def blocks (sub : Nat → Sub) (r : Req) : List Nat := r.bufq.map fun b => (sub b).bno.toNat

/-- A request is one run of blocks, and what is left of it is the end of the run. -/
structure Covers (sub : Nat → Sub) (r : Req) : Prop where
  cmd : ∀ b ∈ r.bufq, (sub b).cmd = r.cmd
  dev : ∀ b ∈ r.bufq, (sub b).dev = r.dev
  bsize : r.bsize = MINIXBSIZE
  nodup : r.bufq.Nodup
  blocks : ∃ first, r.blocks sub = List.range' first r.bufq.length
  sects : ∀ data, (r.places data sub).map Prod.fst = List.range' r.startsect.toNat r.nsect
  nsect : r.nsect ≤ 255
  walk : ∀ data state buf n, r.remaining ≤ n →
    r.walk data state n buf = ((r.places data sub).drop (r.nsect - r.remaining)).map Prod.snd ∧
      (nextsects state n r buf).1.more = false
  scan : ∀ data n, r.remaining ≤ n →
    r.foreachsect data n = ((r.places data sub).drop (r.nsect - r.remaining)).map Prod.snd

/-- Of what the request covers, what does not hang on `Ok`. -/
structure Blocks (sub : Nat → Sub) (r : Req) : Prop where
  cmd : ∀ b ∈ r.bufq, (sub b).cmd = r.cmd
  dev : ∀ b ∈ r.bufq, (sub b).dev = r.dev
  bsize : r.bsize = MINIXBSIZE
  sectperblk : r.sectperblk = 2
  nodup : r.bufq.Nodup
  run : ∃ first, r.blocks sub = List.range' first r.bufq.length ∧
    r.startsect.toNat = 2 * first ∧ first + r.bufq.length ≤ 2 ^ 31
  left : r.left <:+ r.bufq

theorem Blocks.onward (h : r.Blocks sub) (hon : Onward r r') : r'.Blocks sub := by
  have hbufq := hon.bufq
  refine ⟨?_, ?_, hon.bsize.trans h.bsize, hon.sectperblk.trans h.sectperblk, hbufq ▸ h.nodup,
    ?_, hbufq ▸ hon.left.trans h.left⟩
  · rw [hbufq, hon.cmd]
    exact h.cmd
  · rw [hbufq, hon.dev]
    exact h.dev
  · obtain ⟨first, hrun⟩ := h.run
    refine ⟨first, ?_⟩
    unfold blocks
    rw [hbufq, hon.startsect]
    exact hrun

/-- The history of other buffers does not matter. -/
theorem Blocks.congr {sub' : Nat → Sub} (h : r.Blocks sub) (hsub : ∀ b ∈ r.bufq, sub' b = sub b) :
    r.Blocks sub' := by
  refine ⟨?_, ?_, h.bsize, h.sectperblk, h.nodup, ?_, h.left⟩
  · intro b hb
    rw [hsub b hb]
    exact h.cmd b hb
  · intro b hb
    rw [hsub b hb]
    exact h.dev b hb
  · have hblocks : r.blocks sub' = r.blocks sub :=
      map_congr_left fun b hb => by rw [hsub b hb]
    rw [hblocks]
    exact h.run

/-! ### The sectors of a run of blocks -/

theorem flatMap_range' (first len n : Nat) :
    (List.range' first len).flatMap (fun k => (List.range n).map fun i => n * k + i) =
      List.range' (n * first) (len * n) := by
  induction len generalizing first with
  | zero => simp
  | succ len ih =>
      rw [List.range'_succ, flatMap_cons, ih, Nat.succ_mul, Nat.add_comm (len * n) n,
        ← List.range'_append_1]
      congr 1
      rw [List.range'_eq_map_range]

theorem drop_flatMap_sects (data : Nat → Nat) (n : Nat) (l : List Nat) (i : Nat) :
    (l.flatMap (sects data n)).drop (i * n) = (l.drop i).flatMap (sects data n) := by
  induction i generalizing l with
  | zero => simp
  | succ i ih =>
      cases l with
      | nil => simp
      | cons b l =>
          rw [flatMap_cons, drop_succ_cons, ← ih l, Nat.succ_mul, Nat.add_comm,
            ← drop_drop, drop_left' (length_sects data n b)]

theorem places_snd (data : Nat → Nat) (sub : Nat → Sub) (r : Req) :
    (r.places data sub).map Prod.snd = r.bufq.flatMap (sects data r.sectperblk) := by
  unfold places sects
  rw [map_flatMap]
  simp [Function.comp_def]

theorem places_fst (data : Nat → Nat) (sub : Nat → Sub) (r : Req) :
    (r.places data sub).map Prod.fst =
      (r.blocks sub).flatMap fun k =>
        (List.range r.sectperblk).map fun i => r.sectperblk * k + i := by
  unfold places blocks
  rw [map_flatMap, flatMap_map]
  simp [Function.comp_def]

/-- What is left is what comes behind the sectors that have been done. -/
theorem rest_places (h : r.Ok) (hleft : r.left <:+ r.bufq) (data : Nat → Nat) (sub : Nat → Sub) :
    r.rest data = ((r.places data sub).drop (r.nsect - r.remaining)).map Prod.snd := by
  obtain ⟨done, hdone⟩ := hleft
  have hlen : r.bufq.length = done.length + r.left.length := by
    rw [← hdone, length_append]
  have hdrop : r.left = r.bufq.drop done.length := by
    rw [← hdone, drop_left]
  rw [map_drop, places_snd]
  unfold rest restof remaining
  conv_lhs => rw [hdrop, ← drop_flatMap_sects, drop_drop]
  rw [h.nsect, hlen, Nat.add_mul]
  by_cases hnil : r.left = []
  · have hzero : r.left.length = 0 := by rw [hnil, length_nil]
    rw [drop_of_length_le, drop_of_length_le]
    · rw [length_flatMap_sects, hlen, Nat.add_mul, hzero]
      omega
    · rw [length_flatMap_sects, hlen, Nat.add_mul, hzero]
      omega
  · have hpos : r.sectperblk ≤ r.left.length * r.sectperblk :=
      Nat.le_mul_of_pos_left _ (length_pos_iff.mpr hnil)
    have hsect := h.sect
    congr 1
    omega

theorem Blocks.covers (h : r.Blocks sub) (hok : r.Ok) : r.Covers sub := by
  obtain ⟨first, hrun, hstart, -⟩ := h.run
  have htake : ∀ data n, r.remaining ≤ n → (r.rest data).take n = r.rest data := fun data n hn =>
    take_of_length_le ((rest_length r data).trans_le hn)
  refine ⟨h.cmd, h.dev, h.bsize, h.nodup, ⟨first, hrun⟩, ?_, hok.small, ?_, ?_⟩
  · intro data
    rw [places_fst, hrun, flatMap_range', hstart, hok.nsect, h.sectperblk]
  · intro data state buf n hn
    rw [walk_eq hok, htake data n hn, rest_places hok h.left data sub]
    refine ⟨rfl, ?_⟩
    obtain ⟨hok', -, hrest, -⟩ := nextsects_spec hok state n buf
    rw [← Bool.not_eq_true, more_iff hok', hrest]
    omega
  · intro data n hn
    refine (scan_eq (c := ⟨n, r.left, r.sect, r.sectperblk⟩) hok.sect).trans ?_
    exact (htake data n hn).trans (rest_places hok h.left data sub)

/-! ### Merging -/

/-- The buffer is of `MINIXBSIZE` bytes, and its sectors have numbers of 32 bits. -/
def fits (k : Blk) : Bool := k.bsize == MINIXBSIZE && decide (2 * k.bno.toNat < 2 ^ 32)

/-- The request and the block are at the two ends of the sector numbers. -/
def Around (r : Req) (k : Blk) : Prop :=
  r.startsect.toNat + r.nsect = 2 ^ 32 ∧ k.bno = 0 ∨
    r.startsect = 0 ∧ k.bno.toNat + 1 = 2 ^ 31

instance (r : Req) (k : Blk) : Decidable (r.Around k) := inferInstanceAs (Decidable (_ ∨ _))

theorem fits_spec (h : fits k = true) : k.bsize = MINIXBSIZE ∧ k.bno.toNat < 2 ^ 31 := by
  unfold fits at h
  rw [Bool.and_eq_true, beq_iff_eq, decide_eq_true_eq] at h
  omega

/-- The request that a buffer makes by itself. -/
theorem new_blocks (hk : fits k = true) (hsub : sub b = ⟨rw, k.dev, k.bno⟩) (id : Nat) :
    (new id rw b k).Blocks sub := by
  obtain ⟨hbsize, hbno⟩ := fits_spec hk
  have hper : k.sectperblk = 2 := by
    unfold Blk.sectperblk
    rw [hbsize]
    rfl
  have hbufq : (new id rw b k).bufq = [b] := rfl
  refine ⟨?_, ?_, hbsize, hper, nodup_singleton b, ⟨k.bno.toNat, ?_, ?_, ?_⟩,
    suffix_refl _⟩
  · intro i hi
    rw [mem_singleton.mp hi, hsub]
    rfl
  · intro i hi
    rw [mem_singleton.mp hi, hsub]
    rfl
  · unfold blocks
    rw [hbufq, map_singleton, hsub]
    rfl
  · change (k.bno * BitVec.ofNat 32 k.sectperblk).toNat = _
    rw [hper, BitVec.toNat_mul, BitVec.toNat_ofNat]
    omega
  · rw [hbufq, length_singleton]
    omega

/-- What `merge` has compared when it takes the buffer. -/
inductive Merged (r : Req) (rw : Rw) (b : Nat) (k : Blk) (r' : Req) : Prop where
  | tail (hsect : r.startsect + BitVec.ofNat 32 r.nsect = k.bno * BitVec.ofNat 32 r.sectperblk)
      (h : r' = setcur { r with nsect := r.nsect + r.sectperblk, bufq := r.bufq ++ [b] })
  | head (hsect : k.bno * BitVec.ofNat 32 r.sectperblk + BitVec.ofNat 32 r.sectperblk =
        r.startsect)
      (h : r' = setcur { r with
        startsect := r.startsect - BitVec.ofNat 32 r.sectperblk
        nsect := r.nsect + r.sectperblk
        bufq := b :: r.bufq })

theorem merge_cases (h : r.merge rw b k = some r') :
    rw = r.cmd ∧ k.dev = r.dev ∧ r.nsect + r.sectperblk ≤ 255 ∧ Merged r rw b k r' := by
  unfold merge at h
  split at h
  · cases h
  next hsame =>
  split at h
  · cases h
  next hsmall =>
  dsimp only at h
  rw [not_or, not_or, not_not, not_not, not_not] at hsame
  refine ⟨hsame.1, hsame.2.1, Nat.not_lt.mp hsmall, ?_⟩
  split at h
  · next htail => exact .tail htail (some.inj h).symm
  split at h
  · next hhead => exact .head hhead (some.inj h).symm
  · cases h

/-- The sector numbers that are compared, in numbers that do not wrap around. -/
theorem merged_toNat (hok : r.Ok) (h : r.Blocks sub) (hk : fits k = true)
    (hmerged : Merged r rw b k r') {first : Nat} (hstart : r.startsect.toNat = 2 * first)
    (hfirst : first + r.bufq.length ≤ 2 ^ 31) (haround : ¬ r.Around k) :
    r' = setcur { r with nsect := r.nsect + r.sectperblk, bufq := r.bufq ++ [b] } ∧
        k.bno.toNat = first + r.bufq.length ∨
      r' = setcur { r with
        startsect := r.startsect - BitVec.ofNat 32 r.sectperblk
        nsect := r.nsect + r.sectperblk
        bufq := b :: r.bufq } ∧ k.bno.toNat + 1 = first := by
  obtain ⟨-, hbno⟩ := fits_spec hk
  have hnsect : r.nsect = 2 * r.bufq.length := by
    rw [hok.nsect, h.sectperblk, Nat.mul_comm]
  unfold Around at haround
  rw [not_or, not_and, not_and] at haround
  cases hmerged with
  | tail hsect heq =>
      refine .inl ⟨heq, ?_⟩
      have hnat := congrArg BitVec.toNat hsect
      rw [h.sectperblk, BitVec.toNat_add, BitVec.toNat_mul, BitVec.toNat_ofNat,
        BitVec.toNat_ofNat, hstart, hnsect] at hnat
      by_cases hend : 2 * first + 2 * r.bufq.length = 2 ^ 32
      · have hne : k.bno.toNat ≠ 0 := fun hzero =>
          haround.1 (by rw [hstart, hnsect]; exact hend) (BitVec.eq_of_toNat_eq hzero)
        omega
      · omega
  | head hsect heq =>
      refine .inr ⟨heq, ?_⟩
      have hnat := congrArg BitVec.toNat hsect
      rw [h.sectperblk, BitVec.toNat_add, BitVec.toNat_mul, BitVec.toNat_ofNat, hstart] at hnat
      by_cases hzero : first = 0
      · have hne := haround.2 (BitVec.eq_of_toNat_eq (by rw [hstart, hzero]; rfl))
        omega
      · omega

/-- A merged request is a run of blocks, unless its ends are those of the sector numbers. -/
theorem merge_blocks (hok : r.Ok) (h : r.Blocks sub) (hk : fits k = true)
    (hsub : sub b = ⟨rw, k.dev, k.bno⟩) (hb : b ∉ r.bufq) (hmerge : r.merge rw b k = some r')
    (haround : ¬ r.Around k) : r'.Blocks sub := by
  obtain ⟨hcmd, hdev, -, hmerged⟩ := merge_cases hmerge
  obtain ⟨first, hrun, hstart, hfirst⟩ := h.run
  obtain ⟨-, hbno⟩ := fits_spec hk
  have hper := h.sectperblk
  unfold blocks at hrun
  have hcmd' : ∀ i, i = b ∨ i ∈ r.bufq → (sub i).cmd = r.cmd := by
    rintro i (rfl | hi)
    · rw [hsub]
      exact hcmd
    · exact h.cmd i hi
  have hdev' : ∀ i, i = b ∨ i ∈ r.bufq → (sub i).dev = r.dev := by
    rintro i (rfl | hi)
    · rw [hsub]
      exact hdev
    · exact h.dev i hi
  rcases merged_toNat hok h hk hmerged hstart hfirst haround with ⟨rfl, hnext⟩ | ⟨rfl, hprev⟩
  · refine ⟨fun i hi => hcmd' i ?_, fun i hi => hdev' i ?_, h.bsize, hper, ?_,
      ⟨first, ?_, hstart, ?_⟩, suffix_refl _⟩
    · exact (mem_append.mp hi).elim .inr fun hi => .inl (mem_singleton.mp hi)
    · exact (mem_append.mp hi).elim .inr fun hi => .inl (mem_singleton.mp hi)
    · exact (perm_append_singleton b r.bufq).nodup_iff.mpr (nodup_cons.mpr ⟨hb, h.nodup⟩)
    · change (r.bufq ++ [b]).map (fun b => (sub b).bno.toNat) =
        List.range' first (r.bufq ++ [b]).length
      rw [map_append, hrun, length_append, length_singleton,
        List.range'_concat, map_singleton, hsub, hnext, Nat.one_mul]
    · change first + (r.bufq ++ [b]).length ≤ 2 ^ 31
      rw [length_append, length_singleton]
      omega
  · refine ⟨fun i hi => hcmd' i (mem_cons.mp hi), fun i hi => hdev' i (mem_cons.mp hi),
      h.bsize, hper, nodup_cons.mpr ⟨hb, h.nodup⟩, ⟨k.bno.toNat, ?_, ?_, ?_⟩,
      suffix_refl _⟩
    · change (b :: r.bufq).map (fun b => (sub b).bno.toNat) =
        List.range' k.bno.toNat (b :: r.bufq).length
      rw [map_cons, hrun, length_cons, List.range'_succ, hsub, hprev]
    · change (r.startsect - BitVec.ofNat 32 r.sectperblk).toNat = _
      rw [hper, BitVec.toNat_sub, BitVec.toNat_ofNat, hstart]
      omega
    · change k.bno.toNat + (b :: r.bufq).length ≤ 2 ^ 31
      rw [length_cons]
      omega

/-- Around the end of the sector numbers it is not. -/
theorem merge_around (hok : r.Ok) (h : r.Blocks sub) (hsub : sub b = ⟨rw, k.dev, k.bno⟩)
    (hmerge : r.merge rw b k = some r') (haround : r.Around k) : ¬ r'.Covers sub := by
  intro hcovers
  obtain ⟨first', hblocks⟩ := hcovers.blocks
  obtain ⟨first, hrun, hstart, hfirst⟩ := h.run
  have hnsect : r.nsect = 2 * r.bufq.length := by
    rw [hok.nsect, h.sectperblk, Nat.mul_comm]
  have hpos : 0 < r.bufq.length := length_pos_iff.mpr hok.nonempty
  have hsmall := hok.small
  unfold blocks at hblocks hrun
  have hget : ∀ i, (hi : i < r'.bufq.length) → (sub r'.bufq[i]).bno.toNat = first' + i := by
    intro i hi
    have hi' := getElem_of_eq hblocks (i := i) (by rwa [length_map])
    rwa [getElem_map, getElem_range', Nat.one_mul] at hi'
  have hget' : ∀ i, (hi : i < r.bufq.length) → (sub r.bufq[i]).bno.toNat = first + i := by
    intro i hi
    have hi' := getElem_of_eq hrun (i := i) (by rwa [length_map])
    rwa [getElem_map, getElem_range', Nat.one_mul] at hi'
  obtain ⟨-, -, -, hmerged⟩ := merge_cases hmerge
  have hbno : (sub b).bno = k.bno := by rw [hsub]
  cases hmerged with
  | tail hsect heq =>
      subst heq
      have hlen : (r.bufq ++ [b]).length = r.bufq.length + 1 := length_append
      have hfirst' := hget 0 (by exact hlen ▸ Nat.succ_pos _)
      have hlast' := hget r.bufq.length (by exact hlen ▸ Nat.lt_succ_self _)
      simp only [setcur, getElem_append_right (Nat.le_refl _), Nat.sub_self,
        getElem_singleton, hbno] at hlast'
      simp only [setcur, getElem_append_left hpos, hget' 0 hpos] at hfirst'
      rcases haround with ⟨hend, hzero⟩ | ⟨hzero, hend⟩
      · rw [hzero] at hlast'
        change 0 = _ at hlast'
        omega
      · rw [hzero] at hstart
        change 0 = _ at hstart
        omega
  | head hsect heq =>
      subst heq
      have hfirst' := hget 0 (Nat.succ_pos _)
      have hnext' := hget 1 (Nat.succ_lt_succ hpos)
      simp only [setcur, getElem_cons_zero, hbno] at hfirst'
      simp only [setcur, getElem_cons_succ, hget' 0 hpos] at hnext'
      rcases haround with ⟨hend, hzero⟩ | ⟨hzero, hend⟩
      · rw [hzero] at hfirst'
        change 0 = _ at hfirst'
        omega
      · rw [hzero] at hstart
        change 0 = _ at hstart
        omega

end Req

/-! ## The queue -/

variable {P : Req → Prop} {l : List Req} {r q : Req} {id : Nat}

theorem next_mem (h : next id l = some q) : q ∈ l :=
  (dropWhile_suffix _).subset (mem_of_mem_tail (mem_of_head? h))

namespace Hddev

variable {s t : Hddev} {part : Nat → Part}

/-- All requests of the queue are so. -/
def All (P : Req → Prop) (s : Hddev) : Prop := ∀ r ∈ s.reqq, P r

section

-- `P` does not hang on how much of a request has been done
variable (hP : ∀ q r, Req.Onward q r → P q → P r)

include hP

theorem All.start (h : All P s) (hr : P r) : All P (s.start r) := by
  intro q hq
  rcases mem_replace.mp hq with ⟨hq, -⟩ | ⟨rfl, -⟩
  · exact h q hq
  · exact hP r _ ⟨rfl, rfl, rfl, rfl, rfl, rfl, rfl, rfl, suffix_refl _⟩ hr

theorem All.put (h : All P s) (hcur : s.cur = some r) (state : Bstate) (n : Nat) :
    All P (s.put (r.nextsects state n s.buf)) := by
  intro q hq
  rcases mem_replace.mp hq with ⟨hq, -⟩ | ⟨rfl, -⟩
  · exact h q hq
  · exact hP r _ (Req.nextsects_onward state n r s.buf) (h r (cur_some hcur).1)

omit hP in
theorem All.dispose (h : All P s) (r : Req) : All P (s.dispose r) :=
  fun q hq => h q (mem_of_mem_eraseP hq)

omit hP in
theorem All.endcurreqBy {doreq : Hddev → Req → Option Hddev}
    (hdoreq : ∀ u q t, All P u → P q → doreq u q = some t → All P t) (h : All P s)
    (ht : endcurreqBy doreq s = some t) : All P t := by
  unfold Hddev.endcurreqBy at ht
  split at ht
  · cases ht
  next r hcur =>
  split at ht
  · cases ht
  dsimp only at ht
  split at ht
  · cases ht
    exact h.dispose r
  · next head hhead =>
    refine hdoreq _ _ _ (h.dispose r) ?_ ht
    cases hnext : next r.id s.reqq with
    | none => exact h.dispose r head (mem_of_head? hhead)
    | some q => exact h q (next_mem hnext)

theorem All.docurreqBy {endcurreq : Hddev → Option Hddev}
    (hend : ∀ u t, All P u → endcurreq u = some t → All P t) (h : All P s)
    (ht : docurreqBy part endcurreq s = some t) : All P t := by
  unfold Hddev.docurreqBy at ht
  split at ht
  · cases ht
  next r hcur =>
  have hisr : All P { s with curisr := isrof r.cmd } := h
  have herror : ∀ u, (endcurreq ({ s with curisr := isrof r.cmd }.put
      (r.error r.nsect s.buf))).map (fun s => { s with curisr := .null }) = some u → All P u := by
    intro u hu
    obtain ⟨v, hv, rfl⟩ := map_eq_some_iff.mp hu
    exact hend _ v (All.put hP hisr hcur .error r.nsect) hv
  split at ht
  · exact herror t ht
  split at ht
  · cases ht
  split at ht
  · exact herror t ht
  · cases ht
    exact hisr

theorem All.doreqOf (n : Nat) (h : All P s) (hr : P r) (ht : doreqOf part n s r = some t) :
    All P t := by
  induction n generalizing s r t with
  | zero => cases ht
  | succ n ih =>
      refine All.docurreqBy hP (fun u v hu hv => ?_) (All.start hP h hr) ht
      exact hu.endcurreqBy (fun w q x hw hq hx => ih hw hq hx) hv

theorem All.rwisr (h : All P s) {rw : Rw} {ioerror : Bool} (ht : s.rwisr part rw ioerror = some t) :
    All P t := by
  unfold Hddev.rwisr at ht
  split at ht
  · cases ht
  next r hcur =>
  split at ht
  · cases ht
  split at ht
  · cases ht
    exact All.put hP h hcur .error 1
  · dsimp only at ht
    split at ht
    · cases ht
      exact All.put hP h hcur .clean 1
    · refine All.endcurreqBy (fun u q v hu hq hv => All.doreqOf hP _ hu hq hv) ?_ ht
      exact All.put hP h hcur .clean 1

/-- Only `addreq` puts a request into the queue, or more into one that is there. -/
theorem All.step (h : All P s) {e : Event} (hadd : ∀ rw b k, e ≠ .addreq rw b k)
    (ht : s.step part e = some t) : All P t := by
  cases e with
  | lock b =>
      obtain ⟨-, ht⟩ := ite_none_left_eq_some.mp ht
      cases ht
      exact h
  | unlock b =>
      obtain ⟨-, ht⟩ := ite_none_right_eq_some.mp ht
      cases ht
      exact h
  | addreq rw b k => exact absurd rfl (hadd rw b k)
  | doreq =>
      change s.doreq part = some t at ht
      unfold Hddev.doreq at ht
      split at ht
      · next r hhead _ => exact All.doreqOf hP _ h (h r (mem_of_head? hhead)) ht
      · cases ht
        exact h
  | interrupt ioerror =>
      change s.isr part ioerror = some t at ht
      unfold Hddev.isr at ht
      split at ht
      · cases ht
        exact h
      · exact All.rwisr hP h ht
      · exact All.rwisr hP h ht

end

theorem Core.rwisr (h : Core s) {rw : Rw} {ioerror : Bool} (ht : s.rwisr part rw ioerror = some t) :
    Core t := by
  unfold Hddev.rwisr at ht
  split at ht
  · cases ht
  next r hcur =>
  obtain ⟨hr, hid⟩ := cur_some hcur
  have hput : ∀ state, Core (s.put (r.nextsects state 1 s.buf)) := fun state =>
    ⟨(h.put hr hid state 1).1, fun hnone => absurd (hid.symm.trans hnone) (some_ne_none _)⟩
  split at ht
  · cases ht
  split at ht
  · cases ht
    exact hput .error
  dsimp only at ht
  split at ht
  · cases ht
    exact hput .clean
  next hmore =>
  obtain ⟨u, hu, hended⟩ := endcurreqBy_spec part (h.toBase.setisr .null) hr hid .clean 1
    (Bool.not_eq_true _ ▸ hmore) fun u q hu hucur hq hulen => doreqOf_spec part
      (s.put (r.advance 1 s.buf)).reqq.length u q hu hucur hq (by
        have hlen : (s.put (r.advance 1 s.buf)).reqq.length = s.reqq.length := length_map _
        rw [hlen]
        exact hulen.le)
  cases ht.symm.trans hu
  cases hended with
  | idle hnext hbase hreqq hcur hisr => exact ⟨hbase, fun _ => hisr⟩
  | started q hnext hstarted => exact hstarted.toCore

/-- A step keeps the invariant, also when the driver does not go on after it. -/
theorem Core.step (h : Core s) {e : Event} (ht : s.step part e = some t) : Core t := by
  cases e with
  | lock b =>
      obtain ⟨hb, ht⟩ := ite_none_left_eq_some.mp ht
      cases ht
      refine h.setbuf fun r hr hmem => hb ?_
      exact (h.locked b).mpr (.inr ⟨r, hr, hmem⟩)
  | unlock b =>
      obtain ⟨hb, ht⟩ := ite_none_right_eq_some.mp ht
      cases ht
      refine h.setbuf fun r hr hmem => ?_
      rw [h.held r hr b hmem] at hb
      cases hb
  | addreq rw b k =>
      obtain ⟨hheld, ht⟩ := ite_none_right_eq_some.mp ht
      obtain ⟨u, hu, rfl⟩ := map_eq_some_iff.mp ht
      exact (h.addreq hheld hu).1
  | doreq =>
      obtain ⟨u, hu, hcore, -⟩ := doreq_spec part h
      cases ht.symm.trans hu
      exact hcore
  | interrupt ioerror =>
      change s.isr part ioerror = some t at ht
      unfold Hddev.isr at ht
      split at ht
      · cases ht
        exact h
      · exact h.rwisr ht
      · exact h.rwisr ht

end Hddev

/-! ## Runs -/

/-- The driver, with what its buffers have been given to `addreq` for. -/
structure Sys where
  drv : Hddev
  sub : Nat → Sub

namespace Sys

def fits : Event → Bool
  | .addreq _ _ k => Req.fits k
  | _ => true

def submit (sub : Nat → Sub) : Event → Nat → Sub
  | .addreq rw b k => fun i => if i = b then ⟨rw, k.dev, k.bno⟩ else sub i
  | _ => sub

/-- One event; `none` when it cannot happen, or the buffer is not of a block that there is. -/
def step (part : Nat → Part) (s : Sys) (e : Event) : Option Sys :=
  if fits e then (s.drv.step part e).map fun t => ⟨t, submit s.sub e⟩ else none

def boot (state : Nat → Bstate) : Sys := ⟨.boot state, fun _ => ⟨.read, 0, 0⟩⟩

/-- Every request covers its buffers, and a buffer is in one request, once, from `addreq` to the
end of the request. -/
structure ReqsOk (s : Sys) : Prop where
  covers : ∀ r ∈ s.drv.reqq, r.Covers s.sub
  once : ∀ b, (s.drv.reqq.flatMap Req.bufq).count b =
    if (s.drv.buf b).locked && !s.drv.held b then 1 else 0

/-- The request that takes the buffer. -/
def taker (s : Sys) (rw : Rw) (b : Nat) (k : Blk) : Option Req :=
  s.drv.reqq.find? fun q => decide (s.drv.curreq ≠ some q.id) && (q.merge rw b k).isSome

/-- The block and the request that takes its buffer are not at the two ends of the sector
numbers. -/
def Fine (s : Sys) : Event → Prop
  | .addreq rw b k => Req.fits k = true → s.drv.held b = true →
      ∀ r, s.taker rw b k = some r → ¬ r.Around k
  | _ => True

/-- What is kept from step to step. -/
structure Good (s : Sys) : Prop where
  core : s.drv.Core
  blocks : s.drv.All (Req.Blocks s.sub)

variable {part : Nat → Part} {s t : Sys} {rw : Rw} {b : Nat} {k : Blk} {u : Hddev} {r : Req}

theorem findSome?_eq_bind {α β : Type*} (c : α → Prop) [DecidablePred c] (f : α → Option β)
    (l : List α) : l.findSome? (fun x => if c x then f x else none) =
      (l.find? fun x => decide (c x) && (f x).isSome).bind f := by
  induction l with
  | nil => rfl
  | cons x l ih =>
      rw [List.findSome?_cons, List.find?_cons]
      by_cases hc : c x
      · cases hf : f x with
        | none => simp [ih]
        | some y => simp [hc, hf]
      · simp [hc, ih]

/-- What `addreq` does with the queue. -/
theorem addreq_cases (h : s.drv.addreq rw b k = some u) :
    (∃ r r', s.taker rw b k = some r ∧ r.merge rw b k = some r' ∧
      u = { s.drv with reqq := replace r' s.drv.reqq }) ∨
    s.taker rw b k = none ∧ u = { s.drv with
      reqq := insertlt (.new s.drv.fresh rw b k) s.drv.reqq
      fresh := s.drv.fresh + 1 } := by
  obtain ⟨-, h⟩ := ite_none_right_eq_some.mp h
  rw [findSome?_eq_bind (fun q : Req => s.drv.curreq ≠ some q.id)] at h
  have htake : ∀ o, s.taker rw b k = o → s.drv.reqq.find? _ = o := fun _ => id
  cases htaker : s.taker rw b k with
  | none =>
      rw [htake _ htaker] at h
      cases h
      exact .inr ⟨rfl, rfl⟩
  | some r =>
      have hsome := List.find?_some htaker
      rw [Bool.and_eq_true, isSome_iff_exists] at hsome
      obtain ⟨-, r', hr'⟩ := hsome
      rw [htake _ htaker, bind_some, hr'] at h
      cases h
      exact .inl ⟨r, r', rfl, hr', rfl⟩

theorem taker_mem (h : s.taker rw b k = some r) : r ∈ s.drv.reqq := mem_of_find?_eq_some h

theorem Good.not_mem (h : s.Good) (hheld : s.drv.held b = true) (hr : r ∈ s.drv.reqq) :
    b ∉ r.bufq := by
  intro hb
  rw [h.core.held r hr b hb] at hheld
  cases hheld

/-- The requests are as before when a buffer that none of them has is submitted. -/
theorem Good.frame (h : s.Good) (hheld : s.drv.held b = true) :
    s.drv.All (Req.Blocks (submit s.sub (.addreq rw b k))) := by
  intro r hr
  refine (h.blocks r hr).congr fun i hi => if_neg ?_
  rintro rfl
  exact h.not_mem hheld hr hi

theorem Good.addreq (h : s.Good) (hheld : s.drv.held b = true) (hk : Req.fits k = true)
    (hfine : ∀ r, s.taker rw b k = some r → ¬ r.Around k) (hu : s.drv.addreq rw b k = some u) :
    u.All (Req.Blocks (submit s.sub (.addreq rw b k))) := by
  have hall : s.drv.All (Req.Blocks (submit s.sub (.addreq rw b k))) := h.frame hheld
  have hsub : Sys.submit s.sub (.addreq rw b k) b = ⟨rw, k.dev, k.bno⟩ := if_pos rfl
  rcases addreq_cases hu with ⟨r, r', htaker, hmerge, rfl⟩ | ⟨-, rfl⟩
  · have hr := taker_mem htaker
    intro q hq
    rcases mem_replace.mp hq with ⟨hq, -⟩ | ⟨rfl, -⟩
    · exact hall q hq
    · exact Req.merge_blocks (h.core.ok r hr) (hall r hr) hk hsub (h.not_mem hheld hr) hmerge
        (hfine r htaker)
  · intro q hq
    rcases mem_cons.mp ((insertlt_perm _ _).mem_iff.mp hq) with rfl | hq
    · exact Req.new_blocks hk hsub _
    · exact hall q hq

theorem step_some {e : Event} (ht : s.step part e = some t) :
    fits e = true ∧ s.drv.step part e = some t.drv ∧ t.sub = submit s.sub e := by
  obtain ⟨hfits, ht⟩ := ite_none_right_eq_some.mp ht
  obtain ⟨u, hu, rfl⟩ := map_eq_some_iff.mp ht
  exact ⟨hfits, hu, rfl⟩

theorem Good.step (h : s.Good) {e : Event} (hfine : s.Fine e) (ht : s.step part e = some t) :
    t.Good := by
  obtain ⟨hfits, hu, hsub⟩ := step_some ht
  refine ⟨h.core.step hu, ?_⟩
  rw [hsub]
  by_cases hadd : ∃ rw b k, e = .addreq rw b k
  · obtain ⟨rw, b, k, rfl⟩ := hadd
    obtain ⟨hheld, hu⟩ := ite_none_right_eq_some.mp hu
    obtain ⟨v, hv, hvt⟩ := map_eq_some_iff.mp hu
    have hall : v.All _ := Good.addreq (u := v) h hheld hfits (hfine hfits hheld) hv
    rw [← hvt]
    exact hall
  · have hsub' : submit s.sub e = s.sub := by
      cases e with
      | addreq rw b k => exact absurd ⟨rw, b, k, rfl⟩ hadd
      | lock b => rfl
      | unlock b => rfl
      | doreq => rfl
      | interrupt ioerror => rfl
    rw [hsub']
    exact Hddev.All.step (fun q r hon hq => hq.onward hon) h.blocks
      (fun rw b k he => hadd ⟨rw, b, k, he⟩) hu

/-- A step that is not fine leaves a request that covers no run of blocks. -/
theorem Good.break (h : s.Good) {e : Event} (hok : ∀ t, s.step part e = some t → t.ReqsOk) :
    s.Fine e := by
  cases e with
  | addreq rw b k =>
      intro hfits hheld r htaker haround
      have hr := taker_mem htaker
      have hlocked := (h.core.locked b).mpr (.inl hheld)
      obtain ⟨u, hu⟩ : ∃ u, s.drv.addreq rw b k = some u := by
        unfold Hddev.addreq
        rw [if_pos hlocked]
        dsimp only
        split
        · exact ⟨_, rfl⟩
        · exact ⟨_, rfl⟩
      have ht : s.step part (.addreq rw b k) = some
          ⟨{ u with held := fun i => if i = b then false else u.held i },
            submit s.sub (.addreq rw b k)⟩ := by
        refine (if_pos hfits).trans ?_
        unfold Hddev.step
        dsimp only
        rw [if_pos hheld, hu]
        rfl
      have hcovers := (hok _ ht).covers
      rcases addreq_cases hu with ⟨r', r'', htaker', hmerge, rfl⟩ | ⟨hnone, -⟩
      · cases htaker.symm.trans htaker'
        have hid := (Req.merge_spec (h.core.ok r hr) (h.core.fresh r hr ?_) hmerge).2.2.1
        · refine Req.merge_around (h.core.ok r hr) (h.frame hheld r hr) (if_pos rfl) hmerge
            haround (hcovers r'' ?_)
          exact mem_replace.mpr (.inr ⟨rfl, r, hr, hid.symm⟩)
        · have hsome := List.find?_some htaker
          rw [Bool.and_eq_true, decide_eq_true_eq] at hsome
          exact hsome.1
      · cases htaker.symm.trans hnone
  | lock b => trivial
  | unlock b => trivial
  | doreq => trivial
  | interrupt ioerror => trivial

theorem Good.reqsOk (h : s.Good) : s.ReqsOk := by
  refine ⟨fun r hr => (h.blocks r hr).covers (h.core.ok r hr), fun b => ?_⟩
  have hnodup : (s.drv.reqq.flatMap Req.bufq).Nodup := by
    rw [nodup_flatMap]
    refine ⟨fun r hr => (h.blocks r hr).nodup, ?_⟩
    refine (pairwise_map.mp h.core.nodup).imp_of_mem fun {r q} hr hq hid => ?_
    exact disjoint_left.mpr fun i hi hi' => hid (h.core.unique r hr q hq i hi hi')
  have hlocked := h.core.locked b
  by_cases hmem : ∃ r ∈ s.drv.reqq, b ∈ r.bufq
  · obtain ⟨r, hr, hb⟩ := hmem
    rw [count_eq_one_of_mem hnodup (mem_flatMap.mpr ⟨r, hr, hb⟩),
      hlocked.mpr (.inr ⟨r, hr, hb⟩), h.core.held r hr b hb]
    rfl
  · rw [count_eq_zero.mpr fun hb => hmem (mem_flatMap.mp hb)]
    refine (if_neg fun hb => ?_).symm
    rw [Bool.and_eq_true, Bool.not_eq_true'] at hb
    rcases hlocked.mp hb.1 with hheld | hr
    · rw [hheld] at hb
      cases hb.2
    · exact hmem hr

theorem boot_good (state : Nat → Bstate) : (boot state).Good :=
  ⟨Hddev.boot_core state, fun _ hr => nomatch hr⟩

end Sys

end Unixlite.Blkdev
