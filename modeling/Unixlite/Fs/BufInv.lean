import Unixlite.Fs.Buf
import Unixlite.Verified.Run

/-!
# The invariant of the buffer cache

`Cached c n` is what holds of the cache when there are `n b` holders of the buffer `b`;
`Phase.Ok` is what a task knows where it is.  A step changes the number of holders of a
buffer as it changes what its task holds (`Goes`).
-/

namespace Unixlite.Bcache

open Unixlite.Verified.Run List Option BitVec

/-! ## One step of a call -/

/-- What a task in a call does next, and why. -/
inductive Next (c : Cache) (held : List Nat) : Phase → Cache → Task → Prop
  | miss {dev bno n k} : c.findb dev bno = none →
      Next c held (.getb dev bno n k) c ⟨.scan c.freeq dev bno n k, held⟩
  | hit {dev bno n k b c₁} : c.findb dev bno = some b → c.hold b = some c₁ →
      Next c held (.getb dev bno n k) c₁ ⟨.found b dev bno k, held⟩
  | take {b dev bno k} : (c.buf b).locked ≠ true →
      Next c held (.found b dev bno k) { c with freeq := c.freeq.erase b } ⟨.got b dev bno k, held⟩
  | used {b rest dev bno n k} : (c.buf b).refcnt ≠ 0 →
      Next c held (.scan (b :: rest) dev bno n k) c ⟨.scan rest dev bno n k, held⟩
  | skip {b rest dev bno n k} : (c.buf b).refcnt = 0 → (c.buf b).locked = true → n - 1 ≠ 0 →
      Next c held (.scan (b :: rest) dev bno n k) c ⟨.scan rest dev bno (n - 1) k, held⟩
  | last {b rest dev bno n k} :
      Next c held (.scan (b :: rest) dev bno n k) c ⟨.busy b dev bno (n - 1) k, held⟩
  | clean {b rest dev bno n k c₁ c₂ phase} : c.hold b = some c₁ →
      writeb c₁ b (.getb b dev bno (n - 1) k) = some (c₂, phase) →
      Next c held (.scan (b :: rest) dev bno n k) c₂ ⟨phase, held⟩
  | rekey {b rest dev bno n k c₁} : (c.buf b).refcnt = 0 → (c.buf b).locked ≠ true →
      (c.buf b).state ≠ .dirty → c.hold b = some c₁ →
      Next c held (.scan (b :: rest) dev bno n k) (c₁.rekey b dev bno) ⟨.got b dev bno k, held⟩
  | again {b dev bno n k} : Next c held (.busy b dev bno n k) c ⟨.getb dev bno n k, held⟩
  | got {b dev bno k} : Next c held (.got b dev bno k) c ⟨.user, b :: held⟩
  | fill {b dev bno} :
      Next c held (.got b dev bno .readb) c ⟨llrwab c .read [b] [b] (.readb b), held⟩
  | sent {rw head waits k} : Next c held (.llrwab rw head [] waits k) c ⟨.wait waits k, held⟩
  | addreq {rw head b rest waits k} : 0 < (c.buf b).refcnt.toInt → (c.buf b).locked ≠ true →
      Next c held (.llrwab rw head (b :: rest) waits k) (c.addreq rw b)
        ⟨.llrwab rw head rest waits k, held⟩
  | waited {b waits k} : Next c held (.wait (b :: waits) k) c ⟨.wait waits k, held⟩
  | ends : Next c held (.wait [] .user) c ⟨.user, held⟩
  | fails {b c₁} : c.lose b = some c₁ → Next c held (.wait [] (.readb b)) c₁ ⟨.user, held⟩
  | filled {b} : Next c held (.wait [] (.readb b)) c ⟨.user, b :: held⟩
  | written {cluster k} : Next c held (.wait [] (.writeb cluster k)) c ⟨.lose cluster k, held⟩
  | lose {b rest k c₁} : c.lose b = some c₁ →
      Next c held (.lose (b :: rest) k) c₁ ⟨.lose rest k, held⟩
  | lost {b dev bno n k} :
      Next c held (.lose [] (.getb b dev bno n k)) c ⟨.wrote b dev bno n k, held⟩
  | synced {b dev rest c₁} : c.lose b = some c₁ →
      Next c held (.lose [] (.syncb b dev rest)) c₁ ⟨.prempt dev rest, held⟩
  | retry {b dev bno n k c₁} : c.lose b = some c₁ →
      Next c held (.wrote b dev bno n k) c₁ ⟨.getb dev bno n k, held⟩
  | done {dev} : Next c held (.syncb dev []) c ⟨.user, held⟩
  | other {dev b rest} : Next c held (.syncb dev (b :: rest)) c ⟨.syncb dev rest, held⟩
  | sync {dev b rest c₁ c₂ phase} : c.hold b = some c₁ →
      writeb c₁ b (.syncb b dev rest) = some (c₂, phase) →
      Next c held (.syncb dev (b :: rest)) c₂ ⟨phase, held⟩
  | prempt {dev rest} : Next c held (.prempt dev rest) c ⟨.syncb dev rest, held⟩

/-! ## The count of holders -/

variable {n : Nat}

/-- A count that has not gone past 2^15, in a `short`. -/
theorem toNat_count (h : n ≤ 2 ^ 15) : (BitVec.ofNat 16 n).toNat = n :=
  (toNat_ofNat n 16).trans (Nat.mod_eq_of_lt (by omega))

theorem toInt_neg_iff (h : n ≤ 2 ^ 15) : (BitVec.ofNat 16 n).toInt < 0 ↔ n = 2 ^ 15 := by
  rw [toInt_eq_toNat_cond, toNat_count h]
  omega

theorem toInt_pos_iff (h : n ≤ 2 ^ 15) : 0 < (BitVec.ofNat 16 n).toInt ↔ 0 < n ∧ n < 2 ^ 15 := by
  rw [toInt_eq_toNat_cond, toNat_count h]
  omega

theorem ofNat_eq_zero_iff (h : n ≤ 2 ^ 15) : BitVec.ofNat 16 n = 0 ↔ n = 0 := by
  rw [← toNat_inj, toNat_count h]
  exact Iff.rfl

/-! ## The cache -/

/-- The cache is in order, and there are `n b` holders of the buffer `b`. -/
structure Cached (c : Cache) (n : Nat → Nat) : Prop where
  /-- No two buffers are for the same block. -/
  keys : ∀ b ∈ c.allq, ∀ b' ∈ c.allq, (c.buf b).dev = (c.buf b').dev →
    (c.buf b).bno = (c.buf b').bno → b = b'
  /-- A buffer is on the chain of its own block, once, and on no other. -/
  hash : ∀ b i, b ∈ c.hashtab i ↔ b ∈ c.allq ∧ i = c.hashfunc (c.buf b).dev (c.buf b).bno
  chain : ∀ i, (c.hashtab i).Nodup
  free : ∀ b ∈ c.freeq, b ∈ c.allq
  freeq : c.freeq.Nodup
  refcnt : ∀ b, (c.buf b).refcnt = BitVec.ofNat 16 (n b)
  short : ∀ b, n b ≤ 2 ^ 15
  mem : ∀ b, n b ≠ 0 → b ∈ c.allq
  /-- A buffer that nobody holds is free. -/
  unheld : ∀ b ∈ c.allq, n b = 0 → b ∈ c.freeq

/-- The lists, the keys and the counts are the same. -/
structure Same (c c' : Cache) : Prop where
  allq : c'.allq = c.allq
  freeq : c'.freeq = c.freeq
  hashtab : c'.hashtab = c.hashtab
  hsize : c'.hsize = c.hsize
  buf : ∀ b, (c'.buf b).dev = (c.buf b).dev ∧ (c'.buf b).bno = (c.buf b).bno ∧
    (c'.buf b).refcnt = (c.buf b).refcnt

/-- Nothing else of a buffer is of interest to the cache. -/
theorem Same.setBuf (c : Cache) (b : Nat) (x : Buf) (hdev : x.dev = (c.buf b).dev)
    (hbno : x.bno = (c.buf b).bno) (href : x.refcnt = (c.buf b).refcnt) :
    Same c (c.setBuf b x) := by
  refine ⟨rfl, rfl, rfl, rfl, fun i => ?_⟩
  show (if i = b then x else _ : Buf).dev = _ ∧ (if i = b then x else _ : Buf).bno = _ ∧
    (if i = b then x else _ : Buf).refcnt = _
  split
  · next hi => exact hi ▸ ⟨hdev, hbno, href⟩
  · exact ⟨rfl, rfl, rfl⟩

theorem Same.addreq (c : Cache) (rw : Rw) (b : Nat) : Same c (c.addreq rw b) := by
  unfold Cache.addreq
  split
  · exact ⟨rfl, rfl, rfl, rfl, fun _ => ⟨rfl, rfl, rfl⟩⟩
  · obtain ⟨hallq, hfreeq, hhash, hsize, hbuf⟩ :=
      Same.setBuf c b { c.buf b with locked := true } rfl rfl rfl
    exact ⟨hallq, hfreeq, hhash, hsize, hbuf⟩

namespace Cached

variable {c c' : Cache} {n : Nat → Nat} {b dev : Nat} {bno : Int}

theorem refcnt_eq_zero_iff (h : Cached c n) (b : Nat) : (c.buf b).refcnt = 0 ↔ n b = 0 := by
  rw [h.refcnt]
  exact ofNat_eq_zero_iff (h.short b)

theorem findb_some (h : Cached c n) (hfind : c.findb dev bno = some b) :
    b ∈ c.allq ∧ (c.buf b).dev = dev ∧ (c.buf b).bno = bno := by
  have hkey := List.find?_some hfind
  have hmem := mem_of_find?_eq_some hfind
  exact ⟨((h.hash b _).mp hmem).1, of_decide_eq_true hkey⟩

theorem findb_none (h : Cached c n) (hfind : c.findb dev bno = none) :
    ∀ b ∈ c.allq, ¬ ((c.buf b).dev = dev ∧ (c.buf b).bno = bno) := by
  rintro b hb ⟨rfl, rfl⟩
  have hmem := (h.hash b _).mpr ⟨hb, rfl⟩
  have hnot := List.find?_eq_none.mp hfind b hmem
  exact hnot (decide_eq_true ⟨rfl, rfl⟩)

theorem congr (h : Cached c n) (hs : Same c c') : Cached c' n where
  keys := by
    intro b hb b' hb' hdev hbno
    rw [(hs.buf b).1, (hs.buf b').1] at hdev
    rw [(hs.buf b).2.1, (hs.buf b').2.1] at hbno
    exact h.keys b (hs.allq ▸ hb) b' (hs.allq ▸ hb') hdev hbno
  hash := by
    intro b i
    unfold Cache.hashfunc
    rw [hs.hashtab, hs.allq, hs.hsize, (hs.buf b).1, (hs.buf b).2.1]
    exact h.hash b i
  chain := fun i => hs.hashtab ▸ h.chain i
  free := fun b hb => hs.allq ▸ h.free b (hs.freeq ▸ hb)
  freeq := hs.freeq ▸ h.freeq
  refcnt := fun b => (hs.buf b).2.2.trans (h.refcnt b)
  short := h.short
  mem := fun b hb => hs.allq ▸ h.mem b hb
  unheld := fun b hb hn => hs.freeq ▸ h.unheld b (hs.allq ▸ hb) hn

end Cached

/-! ## Holding and losing a buffer -/

/-- The cache with other counts of holders, and other free buffers. -/
def Cache.recount (c : Cache) (r : Nat → BitVec 16) (q : List Nat) : Cache :=
  { c with buf := fun b => { c.buf b with refcnt := r b }, freeq := q }

section Recount

variable {c c' c'' : Cache} {n m : Nat → Nat} {b : Nat} {r : Nat → BitVec 16} {q : List Nat}

theorem setBuf_refcnt (c : Cache) (b : Nat) (x : BitVec 16) :
    c.setBuf b { c.buf b with refcnt := x } =
      c.recount (fun i => if i = b then x else (c.buf i).refcnt) c.freeq := by
  unfold Cache.setBuf Cache.recount
  congr 1
  funext i
  by_cases hi : i = b
  · subst hi
    simp only [if_true]
  · simp only [hi, if_false]

theorem hold_cases (h : c.hold b = some c') : ¬ (c.buf b).refcnt.toInt < 0 ∧
    c' = c.recount (fun i => if i = b then (c.buf b).refcnt + 1 else (c.buf i).refcnt) c.freeq := by
  unfold Cache.hold at h
  split at h
  · cases h
  next hneg =>
  cases h
  exact ⟨hneg, setBuf_refcnt c b _⟩

theorem lose_cases (h : c.lose b = some c') : 0 < (c.buf b).refcnt.toInt ∧
    c' = c.recount (fun i => if i = b then (c.buf b).refcnt - 1 else (c.buf i).refcnt)
      (if (c.buf b).refcnt - 1 ≠ 0 ∨ b ∈ c.freeq then c.freeq else c.freeq ++ [b]) := by
  unfold Cache.lose at h
  split at h
  · cases h
  next hpos =>
  refine ⟨not_not.mp hpos, ?_⟩
  split at h
  · cases h
  rw [setBuf_refcnt] at h
  have hnew : ((c.recount (fun i => if i = b then (c.buf b).refcnt - 1 else (c.buf i).refcnt)
      c.freeq).buf b).refcnt = (c.buf b).refcnt - 1 := if_pos rfl
  simp only [hnew] at h
  split at h
  · next hr =>
      rw [if_pos (.inl hr)]
      cases h
      rfl
  next hr =>
  split at h
  · next hq =>
      rw [if_pos (.inr hq)]
      cases h
      rfl
  · next hq =>
      have hnot : ¬ ((c.buf b).refcnt - 1 ≠ 0 ∨ b ∈ c.freeq) := not_or.mpr ⟨hr, hq⟩
      rw [if_neg hnot]
      cases h
      rfl

theorem Cached.recount (h : Cached c n) (hr : ∀ b, r b = BitVec.ofNat 16 (m b))
    (hshort : ∀ b, m b ≤ 2 ^ 15) (hmem : ∀ b, m b ≠ 0 → b ∈ c.allq)
    (hq : ∀ b ∈ q, b ∈ c.allq) (hnodup : q.Nodup)
    (hunheld : ∀ b ∈ c.allq, m b = 0 → b ∈ q) : Cached (c.recount r q) m :=
  ⟨h.keys, h.hash, h.chain, hq, hnodup, hr, hshort, hmem, hunheld⟩

theorem count_one (b i : Nat) : [b].count i = if i = b then 1 else 0 := by
  rw [count_singleton]
  by_cases hi : i = b
  · rw [if_pos hi, if_pos (beq_iff_eq.mpr hi.symm)]
  · rw [if_neg hi, if_neg (mt beq_iff_eq.mp fun h => hi h.symm)]

theorem Cached.hold (h : Cached c n) (hb : b ∈ c.allq) (hhold : c.hold b = some c') :
    Cached c' fun i => n i + [b].count i := by
  obtain ⟨hneg, rfl⟩ := hold_cases hhold
  rw [h.refcnt b, toInt_neg_iff (h.short b)] at hneg
  have hshort := h.short b
  simp only [count_one]
  apply h.recount
  · intro i
    by_cases hi : i = b
    · rw [if_pos hi, if_pos hi, hi, h.refcnt b]
      exact (ofNat_add (n b) 1).symm
    · rw [if_neg hi, if_neg hi]
      exact h.refcnt i
  · intro i
    by_cases hi : i = b
    · rw [if_pos hi, hi]
      omega
    · rw [if_neg hi]
      exact h.short i
  · intro i hne
    by_cases hi : i = b
    · rw [hi]
      exact hb
    · rw [if_neg hi] at hne
      exact h.mem i hne
  · exact h.free
  · exact h.freeq
  · intro i hmem hzero
    exact h.unheld i hmem (Nat.eq_zero_of_add_eq_zero_right hzero)

theorem Cached.lose (h : Cached c n) (hlose : c.lose b = some c') :
    0 < n b ∧ Cached c' fun i => n i - [b].count i := by
  obtain ⟨hpos, rfl⟩ := lose_cases hlose
  rw [h.refcnt b, toInt_pos_iff (h.short b)] at hpos
  refine ⟨hpos.1, ?_⟩
  have hb := h.mem b (Nat.ne_of_gt hpos.1)
  have hdec : (c.buf b).refcnt - 1 = BitVec.ofNat 16 (n b - 1) := by
    rw [← toNat_inj, h.refcnt b, toNat_sub, toNat_count (h.short b),
      toNat_count (Nat.le_trans (Nat.sub_le _ _) (h.short b))]
    show (2 ^ 16 - 1 + n b) % 2 ^ 16 = n b - 1
    omega
  have hshort : n b - 1 ≤ 2 ^ 15 := Nat.le_trans (Nat.sub_le _ _) (h.short b)
  simp only [count_one]
  apply h.recount
  · intro i
    by_cases hi : i = b
    · rw [if_pos hi, if_pos hi, hi]
      exact hdec
    · rw [if_neg hi, if_neg hi]
      exact h.refcnt i
  · intro i
    exact Nat.le_trans (Nat.sub_le _ _) (h.short i)
  · intro i hne
    exact h.mem i fun hzero => hne (by rw [hzero, Nat.zero_sub])
  · intro i hi
    split at hi
    · exact h.free i hi
    · rcases mem_append.mp hi with hi | hi
      · exact h.free i hi
      · rw [mem_singleton.mp hi]
        exact hb
  · split
    · exact h.freeq
    · next hq =>
        apply List.Nodup.append h.freeq (nodup_singleton b)
        intro i hi hi'
        rw [mem_singleton.mp hi'] at hi
        exact hq (.inr hi)
  · intro i hmem hzero
    by_cases hi : i = b
    · subst hi
      rw [if_pos rfl] at hzero
      split
      · next hq =>
          rcases hq with hq | hq
          · rw [hdec, ne_eq, ofNat_eq_zero_iff hshort] at hq
            exact absurd hzero hq
          · exact hq
      · exact mem_append_right _ (mem_singleton_self i)
    · rw [if_neg hi] at hzero
      have hfree := h.unheld i hmem hzero
      split
      · exact hfree
      · exact mem_append_left _ hfree

theorem holdall_recount {bs : List Nat} (h : c.holdall bs = some c') :
    ∃ r, c' = c.recount r c.freeq := by
  induction bs generalizing c with
  | nil =>
      cases h
      exact ⟨fun i => (c'.buf i).refcnt, rfl⟩
  | cons b bs ih =>
      obtain ⟨c₁, hhold, hrest⟩ := bind_eq_some_iff.mp h
      obtain ⟨_, rfl⟩ := hold_cases hhold
      obtain ⟨r, rfl⟩ := ih hrest
      exact ⟨r, rfl⟩

theorem Cached.holdall {bs : List Nat} (h : Cached c n) (hbs : ∀ b ∈ bs, b ∈ c.allq)
    (hhold : c.holdall bs = some c') : Cached c' fun i => n i + bs.count i := by
  induction bs generalizing c n with
  | nil =>
      cases hhold
      exact h
  | cons b bs ih =>
      obtain ⟨c₁, hfirst, hrest⟩ := bind_eq_some_iff.mp hhold
      have hone := h.hold (hbs b mem_cons_self) hfirst
      obtain ⟨_, rfl⟩ := hold_cases hfirst
      have hall := ih hone (fun x hx => hbs x (mem_cons_of_mem b hx)) hrest
      have hcount : (fun i => n i + [b].count i + bs.count i) = fun i => n i + (b :: bs).count i := by
        funext i
        rw [Nat.add_assoc, ← count_append]
        rfl
      rw [← hcount]
      exact hall

end Recount

/-! ## Taking a free buffer -/

section Take

variable {c : Cache} {n : Nat → Nat} {b dev : Nat} {bno : Int}

theorem Cached.take (h : Cached c n) (hb : n b ≠ 0) :
    Cached { c with freeq := c.freeq.erase b } n :=
  { h with
    free := fun i hi => h.free i (mem_of_mem_erase hi)
    freeq := h.freeq.erase b
    unheld := fun i hi hzero => by
      have hne : i ≠ b := fun heq => hb (heq ▸ hzero)
      exact (mem_erase_of_ne hne).mpr (h.unheld i hi hzero) }

theorem rekey_key (c : Cache) (b dev : Nat) (bno : Int) :
    ((c.rekey b dev bno).buf b).dev = dev ∧ ((c.rekey b dev bno).buf b).bno = bno := by
  dsimp only [Cache.rekey]
  rw [if_pos rfl]
  exact ⟨rfl, rfl⟩

theorem rekey_of_ne (c : Cache) {b i : Nat} (dev : Nat) (bno : Int) (h : i ≠ b) :
    (c.rekey b dev bno).buf i = c.buf i := if_neg h

/-- A buffer gets the key of a block that no buffer is for. -/
theorem Cached.rekey (h : Cached c n) (hb : n b ≠ 0)
    (hnone : ∀ i ∈ c.allq, ¬ ((c.buf i).dev = dev ∧ (c.buf i).bno = bno)) :
    Cached (c.rekey b dev bno) n := by
  have hmem := h.mem b hb
  have herase : ∀ i j, j ∈ (c.hashtab i).erase b ↔ j ≠ b ∧ j ∈ c.hashtab i :=
    fun i j => (h.chain i).mem_erase_iff
  constructor
  case keys =>
    intro i hi j hj hdev hbno
    by_cases hib : i = b
    · subst hib
      by_cases hji : j = i
      · exact hji.symm
      · rw [(rekey_key c i dev bno).1, rekey_of_ne c dev bno hji] at hdev
        rw [(rekey_key c i dev bno).2, rekey_of_ne c dev bno hji] at hbno
        exact absurd ⟨hdev.symm, hbno.symm⟩ (hnone j hj)
    · rw [rekey_of_ne c dev bno hib] at hdev hbno
      by_cases hjb : j = b
      · subst hjb
        rw [(rekey_key c j dev bno).1] at hdev
        rw [(rekey_key c j dev bno).2] at hbno
        exact absurd ⟨hdev, hbno⟩ (hnone i hi)
      · rw [rekey_of_ne c dev bno hjb] at hdev hbno
        exact h.keys i hi j hj hdev hbno
  case hash =>
    intro i j
    show i ∈ (if j = c.hashfunc dev bno then (c.hashtab j).erase b ++ [b]
      else (c.hashtab j).erase b) ↔ i ∈ c.allq ∧
        j = c.hashfunc ((c.rekey b dev bno).buf i).dev ((c.rekey b dev bno).buf i).bno
    by_cases hib : i = b
    · subst hib
      rw [(rekey_key c i dev bno).1, (rekey_key c i dev bno).2]
      split
      · next hj => exact iff_of_true (mem_append_right _ (mem_singleton_self i)) ⟨hmem, hj⟩
      · next hj => exact iff_of_false (fun hi => ((herase j i).mp hi).1 rfl) fun hi => hj hi.2
    · rw [rekey_of_ne c dev bno hib, ← h.hash i j]
      split
      · rw [mem_append, herase, mem_singleton]
        exact ⟨fun hi => hi.elim And.right fun heq => absurd heq hib, fun hi => .inl ⟨hib, hi⟩⟩
      · exact (herase j i).trans (and_iff_right hib)
  case chain =>
    intro i
    show (if i = c.hashfunc dev bno then (c.hashtab i).erase b ++ [b]
      else (c.hashtab i).erase b).Nodup
    have hchain := (h.chain i).erase b
    split
    · apply List.Nodup.append hchain (nodup_singleton b)
      intro j hj hj'
      exact ((herase i j).mp hj).1 (mem_singleton.mp hj')
    · exact hchain
  case free => exact fun i hi => h.free i (mem_of_mem_erase hi)
  case freeq => exact h.freeq.erase b
  case refcnt =>
    intro i
    show (if i = b then _ else _ : Buf).refcnt = _
    split
    · next hib => rw [hib, h.refcnt b]
    · exact h.refcnt i
  case short => exact h.short
  case mem => exact h.mem
  case unheld => exact (h.take hb).unheld

end Take

/-! ## What a task does to the cache -/

/-- A buffer keeps its key, unless nobody holds it, it is not locked and not dirty. -/
def Rekeys (c c' : Cache) : Prop :=
  ∀ b, (c'.buf b).dev = (c.buf b).dev ∧ (c'.buf b).bno = (c.buf b).bno ∨
    (c.buf b).refcnt = 0 ∧ (c.buf b).locked = false ∧ (c.buf b).state ≠ .dirty

def Writeb.Ok (c : Cache) : Writeb → Prop
  | .getb _ _ _ _ _ => True
  | .syncb _ _ rest => ∀ b ∈ rest, b ∈ c.allq

def Llrwab.Ok (c : Cache) : Llrwab → Prop
  | .writeb _ k => k.Ok c
  | _ => True

/-- What a task knows where it is. -/
def Phase.Ok (c : Cache) : Phase → Prop
  | .found b dev bno _ => (c.buf b).dev = dev ∧ (c.buf b).bno = bno
  | .scan rest dev bno _ _ =>
      (∀ b ∈ c.allq, ¬ ((c.buf b).dev = dev ∧ (c.buf b).bno = bno)) ∧ ∀ b ∈ rest, b ∈ c.freeq
  | .got b dev bno _ =>
      (c.buf b).dev = dev ∧ (c.buf b).bno = bno ∧ (c.buf b).locked = false
  | .llrwab _ _ _ _ k => k.Ok c
  | .wait _ k => k.Ok c
  | .lose _ k => k.Ok c
  | .syncb _ rest => ∀ b ∈ rest, b ∈ c.allq
  | .prempt _ rest => ∀ b ∈ rest, b ∈ c.allq
  | _ => True

/-- Only the current task is in such a phase. -/
def Phase.runs : Phase → Bool
  | .scan _ _ _ _ _ => true
  | .got _ _ _ _ => true
  | _ => false

/-- The task goes from `x` to `x'`, and the cache from `c` to `c'`. -/
structure Goes (c : Cache) (n : Nat → Nat) (x : Task) (c' : Cache) (x' : Task) : Prop where
  cached : ∀ m, (∀ b, m b + x.holds.count b = n b + x'.holds.count b) → Cached c' m
  ok : x'.phase.Ok c'
  allq : c'.allq = c.allq
  rekeys : Rekeys c c'

section Goes

variable {c c' : Cache} {n m : Nat → Nat} {x x' : Task} {b dev : Nat} {bno : Int}

theorem Rekeys.of_same (h : ∀ b, (c'.buf b).dev = (c.buf b).dev ∧ (c'.buf b).bno = (c.buf b).bno) :
    Rekeys c c' := fun b => .inl (h b)

theorem Same.rekeys (h : Same c c') : Rekeys c c' :=
  .of_same fun b => ⟨(h.buf b).1, (h.buf b).2.1⟩

theorem Goes.of_cached (h : Cached c' m)
    (hm : ∀ b, m b + x.holds.count b = n b + x'.holds.count b) (hok : x'.phase.Ok c')
    (hallq : c'.allq = c.allq) (hkeys : Rekeys c c') : Goes c n x c' x' := by
  refine ⟨fun m' hm' => ?_, hok, hallq, hkeys⟩
  have heq : m' = m := by
    funext b
    exact Nat.add_right_cancel ((hm' b).trans (hm b).symm)
  exact heq ▸ h

/-- The task goes on and holds what it has held. -/
theorem Goes.stay (h : Cached c n) (hholds : x'.holds.Perm x.holds) (hok : x'.phase.Ok c) :
    Goes c n x c x' :=
  .of_cached h (fun b => by rw [hholds.count_eq]) hok rfl (.of_same fun _ => ⟨rfl, rfl⟩)

theorem mem_neighbours (h : Cached c n) {dir : Int} {k i : Nat} {bno : Int}
    (hi : i ∈ c.neighbours dev dir k bno) : i ∈ c.allq := by
  induction k generalizing bno with
  | zero => cases hi
  | succ k ih =>
      unfold Cache.neighbours at hi
      split at hi
      · cases hi
      next j hfind =>
      split at hi
      · rcases mem_cons.mp hi with rfl | hi
        · exact (h.findb_some hfind).1
        · exact ih hi
      · cases hi

theorem mem_cluster (h : Cached c n) (hb : b ∈ c.allq) {i : Nat} (hi : i ∈ c.cluster b) :
    i ∈ c.allq := by
  rcases mem_append.mp hi with hi | hi
  · exact mem_neighbours h (mem_reverse.mp hi)
  · rcases mem_cons.mp hi with rfl | hi
    · exact hb
    · exact mem_neighbours h hi

theorem llrwab_holds (c : Cache) (rw : Rw) (bs waits : List Nat) (k : Llrwab) :
    (llrwab c rw bs waits k).holds = k.holds := by
  cases bs with
  | nil => rfl
  | cons head bs =>
      dsimp only [llrwab]
      split
      · rfl
      split
      · rfl
      · rfl

theorem llrwab_ok {rw : Rw} {bs waits : List Nat} {k : Llrwab} (hk : k.Ok c') :
    (llrwab c rw bs waits k).Ok c' := by
  cases bs with
  | nil => exact hk
  | cons head bs =>
      dsimp only [llrwab]
      split
      · exact hk
      split
      · exact hk
      · exact hk

variable {k : Writeb} {from_ phase : Phase} {held : List Nat}

theorem Writeb.Ok.recount (hk : k.Ok c) (r : Nat → BitVec 16) (q : List Nat) :
    k.Ok (c.recount r q) := by
  cases k with
  | getb => trivial
  | syncb => exact hk

/-- `writeb` holds the cluster until it loses it. -/
theorem writeb_cases (h : Cached c n) (hb : b ∈ c.allq)
    (hk : k.Ok c) (hw : writeb c b k = some (c', phase)) :
    ∃ bs r, c' = c.recount r c.freeq ∧ Cached c' (fun i => n i + bs.count i) ∧
      phase.holds = bs ++ k.holds ∧ phase.Ok c' := by
  unfold writeb at hw
  split at hw
  · cases hw
    exact ⟨[], fun i => (c.buf i).refcnt, rfl, h, rfl, hk⟩
  · obtain ⟨c₁, hhold, heq⟩ := map_eq_some_iff.mp hw
    obtain ⟨rfl, rfl⟩ := Prod.mk.inj heq
    obtain ⟨r, rfl⟩ := holdall_recount hhold
    have hcached := h.holdall (fun i hi => mem_cluster h hb hi) hhold
    have hk' : (Llrwab.writeb (c.cluster b) k).Ok (c.recount r c.freeq) := hk.recount r c.freeq
    exact ⟨c.cluster b, r, rfl, hcached, llrwab_holds _ _ _ _ _, llrwab_ok hk'⟩

/-- `b->hold(); writeb(b)`. -/
theorem Goes.writeb {c₁ : Cache}
    (h : Cached c n) (hb : b ∈ c.allq) (hk : k.Ok c) (hfrom : from_.holds = [])
    (hkb : k.holds = [b]) (hhold : c.hold b = some c₁) (hw : writeb c₁ b k = some (c', phase)) :
    Goes c n ⟨from_, held⟩ c' ⟨phase, held⟩ := by
  have hcached := h.hold hb hhold
  obtain ⟨_, rfl⟩ := hold_cases hhold
  obtain ⟨bs, r, rfl, hcached, hholds, hok⟩ := writeb_cases hcached hb (hk.recount _ _) hw
  refine .of_cached hcached (fun i => ?_) hok rfl (.of_same fun _ => ⟨rfl, rfl⟩)
  unfold Task.holds
  rw [hfrom, hholds, hkb, append_nil, count_append, count_append]
  dsimp only
  omega

/-- `b->hold()`. -/
theorem Goes.hold (h : Cached c n) (hb : b ∈ c.allq)
    (hfrom : from_.holds = []) (hphase : phase.holds = [b]) (hhold : c.hold b = some c')
    (hok : phase.Ok c') : Goes c n ⟨from_, held⟩ c' ⟨phase, held⟩ := by
  have hcached := h.hold hb hhold
  obtain ⟨_, rfl⟩ := hold_cases hhold
  refine .of_cached hcached (fun i => ?_) hok rfl (.of_same fun _ => ⟨rfl, rfl⟩)
  unfold Task.holds
  rw [hfrom, hphase, append_nil, count_append]
  dsimp only
  omega

/-- `b->lose()`. -/
theorem Goes.lose (h : Cached c n) (hlose : c.lose b = some c')
    (hholds : x.holds.Perm (b :: x'.holds)) (hok : ∀ r q, x'.phase.Ok (c.recount r q)) :
    Goes c n x c' x' := by
  obtain ⟨hpos, hcached⟩ := h.lose hlose
  obtain ⟨_, rfl⟩ := lose_cases hlose
  refine .of_cached hcached (fun i => ?_) (hok _ _) rfl (.of_same fun _ => ⟨rfl, rfl⟩)
  have hcount : (b :: x'.holds).count i = [b].count i + x'.holds.count i := by
    rw [← count_append, singleton_append]
  rw [hholds.count_eq, hcount, count_one]
  split
  · next hi =>
      subst hi
      omega
  · omega

/-- A free buffer is held and gets a new key. -/
theorem Goes.rekey {k : Getb} {c₁ : Cache} (h : Cached c n)
    (hb : b ∈ c.allq) (hfrom : from_.holds = []) (hhold : c.hold b = some c₁)
    (hnone : ∀ i ∈ c.allq, ¬ ((c.buf i).dev = dev ∧ (c.buf i).bno = bno))
    (hzero : (c.buf b).refcnt = 0) (hlocked : (c.buf b).locked = false)
    (hclean : (c.buf b).state ≠ .dirty) :
    Goes c n ⟨from_, held⟩ (c₁.rekey b dev bno) ⟨.got b dev bno k, held⟩ := by
  have hcached := h.hold hb hhold
  obtain ⟨_, rfl⟩ := hold_cases hhold
  have hone : n b + [b].count b ≠ 0 := by
    rw [count_one, if_pos rfl]
    omega
  refine .of_cached (hcached.rekey hone hnone) (fun i => ?_) ?_ rfl fun i => ?_
  · unfold Task.holds
    rw [hfrom, append_nil, count_append]
    dsimp only [Phase.holds]
    omega
  · have hkey := rekey_key (c.recount (fun i => if i = b then (c.buf b).refcnt + 1
      else (c.buf i).refcnt) c.freeq) b dev bno
    refine ⟨hkey.1, hkey.2, ?_⟩
    dsimp only [Cache.rekey]
    rw [if_pos rfl]
    exact hlocked
  · by_cases hi : i = b
    · exact .inr (hi ▸ ⟨hzero, hlocked, hclean⟩)
    · rw [rekey_of_ne _ dev bno hi]
      exact .inl ⟨rfl, rfl⟩

theorem Llrwab.Ok.congr {k : Llrwab} (hk : k.Ok c) (hallq : c'.allq = c.allq) : k.Ok c' := by
  cases k with
  | writeb cluster k =>
      cases k with
      | getb => trivial
      | syncb b dev rest =>
          intro i hi
          rw [hallq]
          exact hk i hi
  | _ => trivial

theorem held_append (held bs : List Nat) : (held ++ b :: bs).Perm (b :: (held ++ bs)) :=
  perm_middle

theorem Task.go_cases (hgo : x.go c = some (c', x')) : Next c x.held x.phase c' x' := by
  obtain ⟨phase, held⟩ := x
  unfold Task.go at hgo
  dsimp only at hgo
  split at hgo
  case h_1 | h_4 => cases hgo
  case h_2 =>
    split at hgo
    · next hfind =>
      obtain ⟨c₁, hhold, heq⟩ := map_eq_some_iff.mp hgo
      cases heq
      exact .hit hfind hhold
    · next hfind =>
      cases hgo
      exact .miss hfind
  case h_3 =>
    obtain ⟨hlocked, hgo⟩ := ite_none_left_eq_some.mp hgo
    cases hgo
    exact .take hlocked
  case h_5 =>
    split at hgo
    · next hused =>
      cases hgo
      exact .used hused
    next hzero =>
    split at hgo
    · next hlocked =>
      split at hgo <;> cases hgo
      · next hmore => exact .skip (not_not.mp hzero) hlocked hmore
      · exact .last
    next hlocked =>
    split at hgo
    · obtain ⟨c₁, hhold, hgo⟩ := bind_eq_some_iff.mp hgo
      obtain ⟨⟨c₂, phase⟩, hw, heq⟩ := map_eq_some_iff.mp hgo
      cases heq
      exact .clean hhold hw
    next hdirty =>
    obtain ⟨c₁, hhold, heq⟩ := map_eq_some_iff.mp hgo
    cases heq
    exact .rekey (not_not.mp hzero) hlocked hdirty hhold
  case h_6 =>
    obtain ⟨-, hgo⟩ := ite_none_left_eq_some.mp hgo
    cases hgo
    exact .again
  case h_7 =>
    cases hgo
    exact .got
  case h_8 =>
    split at hgo <;> cases hgo
    · exact .got
    · exact .fill
  case h_9 =>
    cases hgo
    exact .sent
  case h_10 =>
    obtain ⟨-, hgo⟩ := ite_none_left_eq_some.mp hgo
    obtain ⟨hheld, hgo⟩ := ite_none_left_eq_some.mp hgo
    obtain ⟨hlocked, hgo⟩ := ite_none_left_eq_some.mp hgo
    cases hgo
    exact .addreq (not_not.mp hheld) hlocked
  case h_11 =>
    obtain ⟨-, hgo⟩ := ite_none_left_eq_some.mp hgo
    cases hgo
    exact .waited
  case h_12 =>
    cases hgo
    exact .ends
  case h_13 =>
    split at hgo
    · obtain ⟨c₁, hlose, heq⟩ := map_eq_some_iff.mp hgo
      cases heq
      exact .fails hlose
    · cases hgo
      exact .filled
  case h_14 =>
    cases hgo
    exact .written
  case h_15 =>
    obtain ⟨c₁, hlose, heq⟩ := map_eq_some_iff.mp hgo
    cases heq
    exact .lose hlose
  case h_16 =>
    cases hgo
    exact .lost
  case h_17 =>
    obtain ⟨c₁, hlose, heq⟩ := map_eq_some_iff.mp hgo
    cases heq
    exact .synced hlose
  case h_18 =>
    obtain ⟨-, hgo⟩ := ite_none_left_eq_some.mp hgo
    obtain ⟨c₁, hlose, heq⟩ := map_eq_some_iff.mp hgo
    cases heq
    exact .retry hlose
  case h_19 =>
    cases hgo
    exact .done
  case h_20 =>
    split at hgo
    · cases hgo
      exact .other
    obtain ⟨c₁, hhold, hgo⟩ := bind_eq_some_iff.mp hgo
    obtain ⟨⟨c₂, phase⟩, hw, heq⟩ := map_eq_some_iff.mp hgo
    cases heq
    exact .sync hhold hw
  case h_21 =>
    cases hgo
    exact .prempt

/-- A task that goes on in a call. -/
theorem Task.go_goes (h : Cached c n) (hx : ∀ b, x.holds.count b ≤ n b) (hok : x.phase.Ok c)
    (hgo : x.go c = some (c', x')) : Goes c n x c' x' := by
  have hnext := Task.go_cases hgo
  obtain ⟨phase, held⟩ := x
  have hheld : ∀ {b}, b ∈ phase.holds → n b ≠ 0 := fun {b} hb => by
    have hpos := count_pos_iff.mpr (mem_append_right held hb)
    exact Nat.ne_of_gt (Nat.lt_of_lt_of_le hpos (hx b))
  dsimp only at hnext hok
  cases hnext with
  | miss hfind => exact .stay h (.refl _) ⟨h.findb_none hfind, fun b hb => hb⟩
  | hit hfind hhold =>
      obtain ⟨hb, hkey⟩ := h.findb_some hfind
      refine .hold h hb rfl rfl hhold ?_
      obtain ⟨_, rfl⟩ := hold_cases hhold
      exact hkey
  | @take b _ _ _ hlocked =>
      refine .of_cached (h.take (hheld (mem_singleton_self b))) (fun _ => rfl) ?_ rfl
        (.of_same fun _ => ⟨rfl, rfl⟩)
      exact ⟨hok.1, hok.2, Bool.eq_false_iff.mpr hlocked⟩
  | used | skip =>
      exact .stay h (.refl _) ⟨hok.1, fun i hi => hok.2 i (mem_cons_of_mem _ hi)⟩
  | @clean b _ dev bno n k _ _ _ hhold hw =>
      exact .writeb (k := .getb b dev bno (n - 1) k) h (h.free b (hok.2 b mem_cons_self)) trivial
        rfl rfl hhold hw
  | @rekey b _ _ _ _ _ _ hzero hlocked hdirty hhold =>
      exact .rekey h (h.free b (hok.2 b mem_cons_self)) rfl hhold hok.1 hzero
        (Bool.eq_false_iff.mpr hlocked) hdirty
  | got => exact .stay h (held_append held []).symm trivial
  | @fill b =>
      have hok' : (llrwab c .read [b] [b] (.readb b)).Ok c := llrwab_ok (k := .readb b) trivial
      refine .stay h ?_ hok'
      unfold Task.holds
      rw [llrwab_holds]
      exact .refl _
  | @addreq rw _ b _ _ _ =>
      have hs := Same.addreq c rw b
      exact .of_cached (h.congr hs) (fun _ => rfl) (Llrwab.Ok.congr hok hs.allq) hs.allq hs.rekeys
  | sent | waited | written | prempt => exact .stay h (.refl _) hok
  | last | again | ends | lost | done => exact .stay h (.refl _) trivial
  | fails hlose | retry hlose =>
      exact .lose h hlose (held_append held []) fun _ _ => trivial
  | filled => exact .stay h (held_append held []).symm trivial
  | @lose _ rest k _ hlose =>
      exact .lose h hlose (held_append held (rest ++ k.holds)) fun r q => hok.recount r q
  | synced hlose => exact .lose h hlose (held_append held []) fun _ _ => hok
  | other => exact .stay h (.refl _) fun i hi => hok i (mem_cons_of_mem _ hi)
  | @sync dev b rest _ _ _ hhold hw =>
      exact .writeb (k := .syncb b dev rest) h (hok b mem_cons_self)
        (fun i hi => hok i (mem_cons_of_mem b hi)) rfl rfl hhold hw

end Goes

end Unixlite.Bcache
