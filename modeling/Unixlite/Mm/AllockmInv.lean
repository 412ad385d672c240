import Unixlite.Mm.Allockm

/-!
# Buckets

The free chain of a bucket and the objects in use are together the slots of its
page, each once.  `free_spec`, `alloc_spec` and `init_spec` are what the three
operations of a bucket do to the chain.
-/

namespace Unixlite.Mm.Allockm

open Unixlite.Verified.LinkedList Unixlite.Verified.Slots List

/-! ## Longs -/

theorem fill_frame (v : Nat) {n : Nat} {mem : Mem} {p a : Nat} (h : a < p ∨ p + 4 * n ≤ a) :
    fill v n mem p a = mem a := by
  induction n generalizing mem p with
  | zero => rfl
  | succ n ih =>
      rw [fill, ih (by omega), store, if_neg (by omega)]

theorem filled_fill (v n : Nat) (mem : Mem) (p : Nat) : filled v n (fill v n mem p) p = true := by
  induction n generalizing mem p with
  | zero => rfl
  | succ n ih =>
      have hfirst : fill v n (store mem p v) (p + 4) p = v := by
        rw [fill_frame v (by omega), store, if_pos rfl]
      rw [fill, filled, hfirst, beq_self_eq_true, Bool.true_and]
      exact ih _ _

theorem filled_congr {v n : Nat} {mem mem' : Mem} {p : Nat}
    (h : ∀ a, p ≤ a → a < p + 4 * n → mem' a = mem a) : filled v n mem' p = filled v n mem p := by
  induction n generalizing p with
  | zero => rfl
  | succ n ih =>
      rw [filled, filled, h p (Nat.le_refl p) (by omega),
        ih fun a hle hlt => h a (by omega) (by omega)]

/-! ## The shape of a bucket -/

/-- The addresses of the objects of a bucket. -/
def Bucket.slots (b : Bucket) (page : Nat) : List Nat :=
  Verified.Slots.slots (objs page) b.objsize b.nmaxfree

/-- What does not change as long as the page is a bucket. -/
structure Bucket.Same (b' b : Bucket) : Prop where
  pool : b'.pool = b.pool
  objsize : b'.objsize = b.objsize
  nmaxfree : b'.nmaxfree = b.nmaxfree

/-- A bucket as `init` makes it, at the start of a page. -/
structure Shape (page : Nat) (b : Bucket) : Prop where
  page_aligned : page % PAGESIZE = 0
  page_ne : page ≠ 0
  four_le : 4 ≤ b.objsize
  four_dvd : b.objsize % 4 = 0
  le_page : b.objsize ≤ PAGESIZE - sizeofBucket
  nmaxfree_eq : b.nmaxfree = (PAGESIZE - sizeofBucket) / b.objsize

/-- The free chain of a bucket. -/
structure ChainOk (mem : Mem) (page : Nat) (b : Bucket) (l : List Nat) : Prop where
  linked : Linked (next mem) (ptr b.freeobj) l
  length : l.length = b.ncurfree
  slots : ∀ o ∈ l, o ∈ b.slots page
  magic : ∀ o ∈ l, checkmagic mem o b.objsize = true

section Shape

variable {mem mem' : Mem} {page o p : Nat} {b : Bucket} {l : List Nat}

theorem Bucket.Same.refl (b : Bucket) : b.Same b := ⟨rfl, rfl, rfl⟩

theorem Bucket.Same.trans {b₁ b₂ b₃ : Bucket} (h : b₁.Same b₂) (h' : b₂.Same b₃) : b₁.Same b₃ :=
  ⟨h.pool.trans h'.pool, h.objsize.trans h'.objsize, h.nmaxfree.trans h'.nmaxfree⟩

theorem Bucket.Same.slots {b' : Bucket} (h : b'.Same b) : b'.slots page = b.slots page := by
  rw [Bucket.slots, Bucket.slots, h.objsize, h.nmaxfree]

theorem Shape.of_same (h : Shape page b) {b' : Bucket} (hb : b'.Same b) : Shape page b' where
  page_aligned := h.page_aligned
  page_ne := h.page_ne
  four_le := hb.objsize ▸ h.four_le
  four_dvd := hb.objsize ▸ h.four_dvd
  le_page := hb.objsize ▸ h.le_page
  nmaxfree_eq := by rw [hb.nmaxfree, hb.objsize, h.nmaxfree_eq]

theorem Shape.nmaxfree_pos (h : Shape page b) : 0 < b.nmaxfree := by
  rw [h.nmaxfree_eq]
  exact Nat.div_pos h.le_page (by have := h.four_le; omega)

/-- The slots end where the page does, or before. -/
theorem Shape.area (h : Shape page b) : objs page + b.nmaxfree * b.objsize ≤ page + PAGESIZE := by
  have hle : b.nmaxfree * b.objsize ≤ PAGESIZE - sizeofBucket := by
    rw [h.nmaxfree_eq]
    exact Nat.div_mul_le_self _ _
  unfold objs PAGESIZE sizeofBucket at *
  omega

/-- An object lies in its page, after the header. -/
theorem Shape.inside (h : Shape page b) (ho : o ∈ b.slots page) :
    page + sizeofBucket ≤ o ∧ o + b.objsize ≤ page + PAGESIZE := by
  obtain ⟨hle, hlt⟩ := slots_inside ho
  exact ⟨hle, Nat.le_trans hlt h.area⟩

theorem Shape.aligned (h : Shape page b) (ho : o ∈ b.slots page) : o % 4 = 0 := by
  obtain ⟨i, -, rfl⟩ := mem_slots.mp ho
  obtain ⟨k, hk⟩ : ∃ k, b.objsize = 4 * k := ⟨b.objsize / 4, by have := h.four_dvd; omega⟩
  have hpage := h.page_aligned
  unfold objs sizeofBucket PAGESIZE at *
  rw [hk, Nat.mul_left_comm]
  omega

/-- The bucket is recovered from the pointer by rounding. -/
theorem Shape.pagedown_eq (h : Shape page b) (ho : o ∈ b.slots page) : pagedown o = page := by
  obtain ⟨hle, hlt⟩ := h.inside ho
  have hfour := h.four_le
  have hpage := h.page_aligned
  unfold pagedown PAGESIZE sizeofBucket at *
  omega

theorem Shape.ne_zero (h : Shape page b) (ho : o ∈ b.slots page) : o ≠ 0 := by
  have hle := (h.inside ho).1
  unfold sizeofBucket at hle
  omega

/-- `check` finds no misaligned object. -/
theorem Shape.offset_eq (h : Shape page b) (ho : o ∈ b.slots page) :
    wrap (o + 2 ^ 32 - objs page) % b.objsize = 0 := by
  have hend := (h.inside ho).2
  obtain ⟨i, -, rfl⟩ := mem_slots.mp ho
  have hoff : wrap (objs page + i * b.objsize + 2 ^ 32 - objs page) = i * b.objsize := by
    unfold wrap objs PAGESIZE sizeofBucket at *
    omega
  rw [hoff, Nat.mul_mod_left]

/-- The longs that `markmagic` writes are the object but for its first. -/
theorem Shape.longs (h : Shape page b) : 4 + 4 * ((b.objsize - 4) / 4) = b.objsize := by
  have hfour := h.four_le
  have hdvd := h.four_dvd
  omega

/-- A chain is not changed by writes outside its objects. -/
theorem ChainOk.congr (h : ChainOk mem page b l) (hs : Shape page b)
    (hmem : ∀ o ∈ l, ∀ a, o ≤ a → a < o + b.objsize → mem' a = mem a) :
    ChainOk mem' page b l where
  linked := h.linked.congr fun o ho => by
    have hfour := hs.four_le
    rw [next, next, hmem o ho o (Nat.le_refl o) (by omega)]
  length := h.length
  slots := h.slots
  magic := by
    intro o ho
    rw [← h.magic o ho]
    exact filled_congr fun a hle hlt => hmem o ho a (by omega) (by omega)

theorem ChainOk.length_le (h : ChainOk mem page b l) : l.length ≤ b.nmaxfree :=
  length_le_of_slots h.linked.nodup h.slots

theorem Shape.nmaxfree_le (h : Shape page b) : b.nmaxfree ≤ PAGESIZE := by
  rw [h.nmaxfree_eq]
  exact Nat.le_trans (Nat.div_le_self _ _) (Nat.sub_le _ _)

/-- `check` lets an object pass that is a slot and not free. -/
theorem ChainOk.check (h : ChainOk mem page b l) (hs : Shape page b) (ho : o ∈ b.slots page)
    (hl : o ∉ l) : b.check mem page o = true := by
  have hfollow : follow (next mem) PAGESIZE (ptr b.freeobj) = some l :=
    h.linked.follow_eq (Nat.le_trans h.length_le hs.nmaxfree_le)
  rw [Bucket.check, hs.offset_eq ho, hfollow]
  simpa using hl

/-! ## The operations -/

/-- `free` puts the object in front of the chain. -/
theorem free_spec (h : ChainOk mem page b l) (hs : Shape page b) (ho : o ∈ b.slots page)
    (hl : o ∉ l) :
    ∃ mem' b', b.free mem page o = some (mem', b') ∧ b'.Same b ∧
      b'.ncurfree = b.ncurfree + 1 ∧ ChainOk mem' page b' (o :: l) ∧
      ∀ a, a < o ∨ o + b.objsize ≤ a → mem' a = mem a := by
  have hlongs := hs.longs
  have hframe : ∀ a, a < o ∨ o + b.objsize ≤ a →
      markmagic (store mem o b.freeobj) o b.objsize a = mem a := by
    intro a ha
    rw [markmagic, fill_frame _ (by omega), store, if_neg (by omega)]
  have hapart : ∀ q ∈ l, q + b.objsize ≤ o ∨ o + b.objsize ≤ q := fun q hq =>
    slots_apart (h.slots q hq) ho (by rintro rfl; exact hl hq)
  refine ⟨_, _, if_pos (h.check hs ho hl), ⟨rfl, rfl, rfl⟩, rfl, ⟨?_, ?_, ?_, ?_⟩, hframe⟩
  · have hfirst : markmagic (store mem o b.freeobj) o b.objsize o = b.freeobj := by
      rw [markmagic, fill_frame _ (by omega), store, if_pos rfl]
    refine linked_cons.mpr ⟨if_neg (hs.ne_zero ho), ?_⟩
    rw [next, hfirst]
    refine h.linked.congr fun q hq => ?_
    have hq := hapart q hq
    rw [next, next, hframe q (by omega)]
  · simp [h.length]
  · intro q hq
    rcases mem_cons.mp hq with rfl | hq
    · exact ho
    · exact h.slots q hq
  · intro q hq
    rcases mem_cons.mp hq with rfl | hq
    · exact filled_fill _ _ _ _
    · have hapart := hapart q hq
      rw [← h.magic q hq]
      refine filled_congr fun a hle hlt => hframe a ?_
      dsimp only at hlt
      omega

/-- `alloc` takes the first object of the chain. -/
theorem alloc_spec (h : ChainOk mem page b (o :: l)) :
    ∃ b', b.alloc mem = some (some o, b') ∧ b'.Same b ∧ b'.ncurfree + 1 = b.ncurfree ∧
      ChainOk mem page b' l := by
  obtain ⟨hhead, htail⟩ := linked_cons.mp h.linked
  have hlength := h.length
  have hmagic := h.magic o mem_cons_self
  rw [length_cons] at hlength
  have halloc : b.alloc mem =
      some (some o, { b with ncurfree := b.ncurfree - 1, freeobj := mem o }) := by
    simp [Bucket.alloc, ← hlength, hhead, hmagic]
  refine ⟨_, halloc, ⟨rfl, rfl, rfl⟩, by dsimp only; omega, htail, by dsimp only; omega,
    fun q hq => h.slots q (mem_cons_of_mem o hq),
    fun q hq => h.magic q (mem_cons_of_mem o hq)⟩

theorem freeObjs_succ (b : Bucket) (mem : Mem) (page n : Nat) :
    b.freeObjs mem page (n + 1) =
      (b.freeObjs mem page n).bind fun x => x.2.free x.1 page (objs page + n * x.2.objsize) := rfl

/-- The loop of `init` frees the first `n` slots, one after the other. -/
theorem freeObjs_spec (mem : Mem) (hs : Shape page b) (hfree : b.ncurfree = 0) (hnull : b.freeobj = 0)
    {n : Nat} (hn : n ≤ b.nmaxfree) :
    ∃ mem' b', b.freeObjs mem page n = some (mem', b') ∧ b'.Same b ∧ b'.ncurfree = n ∧
      ChainOk mem' page b' (Verified.Slots.slots (objs page) b.objsize n).reverse ∧
      ∀ a, a < page ∨ page + PAGESIZE ≤ a → mem' a = mem a := by
  induction n with
  | zero =>
      have hlinked : Linked (next mem) (ptr b.freeobj) [] := by
        rw [hnull]
        exact linked_nil.mpr rfl
      exact ⟨mem, b, by rw [Bucket.freeObjs], .refl b, hfree,
        ⟨hlinked, hfree.symm, by simp, by simp⟩, fun _ _ => rfl⟩
  | succ n ih =>
      obtain ⟨mem₁, b₁, hrun, hsame, hcount, hchain, hframe⟩ := ih (Nat.le_of_succ_le hn)
      have hslot : objs page + n * b.objsize ∈ b₁.slots page := by
        rw [hsame.slots]
        exact mem_slots.mpr ⟨n, hn, rfl⟩
      have hnew : objs page + n * b.objsize ∉
          (Verified.Slots.slots (objs page) b.objsize n).reverse := by
        intro hmem
        have hlt := (slots_inside (mem_reverse.mp hmem)).2
        have hfour := hs.four_le
        omega
      obtain ⟨mem₂, b₂, hfree₂, hsame₂, hcount₂, hchain₂, hframe₂⟩ :=
        free_spec hchain (hs.of_same hsame) hslot hnew
      refine ⟨mem₂, b₂, ?_, hsame₂.trans hsame, by rw [hcount₂, hcount], ?_, ?_⟩
      · rw [freeObjs_succ, hrun, Option.bind_some, hsame.objsize, hfree₂]
      · rw [slots_succ, reverse_append, reverse_singleton, singleton_append]
        exact hchain₂
      · intro a ha
        obtain ⟨hle, hlt⟩ := (hs.of_same hsame).inside hslot
        rw [hframe₂ a (by omega), hframe a ha]

end Shape

/-- `init`: all the slots are free. -/
theorem init_spec (mem : Mem) (pool : Nat) {page objsize : Nat} (hpage : page % PAGESIZE = 0)
    (hne : page ≠ 0) (hfour : 4 ≤ objsize) (hdvd : objsize % 4 = 0)
    (hle : objsize ≤ PAGESIZE - sizeofBucket) :
    ∃ mem' b l, Bucket.init mem page pool objsize = some (mem', b) ∧ Shape page b ∧
      b.pool = pool ∧ b.objsize = objsize ∧ b.ncurfree = b.nmaxfree ∧ ChainOk mem' page b l ∧
      l.Perm (b.slots page) ∧ ∀ a, a < page ∨ page + PAGESIZE ≤ a → mem' a = mem a := by
  let b₀ : Bucket := ⟨pool, objsize, 0, 0, (PAGESIZE - sizeofBucket) / objsize⟩
  have hs : Shape page b₀ := ⟨hpage, hne, hfour, hdvd, hle, rfl⟩
  obtain ⟨mem', b, hrun, hsame, hcount, hchain, hframe⟩ :=
    freeObjs_spec mem hs rfl rfl (Nat.le_refl b₀.nmaxfree)
  refine ⟨mem', b, _, hrun, hs.of_same hsame, hsame.pool, hsame.objsize, ?_, hchain, ?_, hframe⟩
  · rw [hcount, hsame.nmaxfree]
  · rw [hsame.slots]
    exact reverse_perm _

end Unixlite.Mm.Allockm
