import Unixlite.Mm.AllockmInv
import Unixlite.Verified.Run

/-!
# Runs of the object pools

`pools_always`: along every run what the pools have given out lies in its pages,
apart from everything else given out, and the two queues of a pool tell the
buckets that have free objects from those that have none.
-/

namespace Unixlite.Mm.Allockm

open Unixlite.Verified.LinkedList Unixlite.Verified.Run Unixlite.Verified.Slots List
open Option (bind_eq_bind bind_some map_eq_some_iff some)

/-! ## The property -/

/-- The bucket at `page` is one of pool `k`. -/
def Machine.Has (m : Machine) (k page : Nat) : Prop := page ∈ m.pages ∧ (m.bucket page).pool = k

/-- The objects that two returns have given do not overlap. -/
def Machine.Disjoint (m : Machine) (o o' : Obj) : Prop :=
  ∀ pool pool', m.pools o.pool = some pool → m.pools o'.pool = some pool' →
    o.addr + pool.objsize ≤ o'.addr ∨ o'.addr + pool'.objsize ≤ o.addr

structure PoolsOk (m : Machine) : Prop where
  /-- An object is aligned and lies in its page, after the header. -/
  inside : ∀ o ∈ m.out, ∃ pool, m.pools o.pool = some pool ∧ o.addr % 4 = 0 ∧
    pagedown o.addr + sizeofBucket ≤ o.addr ∧
    o.addr + pool.objsize ≤ pagedown o.addr + PAGESIZE
  disjoint : m.out.Pairwise m.Disjoint
  /-- A bucket is on `richq` iff it has free objects and on `poorq` iff not. -/
  richq : ∀ k pool page, m.pools k = some pool →
    (page ∈ pool.richq ↔ m.Has k page ∧ 0 < (m.bucket page).ncurfree)
  poorq : ∀ k pool page, m.pools k = some pool →
    (page ∈ pool.poorq ↔ m.Has k page ∧ (m.bucket page).ncurfree = 0)
  once : ∀ k pool, m.pools k = some pool → (pool.richq ++ pool.poorq).Nodup
  /-- `ncurfree` is the length of the free chain. -/
  ncurfree : ∀ page ∈ m.pages, ∃ chain,
    Linked (next m.mem) (ptr (m.bucket page).freeobj) chain ∧
      chain.length = (m.bucket page).ncurfree
  /-- A page is kept as long as an object of it is in use. -/
  pages : ∀ page, page ∈ m.pages ↔ ∃ o ∈ m.out, pagedown o.addr = page
  pages_once : m.pages.Nodup

/-! ## The invariant -/

/-- The addresses in `page` that are in use. -/
def live (out : List Obj) (page : Nat) : List Nat :=
  (out.filter fun o => pagedown o.addr = page).map Obj.addr

variable {out : List Obj} {page : Nat}

theorem mem_live {a : Nat} :
    a ∈ live out page ↔ ∃ o ∈ out, pagedown o.addr = page ∧ o.addr = a := by
  simp only [live, mem_map, mem_filter, decide_eq_true_eq]
  constructor
  · rintro ⟨o, ⟨ho, hpage⟩, ha⟩
    exact ⟨o, ho, hpage, ha⟩
  · rintro ⟨o, ho, hpage, ha⟩
    exact ⟨o, ⟨ho, hpage⟩, ha⟩

theorem live_cons_self {o : Obj} (h : pagedown o.addr = page) :
    live (o :: out) page = o.addr :: live out page := by
  simp [live, h]

theorem live_cons_ne {o : Obj} (h : pagedown o.addr ≠ page) :
    live (o :: out) page = live out page := by
  simp [live, h]

theorem live_perm {out' : List Obj} (h : out.Perm out') (page : Nat) :
    (live out page).Perm (live out' page) :=
  (h.filter _).map _

/-- The free chain and what is in use are together the slots, each once. -/
structure BucketOk (mem : Mem) (page : Nat) (b : Bucket) (used : List Nat) : Prop where
  shape : Shape page b
  chain : ∃ l, ChainOk mem page b l ∧ (l ++ used).Perm (b.slots page)

/-- The queues of pool `k`. -/
structure PoolOk (m : Machine) (k : Nat) (pool : Pool) : Prop where
  four_le : 4 ≤ pool.objsize
  four_dvd : pool.objsize % 4 = 0
  le_page : pool.objsize ≤ PAGESIZE - sizeofBucket
  richq : ∀ page, page ∈ pool.richq ↔ m.Has k page ∧ 0 < (m.bucket page).ncurfree
  poorq : ∀ page, page ∈ pool.poorq ↔ m.Has k page ∧ (m.bucket page).ncurfree = 0
  richq_once : pool.richq.Nodup
  poorq_once : pool.poorq.Nodup

/-- The invariant, but for pages that have no object in use. -/
structure Inv (m : Machine) : Prop where
  buckets : ∀ page ∈ m.pages, BucketOk m.mem page (m.bucket page) (live m.out page)
  owner : ∀ page ∈ m.pages, ∃ pool, m.pools (m.bucket page).pool = some pool ∧
    pool.objsize = (m.bucket page).objsize
  pools : ∀ k pool, m.pools k = some pool → PoolOk m k pool
  out : ∀ o ∈ m.out, m.Has o.pool (pagedown o.addr)
  out_once : (m.out.map Obj.addr).Nodup
  pages_once : m.pages.Nodup

/-- Every page but perhaps `spare` has an object in use. -/
def Used (m : Machine) (spare : Option Nat) : Prop :=
  ∀ page ∈ m.pages, some page ≠ spare → ∃ o ∈ m.out, pagedown o.addr = page

namespace Inv

variable {m : Machine}

theorem objsize (h : Inv m) {k page : Nat} {pool : Pool} (hhas : m.Has k page)
    (hpool : m.pools k = some pool) : (m.bucket page).objsize = pool.objsize := by
  obtain ⟨pool₀, hpool₀, hsize⟩ := h.owner page hhas.1
  rw [hhas.2, hpool, some.injEq] at hpool₀
  rw [hpool₀, hsize]

/-- An object in use is a slot of its page, of the size of its pool. -/
theorem slot (h : Inv m) {o : Obj} (ho : o ∈ m.out) :
    Shape (pagedown o.addr) (m.bucket (pagedown o.addr)) ∧
      o.addr ∈ (m.bucket (pagedown o.addr)).slots (pagedown o.addr) ∧
      ∃ pool, m.pools o.pool = some pool ∧
        pool.objsize = (m.bucket (pagedown o.addr)).objsize := by
  obtain ⟨hpage, hpool⟩ := h.out o ho
  obtain ⟨hshape, l, -, hperm⟩ := h.buckets _ hpage
  obtain ⟨pool, hsome, hsize⟩ := h.owner _ hpage
  rw [hpool] at hsome
  have hlive : o.addr ∈ live m.out (pagedown o.addr) := mem_live.mpr ⟨o, ho, rfl, rfl⟩
  exact ⟨hshape, hperm.subset (mem_append_right l hlive), pool, hsome, hsize⟩

theorem disjoint (h : Inv m) {o o' : Obj} (ho : o ∈ m.out) (ho' : o' ∈ m.out)
    (hne : o.addr ≠ o'.addr) : m.Disjoint o o' := by
  intro pool pool' hpool hpool'
  obtain ⟨hs, hslot, p, hp, hsize⟩ := h.slot ho
  obtain ⟨hs', hslot', p', hp', hsize'⟩ := h.slot ho'
  obtain rfl : p = pool := by rwa [hp, some.injEq] at hpool
  obtain rfl : p' = pool' := by rwa [hp', some.injEq] at hpool'
  by_cases hpage : pagedown o.addr = pagedown o'.addr
  · rw [hpage] at hslot hsize
    rw [hsize, hsize']
    exact slots_apart hslot hslot' hne
  · -- objects of two pages
    obtain ⟨hle, hlt⟩ := hs.inside hslot
    obtain ⟨hle', hlt'⟩ := hs'.inside hslot'
    have ha := hs.page_aligned
    have ha' := hs'.page_aligned
    unfold sizeofBucket PAGESIZE at *
    omega

/-- The invariant and pages that are all used are the property. -/
theorem poolsOk (h : Inv m) (hused : Used m none) : PoolsOk m where
  inside := by
    intro o ho
    obtain ⟨hs, hslot, pool, hpool, hsize⟩ := h.slot ho
    obtain ⟨hle, hlt⟩ := hs.inside hslot
    exact ⟨pool, hpool, hs.aligned hslot, hle, hsize ▸ hlt⟩
  disjoint := by
    have hpair : m.out.Pairwise fun o o' => o.addr ≠ o'.addr :=
      pairwise_map.mp h.out_once
    exact hpair.imp_of_mem fun ho ho' hne => h.disjoint ho ho' hne
  richq := fun k pool page hpool => (h.pools k pool hpool).richq page
  poorq := fun k pool page hpool => (h.pools k pool hpool).poorq page
  once := by
    intro k pool hpool
    have hok := h.pools k pool hpool
    refine hok.richq_once.append hok.poorq_once ?_
    intro page hrich hpoor
    have hpos := ((hok.richq page).mp hrich).2
    rw [((hok.poorq page).mp hpoor).2] at hpos
    exact Nat.lt_irrefl 0 hpos
  ncurfree := by
    intro page hpage
    obtain ⟨-, l, hchain, -⟩ := h.buckets page hpage
    exact ⟨l, hchain.linked, hchain.length⟩
  pages := by
    intro page
    constructor
    · intro hpage
      exact hused page hpage (by simp)
    · rintro ⟨o, ho, rfl⟩
      exact (h.out o ho).1
  pages_once := h.pages_once

end Inv

/-! ## Changes at one page -/

variable {page : Nat} {b : Bucket}

theorem pagedown_eq_iff {a : Nat} (hpage : page % PAGESIZE = 0) :
    pagedown a = page ↔ page ≤ a ∧ a < page + PAGESIZE := by
  unfold pagedown PAGESIZE at *
  omega

theorem Shape.nodup {l used : List Nat} (hs : Shape page b)
    (hperm : (l ++ used).Perm (b.slots page)) : (l ++ used).Nodup :=
  hperm.nodup_iff.mpr (slots_nodup (by have := hs.four_le; omega))

/-- A bucket is not changed by writes to objects in use, and elsewhere. -/
theorem BucketOk.congr {mem mem' : Mem} {used : List Nat} (h : BucketOk mem page b used)
    (hmem : ∀ o ∈ b.slots page, o ∉ used → ∀ a, o ≤ a → a < o + b.objsize → mem' a = mem a) :
    BucketOk mem' page b used := by
  obtain ⟨hs, l, hchain, hperm⟩ := h
  have hnodup := nodup_append.mp (hs.nodup hperm)
  refine ⟨hs, l, hchain.congr hs fun o ho => ?_, hperm⟩
  exact hmem o (hchain.slots o ho) fun hused => hnodup.2.2 o ho o hused rfl

/-- What is used in another order. -/
theorem BucketOk.perm {mem : Mem} {used used' : List Nat}
    (h : BucketOk mem page b used) (hused : used'.Perm used) : BucketOk mem page b used' := by
  obtain ⟨hs, l, hchain, hperm⟩ := h
  exact ⟨hs, l, hchain, (hused.append_left l).trans hperm⟩

/-- All that changes is at `page`, of pool `k`. -/
structure Local (m m' : Machine) (k page : Nat) (pool pool' : Pool) : Prop where
  old : m.pools k = some pool
  new : m'.pools k = some pool'
  objsize : pool'.objsize = pool.objsize
  others : ∀ i, i ≠ k → m'.pools i = m.pools i
  bucket : ∀ p, p ≠ page → m'.bucket p = m.bucket p
  pages : ∀ p, p ≠ page → (p ∈ m'.pages ↔ p ∈ m.pages)
  mem : ∀ a, pagedown a ≠ page → m'.mem a = m.mem a
  live : ∀ p, p ≠ page → (live m'.out p).Perm (live m.out p)
  richq : ∀ p, p ≠ page → (p ∈ pool'.richq ↔ p ∈ pool.richq)
  poorq : ∀ p, p ≠ page → (p ∈ pool'.poorq ↔ p ∈ pool.poorq)
  mine : page ∈ m.pages → (m.bucket page).pool = k

namespace Local

variable {m m' : Machine} {k page : Nat} {pool pool' : Pool}

variable {i p : Nat}

theorem has (hl : Local m m' k page pool pool') (hp : p ≠ page) : m'.Has i p ↔ m.Has i p := by
  unfold Machine.Has
  rw [hl.pages p hp, hl.bucket p hp]

/-- A bucket that is kept stays with its pool. -/
theorem keeps (hl : Local m m' k page pool pool') (hhas : m.Has i p)
    (hpage : p = page → page ∈ m'.pages ∧ (m'.bucket page).pool = k) : m'.Has i p := by
  by_cases hp : p = page
  · subst hp
    obtain ⟨hin, hpool⟩ := hpage rfl
    exact ⟨hin, hpool.trans ((hl.mine hhas.1).symm.trans hhas.2)⟩
  · exact (hl.has hp).mpr hhas

/-- The other buckets are as they were. -/
theorem buckets (hl : Local m m' k page pool pool') (h : Inv m) (hne : p ≠ page)
    (hp : p ∈ m'.pages) : BucketOk m'.mem p (m'.bucket p) (Allockm.live m'.out p) := by
  have hok := h.buckets p ((hl.pages p hne).mp hp)
  rw [hl.bucket p hne]
  refine (hok.perm (hl.live p hne)).congr fun o ho _ a hle hlt => hl.mem a ?_
  obtain ⟨hpage, hend⟩ := hok.shape.inside ho
  have hdown : pagedown a = p :=
    (pagedown_eq_iff hok.shape.page_aligned).mpr (by unfold sizeofBucket at hpage; omega)
  rwa [hdown]

/-- The other pools are as they were. -/
theorem other (hl : Local m m' k page pool pool') (h : Inv m) {pl : Pool}
    (hi : i ≠ k) (hpl : m'.pools i = some pl) (hmine : page ∈ m'.pages →
      (m'.bucket page).pool = k) : PoolOk m' i pl := by
  rw [hl.others i hi] at hpl
  have hok := h.pools i pl hpl
  have hold : ¬ m.Has i page := fun hhas => hi (hhas.2.symm.trans (hl.mine hhas.1))
  have hnew : ¬ m'.Has i page := fun hhas => hi (hhas.2.symm.trans (hmine hhas.1))
  refine ⟨hok.four_le, hok.four_dvd, hok.le_page, fun p => ?_, fun p => ?_, hok.richq_once,
    hok.poorq_once⟩
  · rw [hok.richq p]
    by_cases hp : p = page
    · subst hp
      simp [hold, hnew]
    · rw [hl.has hp, hl.bucket p hp]
  · rw [hok.poorq p]
    by_cases hp : p = page
    · subst hp
      simp [hold, hnew]
    · rw [hl.has hp, hl.bucket p hp]

/-- The invariant has to be shown for `page` and its pool only. -/
theorem inv (hl : Local m m' k page pool pool') (h : Inv m)
    (hpage : page ∈ m'.pages → BucketOk m'.mem page (m'.bucket page) (Allockm.live m'.out page) ∧
      (m'.bucket page).pool = k ∧ (m'.bucket page).objsize = pool.objsize)
    (hrich : page ∈ pool'.richq ↔ page ∈ m'.pages ∧ 0 < (m'.bucket page).ncurfree)
    (hpoor : page ∈ pool'.poorq ↔ page ∈ m'.pages ∧ (m'.bucket page).ncurfree = 0)
    (honce : pool'.richq.Nodup ∧ pool'.poorq.Nodup)
    (hout : ∀ o ∈ m'.out, m'.Has o.pool (pagedown o.addr))
    (hout_once : (m'.out.map Obj.addr).Nodup) (hpages_once : m'.pages.Nodup) : Inv m' where
  buckets := by
    intro p hp
    by_cases hne : p = page
    · subst hne
      exact (hpage hp).1
    · exact hl.buckets h hne hp
  owner := by
    intro p hp
    by_cases hne : p = page
    · subst hne
      obtain ⟨-, hpool, hsize⟩ := hpage hp
      exact ⟨pool', by rw [hpool, hl.new], by rw [hl.objsize, hsize]⟩
    · obtain ⟨pl, hpl, hsize⟩ := h.owner p ((hl.pages p hne).mp hp)
      rw [hl.bucket p hne]
      by_cases hk : (m.bucket p).pool = k
      · rw [hk, hl.old, some.injEq] at hpl
        exact ⟨pool', by rw [hk, hl.new], by rw [hl.objsize, hpl, hsize]⟩
      · exact ⟨pl, by rw [hl.others _ hk, hpl], hsize⟩
  pools := by
    intro i pl hpl
    by_cases hi : i = k
    · subst hi
      obtain rfl : pool' = pl := by rwa [hl.new, some.injEq] at hpl
      have hok := h.pools i pool hl.old
      refine ⟨hl.objsize ▸ hok.four_le, hl.objsize ▸ hok.four_dvd, hl.objsize ▸ hok.le_page,
        fun p => ?_, fun p => ?_, honce.1, honce.2⟩
      · by_cases hp : p = page
        · subst hp
          rw [hrich]
          exact ⟨fun ⟨hin, hn⟩ => ⟨⟨hin, (hpage hin).2.1⟩, hn⟩, fun ⟨hhas, hn⟩ => ⟨hhas.1, hn⟩⟩
        · rw [hl.richq p hp, hok.richq p, hl.has hp, hl.bucket p hp]
      · by_cases hp : p = page
        · subst hp
          rw [hpoor]
          exact ⟨fun ⟨hin, hn⟩ => ⟨⟨hin, (hpage hin).2.1⟩, hn⟩, fun ⟨hhas, hn⟩ => ⟨hhas.1, hn⟩⟩
        · rw [hl.poorq p hp, hok.poorq p, hl.has hp, hl.bucket p hp]
    · exact hl.other h hi hpl fun hin => (hpage hin).2.1
  out := hout
  out_once := hout_once
  pages_once := hpages_once

end Local

/-- The machine after an operation on the bucket at `page` of pool `k`. -/
def Machine.put (m : Machine) (mem : Mem) (pages : List Nat) (out : List Obj) (page : Nat)
    (b : Bucket) (k : Nat) (pool : Pool) : Machine :=
  (Machine.setBucket { m with mem := mem, pages := pages, out := out } page b).setPool k pool

section Put

variable {m : Machine} {mem : Mem} {pages : List Nat} {out : List Obj} {page k : Nat} {b : Bucket}
  {pool pool' : Pool}

@[simp] theorem put_bucket : (m.put mem pages out page b k pool).bucket page = b := if_pos rfl
@[simp] theorem put_pools : (m.put mem pages out page b k pool).pools k = some pool := if_pos rfl
@[simp] theorem put_mem : (m.put mem pages out page b k pool).mem = mem := rfl
@[simp] theorem put_pages : (m.put mem pages out page b k pool).pages = pages := rfl
@[simp] theorem put_out : (m.put mem pages out page b k pool).out = out := rfl

theorem Local.put (hold : m.pools k = some pool) (hsize : pool'.objsize = pool.objsize)
    (hpages : ∀ p, p ≠ page → (p ∈ pages ↔ p ∈ m.pages))
    (hmem : ∀ a, pagedown a ≠ page → mem a = m.mem a)
    (hlive : ∀ p, p ≠ page → (Allockm.live out p).Perm (Allockm.live m.out p))
    (hrich : ∀ p, p ≠ page → (p ∈ pool'.richq ↔ p ∈ pool.richq))
    (hpoor : ∀ p, p ≠ page → (p ∈ pool'.poorq ↔ p ∈ pool.poorq))
    (hmine : page ∈ m.pages → (m.bucket page).pool = k) :
    Local m (m.put mem pages out page b k pool') k page pool pool' where
  old := hold
  new := put_pools
  objsize := hsize
  others := fun _ hi => if_neg hi
  bucket := fun _ hp => if_neg hp
  pages := hpages
  mem := hmem
  live := hlive
  richq := hrich
  poorq := hpoor
  mine := hmine

end Put

/-! ## The queues -/

/-- `pool'` is `pool` but for the queues that `page` is on. -/
structure Queued (pool pool' : Pool) (page : Nat) (rich poor : Prop) : Prop where
  objsize : pool'.objsize = pool.objsize
  richq : ∀ p, p ≠ page → (p ∈ pool'.richq ↔ p ∈ pool.richq)
  poorq : ∀ p, p ≠ page → (p ∈ pool'.poorq ↔ p ∈ pool.poorq)
  rich : page ∈ pool'.richq ↔ rich
  poor : page ∈ pool'.poorq ↔ poor
  once : pool'.richq.Nodup ∧ pool'.poorq.Nodup

/-- A page comes to the end of a queue it is not on. -/
theorem nodup_enqtail {q : List Nat} {page : Nat} (h : q.Nodup) (hpage : page ∉ q) :
    (q ++ [page]).Nodup :=
  h.append (nodup_singleton page) (by simpa using hpage)

namespace PoolOk

variable {m : Machine} {k page : Nat} {pool : Pool}

theorem not_poorq (h : PoolOk m k pool) (hpage : page ∈ pool.richq) : page ∉ pool.poorq := by
  intro hpoor
  have hpos := ((h.richq page).mp hpage).2
  have hzero := ((h.poorq page).mp hpoor).2
  omega

/-- A bucket that has no free object left goes to `poorq`. -/
theorem queued_alloc (h : PoolOk m k pool) (hpage : page ∈ pool.richq) (n : Nat) :
    Queued pool (if n = 0 then
      { pool with richq := pool.richq.erase page, poorq := pool.poorq ++ [page] } else pool)
      page (0 < n) (n = 0) := by
  have hnot := h.not_poorq hpage
  split
  · next hn =>
    refine ⟨rfl, fun p hp => mem_erase_of_ne hp, fun p hp => by simp [hp], ?_, by simp [hn],
      h.richq_once.erase page, nodup_enqtail h.poorq_once hnot⟩
    simp [hn, h.richq_once.mem_erase_iff]
  · next hn =>
    exact ⟨rfl, fun _ _ => Iff.rfl, fun _ _ => Iff.rfl, iff_of_true hpage (Nat.pos_of_ne_zero hn),
      iff_of_false hnot hn, h.richq_once, h.poorq_once⟩

/-- A bucket that gets its first free object goes to `richq`. -/
theorem queued_free (h : PoolOk m k pool) (hpage : m.Has k page) :
    Queued pool (if (m.bucket page).ncurfree = 0 then
      { pool with poorq := pool.poorq.erase page, richq := pool.richq ++ [page] } else pool)
      page True False := by
  split
  · next hn =>
    have hnot : page ∉ pool.richq := by
      rw [h.richq page, hn]
      simp
    refine ⟨rfl, fun p hp => by simp [hp], fun p hp => mem_erase_of_ne hp, by simp, ?_,
      nodup_enqtail h.richq_once hnot, h.poorq_once.erase page⟩
    simp [h.poorq_once.mem_erase_iff]
  · next hn =>
    have hrich : page ∈ pool.richq := (h.richq page).mpr ⟨hpage, Nat.pos_of_ne_zero hn⟩
    exact ⟨rfl, fun _ _ => Iff.rfl, fun _ _ => Iff.rfl, by simp [hrich],
      by simp [h.not_poorq hrich], h.richq_once, h.poorq_once⟩

end PoolOk
variable {pool : Pool} {k page : Nat} {m : Machine}


/-- A bucket leaves `richq`. -/
theorem Queued.unlink {pool' : Pool} (h : Queued pool pool' page True False) :
    Queued pool { pool' with richq := pool'.richq.erase page } page False False where
  objsize := h.objsize
  richq := fun p hp => (mem_erase_of_ne hp).trans (h.richq p hp)
  poorq := h.poorq
  rich := by simp [h.once.1.mem_erase_iff]
  poor := h.poor
  once := ⟨h.once.1.erase page, h.once.2⟩

/-! ## Steps -/

/-- `refill`: the new page is at the end of `richq` and has no object in use. -/
theorem refill_inv (h : Inv m) (hused : Used m none)
    (hpool : m.pools k = some pool) (haligned : page % PAGESIZE = 0) (hne : page ≠ 0)
    (hnew : page ∉ m.pages) :
    ∃ m', m.refill k pool page = some m' ∧ Inv m' ∧ Used m' (some page) ∧ m'.out = m.out ∧
      m'.pools k = some { pool with richq := pool.richq ++ [page] } := by
  have hok := h.pools k pool hpool
  obtain ⟨mem, b, l, hinit, hs, hbpool, hsize, hcount, hchain, hperm, hframe⟩ :=
    init_spec m.mem k haligned hne hok.four_le hok.four_dvd hok.le_page
  have hlive : live m.out page = [] := by
    rw [eq_nil_iff_forall_not_mem]
    intro a ha
    obtain ⟨o, ho, hpage, -⟩ := mem_live.mp ha
    exact hnew (hpage ▸ (h.out o ho).1)
  have hnotrich : page ∉ pool.richq := fun hrich => hnew ((hok.richq page).mp hrich).1.1
  have hnotpoor : page ∉ pool.poorq := fun hpoor => hnew ((hok.poorq page).mp hpoor).1.1
  have hpos := hs.nmaxfree_pos
  have hl : Local m (m.put mem (page :: m.pages) m.out page b k
      { pool with richq := pool.richq ++ [page] }) k page pool
      { pool with richq := pool.richq ++ [page] } := by
    refine .put hpool rfl (fun p hp => by simp [hp]) (fun a ha => hframe a ?_)
      (fun p _ => .refl _) (fun p hp => by simp [hp]) (fun p _ => Iff.rfl)
      (fun hin => absurd hin hnew)
    rw [Ne, pagedown_eq_iff haligned] at ha
    omega
  refine ⟨_, by rw [Machine.refill, hinit]; rfl, hl.inv h ?_ ?_ ?_ ?_ ?_ h.out_once ?_, ?_,
    rfl, put_pools⟩
  · intro _
    rw [put_bucket, put_mem, put_out, hlive]
    exact ⟨⟨hs, l, hchain, by rwa [append_nil]⟩, hbpool, hsize⟩
  · simp [hcount, hpos]
  · simp [hcount, hnotpoor, Nat.ne_of_gt hpos]
  · refine ⟨List.Nodup.append hok.richq_once (nodup_singleton page) ?_, hok.poorq_once⟩
    simpa using hnotrich
  · intro o ho
    have hhas := h.out o ho
    exact (hl.has (fun heq => hnew (heq ▸ hhas.1))).mpr hhas
  · exact nodup_cons.mpr ⟨hnew, h.pages_once⟩
  · intro p hp hspare
    rcases mem_cons.mp hp with rfl | hp
    · exact absurd rfl hspare
    · exact hused p hp (by simp)

/-- `take`: an object of the first bucket on `richq`. -/
theorem take_inv (h : Inv m) (hpool : m.pools k = some pool) (hhead : pool.richq.head? = some page)
    (hused : Used m (some page)) (clear : Bool) :
    ∃ res m', m.take k clear = some (some res, m') ∧ Inv m' ∧ Used m' none ∧
      m'.out = ⟨k, res⟩ :: m.out := by
  have hok := h.pools k pool hpool
  have hmem : page ∈ pool.richq := mem_of_head? hhead
  obtain ⟨⟨hin, hmine⟩, hcount⟩ := (hok.richq page).mp hmem
  obtain ⟨hs, l, hchain, hperm⟩ := h.buckets page hin
  obtain ⟨res, l, rfl⟩ : ∃ res l', l = res :: l' :=
    exists_cons_of_length_pos (by rwa [hchain.length])
  obtain ⟨b, halloc, hsame, hb, hchain'⟩ := alloc_spec hchain
  have hslot := hchain.slots res mem_cons_self
  have hdown := hs.pagedown_eq hslot
  have hnodup := hs.nodup hperm
  have hfresh : res ∉ m.out.map Obj.addr := by
    intro hres
    obtain ⟨o, ho, haddr⟩ := mem_map.mp hres
    have hlive : res ∈ live m.out page := mem_live.mpr ⟨o, ho, by rw [haddr, hdown], haddr⟩
    exact (nodup_cons.mp hnodup).1 (mem_append_right l hlive)
  have hsize := h.objsize ⟨hin, hmine⟩ hpool
  -- `memset` writes to the object only
  obtain ⟨mem, hclear, hframe⟩ : ∃ mem, mem = (if clear then fill 0 (pool.objsize / 4) m.mem res
      else m.mem) ∧ ∀ a, a < res ∨ res + (m.bucket page).objsize ≤ a → mem a = m.mem a := by
    refine ⟨_, rfl, fun a ha => ?_⟩
    split
    · exact fill_frame 0 (by omega)
    · rfl
  have hq := hok.queued_alloc hmem b.ncurfree
  generalize hpool' : (if b.ncurfree = 0 then ({ pool with
    richq := pool.richq.erase page, poorq := pool.poorq ++ [page] } : Pool) else pool) = pool' at hq
  have hl : Local m (m.put mem m.pages (⟨k, res⟩ :: m.out) page b k pool') k page pool pool' := by
    refine .put hpool hq.objsize (fun _ _ => Iff.rfl) (fun a ha => hframe a ?_) (fun p hp => ?_)
      hq.richq hq.poorq (fun _ => hmine)
    · rw [Ne, pagedown_eq_iff hs.page_aligned] at ha
      have hinside := hs.inside hslot
      omega
    · rw [live_cons_ne (by rw [hdown]; exact hp.symm)]
  refine ⟨res, _, ?_, hl.inv h ?_ ?_ ?_ hq.once ?_ ?_ h.pages_once, ?_, rfl⟩
  · simp only [Machine.take, hpool, hhead, halloc, bind_eq_bind, bind_some,
      if_neg (Nat.ne_of_gt hcount), hpool', ← hclear]
    rfl
  · intro _
    rw [put_bucket, put_mem, put_out, live_cons_self (o := ⟨k, res⟩) hdown]
    have hperm' : (l ++ res :: live m.out page).Perm (b.slots page) := by
      rw [hsame.slots]
      exact perm_middle.trans hperm
    refine ⟨BucketOk.congr ⟨hs.of_same hsame, l, hchain', hperm'⟩ fun o ho hused a hle hlt => ?_,
      hsame.pool.trans hmine, ?_⟩
    · rw [hsame.slots] at ho
      rw [hsame.objsize] at hlt
      have hapart := slots_apart ho hslot (by rintro rfl; exact hused mem_cons_self)
      unfold Apart at hapart
      exact hframe a (by omega)
    · rw [hsame.objsize, hsize]
  · simp [hq.rich, hin]
  · simp [hq.poor, hin]
  · intro o ho
    rcases mem_cons.mp ho with rfl | ho
    · refine ⟨hdown.symm ▸ hin, ?_⟩
      rw [hdown, put_bucket, hsame.pool, hmine]
    · exact hl.keeps (h.out o ho) fun _ => ⟨hin, by rw [put_bucket, hsame.pool, hmine]⟩
  · exact nodup_cons.mpr ⟨hfresh, h.out_once⟩
  · intro p hp _
    by_cases hne : p = page
    · exact ⟨_, mem_cons_self, hdown.trans hne.symm⟩
    · obtain ⟨o, ho, hpage⟩ := hused p hp (by simpa using hne)
      exact ⟨o, mem_cons_of_mem _ ho, hpage⟩

/-- `pool_t::alloc`: without a page there is none for an empty `richq`. -/
theorem alloc_inv (h : Inv m) (hused : Used m none)
    (hpool : m.pools k = some pool) {page : Option Nat}
    (hpage : ∀ p, pool.richq = [] → page = some p → p % PAGESIZE = 0 ∧ p ≠ 0 ∧ p ∉ m.pages)
    (clear : Bool) :
    ∃ ret m', m.alloc k page clear = some (ret, m') ∧ Inv m' ∧ Used m' none ∧
      m'.out = ret.toList.map (Obj.mk k) ++ m.out := by
  simp only [Machine.alloc, hpool, bind_eq_bind, bind_some]
  split
  · next hempty =>
    match page with
    | none => exact ⟨none, m, rfl, h, hused, rfl⟩
    | some page =>
        obtain ⟨haligned, hne, hnew⟩ := hpage page hempty rfl
        obtain ⟨m₁, hrefill, h₁, hused₁, hout₁, hpool₁⟩ := refill_inv h hused hpool haligned hne hnew
        obtain ⟨res, m', htake, h', hused', hout⟩ :=
          take_inv h₁ hpool₁ (by rw [hempty]; rfl) hused₁ clear
        refine ⟨some res, m', ?_, h', hused', by rw [hout, hout₁]; rfl⟩
        simp only [if_pos (And.intro haligned (And.intro hne hnew)), hrefill, bind_some,
          htake]
  · next hsome =>
    obtain ⟨page, rest, hrichq⟩ := exists_cons_of_ne_nil hsome
    have hhead : pool.richq.head? = some page := by rw [hrichq, List.head?_cons]
    obtain ⟨res, m', htake, h', hused', hout⟩ :=
      take_inv h hpool hhead (fun p hp _ => hused p hp (by simp)) clear
    exact ⟨some res, m', htake, h', hused', hout⟩

/-- The other pages have their objects after a `free`. -/
theorem Used.erase (h : Used m none) {o : Obj} {p : Nat} (hp : p ∈ m.pages)
    (hne : p ≠ pagedown o.addr) : ∃ o' ∈ m.out.erase o, pagedown o'.addr = p := by
  obtain ⟨o', ho', hpage⟩ := h p hp (by simp)
  refine ⟨o', (mem_erase_of_ne ?_).mpr ho', hpage⟩
  rintro rfl
  exact hne hpage.symm

/-- `pool_t::free` of an object in use: its page goes with the last one. -/
theorem free_inv (h : Inv m) (hused : Used m none) {o : Obj} (ho : o ∈ m.out) :
    ∃ m', m.free o.pool o.addr = some m' ∧ Inv m' ∧ Used m' none ∧ m'.out = m.out.erase o := by
  obtain ⟨hs, hslot, pool, hpool, hsize⟩ := h.slot ho
  have hhas := h.out o ho
  generalize hpage : pagedown o.addr = page at *
  obtain ⟨hin, hmine⟩ := hhas
  obtain ⟨-, l, hchain, hperm⟩ := h.buckets page hin
  have hout : m.out.Perm (o :: m.out.erase o) := perm_cons_erase ho
  have hlive : (live m.out page).Perm (o.addr :: live (m.out.erase o) page) := by
    rw [← live_cons_self hpage]
    exact live_perm hout page
  have hnot : o.addr ∉ l := fun hl =>
    (nodup_append.mp (hs.nodup hperm)).2.2 o.addr hl o.addr
      (hlive.symm.subset mem_cons_self) rfl
  obtain ⟨mem, b, hfree, hsame, hcount, hchain', hframe⟩ := free_spec hchain hs hslot hnot
  have hperm' : (o.addr :: l ++ live (m.out.erase o) page).Perm (b.slots page) := by
    rw [hsame.slots]
    exact perm_middle.symm.trans ((hlive.symm.append_left l).trans hperm)
  have hok := h.pools o.pool pool hpool
  have hq := hok.queued_free ⟨hin, hmine⟩
  generalize hpool₁ : (if (m.bucket page).ncurfree = 0 then ({ pool with
    poorq := pool.poorq.erase page, richq := pool.richq ++ [page] } : Pool) else pool) = pool₁ at hq
  have hlocal : ∀ pages pool' rich, (∀ p, p ≠ page → (p ∈ pages ↔ p ∈ m.pages)) →
      Queued pool pool' page rich False →
      Local m (m.put mem pages (m.out.erase o) page b o.pool pool') o.pool page pool pool' := by
    intro pages pool' rich hpages hq
    refine .put hpool hq.objsize hpages (fun a ha => hframe a ?_) (fun p hp => ?_) hq.richq hq.poorq
      (fun _ => hmine)
    · rw [Ne, pagedown_eq_iff hs.page_aligned] at ha
      have hinside := hs.inside hslot
      omega
    · have hperm := live_perm hout p
      rw [live_cons_ne (by rw [hpage]; exact hp.symm)] at hperm
      exact hperm.symm
  have hkept : ∀ o', o' ∈ m.out.erase o → o' ∈ m.out := fun o' ho' => mem_of_mem_erase ho'
  have honce : ((m.out.erase o).map Obj.addr).Nodup :=
    h.out_once.sublist (erase_sublist.map _)
  have hlength := hperm'.length_eq
  rw [length_append, hchain'.length, Bucket.slots, slots_length] at hlength
  simp only [Machine.free, hpool, hpage, hpool₁, hfree, bind_eq_bind, bind_some]
  split
  · next hall =>
    -- the last object of the page
    have hnone : live (m.out.erase o) page = [] := length_eq_zero_iff.mp (by omega)
    have hl := hlocal (m.pages.erase page) _ _ (fun p hp => mem_erase_of_ne hp) hq.unlink
    have hgone : page ∉ m.pages.erase page := by simp [h.pages_once.mem_erase_iff]
    refine ⟨_, rfl, hl.inv h ?_ ?_ ?_ ?_ ?_ honce (h.pages_once.erase page), ?_, rfl⟩
    · intro hin'
      exact absurd hin' hgone
    · exact iff_of_false (fun hrich => hq.unlink.rich.mp hrich) fun hboth => hgone hboth.1
    · exact iff_of_false (fun hpoor => hq.unlink.poor.mp hpoor) fun hboth => hgone hboth.1
    · exact hq.unlink.once
    · intro o' ho'
      refine hl.keeps (h.out o' (hkept o' ho')) fun hpage' => ?_
      have hmem : o'.addr ∈ live (m.out.erase o) page := mem_live.mpr ⟨o', ho', hpage', rfl⟩
      rw [hnone] at hmem
      exact absurd hmem not_mem_nil
    · intro p hp _
      refine hused.erase (mem_of_mem_erase hp) ?_
      rintro rfl
      exact hgone (hpage ▸ hp)
  · next hsome =>
    have hl := hlocal m.pages _ _ (fun p hp => Iff.rfl) hq
    have hbucket : b.pool = o.pool := hsame.pool.trans hmine
    refine ⟨_, rfl, hl.inv h ?_ ?_ ?_ hq.once ?_ honce h.pages_once, ?_, rfl⟩
    · intro _
      rw [put_bucket]
      exact ⟨⟨hs.of_same hsame, _, hchain', hperm'⟩, hbucket, by rw [hsame.objsize, hsize]⟩
    · exact iff_of_true (hq.rich.mpr trivial) ⟨hin, by rw [put_bucket, hcount]; omega⟩
    · exact iff_of_false (fun hpoor => hq.poor.mp hpoor) fun hboth => by
        rw [put_bucket, hcount] at hboth
        exact Nat.succ_ne_zero _ hboth.2
    · intro o' ho'
      exact hl.keeps (h.out o' (hkept o' ho')) fun _ => ⟨hin, by rw [put_bucket, hbucket]⟩
    · intro p hp _
      by_cases hne : p = page
      · -- not all of the slots are free
        have hpos : 0 < (live (m.out.erase o) page).length := by
          omega
        obtain ⟨a, ha⟩ := exists_mem_of_length_pos hpos
        obtain ⟨o', ho', hpage', -⟩ := mem_live.mp ha
        exact ⟨o', ho', hpage'.trans hne.symm⟩
      · exact hused.erase hp (hpage.symm ▸ hne)

/-! ## Runs -/

/-- An address in use lies in an object of its page. -/
theorem Inv.inUse (h : Inv m) {a : Nat} (ha : m.inUse a = true) :
    ∃ o ∈ m.out, pagedown o.addr = pagedown a ∧ o.addr ≤ a ∧
      a < o.addr + (m.bucket (pagedown a)).objsize := by
  simp only [Machine.inUse, any_eq_true, Bool.and_eq_true, decide_eq_true_eq] at ha
  obtain ⟨o, ho, hle, hlt⟩ := ha
  obtain ⟨hs, hslot, -⟩ := h.slot ho
  obtain ⟨hstart, hend⟩ := hs.inside hslot
  have hdown : pagedown a = pagedown o.addr :=
    (pagedown_eq_iff hs.page_aligned).mpr (by unfold sizeofBucket at hstart; omega)
  refine ⟨o, ho, hdown.symm, hle, ?_⟩
  rw [hdown]
  exact hlt

/-- A write to an object in use, or outside the pages, is none of the pools'. -/
theorem poke_inv (h : Inv m) {a : Nat} (ha : m.inUse a ∨ pagedown a ∉ m.pages)
    (v : Nat) : Inv { m with mem := store m.mem a v } where
  buckets := by
    intro page hpage
    have hok := h.buckets page hpage
    refine hok.congr fun o ho hfree b hle hlt => if_neg ?_
    rintro rfl
    have hdown : pagedown b = page := by
      obtain ⟨hstart, hend⟩ := hok.shape.inside ho
      exact (pagedown_eq_iff hok.shape.page_aligned).mpr
        (by unfold sizeofBucket at hstart; omega)
    rcases ha with huse | hout
    · obtain ⟨o', ho', hpage', hle', hlt'⟩ := h.inUse huse
      have hslot' := (h.slot ho').2.1
      rw [hdown] at hpage' hlt'
      rw [hpage'] at hslot'
      have hne : o ≠ o'.addr := by
        rintro rfl
        exact hfree (mem_live.mpr ⟨o', ho', hpage', rfl⟩)
      have hapart := slots_apart ho hslot' hne
      unfold Apart at hapart
      omega
    · exact hout (hdown ▸ hpage)
  owner := h.owner
  pools := fun k pool hpool =>
    let hok := h.pools k pool hpool
    ⟨hok.four_le, hok.four_dvd, hok.le_page, hok.richq, hok.poorq, hok.richq_once, hok.poorq_once⟩
  out := h.out
  out_once := h.out_once
  pages_once := h.pages_once

/-- A new pool has no buckets. -/
theorem newPool_inv (h : Inv m) {objsize : Nat} (hk : m.pools k = none)
    (hfour : 4 ≤ (Pool.new objsize).objsize)
    (hle : (Pool.new objsize).objsize ≤ PAGESIZE - sizeofBucket) :
    Inv (m.setPool k (Pool.new objsize)) where
  buckets := h.buckets
  owner := by
    intro page hpage
    obtain ⟨pool, hpool, hsize⟩ := h.owner page hpage
    refine ⟨pool, ?_, hsize⟩
    have hne : (m.bucket page).pool ≠ k := by
      rintro rfl
      rw [hk] at hpool
      cases hpool
    exact (if_neg hne).trans hpool
  pools := by
    intro i pool hpool
    by_cases hi : i = k
    · subst hi
      obtain rfl : Pool.new objsize = pool := some.inj ((if_pos rfl).symm.trans hpool)
      have hnone : ∀ page, ¬ (m.setPool i (Pool.new objsize)).Has i page := by
        intro page hhas
        obtain ⟨pool, hpool, -⟩ := h.owner page hhas.1
        rw [show (m.bucket page).pool = i from hhas.2, hk] at hpool
        cases hpool
      exact ⟨hfour, by simp [Pool.new], hle,
        fun page => iff_of_false not_mem_nil fun hboth => hnone page hboth.1,
        fun page => iff_of_false not_mem_nil fun hboth => hnone page hboth.1, nodup_nil, nodup_nil⟩
    · have hok := h.pools i pool ((if_neg hi).symm.trans hpool)
      exact ⟨hok.four_le, hok.four_dvd, hok.le_page, hok.richq, hok.poorq, hok.richq_once,
        hok.poorq_once⟩
  out := h.out
  out_once := h.out_once
  pages_once := h.pages_once

/-- What holds between the calls. -/
def Good (m : Machine) : Prop := Inv m ∧ Used m none

theorem alloc_good {m' : Machine} (h : Good m) {page ret : Option Nat} {clear : Bool}
    (hm : m.alloc k page clear = some (ret, m')) : Good m' := by
  obtain ⟨pool, hpool⟩ : ∃ pool, m.pools k = some pool := by
    cases hk : m.pools k with
    | none => simp [Machine.alloc, hk] at hm
    | some pool => exact ⟨pool, rfl⟩
  have hpage : ∀ p, pool.richq = [] → page = some p →
      p % PAGESIZE = 0 ∧ p ≠ 0 ∧ p ∉ m.pages := by
    rintro p hempty rfl
    by_contra hnot
    simp [Machine.alloc, hpool, hempty, hnot] at hm
  obtain ⟨ret', m₁, halloc, hinv, hused, -⟩ := alloc_inv h.1 h.2 hpool hpage clear
  rw [hm, some.injEq, Prod.mk.injEq] at halloc
  exact halloc.2 ▸ ⟨hinv, hused⟩

theorem step_good {m' : Machine} {e : Event} (h : Good m) (hm : step m e = some m') : Good m' := by
  cases e with
  | newPool k objsize =>
      simp only [step] at hm
      split at hm
      · next hnew =>
        cases hm
        exact ⟨newPool_inv h.1 hnew.1 hnew.2.1 hnew.2.2, h.2⟩
      · cases hm
  | alloc k page clear =>
      obtain ⟨⟨ret, m₁⟩, halloc, rfl⟩ := map_eq_some_iff.mp hm
      exact alloc_good h halloc
  | free o =>
      simp only [step] at hm
      split at hm
      · next ho =>
        obtain ⟨m₁, hfree, hinv, hused, -⟩ := free_inv h.1 h.2 ho
        rw [hm, some.injEq] at hfree
        exact hfree ▸ ⟨hinv, hused⟩
      · cases hm
  | allockm size page clear =>
      obtain ⟨⟨ret, m₁⟩, halloc, rfl⟩ := map_eq_some_iff.mp hm
      unfold Machine.allockm at halloc
      split at halloc
      · exact alloc_good h halloc
      · cases halloc
  | freekm p =>
      simp only [step] at hm
      split at hm
      · next hp =>
        obtain ⟨o, ho, rfl⟩ := mem_map.mp hp
        unfold Machine.freekm at hm
        split at hm
        · cases hm
        · rw [(h.1.out o ho).2] at hm
          obtain ⟨m₁, hfree, hinv, hused, -⟩ := free_inv h.1 h.2 ho
          rw [hm, some.injEq] at hfree
          exact hfree ▸ ⟨hinv, hused⟩
      · cases hm
  | poke a v =>
      simp only [step] at hm
      split at hm
      · next ha =>
        cases hm
        exact ⟨poke_inv h.1 ha v, h.2⟩
      · cases hm

/-- The pools of `kmpools` before the first call. -/
theorem allockminit_good (mem : Mem) (bucket : Nat → Bucket) : Good (allockminit mem bucket) := by
  have hsizes : ∀ size ∈ kmpools, 4 ≤ (Pool.new size).objsize ∧
      (Pool.new size).objsize ≤ PAGESIZE - sizeofBucket := by decide
  refine ⟨⟨by simp [allockminit], by simp [allockminit], ?_, by simp [allockminit],
    nodup_nil, nodup_nil⟩, by simp [Used, allockminit]⟩
  intro k pool hpool
  obtain ⟨size, hsize, rfl⟩ := map_eq_some_iff.mp hpool
  obtain ⟨hfour, hle⟩ := hsizes size (mem_of_getElem? hsize)
  have hnone : ∀ page, ¬ (allockminit mem bucket).Has k page := fun page hhas =>
    not_mem_nil hhas.1
  exact ⟨hfour, by simp [Pool.new], hle,
    fun page => iff_of_false not_mem_nil fun hboth => hnone page hboth.1,
    fun page => iff_of_false not_mem_nil fun hboth => hnone page hboth.1, nodup_nil,
    nodup_nil⟩

end Unixlite.Mm.Allockm
