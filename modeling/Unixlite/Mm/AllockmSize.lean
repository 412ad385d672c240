import Unixlite.Mm.AllockmRun

/-!
# Objects by size

`allockm` takes the first entry of `kmpools` whose size is not below the one
asked for.  The loop is to stop at an entry without a name, but the name is an
array in the entry and never null, so only the sizes up to the largest class
are served (`allockm_served_iff`).  `newpkt` adds the lengths it is given,
which for a raw socket is what the program passes to `sendto`.
-/

namespace Unixlite.Mm.Allockm

open Unixlite.Verified.Run
open Machine
open Option

/-! ## The search -/

/-- Entry `k` of the table is the smallest class that is large enough. -/
structure Smallest (size : Int) (k ksize : Nat) : Prop where
  entry : kmpools[k]? = some ksize
  enough : size ≤ ksize
  least : ∀ s ∈ kmpools, size ≤ (s : Int) → ksize ≤ s

theorem kmpools_sorted : kmpools.Pairwise (· < ·) := by decide

/-- The entries past the initialiser have size 0. -/
theorem kmsizes_get (k : Nat) (h : k < kmsizes.length) :
    (∃ ksize, kmpools[k]? = some ksize ∧ kmsizes[k] = ksize) ∨ kmsizes[k] = 0 := by
  by_cases hk : k < kmpools.length
  · left
    refine ⟨kmpools[k], List.getElem?_eq_getElem hk, ?_⟩
    simp only [kmsizes]
    rw [List.getElem_append_left (by simpa using hk), List.getElem_map]
    rfl
  · right
    simp only [kmsizes]
    rw [List.getElem_append_right (by simpa using hk), List.getElem_replicate]

/-- The first entry that is large enough is the smallest such class: the sizes
ascend. -/
theorem find_smallest {size : Int} (hpos : 0 < size) {k : Nat}
    (h : (kmsizes.findIdx? fun ksize => size ≤ ksize) = some k) :
    ∃ ksize, Smallest size k ksize := by
  obtain ⟨hk, hle, hfirst⟩ := List.findIdx?_eq_some_iff_getElem.mp h
  rw [decide_eq_true_eq] at hle
  rcases kmsizes_get k hk with ⟨ksize, hentry, hsize⟩ | hzero
  · refine ⟨ksize, hentry, hsize ▸ hle, fun s hs hle' => ?_⟩
    obtain ⟨hklt, rfl⟩ := List.getElem?_eq_some_iff.mp hentry
    obtain ⟨j, hj, rfl⟩ := List.getElem_of_mem hs
    rcases Nat.lt_trichotomy j k with hlt | rfl | hlt
    · -- an entry before the one found is too small
      have hbefore := hfirst j hlt
      have hjtable : j < kmsizes.length := by omega
      have hjsize : kmsizes[j] = (kmpools[j] : Int) := by
        simp only [kmsizes]
        rw [List.getElem_append_left (by simpa using hj), List.getElem_map]
        rfl
      rw [decide_eq_true_eq, hjsize] at hbefore
      exact absurd hle' hbefore
    · exact Nat.le_refl _
    · exact Nat.le_of_lt (List.pairwise_iff_getElem.mp kmpools_sorted k j hklt hj hlt)
  · omega

/-- The loop finds an entry exactly for the sizes up to the largest class. -/
theorem find_isSome_iff (size : Int) :
    (kmsizes.findIdx? fun ksize => size ≤ ksize).isSome = true ↔ size ≤ 4000 := by
  have hall : ∀ s ∈ kmsizes, s ≤ 4000 := by decide
  have hmem : (4000 : Int) ∈ kmsizes := by decide
  rw [List.findIdx?_isSome, List.any_eq_true]
  constructor
  · rintro ⟨s, hs, hle⟩
    exact Int.le_trans (of_decide_eq_true hle) (hall s hs)
  · exact fun hle => ⟨4000, hmem, decide_eq_true hle⟩

/-! ## The pools keep their sizes -/

/-- The size of the objects of each pool. -/
def Machine.objsizes (m : Machine) (k : Nat) : Option Nat := (m.pools k).map Pool.objsize

/-- The ten pools of `kmpools` have the sizes of the table. -/
def Machine.Sized (m : Machine) : Prop :=
  ∀ k ksize, kmpools[k]? = some ksize → m.objsizes k = some ksize

section Sizes

variable {m m' : Machine} {k : Nat}

theorem objsizes_setPool {pool pool' : Pool} (hpool : m.pools k = some pool)
    (hsize : pool'.objsize = pool.objsize) : (m.setPool k pool').objsizes = m.objsizes := by
  funext i
  show Option.map Pool.objsize (if i = k then some pool' else m.pools i) = _
  by_cases hi : i = k
  · rw [if_pos hi, objsizes, hi, hpool]
    exact congrArg some hsize
  · rw [if_neg hi]
    rfl

theorem objsizes_refill {pool : Pool} {page : Nat} (hpool : m.pools k = some pool)
    (h : m.refill k pool page = some m') : m'.objsizes = m.objsizes := by
  obtain ⟨⟨mem, b⟩, -, h⟩ := bind_eq_some_iff.mp h
  cases h
  exact objsizes_setPool (m := setBucket _ page b) hpool rfl

theorem objsizes_take {clear : Bool} {ret : Option Nat} (h : m.take k clear = some (ret, m')) :
    m'.objsizes = m.objsizes := by
  obtain ⟨pool, hpool, h⟩ := bind_eq_some_iff.mp h
  obtain ⟨page, -, h⟩ := bind_eq_some_iff.mp h
  split at h
  · cases h
  · obtain ⟨⟨r, b⟩, -, h⟩ := bind_eq_some_iff.mp h
    obtain ⟨res, -, h⟩ := bind_eq_some_iff.mp h
    cases h
    refine objsizes_setPool (m := setBucket _ page b) hpool ?_
    split <;> rfl

theorem objsizes_alloc {page ret : Option Nat} {clear : Bool}
    (h : m.alloc k page clear = some (ret, m')) : m'.objsizes = m.objsizes := by
  obtain ⟨pool, hpool, h⟩ := bind_eq_some_iff.mp h
  split at h
  · split at h
    · cases h
      rfl
    · split at h
      · obtain ⟨m₁, hrefill, h⟩ := bind_eq_some_iff.mp h
        exact (objsizes_take h).trans (objsizes_refill hpool hrefill)
      · cases h
  · exact objsizes_take h

theorem objsizes_free {p : Nat} (h : m.free k p = some m') : m'.objsizes = m.objsizes := by
  simp only [free, bind_eq_bind] at h
  obtain ⟨pool, hpool, h⟩ := bind_eq_some_iff.mp h
  obtain ⟨⟨mem, b⟩, -, h⟩ := bind_eq_some_iff.mp h
  have hmoved : (if (m.bucket (pagedown p)).ncurfree = 0 then
      ({ pool with
        poorq := pool.poorq.erase (pagedown p), richq := pool.richq ++ [pagedown p] } : Pool)
      else pool).objsize = pool.objsize := by
    split <;> rfl
  split at h
  · cases h
    exact objsizes_setPool (m := setBucket _ (pagedown p) b) hpool hmoved
  · cases h
    exact objsizes_setPool (m := setBucket _ (pagedown p) b) hpool hmoved

/-- A pool keeps its size through every event. -/
theorem sized_step {e : Event} (hm : m.Sized) (h : step m e = some m') : m'.Sized := by
  have hkeep : ∀ {m₁ : Machine}, m₁.objsizes = m.objsizes → m₁.Sized := by
    intro m₁ heq k ksize hk
    rw [heq]
    exact hm k ksize hk
  cases e with
  | newPool j objsize =>
      simp only [step] at h
      split at h
      · next hnew =>
        cases h
        intro k ksize hk
        have hold := hm k ksize hk
        have hne : k ≠ j := by
          rintro rfl
          simp [objsizes, hnew.1] at hold
        show Option.map Pool.objsize (if k = j then _ else m.pools k) = some ksize
        rw [if_neg hne]
        exact hold
      · cases h
  | alloc k page clear =>
      obtain ⟨⟨ret, m₁⟩, halloc, rfl⟩ := map_eq_some_iff.mp h
      exact hkeep (objsizes_alloc halloc)
  | free o =>
      simp only [step] at h
      split at h
      · exact hkeep (objsizes_free h)
      · cases h
  | allockm size page clear =>
      obtain ⟨⟨ret, m₁⟩, halloc, rfl⟩ := map_eq_some_iff.mp h
      unfold allockm at halloc
      split at halloc
      · exact hkeep (objsizes_alloc halloc)
      · cases halloc
  | freekm p =>
      simp only [step, freekm] at h
      split at h
      · split at h
        · cases h
        · exact hkeep (objsizes_free h)
      · cases h
  | poke a v =>
      simp only [step] at h
      split at h
      · cases h
        exact hkeep rfl
      · cases h

end Sizes

theorem allockminit_sized (mem : Mem) (bucket : Nat → Bucket) : (allockminit mem bucket).Sized := by
  have hround : ∀ ksize ∈ kmpools, (Pool.new ksize).objsize = ksize := by decide
  intro k ksize hk
  simp only [objsizes, allockminit, hk, map_some, some.injEq]
  exact hround ksize (List.mem_of_getElem? hk)

/-- What holds in every state of the allocator. -/
theorem good_sized_exec {mem : Mem} {bucket : Nat → Bucket} {es : List Event} {m : Machine}
    (h : exec step (allockminit mem bucket) es = some m) : Good m ∧ m.Sized := by
  have hrun : Always step (fun m => Good m ∧ m.Sized) (allockminit mem bucket) es :=
    always_of_step (fun _ _ _ hm hs => ⟨step_good hm.1 hs, sized_step hm.2 hs⟩) es
      ⟨allockminit_good mem bucket, allockminit_sized mem bucket⟩
  exact (always_iff_exec _ _).mp hrun es [] m (List.append_nil es).symm h

/-! ## Allocation by size -/

/-- What `allocpage` may return: nothing, or a page that is not in use. -/
def Machine.Spare (m : Machine) (page : Option Nat) : Prop :=
  ∀ p, page = some p → p % PAGESIZE = 0 ∧ p ≠ 0 ∧ p ∉ m.pages

/-- `allockm` returns NULL, or an object of the smallest class that is large
enough; above the largest class it returns NULL. -/
def Machine.Served (m : Machine) (size : Int) (page : Option Nat) (clear : Bool) : Prop :=
  ∃ ret m', m.allockm size page clear = some (ret, m') ∧
    ((∀ ksize ∈ kmpools, (ksize : Int) < size) → ret = none) ∧
    ∀ o, ret = some o → ∃ k ksize, Smallest size k ksize ∧ ⟨k, o⟩ ∈ m'.out ∧
      (m'.bucket (pagedown o)).pool = k ∧ (m'.bucket (pagedown o)).objsize = ksize

/-- `freekm` of an object that is out gives it back to the pool it is from. -/
def Machine.GivesBack (m : Machine) (o : Obj) : Prop :=
  ∃ m', m.freekm o.addr = some m' ∧ m.free o.pool o.addr = some m' ∧ m'.out = m.out.erase o

section Served

variable {m : Machine} (hgood : Good m) (hsized : m.Sized)
include hgood

theorem freekm_givesBack {o : Obj} (ho : o ∈ m.out) : m.GivesBack o := by
  obtain ⟨m', hfree, -, -, hout⟩ := free_inv hgood.1 hgood.2 ho
  refine ⟨m', ?_, hfree, hout⟩
  have hne : o.addr ≠ 0 := by
    obtain ⟨hs, hslot, -⟩ := hgood.1.slot ho
    exact hs.ne_zero hslot
  rw [freekm, if_neg hne, (hgood.1.out o ho).2]
  exact hfree

include hsized

/-- **`allockm` by size**: it does what it should exactly up to the largest class. -/
theorem served_iff {size : Int} (hpos : 0 < size) {page : Option Nat} (hpage : m.Spare page)
    (clear : Bool) : m.Served size page clear ↔ size ≤ 4000 := by
  rw [← find_isSome_iff]
  constructor
  · rintro ⟨ret, m', halloc, -⟩
    unfold allockm at halloc
    split at halloc
    · next k hk => rw [hk]; rfl
    · cases halloc
  · intro hsome
    obtain ⟨k, hk⟩ := isSome_iff_exists.mp hsome
    obtain ⟨ksize, hsmall⟩ := find_smallest hpos hk
    have hobj := hsized k ksize hsmall.entry
    obtain ⟨pool, hpool, hsize⟩ := map_eq_some_iff.mp hobj
    obtain ⟨ret, m', halloc, hinv, hused, hout⟩ :=
      alloc_inv hgood.1 hgood.2 hpool (fun p _ hp => hpage p hp) clear
    refine ⟨ret, m', ?_, ?_, ?_⟩
    · rw [allockm, hk]
      exact halloc
    · intro hlarge
      have := hlarge ksize (List.mem_of_getElem? hsmall.entry)
      exact absurd hsmall.enough (by omega)
    · rintro o rfl
      have ho : (⟨k, o⟩ : Obj) ∈ m'.out := by
        rw [hout]
        exact List.mem_cons_self
      refine ⟨k, ksize, hsmall, ho, (hinv.out _ ho).2, ?_⟩
      obtain ⟨-, -, pool', hpool', hsize'⟩ := hinv.slot ho
      have hkeep := congrFun (objsizes_alloc halloc) k
      rw [hobj, objsizes, hpool', map_some, some.injEq] at hkeep
      exact hsize'.symm.trans hkeep

end Served

/-- **Objects by size**, in every state that the allocator reaches: `allockm`
serves exactly the sizes up to the largest class, and `freekm` gives every object
back to its pool. -/
theorem allockm_served_iff (mem : Mem) (bucket : Nat → Bucket) (es : List Event) (m : Machine)
    (hrun : exec step (allockminit mem bucket) es = some m) (size : Int) (hpos : 0 < size)
    (page : Option Nat) (hpage : m.Spare page) (clear : Bool) :
    (m.Served size page clear ∧ ∀ o ∈ m.out, m.GivesBack o) ↔ size ≤ 4000 := by
  obtain ⟨hgood, hsized⟩ := good_sized_exec hrun
  rw [served_iff hgood hsized hpos hpage clear]
  exact ⟨fun h => h.1, fun h => ⟨h, fun o ho => freekm_givesBack hgood ho⟩⟩

/-- The allocator as `allockminit` leaves it, in memory that is all zero. -/
def freshkm : Machine := allockminit (fun _ => 0) fun _ => ⟨0, 0, 0, 0, 0⟩

theorem allockm_served_iff_fresh :
    (freshkm.Served 100 none false ∧ ∀ o ∈ freshkm.out, freshkm.GivesBack o) ↔ (100 : Int) ≤ 4000 :=
  allockm_served_iff (fun _ => 0) (fun _ => ⟨0, 0, 0, 0, 0⟩) [] freshkm rfl 100 (by decide) none
    (fun _ hp => nomatch hp) false

/-! ## Packets -/

/-- `sizeof(pkb_t)`. -/
def sizeofPkb : Nat := 4

/-- The `int` that `newpkt` passes to `allockm`. -/
def newpktsize (headlen datalen taillen : Nat) : Int :=
  Int.bmod (sizeofPkb + (headlen + datalen + taillen) : Nat) 0x100000000

/-- `LINKIPHLEN`, the room for the headers in front of the data of `sendto`. -/
def linkiphlen : Nat := 36

/-- A packet for one `sendto` on a raw socket: `allockm` returns, and what it
returns has room for the headers and the data. -/
def Machine.Packs (m : Machine) (buflen : Nat) (page : Option Nat) (clear : Bool) : Prop :=
  ∃ ret m', m.allockm (newpktsize linkiphlen buflen 0) page clear = some (ret, m') ∧
    ∀ o, ret = some o → sizeofPkb + linkiphlen + buflen ≤ (m'.bucket (pagedown o)).objsize

section Packs

variable {m m' : Machine} {k ksize page : Nat} {clear : Bool} {ret : Option Nat}

/-- A size that is not positive comes to the first entry of the table. -/
theorem allockm_entry {size : Int} {page : Option Nat}
    (h : m.allockm size page clear = some (ret, m')) :
    ∃ k ksize, kmpools[k]? = some ksize ∧ m.alloc k page clear = some (ret, m') := by
  unfold allockm at h
  split at h
  · next k hk =>
    by_cases hpos : 0 < size
    · obtain ⟨ksize, hsmall⟩ := find_smallest hpos hk
      exact ⟨k, ksize, hsmall.entry, h⟩
    · obtain ⟨hlt, -, hfirst⟩ := List.findIdx?_eq_some_iff_getElem.mp hk
      have hzero : k = 0 := by
        by_contra hne
        have hbig : ¬decide (size ≤ 16) = true := hfirst 0 (Nat.pos_of_ne_zero hne)
        rw [decide_eq_true_eq] at hbig
        omega
      exact ⟨k, 16, hzero ▸ rfl, h⟩
  · cases h

theorem take_some (h : m.take k clear = some (ret, m')) : ∃ o, ret = some o := by
  obtain ⟨pool, -, h⟩ := bind_eq_some_iff.mp h
  obtain ⟨head, -, h⟩ := bind_eq_some_iff.mp h
  split at h
  · cases h
  · obtain ⟨⟨r, b⟩, -, h⟩ := bind_eq_some_iff.mp h
    obtain ⟨res, -, h⟩ := bind_eq_some_iff.mp h
    cases h
    exact ⟨res, rfl⟩

/-- With a page to take there is an object. -/
theorem alloc_some (h : m.alloc k (some page) clear = some (ret, m')) : ∃ o, ret = some o := by
  obtain ⟨pool, -, h⟩ := bind_eq_some_iff.mp h
  split at h
  · dsimp only at h
    split at h
    · obtain ⟨m₁, -, h⟩ := bind_eq_some_iff.mp h
      exact take_some h
    · cases h
  · exact take_some h

theorem alloc_objsize (hgood : Good m) (hsized : m.Sized) (hpage : m.Spare (some page))
    (hk : kmpools[k]? = some ksize) {o : Nat}
    (h : m.alloc k (some page) clear = some (some o, m')) :
    (m'.bucket (pagedown o)).objsize = ksize := by
  obtain ⟨pool, hpool, hsize⟩ := map_eq_some_iff.mp (hsized k ksize hk)
  obtain ⟨ret, m₁, halloc, hinv, -, hout⟩ :=
    alloc_inv hgood.1 hgood.2 hpool (fun p _ hp => hpage p hp) clear
  rw [h] at halloc
  cases halloc
  have ho : (⟨k, o⟩ : Obj) ∈ m'.out := hout ▸ List.mem_cons_self
  obtain ⟨-, -, pool', hpool', hsize'⟩ := hinv.slot ho
  have hkeep := congrFun (objsizes_alloc h) k
  rw [objsizes, hpool', objsizes, hpool, map_some, map_some, some.injEq] at hkeep
  exact hsize'.symm.trans (hkeep.trans hsize)

end Packs

/-- **The data of one `sendto`** on a raw socket: while there is memory it gets a
packet that holds it up to 3960 bytes and no further.  From 3961 on the search
leaves the table, and from `2 ^ 31 - 40` on the `int` wraps and the packet is small. -/
theorem sendto_served_iff {mem : Mem} {bucket : Nat → Bucket} {es : List Event} {m : Machine}
    (hrun : exec step (allockminit mem bucket) es = some m) (buflen : Nat) {page : Nat}
    (hpage : m.Spare (some page)) (clear : Bool) :
    m.Packs buflen (some page) clear ↔ buflen ≤ 3960 := by
  obtain ⟨hgood, hsized⟩ := good_sized_exec hrun
  constructor
  · rintro ⟨ret, m', halloc, hroom⟩
    obtain ⟨k, ksize, hentry, halloc⟩ := allockm_entry halloc
    obtain ⟨o, rfl⟩ := alloc_some halloc
    have hle := hroom o rfl
    have htable : ∀ s ∈ kmpools, s ≤ 4000 := by decide
    have hmax := htable ksize (List.mem_of_getElem? hentry)
    rw [alloc_objsize hgood hsized hpage hentry halloc] at hle
    simp only [sizeofPkb, linkiphlen] at hle
    omega
  · intro hlen
    have hsum : ((sizeofPkb + (linkiphlen + buflen + 0) : Nat) : Int) = buflen + 40 := by
      simp only [sizeofPkb, linkiphlen]
      omega
    have hsize : newpktsize linkiphlen buflen 0 = buflen + 40 := by
      unfold newpktsize
      simp only [hsum]
      exact Int.bmod_eq_of_le_mul_two (by omega) (by omega)
    have hpos : 0 < newpktsize linkiphlen buflen 0 := by omega
    obtain ⟨ret, m', halloc, -, hobj⟩ := (served_iff hgood hsized hpos hpage clear).mpr (by omega)
    refine ⟨ret, m', halloc, fun o ho => ?_⟩
    obtain ⟨k, ksize, hsmall, -, -, hksize⟩ := hobj o ho
    have henough := hsmall.enough
    rw [hksize]
    simp only [sizeofPkb, linkiphlen]
    omega

theorem sendto_served_iff_fresh : freshkm.Packs 100 (some 4096) false ↔ 100 ≤ 3960 :=
  @sendto_served_iff _ _ [] freshkm rfl 100 4096 (by rintro p ⟨⟩; decide) false

/-- 4000 bytes of data: the search runs past the table, and nothing is returned. -/
theorem sendto_past_table : ¬ freshkm.Served (newpktsize linkiphlen 4000 0) none false := by
  rintro ⟨ret, m', halloc, -⟩
  cases halloc

end Unixlite.Mm.Allockm
