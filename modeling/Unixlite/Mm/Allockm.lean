import Unixlite.Mm.Seg
import Unixlite.Verified.LinkedList
import Unixlite.Verified.Slots

/-!
# Object pools

Port of `mm/allockm.cc`.  The longs of all objects are in one memory, by their
address; a free object has the pointer to the next one in its first long.  A
bucket is the header of its page, a queue the list of its pages.  A failed
assertion and a panic are `none`.
-/

namespace Unixlite.Mm.Allockm

open Unixlite.Verified.LinkedList Unixlite.Verified.Slots

/-! ## Objects -/

/-- The long at each address that is a multiple of 4. -/
abbrev Mem := Nat → Nat

def FREEOBJMAGIC : Nat := 0xdeaddead

/-- `sizeof(bucket_t)`. -/
def sizeofBucket : Nat := 24

/-- A pointer; `NULL` is 0. -/
def ptr (a : Nat) : Option Nat := if a = 0 then none else some a

/-- `o->next`. -/
def next (mem : Mem) (o : Nat) : Option Nat := ptr (mem o)

def store (mem : Mem) (a v : Nat) : Mem := fun b => if b = a then v else mem b

/-- `n` longs from `p` on become `v`. -/
def fill (v : Nat) : Nat → Mem → Nat → Mem
  | 0, mem, _ => mem
  | n + 1, mem, p => fill v n (store mem p v) (p + 4)

/-- `n` longs from `p` on are `v`. -/
def filled (v : Nat) : Nat → Mem → Nat → Bool
  | 0, _, _ => true
  | n + 1, mem, p => mem p == v && filled v n mem (p + 4)

def markmagic (mem : Mem) (o objsize : Nat) : Mem :=
  fill FREEOBJMAGIC ((objsize - 4) / 4) mem (o + 4)

def checkmagic (mem : Mem) (o objsize : Nat) : Bool :=
  filled FREEOBJMAGIC ((objsize - 4) / 4) mem (o + 4)

/-! ## Buckets -/

/-- The header of a page; the two counts fit a `short`. -/
structure Bucket where
  pool : Nat
  objsize : Nat
  freeobj : Nat
  ncurfree : Nat
  nmaxfree : Nat

/-- `objs`, of the bucket at `page`. -/
def objs (page : Nat) : Nat := page + sizeofBucket

namespace Bucket

def alloc (b : Bucket) (mem : Mem) : Option (Option Nat × Bucket) :=
  if b.ncurfree = 0 then some (none, b)
  else do
    let ret ← ptr b.freeobj
    if checkmagic mem ret b.objsize then
      return (some ret, { b with ncurfree := b.ncurfree - 1, freeobj := mem ret })
    else none

/-- `check` does not panic.  A chain of more objects than there are bytes in a
page has a cycle. -/
def check (b : Bucket) (mem : Mem) (page o : Nat) : Bool :=
  wrap (o + 2 ^ 32 - objs page) % b.objsize == 0 &&
    match follow (next mem) PAGESIZE (ptr b.freeobj) with
    | some chain => !chain.contains o
    | none => false

def free (b : Bucket) (mem : Mem) (page o : Nat) : Option (Mem × Bucket) :=
  if b.check mem page o then
    some (markmagic (store mem o b.freeobj) o b.objsize,
      { b with ncurfree := b.ncurfree + 1, freeobj := o })
  else none

/-- The loop of `init`: the first `n` objects of the page. -/
def freeObjs (b : Bucket) (mem : Mem) (page : Nat) : Nat → Option (Mem × Bucket)
  | 0 => some (mem, b)
  | n + 1 => do
    let (mem, b) ← freeObjs b mem page n
    b.free mem page (objs page + n * b.objsize)

def init (mem : Mem) (page pool objsize : Nat) : Option (Mem × Bucket) :=
  let nmaxfree := (PAGESIZE - sizeofBucket) / objsize
  freeObjs ⟨pool, objsize, 0, 0, nmaxfree⟩ mem page nmaxfree

end Bucket

/-! ## Pools -/

structure Pool where
  objsize : Nat
  richq : List Nat
  poorq : List Nat

/-- `pool_t::pool_t`. -/
def Pool.new (objsize : Nat) : Pool where
  objsize := (objsize + 3) / 4 * 4
  richq := []
  poorq := []

/-- What `alloc` of a pool has returned. -/
structure Obj where
  pool : Nat
  addr : Nat
deriving DecidableEq

structure Machine where
  mem : Mem
  /-- The header that a page has. -/
  bucket : Nat → Bucket
  pools : Nat → Option Pool
  /-- The pages taken from `allocpage` and not given to `freepage`. -/
  pages : List Nat
  /-- The objects returned and not freed. -/
  out : List Obj

namespace Machine

def setBucket (m : Machine) (page : Nat) (b : Bucket) : Machine :=
  { m with bucket := fun i => if i = page then b else m.bucket i }

def setPool (m : Machine) (k : Nat) (pool : Pool) : Machine :=
  { m with pools := fun i => if i = k then some pool else m.pools i }

/-- `allocpage` has given `page`, which becomes a bucket of the pool. -/
def refill (m : Machine) (k : Nat) (pool : Pool) (page : Nat) : Option Machine := do
  let (mem, b) ← Bucket.init m.mem page k pool.objsize
  let m := { m with mem := mem, pages := page :: m.pages }
  return (m.setBucket page b).setPool k { pool with richq := pool.richq ++ [page] }

/-- `alloc`, from `b = richq.head()`. -/
def take (m : Machine) (k : Nat) (clear : Bool) : Option (Option Nat × Machine) := do
  let pool ← m.pools k
  let page ← pool.richq.head?
  if (m.bucket page).ncurfree = 0 then none
  else
    let (ret, b) ← (m.bucket page).alloc m.mem
    let res ← ret
    let pool' : Pool :=
      if b.ncurfree = 0 then
        { pool with richq := pool.richq.erase page, poorq := pool.poorq ++ [page] }
      else pool
    let mem := if clear then fill 0 (pool.objsize / 4) m.mem res else m.mem
    let m := { m with mem := mem, out := ⟨k, res⟩ :: m.out }
    return (some res, (m.setBucket page b).setPool k pool')

/-- `pool_t::alloc`; `page` is what `allocpage` returns if it is called, a page
that is not in use. -/
def alloc (m : Machine) (k : Nat) (page : Option Nat) (clear : Bool) :
    Option (Option Nat × Machine) := do
  let pool ← m.pools k
  if pool.richq = [] then
    match page with
    | none => return (none, m)
    | some page =>
      if page % PAGESIZE = 0 ∧ page ≠ 0 ∧ page ∉ m.pages then
        let m ← m.refill k pool page
        m.take k clear
      else none
  else m.take k clear

/-- `pool_t::free`. -/
def free (m : Machine) (k p : Nat) : Option Machine := do
  let pool ← m.pools k
  let page := pagedown p
  let pool : Pool :=
    if (m.bucket page).ncurfree = 0 then
      { pool with poorq := pool.poorq.erase page, richq := pool.richq ++ [page] }
    else pool
  let (mem, b) ← (m.bucket page).free m.mem page p
  let m := { m with mem := mem, out := m.out.erase ⟨k, p⟩ }
  if b.ncurfree = b.nmaxfree then
    let m := { m with pages := m.pages.erase page }
    return (m.setBucket page b).setPool k { pool with richq := pool.richq.erase page }
  else return (m.setBucket page b).setPool k pool

end Machine

/-- The sizes of `kmpools`; the pools have the first numbers. -/
def kmpools : List Nat := [16, 32, 64, 96, 128, 256, 512, 1024, 2048, 4000]

/-- `k->size` in the 32 entries of the table: past the initialiser it is 0. -/
def kmsizes : List Int := kmpools.map Int.ofNat ++ List.replicate (32 - kmpools.length) 0

/-- `allockm`.  The loop tests `k->name`, which is an array and never null: with a
size that no entry has it goes on past the table, and what it calls there is no
pool. -/
def Machine.allockm (m : Machine) (size : Int) (page : Option Nat) (clear : Bool) :
    Option (Option Nat × Machine) :=
  match kmsizes.findIdx? fun ksize => size ≤ ksize with
  | some k => m.alloc k page clear
  | none => none

def Machine.freekm (m : Machine) (p : Nat) : Option Machine :=
  if p = 0 then none else m.free (m.bucket (pagedown p)).pool p

/-- The state after `allockminit`. -/
def allockminit (mem : Mem) (bucket : Nat → Bucket) : Machine where
  mem := mem
  bucket := bucket
  pools := fun k => kmpools[k]?.map Pool.new
  pages := []
  out := []

inductive Event where
  /-- `new pool_t`, which `allocbm` puts at an address of its own. -/
  | newPool (k objsize : Nat)
  | alloc (k : Nat) (page : Option Nat) (clear : Bool)
  | free (o : Obj)
  | allockm (size : Int) (page : Option Nat) (clear : Bool)
  | freekm (p : Nat)
  /-- A long is written to an object that is in use, or to a page that is none
  of the pools'. -/
  | poke (a v : Nat)

/-- The address lies in an object that is in use. -/
def Machine.inUse (m : Machine) (a : Nat) : Bool :=
  m.out.any fun o => o.addr ≤ a && a < o.addr + (m.bucket (pagedown o.addr)).objsize

/-- One event: pools have objects that fit a page, and only objects that are in
use are freed. -/
def step (m : Machine) : Event → Option Machine
  | .newPool k objsize =>
      let pool := Pool.new objsize
      if m.pools k = none ∧ 4 ≤ pool.objsize ∧ pool.objsize ≤ PAGESIZE - sizeofBucket then
        some (m.setPool k pool)
      else none
  | .alloc k page clear => (m.alloc k page clear).map Prod.snd
  | .free o => if o ∈ m.out then m.free o.pool o.addr else none
  | .allockm size page clear => (m.allockm size page clear).map Prod.snd
  | .freekm p => if p ∈ m.out.map Obj.addr then m.freekm p else none
  | .poke a v =>
      if m.inUse a ∨ pagedown a ∉ m.pages then some { m with mem := store m.mem a v } else none

end Unixlite.Mm.Allockm
