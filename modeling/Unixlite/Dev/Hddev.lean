import Unixlite.Dev.Req
import Unixlite.Verified.Run

/-!
# The disk driver

Port of `blkdev_t` of `dev/blk/dev.cc` and of `hddev_t` of `dev/blk/hddev.cc`.  Each
of its functions runs with interrupts off, so that an interrupt comes between two of
them.  The registers of the disk are left out; what `ioerror` reads there comes with
the interrupt.

`doreq`, `docurreq` and `endcurreq` call each other, once for each request of the
queue at most; they are defined by that number.

The last sector of a request is not tested for when it fails, and a request out of
range takes the `curisr` of the one behind it (`run_driver_iff`).
-/

namespace Unixlite.Blkdev

open Unixlite.Bcache (Rw)
open Unixlite.Verified.Run List

/-! ## The driver -/

/-- `curisr`. -/
inductive Isr where
  | null
  | read
  | write
deriving DecidableEq

def isrof : Rw → Isr
  | .read => .read
  | .write => .write

/-- `startsect` and `nsect` of a `parttab_t`. -/
structure Part where
  startsect : BitVec 32
  nsect : BitVec 32

/-- `hddev_t` with the buffers.  A request is known by its address, and `fresh` is the
next address that `new` returns. -/
structure Hddev where
  reqq : List Req
  curreq : Option Nat
  curisr : Isr
  buf : Nat → Buf
  fresh : Nat
  /-- History: a task has locked the buffer and no request has it. -/
  held : Nat → Bool

def MAXHD : Nat := 2

def PARTPERHD : Nat := 64

def minor (dev : Nat) : Nat := dev % 256

/-- `insertlt` of a queue of requests. -/
def insertlt (r : Req) : List Req → List Req
  | [] => [r]
  | q :: l => if r.lt q then r :: q :: l else q :: insertlt r l

/-- The queue with `r` as it is now. -/
def replace (r : Req) (l : List Req) : List Req := l.map fun q => if q.id = r.id then r else q

/-- `next` of a request; `none` for `vnode`. -/
def next (id : Nat) (l : List Req) : Option Req := (l.dropWhile fun q => q.id != id).tail.head?

def unlink (id : Nat) (l : List Req) : List Req := l.eraseP fun q => q.id == id

namespace Hddev

def find (s : Hddev) (id : Nat) : Option Req := s.reqq.find? fun q => q.id == id

/-- What `curreq` points at. -/
def cur (s : Hddev) : Option Req := s.curreq.bind s.find

def addreq (s : Hddev) (rw : Rw) (b : Nat) (k : Blk) : Option Hddev :=
  if (s.buf b).locked then
    let merged := s.reqq.findSome? fun q => if s.curreq ≠ some q.id then q.merge rw b k else none
    match merged with
    | some r => some { s with reqq := replace r s.reqq }
    | none => some { s with
        reqq := insertlt (.new s.fresh rw b k) s.reqq
        fresh := s.fresh + 1 }
  else none

variable (part : Nat → Part)

def invalid (r : Req) : Bool := MAXHD * PARTPERHD ≤ minor r.dev

/-- The range check of `docurreq`, in unsigned arithmetic as `startsect` of the
partition is. -/
def outofrange (r : Req) : Bool :=
  let p := part (minor r.dev)
  let s := r.startsect + p.startsect
  s < p.startsect || p.startsect + p.nsect < s + BitVec.ofNat 32 r.nsect

/-- A request and the buffers, as they are now. -/
def put (s : Hddev) (x : Req × (Nat → Buf)) : Hddev :=
  { s with reqq := replace x.1 s.reqq, buf := x.2 }

/-- `r` becomes `curreq`. -/
def start (s : Hddev) (r : Req) : Hddev :=
  { s with reqq := replace { r with started := true } s.reqq, curreq := some r.id }

/-- The queue when `r`, which was current, is unlinked and deleted. -/
def dispose (s : Hddev) (r : Req) : Hddev :=
  { s with reqq := unlink r.id s.reqq, curreq := none, buf := r.delete s.buf }

/-- `endcurreq`, with the `doreq` that it calls. -/
def endcurreqBy (doreq : Hddev → Req → Option Hddev) (s : Hddev) : Option Hddev :=
  match s.cur with
  | none => none
  | some r =>
      if r.more then none
      else
        let s' := s.dispose r
        match s'.reqq.head? with
        | none => some s'
        | some head => doreq s' ((next r.id s.reqq).getD head)

/-- `docurreq`, with the `endcurreq` that it calls. -/
def docurreqBy (endcurreq : Hddev → Option Hddev) (s : Hddev) : Option Hddev :=
  match s.cur with
  | none => none
  | some r =>
      let s := { s with curisr := isrof r.cmd }
      let error : Option Hddev :=
        (endcurreq (s.put (r.error r.nsect s.buf))).map fun s => { s with curisr := .null }
      if invalid r then error
      else if 255 < r.nsect then none
      else if outofrange part r then error
      else some s

/-- `doreq(r)`, when at most `n` requests are in the queue. -/
def doreqOf : Nat → Hddev → Req → Option Hddev
  | 0, _, _ => none
  | n + 1, s, r => docurreqBy part (endcurreqBy (doreqOf n)) (s.start r)

/-- `doreq()`. -/
def doreq (s : Hddev) : Option Hddev :=
  match s.reqq.head?, s.curreq with
  | some r, none => s.doreqOf part s.reqq.length r
  | _, _ => some s

def endcurreq (s : Hddev) : Option Hddev := s.endcurreqBy (doreqOf part s.reqq.length)

/-- `readisr` for `.read` and `writeisr` for `.write`. -/
def rwisr (rw : Rw) (ioerror : Bool) (s : Hddev) : Option Hddev :=
  match s.cur with
  | none => none
  | some r =>
      if r.cmd ≠ rw then none
      else if ioerror then some (s.put (r.error 1 s.buf))
      else
        let x := r.advance 1 s.buf
        if x.1.more then some (s.put x) else endcurreq part { s.put x with curisr := .null }

def isr (ioerror : Bool) (s : Hddev) : Option Hddev :=
  match s.curisr with
  | .null => some s
  | .read => s.rwisr part .read ioerror
  | .write => s.rwisr part .write ioerror

end Hddev

/-! ## Runs -/

inductive Event where
  /-- A task locks a buffer. -/
  | lock (b : Nat)
  /-- The task unlocks it, with no request made. -/
  | unlock (b : Nat)
  /-- The task makes the request. -/
  | addreq (rw : Rw) (b : Nat) (k : Blk)
  | doreq
  | interrupt (ioerror : Bool)

namespace Hddev

def setbuf (s : Hddev) (b : Nat) (locked held : Bool) : Hddev :=
  { s with
    buf := fun i => if i = b then { s.buf i with locked := locked } else s.buf i
    held := fun i => if i = b then held else s.held i }

variable (part : Nat → Part)

/-- One event; `none` when it cannot happen. -/
def step (s : Hddev) : Event → Option Hddev
  | .lock b => if (s.buf b).locked then none else some (s.setbuf b true true)
  | .unlock b => if s.held b then some (s.setbuf b false false) else none
  | .addreq rw b k =>
      if s.held b then
        (s.addreq rw b k).map fun t =>
          { t with held := fun i => if i = b then false else t.held i }
      else none
  | .doreq => s.doreq part
  | .interrupt ioerror => s.isr part ioerror

/-- The constructors have run. -/
def boot (state : Nat → Bcache.Bstate) : Hddev where
  reqq := []
  curreq := none
  curisr := .null
  buf b := ⟨state b, false⟩
  fresh := 0
  held _ := false

/-! ## What the driver promises -/

structure DriverOk (s : Hddev) : Prop where
  idle : s.curreq = none ↔ s.reqq = [] ∨ ∀ r ∈ s.reqq, r.started = false
  cur : ∀ id, s.curreq = some id → ∃ r ∈ s.reqq, s.cur = some r ∧ r.id = id
  more : ∀ r ∈ s.reqq, r.more = true
  locked : ∀ b, (s.buf b).locked = true ↔ s.held b = true ∨ ∃ r ∈ s.reqq, b ∈ r.bufq
  isr : ∀ r, s.cur = some r → s.curisr = isrof r.cmd

/-- `docurreq` takes the request. -/
def good (r : Req) : Bool := !invalid r && !outofrange part r

/-- What is started next when `r` is done with. -/
def nextreq (s : Hddev) (r : Req) : Option Req :=
  match (unlink r.id s.reqq).head? with
  | none => none
  | some head => some ((next r.id s.reqq).getD head)

/-- `r` is in range, or no request of the queue is. -/
def Startable (l : List Req) (r : Req) : Prop :=
  good part r = true ∨ ∀ q ∈ l, good part q = false

/-- The last sector of a request does not fail, and a request that is to be started is
in range, unless none of the queue is. -/
def Fine (s : Hddev) : Event → Prop
  | .doreq => s.curreq = none → ∀ r, s.reqq.head? = some r → Startable part s.reqq r
  | .interrupt ioerror => ∀ r, s.cur = some r → r.last = true →
      ioerror = false ∧ ∀ q, s.nextreq r = some q → Startable part (unlink r.id s.reqq) q
  | _ => True

/-! ## The invariant -/

/-- What is so of the queue in any case. -/
structure Base (s : Hddev) : Prop where
  nodup : (s.reqq.map Req.id).Nodup
  old : ∀ r ∈ s.reqq, r.id < s.fresh
  unique : ∀ r ∈ s.reqq, ∀ q ∈ s.reqq, ∀ b ∈ r.bufq, b ∈ q.bufq → r.id = q.id
  locked : ∀ b, (s.buf b).locked = true ↔ s.held b = true ∨ ∃ r ∈ s.reqq, b ∈ r.bufq
  held : ∀ r ∈ s.reqq, ∀ b ∈ r.bufq, s.held b = false
  ok : ∀ r ∈ s.reqq, r.Ok
  fresh : ∀ r ∈ s.reqq, s.curreq ≠ some r.id → r.Fresh
  cur : ∀ id, s.curreq = some id → ∃ r ∈ s.reqq, r.id = id ∧ r.started = true

/-- The same between two steps. -/
structure Core (s : Hddev) : Prop extends Base s where
  isr : s.curreq = none → s.curisr = .null

/-- The current request goes on, and its interrupts come to it. -/
def Runs (s : Hddev) : Prop := ∀ r, s.cur = some r → r.more = true ∧ s.curisr = isrof r.cmd

end Hddev

variable {l pre post : List Req} {r r' q : Req} {id : Nat}

/-! ## The queue -/

theorem mem_replace : q ∈ replace r l ↔ q ∈ l ∧ q.id ≠ r.id ∨ q = r ∧ ∃ p ∈ l, p.id = r.id := by
  unfold replace
  rw [mem_map]
  constructor
  · rintro ⟨p, hp, rfl⟩
    by_cases hid : p.id = r.id
    · rw [if_pos hid]
      exact .inr ⟨rfl, p, hp, hid⟩
    · rw [if_neg hid]
      exact .inl ⟨hp, hid⟩
  · rintro (⟨hq, hid⟩ | ⟨rfl, p, hp, hid⟩)
    · exact ⟨q, hq, if_neg hid⟩
    · exact ⟨p, hp, if_pos hid⟩

theorem replace_ids (r : Req) (l : List Req) : (replace r l).map Req.id = l.map Req.id := by
  unfold replace
  rw [map_map]
  refine map_congr_left fun q _ => ?_
  change (if q.id = r.id then r else q).id = q.id
  split
  · next h => exact h.symm
  · rfl

theorem insertlt_perm (r : Req) (l : List Req) : (insertlt r l).Perm (r :: l) := by
  induction l with
  | nil => exact List.Perm.refl _
  | cons q l ih =>
      unfold insertlt
      split
      · exact List.Perm.refl _
      · exact (ih.cons q).trans (List.Perm.swap r q l)

/-- A queued request, with those before it and those behind it. -/
theorem exists_split (hnodup : (l.map Req.id).Nodup) (hr : r ∈ l) :
    ∃ pre post, l = pre ++ r :: post ∧ ∀ q ∈ pre ++ post, q.id ≠ r.id := by
  obtain ⟨pre, post, rfl⟩ := append_of_mem hr
  refine ⟨pre, post, rfl, fun q hq hid => ?_⟩
  have hperm : (pre ++ r :: post).Perm (r :: (pre ++ post)) := perm_middle
  have hcons := (hperm.map Req.id).nodup_iff.mp hnodup
  rw [map_cons, nodup_cons] at hcons
  exact hcons.1 (hid ▸ mem_map_of_mem hq)

theorem replace_split (hne : ∀ q ∈ pre ++ post, q.id ≠ r.id) (hid : r'.id = r.id) :
    replace r' (pre ++ r :: post) = pre ++ r' :: post := by
  have hsame : ∀ m : List Req, (∀ q ∈ m, q ∈ pre ++ post) → replace r' m = m := by
    intro m hm
    refine (map_congr_left fun q hq => ?_).trans (map_id m)
    exact if_neg fun h => hne q (hm q hq) (h.trans hid)
  have happ : replace r' (pre ++ r :: post) = replace r' pre ++ r' :: replace r' post := by
    unfold replace
    rw [map_append, map_cons, if_pos hid.symm]
  rw [happ, hsame pre fun q hq => mem_append_left _ hq,
    hsame post fun q hq => mem_append_right _ hq]

theorem unlink_split (hne : ∀ q ∈ pre ++ post, q.id ≠ r.id) :
    unlink r.id (pre ++ r :: post) = pre ++ post := by
  unfold unlink
  rw [eraseP_append_right]
  · have hpos : (r.id == r.id) = true := beq_self_eq_true r.id
    rw [eraseP_cons, hpos, cond_true]
  · intro q hq h
    exact hne q (mem_append_left _ hq) (beq_iff_eq.mp h)

theorem next_split (hne : ∀ q ∈ pre ++ post, q.id ≠ r.id) :
    next r.id (pre ++ r :: post) = post.head? := by
  unfold next
  rw [dropWhile_append_of_pos]
  · rw [dropWhile_cons_of_neg (by simp), tail_cons]
  · intro q hq
    exact bne_iff_ne.mpr (hne q (mem_append_left _ hq))

theorem mem_unlink (hnodup : (l.map Req.id).Nodup) (hr : r ∈ l) :
    q ∈ unlink r.id l ↔ q ∈ l ∧ q.id ≠ r.id := by
  obtain ⟨pre, post, rfl, hne⟩ := exists_split hnodup hr
  rw [unlink_split hne]
  constructor
  · intro hq
    refine ⟨?_, hne q hq⟩
    exact perm_middle.mem_iff.mpr (mem_cons_of_mem r hq)
  · rintro ⟨hq, hid⟩
    rcases mem_cons.mp (perm_middle.mem_iff.mp hq) with rfl | hq
    · exact absurd rfl hid
    · exact hq

theorem length_unlink (hnodup : (l.map Req.id).Nodup) (hr : r ∈ l) :
    (unlink r.id l).length + 1 = l.length := by
  obtain ⟨pre, post, rfl, hne⟩ := exists_split hnodup hr
  rw [unlink_split hne, perm_middle.length_eq, length_cons]

/-- The current request may have changed, for what comes behind it. -/
theorem unlink_replace (hnodup : (l.map Req.id).Nodup) (hr : r ∈ l) (hid : r'.id = r.id) :
    unlink r.id (replace r' l) = unlink r.id l ∧ next r.id (replace r' l) = next r.id l := by
  obtain ⟨pre, post, rfl, hne⟩ := exists_split hnodup hr
  have hne' : ∀ q ∈ pre ++ post, q.id ≠ r'.id := fun q hq => hid ▸ hne q hq
  rw [replace_split hne hid, unlink_split hne, next_split hne]
  exact ⟨hid ▸ unlink_split hne', hid ▸ next_split hne'⟩

namespace Hddev

variable {s t : Hddev}

theorem find_some (h : s.find id = some r) : r ∈ s.reqq ∧ r.id = id :=
  ⟨mem_of_find?_eq_some h, by simpa using List.find?_some h⟩

theorem cur_some (h : s.cur = some r) : r ∈ s.reqq ∧ s.curreq = some r.id := by
  obtain ⟨id, hid, hfind⟩ := Option.bind_eq_some_iff.mp h
  obtain ⟨hr, rfl⟩ := find_some hfind
  exact ⟨hr, hid⟩

theorem cur_eq (hnodup : (s.reqq.map Req.id).Nodup) (hr : r ∈ s.reqq)
    (hcur : s.curreq = some r.id) : s.cur = some r := by
  unfold cur
  rw [hcur, Option.bind_some]
  cases h : s.find r.id with
  | none => exact absurd (beq_self_eq_true r.id) (List.find?_eq_none.mp h r hr)
  | some q =>
      obtain ⟨hq, hid⟩ := find_some h
      exact congrArg some (inj_on_of_nodup_map hnodup hq hr hid)

theorem cur_none (h : s.curreq = none) : s.cur = none := by
  unfold cur
  rw [h]
  rfl

/-! ## The invariant -/

theorem Base.setisr (h : Base s) (i : Isr) : Base { s with curisr := i } :=
  ⟨h.nodup, h.old, h.unique, h.locked, h.held, h.ok, h.fresh, h.cur⟩

/-- One request is current and changes; it keeps its buffers. -/
theorem Base.set (h : Base s) (hr : r ∈ s.reqq) (hid : r'.id = r.id)
    (hbufq : r'.bufq = r.bufq) (hok : r'.Ok) (hstarted : r'.started = true)
    (hfresh : ∀ q ∈ s.reqq, q.id ≠ r.id → q.Fresh) (hreqq : t.reqq = replace r' s.reqq)
    (hcur : t.curreq = some r.id) (hnew : t.fresh = s.fresh) (hheld : t.held = s.held)
    (hbuf : ∀ b, (t.buf b).locked = (s.buf b).locked) : Base t := by
  have hmem : ∀ q, q ∈ t.reqq ↔ q ∈ s.reqq ∧ q.id ≠ r.id ∨ q = r' := by
    intro q
    rw [hreqq, mem_replace, hid]
    exact or_congr Iff.rfl (and_iff_left ⟨r, hr, rfl⟩)
  -- a request of the new queue has the address and the buffers of one of the old
  have hold : ∀ q ∈ t.reqq, ∃ p ∈ s.reqq, p.id = q.id ∧ p.bufq = q.bufq := by
    intro q hq
    rcases (hmem q).mp hq with ⟨hq, -⟩ | rfl
    · exact ⟨q, hq, rfl, rfl⟩
    · exact ⟨r, hr, hid.symm, hbufq.symm⟩
  have hnext : ∀ p ∈ s.reqq, ∃ q ∈ t.reqq, p.bufq = q.bufq := by
    intro p hp
    by_cases hpr : p.id = r.id
    · cases inj_on_of_nodup_map h.nodup hp hr hpr
      exact ⟨r', (hmem r').mpr (.inr rfl), hbufq.symm⟩
    · exact ⟨p, (hmem p).mpr (.inl ⟨hp, hpr⟩), rfl⟩
  constructor
  · rw [hreqq, replace_ids]
    exact h.nodup
  · intro q hq
    obtain ⟨p, hp, hpid, -⟩ := hold q hq
    rw [hnew, ← hpid]
    exact h.old p hp
  · intro q hq q' hq' b hb hb'
    obtain ⟨p, hp, hpid, hpb⟩ := hold q hq
    obtain ⟨p', hp', hpid', hpb'⟩ := hold q' hq'
    rw [← hpid, ← hpid']
    exact h.unique p hp p' hp' b (hpb ▸ hb) (hpb' ▸ hb')
  · intro b
    rw [hbuf, hheld, h.locked b]
    refine or_congr Iff.rfl ⟨?_, ?_⟩
    · rintro ⟨p, hp, hb⟩
      obtain ⟨q, hq, hpq⟩ := hnext p hp
      exact ⟨q, hq, hpq ▸ hb⟩
    · rintro ⟨q, hq, hb⟩
      obtain ⟨p, hp, -, hpb⟩ := hold q hq
      exact ⟨p, hp, hpb ▸ hb⟩
  · intro q hq b hb
    obtain ⟨p, hp, -, hpb⟩ := hold q hq
    rw [hheld]
    exact h.held p hp b (hpb ▸ hb)
  · intro q hq
    rcases (hmem q).mp hq with ⟨hq, -⟩ | rfl
    · exact h.ok q hq
    · exact hok
  · intro q hq hne
    rcases (hmem q).mp hq with ⟨hq, hqr⟩ | rfl
    · exact hfresh q hq hqr
    · exact absurd (hcur.trans (congrArg some hid.symm)) hne
  · intro id hid'
    rw [hcur] at hid'
    cases hid'
    exact ⟨r', (hmem r').mpr (.inr rfl), hid, hstarted⟩

theorem Base.others (h : Base s) (hcur : s.curreq = some r.id) :
    ∀ q ∈ s.reqq, q.id ≠ r.id → q.Fresh :=
  fun q hq hid => h.fresh q hq fun h' => hid (Option.some.inj (hcur.symm.trans h')).symm

theorem Base.allfresh (h : Base s) (hcur : s.curreq = none) : ∀ q ∈ s.reqq, q.Fresh :=
  fun q hq => h.fresh q hq fun h' => Option.some_ne_none _ (h'.symm.trans hcur)

/-- A request has become current. -/
theorem Base.start (h : Base s) (hcur : s.curreq = none) (hr : r ∈ s.reqq) :
    Base (s.start r) ∧ (s.start r).cur = some { r with started := true } := by
  have hok := h.ok r hr
  have hok' : Req.Ok { r with started := true } :=
    ⟨hok.nonempty, hok.pos, hok.nsect, hok.small, hok.sect, hok.left⟩
  have hid : Req.id { r with started := true } = r.id := rfl
  have hbase : Base (s.start r) := h.set hr hid rfl hok' rfl
    (fun q hq _ => h.allfresh hcur q hq) rfl rfl rfl rfl fun _ => rfl
  exact ⟨hbase, cur_eq hbase.nodup (mem_replace.mpr (.inr ⟨rfl, r, hr, rfl⟩)) rfl⟩

theorem Base.started (h : Base s) (hr : r ∈ s.reqq) (hcur : s.curreq = some r.id) :
    r.started = true := by
  obtain ⟨q, hq, hid, hstarted⟩ := h.cur r.id hcur
  exact inj_on_of_nodup_map h.nodup hq hr hid ▸ hstarted

/-- `error` and `advance` for the current request. -/
theorem Base.put (h : Base s) (hr : r ∈ s.reqq) (hcur : s.curreq = some r.id)
    (state : Bcache.Bstate) (n : Nat) :
    Base (s.put (r.nextsects state n s.buf)) ∧
      (s.put (r.nextsects state n s.buf)).cur = some (r.nextsects state n s.buf).1 := by
  obtain ⟨hok, hsame, -, hbuf⟩ := Req.nextsects_spec (h.ok r hr) state n s.buf
  have hstarted := hsame.started.trans (h.started hr hcur)
  have hbase : Base (s.put (r.nextsects state n s.buf)) :=
    h.set hr hsame.id hsame.bufq hok hstarted (h.others hcur) rfl hcur rfl rfl hbuf
  refine ⟨hbase, cur_eq hbase.nodup (mem_replace.mpr (.inr ⟨rfl, r, hr, hsame.id.symm⟩)) ?_⟩
  exact hcur.trans (congrArg some hsame.id.symm)

/-- The current request goes with its buffers. -/
theorem Base.dispose (h : Base s) (hr : r ∈ s.reqq) (hcur : s.curreq = some r.id) :
    Base (s.dispose r) := by
  have hmem : ∀ q, q ∈ (s.dispose r).reqq ↔ q ∈ s.reqq ∧ q.id ≠ r.id :=
    fun q => mem_unlink h.nodup hr
  constructor
  · exact h.nodup.sublist (eraseP_sublist.map Req.id)
  · exact fun q hq => h.old q ((hmem q).mp hq).1
  · exact fun q hq p hp => h.unique q ((hmem q).mp hq).1 p ((hmem p).mp hp).1
  · intro b
    change (r.delete s.buf b).locked = true ↔ s.held b = true ∨ _
    unfold Req.delete
    split
    · next hb =>
      refine iff_of_false Bool.false_ne_true ?_
      rintro (hheld | ⟨q, hq, hbq⟩)
      · rw [h.held r hr b hb] at hheld
        cases hheld
      · obtain ⟨hq, hid⟩ := (hmem q).mp hq
        exact hid (h.unique q hq r hr b hbq hb)
    · next hb =>
      rw [h.locked b]
      refine or_congr Iff.rfl ⟨?_, ?_⟩
      · rintro ⟨q, hq, hbq⟩
        refine ⟨q, (hmem q).mpr ⟨hq, fun hid => hb ?_⟩, hbq⟩
        exact inj_on_of_nodup_map h.nodup hq hr hid ▸ hbq
      · rintro ⟨q, hq, hbq⟩
        exact ⟨q, ((hmem q).mp hq).1, hbq⟩
  · exact fun q hq => h.held q ((hmem q).mp hq).1
  · exact fun q hq => h.ok q ((hmem q).mp hq).1
  · intro q hq _
    obtain ⟨hq, hid⟩ := (hmem q).mp hq
    refine h.fresh q hq fun hcur' => hid ?_
    exact (Option.some.inj (hcur.symm.trans hcur')).symm
  · intro id hid
    cases hid

/-! ## `doreq` -/

variable (part : Nat → Part)

/-- The request that the driver goes on with is in the queue. -/
theorem nextreq_mem (h : Base s) (hr : r ∈ s.reqq) (hnext : s.nextreq r = some q) :
    q ∈ unlink r.id s.reqq := by
  obtain ⟨pre, post, hsplit, hne⟩ := exists_split h.nodup hr
  unfold nextreq at hnext
  rw [hsplit, unlink_split hne, next_split hne] at hnext
  rw [hsplit, unlink_split hne]
  cases post with
  | cons p post =>
      split at hnext
      · cases hnext
      · cases hnext
        exact mem_append_right _ mem_cons_self
  | nil =>
      split at hnext
      · cases hnext
      · next head hhead =>
        cases hnext
        exact mem_of_head? hhead

theorem nextreq_none (h : s.nextreq r = none) : unlink r.id s.reqq = [] := by
  unfold nextreq at h
  split at h
  · next hhead => exact List.head?_eq_none_iff.mp hhead
  · cases h

/-- `endcurreq` for a request that is done with. -/
theorem endcurreqBy_eq (h : Base s) (hr : r ∈ s.reqq) (hcur : s.curreq = some r.id)
    (hmore : r.more = false) (doreq : Hddev → Req → Option Hddev) :
    endcurreqBy doreq s =
      match s.nextreq r with
      | none => some (s.dispose r)
      | some q => doreq (s.dispose r) q := by
  unfold endcurreqBy nextreq
  rw [cur_eq h.nodup hr hcur]
  dsimp only
  rw [if_neg (by rw [hmore]; exact Bool.false_ne_true)]
  change (match (unlink r.id s.reqq).head? with
    | none => some (s.dispose r)
    | some head => doreq (s.dispose r) ((next r.id s.reqq).getD head)) = _
  cases (unlink r.id s.reqq).head? with
  | none => rfl
  | some head => rfl

/-- What the driver comes to when it takes up `r`: it goes on unless the error path has
left the next request without its `curisr`. -/
structure Started (l : List Req) (r : Req) (t : Hddev) : Prop extends Core t where
  runs : Runs t ↔ Startable part l r
  none : t.curreq = none ↔ ∀ q ∈ l, good part q = false

theorem Runs.of_none (h : s.curreq = none) : Runs s := by
  intro r hr
  rw [cur_none h] at hr
  cases hr

theorem Base.exists_cur (h : Base s) (hcur : s.curreq ≠ none) : ∃ r, s.cur = some r := by
  obtain ⟨id, hid⟩ := Option.ne_none_iff_exists'.mp hcur
  obtain ⟨r, hr, rfl, -⟩ := h.cur id hid
  exact ⟨r, cur_eq h.nodup hr hid⟩

/-- After the error path `curisr` is null, whatever is current. -/
theorem runs_null (h : Base s) (hisr : s.curisr = .null) : Runs s ↔ s.curreq = none := by
  refine ⟨fun hruns => ?_, Runs.of_none⟩
  by_contra hcur
  obtain ⟨r, hr⟩ := h.exists_cur hcur
  have hof := (hruns r hr).2
  rw [hisr] at hof
  cases hcmd : r.cmd with
  | read | write =>
      rw [hcmd] at hof
      cases hof

/-- `docurreq` for a request that is not taken. -/
theorem docurreqBy_bad (hcur : s.cur = some r) (hsmall : r.nsect ≤ 255)
    (hbad : good part r = false) (endcurreq : Hddev → Option Hddev) :
    docurreqBy part endcurreq s =
      (endcurreq ({ s with curisr := isrof r.cmd }.put (r.error r.nsect s.buf))).map
        fun s => { s with curisr := .null } := by
  unfold docurreqBy
  rw [hcur]
  dsimp only
  unfold good at hbad
  cases hinv : invalid r with
  | true => exact if_pos rfl
  | false =>
      have hout : outofrange part r = true := by simpa [hinv] using hbad
      rw [if_neg Bool.false_ne_true, if_neg (Nat.not_lt.mpr hsmall), if_pos hout]

theorem docurreqBy_good (hcur : s.cur = some r) (hsmall : r.nsect ≤ 255)
    (hgood : good part r = true) (endcurreq : Hddev → Option Hddev) :
    docurreqBy part endcurreq s = some { s with curisr := isrof r.cmd } := by
  unfold docurreqBy
  rw [hcur]
  dsimp only
  unfold good at hgood
  rw [Bool.and_eq_true, Bool.not_eq_true', Bool.not_eq_true'] at hgood
  rw [hgood.1, hgood.2, if_neg Bool.false_ne_true, if_neg (Nat.not_lt.mpr hsmall),
    if_neg Bool.false_ne_true]

/-- What `endcurreq` comes to when `r` has been current. -/
inductive Ended (s : Hddev) (r : Req) (t : Hddev) : Prop where
  | idle (hnext : s.nextreq r = none) (hbase : Base t) (hreqq : t.reqq = [])
      (hcur : t.curreq = none) (hisr : t.curisr = s.curisr)
  | started (q : Req) (hnext : s.nextreq r = some q)
      (h : Started part (unlink r.id s.reqq) q t)

/-- `endcurreq` once `r` is done with, when `doreq` does its part for what is left. -/
theorem endcurreqBy_spec (h : Base s) (hr : r ∈ s.reqq) (hcur : s.curreq = some r.id)
    (state : Bcache.Bstate) (n : Nat) (hmore : (r.nextsects state n s.buf).1.more = false)
    {doreq : Hddev → Req → Option Hddev}
    (hdoreq : ∀ u q, Base u → u.curreq = none → q ∈ u.reqq → u.reqq.length < s.reqq.length →
      ∃ t, doreq u q = some t ∧ Started part u.reqq q t) :
    ∃ t, endcurreqBy doreq (s.put (r.nextsects state n s.buf)) = some t ∧ Ended part s r t := by
  obtain ⟨hbase, hcur'⟩ := h.put hr hcur state n
  obtain ⟨-, hsame, -, -⟩ := Req.nextsects_spec (h.ok r hr) state n s.buf
  obtain ⟨hr', hid'⟩ := cur_some hcur'
  obtain ⟨hunlink, hnext⟩ := unlink_replace h.nodup hr hsame.id
  have hreqq : ((s.put (r.nextsects state n s.buf)).dispose
      (r.nextsects state n s.buf).1).reqq = unlink r.id s.reqq := by
    refine Eq.trans ?_ hunlink
    rw [← hsame.id]
    rfl
  have hnextreq : (s.put (r.nextsects state n s.buf)).nextreq
      (r.nextsects state n s.buf).1 = s.nextreq r := by
    unfold nextreq put
    rw [hsame.id, hunlink, hnext]
  rw [endcurreqBy_eq hbase hr' hid' hmore, hnextreq]
  cases hq : s.nextreq r with
  | none =>
      refine ⟨_, rfl, .idle hq (hbase.dispose hr' hid') ?_ rfl rfl⟩
      rw [hreqq, nextreq_none hq]
  | some q =>
      obtain ⟨t, ht, hstarted⟩ := hdoreq _ q (hbase.dispose hr' hid') rfl
        (hreqq ▸ nextreq_mem h hr hq) (by
          rw [hreqq]
          exact Nat.lt_of_succ_le (length_unlink h.nodup hr).le)
      exact ⟨t, ht, .started q hq (hreqq ▸ hstarted)⟩

/-- With `r` out of range, the rest of the queue decides. -/
theorem all_bad_iff (h : Base s) (hr : r ∈ s.reqq) (hbad : good part r = false) :
    (∀ q ∈ unlink r.id s.reqq, good part q = false) ↔ ∀ q ∈ s.reqq, good part q = false := by
  constructor
  · intro hall q hq
    by_cases hid : q.id = r.id
    · exact inj_on_of_nodup_map h.nodup hq hr hid ▸ hbad
    · exact hall q ((mem_unlink h.nodup hr).mpr ⟨hq, hid⟩)
  · exact fun hall q hq => hall q ((mem_unlink h.nodup hr).mp hq).1

theorem Ended.none_iff (h : Ended part s r t) :
    t.curreq = none ↔ ∀ q ∈ unlink r.id s.reqq, good part q = false := by
  cases h with
  | idle hnext hbase hreqq hcur hisr =>
      refine iff_of_true hcur fun q hq => ?_
      rw [nextreq_none hnext] at hq
      cases hq
  | started q hnext h => exact h.none

theorem Ended.base (h : Ended part s r t) : Base t := by
  cases h with
  | idle hnext hbase hreqq hcur hisr => exact hbase
  | started q hnext h => exact h.toBase

/-- `doreq` returns, after one turn for each request at most. -/
theorem doreqOf_spec (n : Nat) (s : Hddev) (r : Req) (h : Base s) (hcur : s.curreq = none)
    (hr : r ∈ s.reqq) (hlen : s.reqq.length ≤ n) :
    ∃ t, doreqOf part n s r = some t ∧ Started part s.reqq r t := by
  induction n generalizing s r with
  | zero =>
      rw [length_eq_zero_iff.mp (Nat.le_zero.mp hlen)] at hr
      cases hr
  | succ n ih =>
      obtain ⟨hbase, hcur'⟩ := h.start hcur hr
      have hsmall := (h.ok r hr).small
      have hfresh := h.allfresh hcur r hr
      unfold doreqOf
      cases hgood : good part r with
      | true =>
          refine ⟨{ s.start r with curisr := isrof r.cmd },
            docurreqBy_good part hcur' hsmall hgood _, ⟨hbase.setisr _, ?_⟩, ?_, ?_⟩
          · exact fun hnone => absurd hnone (Option.some_ne_none r.id)
          · refine iff_of_true (fun q hq => ?_) (.inl hgood)
            cases hcur'.symm.trans hq
            refine ⟨?_, rfl⟩
            unfold Req.more
            rw [Bool.not_eq_true', isEmpty_eq_false_iff]
            exact hfresh.left ▸ (h.ok r hr).nonempty
          · refine iff_of_false (Option.some_ne_none r.id) fun hbad => ?_
            rw [hbad r hr] at hgood
            cases hgood
      | false =>
          rw [docurreqBy_bad part hcur' hsmall hgood]
          -- all its sectors fail, and the rest of the queue is shorter
          have hlen' : (s.start r).reqq.length = s.reqq.length := length_map _
          obtain ⟨hr', hid'⟩ := cur_some hcur'
          obtain ⟨t, ht, hended⟩ := endcurreqBy_spec part (hbase.setisr (isrof r.cmd)) hr' hid'
            .error r.nsect (Req.error_fresh (hbase.ok _ hr') hfresh.left _)
            fun u q hu hucur hq hulen => ih u q hu hucur hq (by
              have hulen : u.reqq.length < (s.start r).reqq.length := hulen
              omega)
          have hid : Req.id { r with started := true } = r.id := rfl
          have hnone : t.curreq = none ↔ ∀ q ∈ s.reqq, good part q = false := by
            rw [← all_bad_iff part h hr hgood, ← (unlink_replace h.nodup hr hid).1]
            exact hended.none_iff
          refine ⟨{ t with curisr := .null }, congrArg (Option.map _) ht,
            ⟨hended.base.setisr _, fun _ => rfl⟩, ?_, hnone⟩
          rw [runs_null (hended.base.setisr _) rfl]
          refine hnone.trans ⟨.inr, ?_⟩
          rintro (hgood' | hall)
          · rw [hgood] at hgood'
            cases hgood'
          · exact hall

/-! ## Steps -/

/-- What of the promises hangs on the requests that have been made. -/
theorem driverOk_iff (h : Base s) : DriverOk s ↔ Runs s := by
  constructor
  · intro hok r hr
    exact ⟨hok.more r (cur_some hr).1, hok.isr r hr⟩
  · intro hruns
    constructor
    · constructor
      · intro hnone
        exact .inr fun r hr => (h.allfresh hnone r hr).started
      · rintro hidle
        by_contra hsome
        obtain ⟨id, hid⟩ := Option.ne_none_iff_exists'.mp hsome
        obtain ⟨r, hr, -, hstarted⟩ := h.cur id hid
        rcases hidle with hnil | hall
        · rw [hnil] at hr
          cases hr
        · rw [hall r hr] at hstarted
          cases hstarted
    · intro id hid
      obtain ⟨r, hr, rfl, -⟩ := h.cur id hid
      exact ⟨r, hr, cur_eq h.nodup hr hid, rfl⟩
    · intro r hr
      by_cases hcur : s.curreq = some r.id
      · exact (hruns r (cur_eq h.nodup hr hcur)).1
      · unfold Req.more
        rw [Bool.not_eq_true', isEmpty_eq_false_iff, (h.fresh r hr hcur).left]
        exact (h.ok r hr).nonempty
    · exact h.locked
    · exact fun r hr => (hruns r hr).2

/-- `doreq()` with an idle driver and a request to start. -/
theorem doreq_spec (h : Core s) :
    ∃ t, s.doreq part = some t ∧ Core t ∧ (Runs s → (Runs t ↔ Fine part s .doreq)) := by
  unfold doreq Fine
  cases hhead : s.reqq.head? with
  | none => exact ⟨s, rfl, h, fun hruns => iff_of_true hruns fun _ => nofun⟩
  | some r =>
      cases hcur : s.curreq with
      | some id => exact ⟨s, rfl, h, fun hruns => iff_of_true hruns nofun⟩
      | none =>
          obtain ⟨t, ht, hstarted⟩ := doreqOf_spec part _ s r h.toBase hcur
            (mem_of_head? hhead) (Nat.le_refl _)
          refine ⟨t, ht, hstarted.toCore, fun _ => hstarted.runs.trans ⟨?_, ?_⟩⟩
          · rintro hr - q hq
            cases hq
            exact hr
          · exact fun hall => hall rfl r rfl

/-- A sector has been done, and it was not the last one. -/
theorem put_runs (h : Core s) (hcur : s.cur = some r) (hmore : r.more = true)
    (hisr : s.curisr = isrof r.cmd) (hlast : r.last = false) (state : Bcache.Bstate) :
    (r.nextsects state 1 s.buf).1.more = true ∧ Core (s.put (r.nextsects state 1 s.buf)) ∧
      Runs (s.put (r.nextsects state 1 s.buf)) := by
  obtain ⟨hr, hid⟩ := cur_some hcur
  obtain ⟨hok, hsame, hrest, -⟩ := Req.nextsects_spec (h.ok r hr) state 1 s.buf
  obtain ⟨hbase, hcur'⟩ := h.put hr hid state 1
  have hmore' : (r.nextsects state 1 s.buf).1.more = true := by
    have hpos := (Req.more_iff (h.ok r hr)).mp hmore
    have hne : r.remaining ≠ 1 := fun hone => by
      rw [(Req.last_iff (h.ok r hr) hmore).mpr hone] at hlast
      cases hlast
    rw [Req.more_iff hok, hrest]
    omega
  refine ⟨hmore', ⟨hbase, fun hnone => absurd (hid.symm.trans hnone) (Option.some_ne_none _)⟩, ?_⟩
  intro q hq
  cases hcur'.symm.trans hq
  exact ⟨hmore', hisr.trans (congrArg isrof hsame.cmd.symm)⟩

theorem last_more (h : r.Ok) (hmore : r.more = true) (hlast : r.last = true)
    (state : Bcache.Bstate) (buf : Nat → Buf) : (r.nextsects state 1 buf).1.more = false := by
  obtain ⟨hok, -, hrest, -⟩ := Req.nextsects_spec h state 1 buf
  have hone := (Req.last_iff h hmore).mp hlast
  rw [← Bool.not_eq_true, Req.more_iff hok, hrest]
  omega

/-- `readisr` and `writeisr` when the request is of their kind. -/
theorem rwisr_spec (h : Core s) (hcur : s.cur = some r) (hmore : r.more = true)
    (hisr : s.curisr = isrof r.cmd) (ioerror : Bool) :
    ∃ t, s.rwisr part r.cmd ioerror = some t ∧ Core t ∧
      (Runs t ↔ Fine part s (.interrupt ioerror)) := by
  obtain ⟨hr, hid⟩ := cur_some hcur
  unfold rwisr Fine
  rw [hcur]
  dsimp only
  rw [if_neg (fun hne => hne rfl)]
  cases hlast : r.last with
  | false =>
      have hfine : ∀ q, some r = some q → q.last = true → ioerror = false ∧
          ∀ p, s.nextreq q = some p → Startable part (unlink q.id s.reqq) p := by
        intro q hq hq'
        cases hq
        rw [hlast] at hq'
        cases hq'
      cases ioerror with
      | true =>
          obtain ⟨-, hcore, hruns⟩ := put_runs h hcur hmore hisr hlast .error
          exact ⟨_, if_pos rfl, hcore, iff_of_true hruns hfine⟩
      | false =>
          obtain ⟨hmore', hcore, hruns⟩ := put_runs h hcur hmore hisr hlast .clean
          exact ⟨_, (if_neg Bool.false_ne_true).trans (if_pos hmore'), hcore,
            iff_of_true hruns hfine⟩
  | true =>
      cases ioerror with
      | true =>
          -- the request is done with, and stays
          obtain ⟨hbase, hcur'⟩ := h.put hr hid .error 1
          refine ⟨_, if_pos rfl, ⟨hbase, fun hnone =>
            absurd (hid.symm.trans hnone) (Option.some_ne_none _)⟩, iff_of_false ?_ ?_⟩
          · intro hruns
            have hmore' := (hruns _ hcur').1
            rw [last_more (h.ok r hr) hmore hlast] at hmore'
            cases hmore'
          · intro hfine
            cases (hfine r rfl hlast).1
      | false =>
          have hmore' := last_more (h.ok r hr) hmore hlast .clean s.buf
          obtain ⟨t, ht, hended⟩ := endcurreqBy_spec part (h.toBase.setisr .null) hr hid .clean 1
            hmore' fun u q hu hucur hq hulen => doreqOf_spec part
              (s.put (r.advance 1 s.buf)).reqq.length u q hu hucur hq (by
                have hlen : (s.put (r.advance 1 s.buf)).reqq.length = s.reqq.length :=
                  length_map _
                rw [hlen]
                exact hulen.le)
          refine ⟨t, ?_, ?_⟩
          · refine (if_neg Bool.false_ne_true).trans ?_
            refine Eq.trans (if_neg ?_) ht
            exact Bool.eq_false_iff.mp hmore'
          cases hended with
          | idle hnext hbase hreqq hcur₂ hisr₂ =>
              refine ⟨⟨hbase, fun _ => hisr₂⟩, iff_of_true (Runs.of_none hcur₂) ?_⟩
              intro q hq _
              cases hq
              refine ⟨rfl, fun p hp => ?_⟩
              cases hnext.symm.trans hp
          | started q hnext hstarted =>
              refine ⟨hstarted.toCore, hstarted.runs.trans ⟨?_, ?_⟩⟩
              · intro hq r' hr' _
                cases hr'
                refine ⟨rfl, fun p hp => ?_⟩
                cases hnext.symm.trans hp
                exact hq
              · intro hfine
                exact (hfine r rfl hlast).2 q hnext

/-- An interrupt. -/
theorem isr_spec (h : Core s) (hruns : Runs s) (ioerror : Bool) :
    ∃ t, s.isr part ioerror = some t ∧ Core t ∧ (Runs t ↔ Fine part s (.interrupt ioerror)) := by
  cases hcur : s.cur with
  | none =>
      have hnone : s.curreq = none := by
        by_contra hne
        obtain ⟨r, hr⟩ := h.exists_cur hne
        cases hcur.symm.trans hr
      refine ⟨s, ?_, h, iff_of_true hruns ?_⟩
      · unfold isr
        rw [h.isr hnone]
      · intro r hr
        cases hcur.symm.trans hr
  | some r =>
      obtain ⟨hmore, hisr⟩ := hruns r hcur
      have hspec := rwisr_spec part h hcur hmore hisr ioerror
      unfold isr
      rw [hisr]
      cases hcmd : r.cmd with
      | read | write =>
          rw [hcmd] at hspec
          exact hspec

/-- A task locks a buffer that no request has, or unlocks it. -/
theorem Core.setbuf (h : Core s) {b : Nat} {locked : Bool}
    (hb : ∀ r ∈ s.reqq, b ∉ r.bufq) : Core (s.setbuf b locked locked) := by
  refine ⟨⟨h.nodup, h.old, h.unique, ?_, ?_, h.ok, h.fresh, h.cur⟩, h.isr⟩
  · intro i
    unfold Hddev.setbuf
    dsimp only
    by_cases hi : i = b
    · subst hi
      rw [if_pos rfl, if_pos rfl]
      refine ⟨.inl, ?_⟩
      rintro (hheld | ⟨r, hr, hmem⟩)
      · exact hheld
      · exact absurd hmem (hb r hr)
    · rw [if_neg hi, if_neg hi]
      exact h.locked i
  · intro r hr i hi
    unfold Hddev.setbuf
    dsimp only
    rw [if_neg fun hib : i = b => hb r hr (hib ▸ hi)]
    exact h.held r hr i hi

/-- A locked buffer gets into a request that is not current. -/
theorem Core.add (h : Core s) {b : Nat} (hheld : s.held b = true) (hok : r'.Ok)
    (hfresh : r'.Fresh) (hne : s.curreq ≠ some r'.id) (hid : r'.id < t.fresh)
    (hmem : ∀ q, q ∈ t.reqq ↔ q ∈ s.reqq ∧ q.id ≠ r'.id ∨ q = r')
    (hbufq : ∀ i, i ∈ r'.bufq ↔ i = b ∨ ∃ q ∈ s.reqq, q.id = r'.id ∧ i ∈ q.bufq)
    (hnodup : (t.reqq.map Req.id).Nodup) (hcur : t.curreq = s.curreq)
    (hisr : t.curisr = s.curisr) (hbuf : t.buf = s.buf) (hnew : s.fresh ≤ t.fresh)
    (hheld' : t.held = fun i => if i = b then false else s.held i) :
    Core t ∧ (Runs s → Runs t) := by
  have hout : ∀ q ∈ s.reqq, b ∉ q.bufq := by
    intro q hq hb
    rw [h.held q hq b hb] at hheld
    cases hheld
  -- no other request has a buffer of the one that has grown
  have hother : ∀ q ∈ s.reqq, q.id ≠ r'.id → ∀ i ∈ q.bufq, i ∉ r'.bufq := by
    intro q hq hqid i hi hi'
    rcases (hbufq i).mp hi' with rfl | ⟨p, hp, hpid, hip⟩
    · exact hout q hq hi
    · exact hqid ((h.unique q hq p hp i hi hip).trans hpid)
  refine ⟨⟨⟨hnodup, ?_, ?_, ?_, ?_, ?_, ?_, ?_⟩, ?_⟩, ?_⟩
  · intro q hq
    rcases (hmem q).mp hq with ⟨hq, -⟩ | rfl
    · exact Nat.lt_of_lt_of_le (h.old q hq) hnew
    · exact hid
  · intro q hq p hp i hi hi'
    rcases (hmem q).mp hq with ⟨hq, hqid⟩ | rfl
    · rcases (hmem p).mp hp with ⟨hp, -⟩ | rfl
      · exact h.unique q hq p hp i hi hi'
      · exact absurd hi' (hother q hq hqid i hi)
    · rcases (hmem p).mp hp with ⟨hp, hpid⟩ | rfl
      · exact absurd hi (hother p hp hpid i hi')
      · rfl
  · intro i
    rw [hbuf, hheld', h.locked i]
    dsimp only
    by_cases hi : i = b
    · subst hi
      refine iff_of_true (.inl hheld) (.inr ⟨r', (hmem r').mpr (.inr rfl), ?_⟩)
      exact (hbufq i).mpr (.inl rfl)
    · rw [if_neg hi]
      refine or_congr Iff.rfl ⟨?_, ?_⟩
      · rintro ⟨q, hq, hiq⟩
        by_cases hqid : q.id = r'.id
        · exact ⟨r', (hmem r').mpr (.inr rfl), (hbufq i).mpr (.inr ⟨q, hq, hqid, hiq⟩)⟩
        · exact ⟨q, (hmem q).mpr (.inl ⟨hq, hqid⟩), hiq⟩
      · rintro ⟨q, hq, hiq⟩
        rcases (hmem q).mp hq with ⟨hq, -⟩ | rfl
        · exact ⟨q, hq, hiq⟩
        · rcases (hbufq i).mp hiq with rfl | ⟨p, hp, -, hip⟩
          · exact absurd rfl hi
          · exact ⟨p, hp, hip⟩
  · intro q hq i hi
    rw [hheld']
    dsimp only
    split
    · rfl
    · next hib =>
      rcases (hmem q).mp hq with ⟨hq, -⟩ | rfl
      · exact h.held q hq i hi
      · rcases (hbufq i).mp hi with rfl | ⟨p, hp, -, hip⟩
        · exact absurd rfl hib
        · exact h.held p hp i hip
  · intro q hq
    rcases (hmem q).mp hq with ⟨hq, -⟩ | rfl
    · exact h.ok q hq
    · exact hok
  · intro q hq hqcur
    rcases (hmem q).mp hq with ⟨hq, -⟩ | rfl
    · exact h.fresh q hq (hcur ▸ hqcur)
    · exact hfresh
  · intro id hid'
    rw [hcur] at hid'
    obtain ⟨q, hq, rfl, hstarted⟩ := h.cur id hid'
    exact ⟨q, (hmem q).mpr (.inl ⟨hq, fun heq => hne (heq ▸ hid')⟩), rfl, hstarted⟩
  · intro hnone
    rw [hisr]
    exact h.isr (hcur ▸ hnone)
  · intro hruns q hq
    obtain ⟨hq', hqid⟩ := cur_some hq
    rw [hcur] at hqid
    rw [hisr]
    rcases (hmem q).mp hq' with ⟨hq', -⟩ | rfl
    · exact hruns q (cur_eq h.nodup hq' hqid)
    · exact absurd hqid hne

theorem Core.addreq (h : Core s) {rw : Rw} {b : Nat} {k : Blk} (hheld : s.held b = true)
    (hadd : s.addreq rw b k = some t) :
    Core { t with held := fun i => if i = b then false else t.held i } ∧
      (Runs s → Runs { t with held := fun i => if i = b then false else t.held i }) := by
  unfold Hddev.addreq at hadd
  rw [if_pos ((h.locked b).mpr (.inl hheld))] at hadd
  dsimp only at hadd
  split at hadd
  · next r' hmerged =>
    cases hadd
    obtain ⟨q, hq, hmerge⟩ := exists_of_findSome?_eq_some hmerged
    split at hmerge
    · next hne =>
      obtain ⟨hok, hfresh, hid, hperm⟩ := Req.merge_spec (h.ok q hq) (h.fresh q hq hne) hmerge
      refine h.add hheld hok hfresh (hid ▸ hne) (hid ▸ h.old q hq) ?_ ?_ ?_ rfl rfl rfl
        (Nat.le_refl _) rfl
      · intro p
        rw [mem_replace]
        exact or_congr Iff.rfl (and_iff_left ⟨q, hq, hid.symm⟩)
      · intro i
        rw [hperm.mem_iff, mem_cons]
        refine or_congr Iff.rfl ⟨fun hi => ⟨q, hq, hid.symm, hi⟩, ?_⟩
        rintro ⟨p, hp, hpid, hi⟩
        exact inj_on_of_nodup_map h.nodup hp hq (hpid.trans hid) ▸ hi
      · dsimp only
        rw [replace_ids]
        exact h.nodup
    · cases hmerge
  · cases hadd
    have hnew : ∀ q ∈ s.reqq, q.id ≠ s.fresh := fun q hq => (h.old q hq).ne
    have hperm := insertlt_perm (.new s.fresh rw b k) s.reqq
    refine h.add hheld (Req.new_ok s.fresh rw b k) (Req.new_fresh s.fresh rw b k) ?_
      (Nat.lt_succ_self _) ?_ ?_ ?_ rfl rfl rfl (Nat.le_succ _) rfl
    · intro hcur
      obtain ⟨q, hq, hid, -⟩ := h.cur _ hcur
      exact hnew q hq hid
    · intro q
      rw [hperm.mem_iff, mem_cons, or_comm]
      exact or_congr (and_iff_left_of_imp (hnew q)).symm Iff.rfl
    · intro i
      refine mem_singleton.trans (or_iff_left ?_).symm
      rintro ⟨q, hq, hid, -⟩
      exact hnew q hq hid
    · dsimp only
      rw [(hperm.map Req.id).nodup_iff, map_cons, nodup_cons]
      refine ⟨fun hmem => ?_, h.nodup⟩
      obtain ⟨q, hq, hid⟩ := mem_map.mp hmem
      exact hnew q hq hid

/-- A step from a driver that keeps its promises keeps the invariant, and keeps the
promises exactly when it is fine. -/
theorem step_spec (h : Core s) (hruns : Runs s) (e : Event) :
    s.step part e = none ∧ Fine part s e ∨
      ∃ t, s.step part e = some t ∧ Core t ∧ (Runs t ↔ Fine part s e) := by
  have hsetbuf : ∀ b locked, Runs (s.setbuf b locked locked) := fun b locked => hruns
  cases e with
  | lock b =>
      by_cases hb : (s.buf b).locked = true
      · exact .inl ⟨if_pos hb, trivial⟩
      · refine .inr ⟨_, if_neg hb, h.setbuf fun r hr hmem => hb ?_,
          iff_of_true (hsetbuf b true) trivial⟩
        exact (h.locked b).mpr (.inr ⟨r, hr, hmem⟩)
  | unlock b =>
      by_cases hb : s.held b = true
      · refine .inr ⟨_, if_pos hb, h.setbuf fun r hr hmem => ?_,
          iff_of_true (hsetbuf b false) trivial⟩
        rw [h.held r hr b hmem] at hb
        cases hb
      · exact .inl ⟨if_neg hb, trivial⟩
  | addreq rw b k =>
      cases hstep : s.step part (.addreq rw b k) with
      | none => exact .inl ⟨rfl, trivial⟩
      | some t =>
          obtain ⟨hheld, hstep⟩ := Option.ite_none_right_eq_some.mp hstep
          obtain ⟨u, hu, rfl⟩ := Option.map_eq_some_iff.mp hstep
          obtain ⟨hcore, hruns'⟩ := h.addreq hheld hu
          exact .inr ⟨_, rfl, hcore, iff_of_true (hruns' hruns) trivial⟩
  | doreq =>
      obtain ⟨t, ht, hcore, hiff⟩ := doreq_spec part h
      exact .inr ⟨t, ht, hcore, hiff hruns⟩
  | interrupt ioerror => exact .inr (isr_spec part h hruns ioerror)

theorem boot_core (state : Nat → Bcache.Bstate) : Core (boot state) where
  nodup := nodup_nil
  old _ hr := nomatch hr
  unique _ hr := nomatch hr
  locked b := by
    refine iff_of_false Bool.false_ne_true ?_
    rintro (hheld | ⟨r, hr, -⟩)
    · cases hheld
    · cases hr
  held _ hr := nomatch hr
  ok _ hr := nomatch hr
  fresh _ hr := nomatch hr
  cur _ hid := nomatch hid
  isr _ := rfl

end Hddev

end Unixlite.Blkdev
