import Mathlib.Algebra.GroupWithZero.Nat
import Unixlite.Verified.Run

/-!
# Appending writers

Port of `regfd_t::write` from `fs/regfd.cc` for descriptors with `FDAPPEND`, and of
`inode_t::write` from `fs/reg.cc` under it, for any number of calls on one regular
file.  A call sleeps in `writemap` and in `getb` or `readb`; `rlock` does not sleep,
since an append takes the reader's side and nobody takes the other.  No call fails.

What the file holds is kept by position.  A block that `getb` does not find in the
cache comes with whatever was in the buffer.

`write` reads the size where it begins, in front of the lock, so an append that begins
while another one has bytes left overwrites them (`appends_iff`).
-/

namespace Unixlite.Fs

open Unixlite.Verified.Run List

/-! ## The file -/

abbrev Byte := BitVec 8

/-- `MINIXBSIZE`. -/
def BSIZE : Nat := 1024

/-- An `off_t` has 32 bits. -/
def OFFT : Nat := 2 ^ 32

/-- Where a call of `inode_t::write` is asleep. -/
inductive Place where
  | writemap
  | getb
  | readb
deriving DecidableEq

/-- A call of `inode_t::write` in its loop: `rest` is what is between `buf` and `ebuf`. -/
structure WriteCall where
  fd : Nat
  pos : Nat
  rest : List Byte
  len : Nat
  place : Place

/-- An `inode_t` with the descriptors and the calls on it. -/
structure Regfile where
  size : Nat
  data : Nat → Byte
  curpos : Nat → Nat
  calls : List WriteCall
  /-- History: the bytes of every call, in the order of the beginnings. -/
  begun : List (List Byte)

def WriteCall.chars (c : WriteCall) : Nat := min (BSIZE - c.pos % BSIZE) c.rest.length

namespace Regfile

def setcurpos (s : Regfile) (fd pos : Nat) : Regfile :=
  { s with curpos := fun i => if i = fd then pos else s.curpos i }

/-- `regfd_t::write` up to the first `writemap`. -/
def write (s : Regfile) (fd : Nat) (bytes : List Byte) : Regfile :=
  let s := { s.setcurpos fd s.size with begun := s.begun ++ [bytes] }
  if bytes = [] then s
  else { s with calls := ⟨fd, s.size, bytes, bytes.length, .writemap⟩ :: s.calls }

/-- The block is not read when all that the file has of it is overwritten. -/
def fetch (s : Regfile) (c : WriteCall) : Place :=
  if c.chars = BSIZE ∨ c.pos % BSIZE = 0 ∧ s.size ≤ (c.pos + c.chars) % OFFT then .getb
  else .readb

/-- `writemap` returns for the `k`th call. -/
def mapped (s : Regfile) (k : Nat) : Option Regfile :=
  match s.calls[k]? with
  | none => none
  | some c =>
      if c.place = .writemap then
        some { s with calls := s.calls.set k { c with place := s.fetch c } }
      else none

/-- The block of the file that `pos` is in comes with other bytes. -/
def fill (data : Nat → Byte) (pos : Nat) (old : Option (Nat → Byte)) : Nat → Byte := fun i =>
  match old with
  | none => data i
  | some old => if i / BSIZE = pos / BSIZE then old i else data i

/-- `memcpy(b->data + off, buf, chars)`. -/
def memcpy (data : Nat → Byte) (c : WriteCall) : Nat → Byte := fun i =>
  if c.pos ≤ i ∧ i < c.pos + c.chars then c.rest.getD (i - c.pos) 0 else data i

/-- From `memcpy` on to the next `writemap`, or to the end. -/
def copied (s : Regfile) (k : Nat) (c : WriteCall) (old : Option (Nat → Byte)) : Regfile :=
  let pos := (c.pos + c.chars) % OFFT
  let rest := c.rest.drop c.chars
  let s := { s with
    data := memcpy (fill s.data c.pos old) c
    size := if s.size < pos then pos else s.size }
  if rest = [] then
    { s.setcurpos c.fd ((s.curpos c.fd + c.len) % OFFT) with calls := s.calls.eraseIdx k }
  else { s with calls := s.calls.set k { c with pos := pos, rest := rest, place := .writemap } }

/-- `getb` or `readb` returns for the `k`th call; `old` is what the buffer holds when
`getb` has taken another one for the block. -/
def got (s : Regfile) (k : Nat) (old : Option (Nat → Byte)) : Option Regfile :=
  match s.calls[k]? with
  | none => none
  | some c =>
      match c.place, old with
      | .writemap, _ => none
      | .readb, some _ => none
      | _, _ => some (s.copied k c old)

inductive Event where
  | write (fd : Nat) (bytes : List Byte)
  | mapped (k : Nat)
  | got (k : Nat) (old : Option (Nat → Byte))

def step (s : Regfile) : Event → Option Regfile
  | .write fd bytes => some (s.write fd bytes)
  | .mapped k => s.mapped k
  | .got k old => s.got k old

/-- No call is in progress. -/
def quiet (size : BitVec 32) (data : Nat → Byte) (curpos : Nat → Nat) : Regfile where
  size := size.toNat
  data := data
  curpos := curpos
  calls := []
  begun := []

/-! ## What appending promises -/

/-- The bytes written by all calls. -/
def total (s : Regfile) : Nat := (s.begun.map List.length).sum

def contents (s : Regfile) (pos n : Nat) : List Byte :=
  (List.range n).map fun i => s.data (pos + i)

/-- The file has grown by what was written, and has it piece by piece in some order. -/
structure Appended (size₀ : Nat) (s : Regfile) : Prop where
  size : s.size = size₀ + s.total
  bytes : ∃ q : List (List Byte), q.Perm s.begun ∧ s.contents size₀ s.total = q.flatten

/-- An append begins when no other one has bytes left to write, and an `off_t` can hold
the size it comes to. -/
def Fine (s : Regfile) : Event → Prop
  | .write _ bytes => bytes ≠ [] → s.calls = [] ∧ s.size + bytes.length < OFFT
  | _ => True

/-! ## One chunk -/

variable {s t : Regfile} {c : WriteCall} {k : Nat} {old : Option (Nat → Byte)}
  {size₀ : Nat}

theorem chars_le (c : WriteCall) : c.chars ≤ c.rest.length := Nat.min_le_right _ _

theorem chars_pos (h : c.rest ≠ []) : 0 < c.chars := by
  have hlen : 0 < c.rest.length := length_pos_iff.mpr h
  have hmod : c.pos % BSIZE < BSIZE := Nat.mod_lt _ (by decide)
  unfold WriteCall.chars
  omega

/-- The call that goes on, and the others. -/
theorem exists_split {α : Type} {l : List α} {k : Nat} {c : α} (h : l[k]? = some c) :
    ∃ pre post, l = pre ++ c :: post ∧ l.eraseIdx k = pre ++ post ∧
      ∀ c', l.set k c' = pre ++ c' :: post := by
  obtain ⟨hk, hc⟩ := List.getElem?_eq_some_iff.mp h
  refine ⟨l.take k, l.drop (k + 1), ?_, eraseIdx_eq_take_drop_succ l k, fun c' => ?_⟩
  · rw [← hc, getElem_cons_drop, take_append_drop]
  · rw [set_eq_take_append_cons_drop, if_pos hk]

/-- The bytes that are left to write. -/
def left (s : Regfile) : Nat := (s.calls.map fun c => c.rest.length).sum

/-- What a chunk does to the size and to the calls. -/
theorem copied_spec (h : s.calls[k]? = some c) (old : Option (Nat → Byte)) :
    (s.copied k c old).begun = s.begun ∧
    (s.copied k c old).size = max s.size ((c.pos + c.chars) % OFFT) ∧
    ∃ pre post, s.calls = pre ++ c :: post ∧
      (c.rest.drop c.chars = [] ∧ (s.copied k c old).calls = pre ++ post ∨
        c.rest.drop c.chars ≠ [] ∧ (s.copied k c old).calls = pre ++
          ⟨c.fd, (c.pos + c.chars) % OFFT, c.rest.drop c.chars, c.len, .writemap⟩ :: post) := by
  obtain ⟨pre, post, hcalls, herase, hset⟩ := exists_split h
  have hmax : ∀ a b : Nat, (if a < b then b else a) = max a b := by
    intro a b
    split
    · omega
    · omega
  unfold copied
  dsimp only
  split
  · next hrest => exact ⟨rfl, hmax _ _, pre, post, hcalls, .inl ⟨hrest, herase⟩⟩
  · next hrest => exact ⟨rfl, hmax _ _, pre, post, hcalls, .inr ⟨hrest, hset _⟩⟩

theorem mapped_spec (h : s.mapped k = some t) :
    ∃ c pre post, s.calls = pre ++ c :: post ∧
      t = { s with calls := pre ++ { c with place := s.fetch c } :: post } := by
  unfold mapped at h
  split at h
  · cases h
  · next c hk =>
    obtain ⟨-, h⟩ := Option.ite_none_right_eq_some.mp h
    obtain ⟨pre, post, hcalls, -, hset⟩ := exists_split hk
    refine ⟨c, pre, post, hcalls, ?_⟩
    rw [← hset]
    exact (Option.some.inj h).symm

theorem got_spec (h : s.got k old = some t) :
    ∃ c, s.calls[k]? = some c ∧ t = s.copied k c old ∧ (old ≠ none → c.place = .getb) := by
  unfold got at h
  split at h
  · cases h
  · next c hk =>
    split at h
    · cases h
    · cases h
    · next hw hr =>
      refine ⟨c, hk, (Option.some.inj h).symm, fun hold => ?_⟩
      obtain ⟨g, rfl⟩ := Option.ne_none_iff_exists'.mp hold
      cases hplace : c.place with
      | writemap => exact absurd hplace hw
      | readb => exact absurd rfl (hr g hplace)
      | getb => rfl

variable {post pre : List WriteCall} {e : Event}

theorem left_split (h : s.calls = pre ++ post) :
    s.left = (pre.map fun c => c.rest.length).sum + (post.map fun c => c.rest.length).sum := by
  unfold left
  rw [h, map_append, sum_append]

theorem left_cons (h : s.calls = pre ++ c :: post) :
    s.left = (pre.map fun c => c.rest.length).sum +
      (c.rest.length + (post.map fun c => c.rest.length).sum) := by
  rw [left_split h, map_cons, sum_cons]

/-- A chunk takes what it writes off what is left. -/
theorem copied_left (h : s.calls[k]? = some c) (old : Option (Nat → Byte)) :
    (s.copied k c old).left + c.chars = s.left := by
  have hchars := chars_le c
  obtain ⟨-, -, pre, post, hcalls, ⟨hrest, hnew⟩ | ⟨-, hnew⟩⟩ := copied_spec h old
  · have hlen := drop_eq_nil_iff.mp hrest
    rw [left_split hnew, left_cons hcalls]
    omega
  · rw [left_cons hnew, left_cons hcalls, length_drop]
    omega

/-! ## What is so in any case -/

structure Base (size₀ : Nat) (s : Regfile) : Prop where
  size : s.size < OFFT
  rest : ∀ c ∈ s.calls, c.rest ≠ []
  pos : ∀ c ∈ s.calls, c.pos ≤ s.size
  /-- The file does not grow by more than what is written. -/
  room : s.size + s.left ≤ size₀ + s.total

/-- Two appends have got in each other's way, or an `off_t` has become too small. -/
inductive Bad (size₀ : Nat) (s : Regfile) : Prop where
  | short (h : s.size + s.left < size₀ + s.total)
  | behind (c : WriteCall) (hc : c ∈ s.calls) (h : c.pos < s.size)
  | two (h : 2 ≤ s.calls.length)
  | big (h : OFFT ≤ size₀ + s.total)

theorem quiet_base (size : BitVec 32) (data : Nat → Byte) (curpos : Nat → Nat) :
    Base size.toNat (quiet size data curpos) where
  size := size.isLt
  rest _ hc := nomatch hc
  pos _ hc := nomatch hc
  room := Nat.le_refl _

theorem write_total (s : Regfile) (fd : Nat) (bytes : List Byte) :
    (s.write fd bytes).total = s.total + bytes.length := by
  have hbegun : (s.write fd bytes).begun = s.begun ++ [bytes] := by
    unfold write
    split
    · rfl
    · rfl
  unfold total
  rw [hbegun, map_append, sum_append, map_singleton, sum_singleton]

theorem write_nil (s : Regfile) (fd : Nat) :
    (s.write fd []).calls = s.calls ∧ (s.write fd []).size = s.size := ⟨rfl, rfl⟩

theorem write_cons (s : Regfile) (fd : Nat) {bytes : List Byte} (h : bytes ≠ []) :
    (s.write fd bytes).calls = ⟨fd, s.size, bytes, bytes.length, .writemap⟩ :: s.calls ∧
      (s.write fd bytes).size = s.size := by
  unfold write
  rw [if_neg h]
  exact ⟨rfl, rfl⟩

/-- A write is begun with all its bytes left. -/
theorem write_left (s : Regfile) (fd : Nat) (bytes : List Byte) :
    (s.write fd bytes).left = s.left + bytes.length := by
  unfold left
  by_cases h : bytes = []
  · subst h
    rfl
  · rw [(write_cons s fd h).1, map_cons, sum_cons, Nat.add_comm]

theorem mapped_left (h : s.mapped k = some t) : t.left = s.left := by
  obtain ⟨c, pre, post, hcalls, rfl⟩ := mapped_spec h
  rw [left_cons hcalls]
  exact left_cons (c := { c with place := s.fetch c }) rfl

/-- Each call after a chunk is one from before, or the one that has gone on. -/
theorem copied_mem (h : s.calls[k]? = some c) (old : Option (Nat → Byte)) :
    ∀ d ∈ (s.copied k c old).calls, d ∈ s.calls ∨
      d.pos = (c.pos + c.chars) % OFFT ∧ d.rest = c.rest.drop c.chars ∧ d.rest ≠ [] ∧
        d.place = .writemap := by
  obtain ⟨-, -, pre, post, hcalls, ⟨-, hnew⟩ | ⟨hrest, hnew⟩⟩ := copied_spec h old
  · intro d hd
    rw [hnew] at hd
    rw [hcalls]
    exact .inl (perm_middle.mem_iff.mpr (mem_cons_of_mem c hd))
  · intro d hd
    rw [hnew] at hd
    rw [hcalls]
    rcases mem_cons.mp (perm_middle.mem_iff.mp hd) with rfl | hd
    · exact .inr ⟨rfl, rfl, hrest, rfl⟩
    · exact .inl (perm_middle.mem_iff.mpr (mem_cons_of_mem c hd))

theorem step_base (h : Base size₀ s) (hstep : s.step e = some t) : Base size₀ t := by
  have hsize := h.size
  have hroom := h.room
  cases e with
  | write fd bytes =>
      cases hstep
      have htotal := write_total s fd bytes
      have hleft := write_left s fd bytes
      by_cases hbytes : bytes = []
      · subst hbytes
        exact ⟨h.size, h.rest, h.pos, by rw [hleft, htotal, (write_nil s fd).2]; omega⟩
      · obtain ⟨hcalls, hsame⟩ := write_cons s fd hbytes
        refine ⟨hsame ▸ h.size, ?_, ?_, by rw [hleft, htotal, hsame]; omega⟩
        · rw [hcalls]
          exact forall_mem_cons.mpr ⟨hbytes, h.rest⟩
        · rw [hcalls, hsame]
          exact forall_mem_cons.mpr ⟨Nat.le_refl _, h.pos⟩
  | mapped k =>
      have hleft := mapped_left hstep
      obtain ⟨c, pre, post, hcalls, rfl⟩ := mapped_spec hstep
      have hmem : ∀ d ∈ pre ++ { c with place := s.fetch c } :: post,
          ∃ d' ∈ s.calls, d'.rest = d.rest ∧ d'.pos = d.pos := by
        intro d hd
        rw [hcalls]
        rcases mem_cons.mp (perm_middle.mem_iff.mp hd) with rfl | hd
        · exact ⟨c, by simp, rfl, rfl⟩
        · exact ⟨d, perm_middle.mem_iff.mpr (mem_cons_of_mem c hd), rfl, rfl⟩
      refine ⟨h.size, fun d hd => ?_, fun d hd => ?_, by rw [hleft]; exact h.room⟩
      · obtain ⟨d', hd', hrest, -⟩ := hmem d hd
        exact hrest ▸ h.rest d' hd'
      · obtain ⟨d', hd', -, hpos⟩ := hmem d hd
        exact hpos ▸ h.pos d' hd'
  | got k old =>
      obtain ⟨c, hk, rfl, -⟩ := got_spec hstep
      have hc := mem_of_getElem? hk
      have hpos := h.pos c hc
      have hleft := copied_left hk old
      obtain ⟨hbegun, hgrow, -⟩ := copied_spec hk old
      have hmod : (c.pos + c.chars) % OFFT ≤ c.pos + c.chars := Nat.mod_le _ _
      have hlt : (c.pos + c.chars) % OFFT < OFFT := Nat.mod_lt _ (by decide)
      constructor
      · rw [hgrow]
        omega
      · intro d hd
        rcases copied_mem hk old d hd with hd | ⟨-, -, hrest, -⟩
        · exact h.rest d hd
        · exact hrest
      · intro d hd
        rcases copied_mem hk old d hd with hd | ⟨hd, -⟩
        · have := h.pos d hd
          omega
        · omega
      · unfold total
        rw [hgrow, hbegun]
        have hroom : s.size + s.left ≤ size₀ + (s.begun.map List.length).sum := h.room
        omega

/-! ## What is lost stays lost -/

/-- A chunk that comes when the file is short, or from behind the end, or while another
call stands at the end. -/
theorem got_bad (h : Base size₀ s) (hbad : Bad size₀ s) (hk : s.calls[k]? = some c)
    (old : Option (Nat → Byte)) : Bad size₀ (s.copied k c old) := by
  have hc := mem_of_getElem? hk
  have hpos := h.pos c hc
  have hchars := chars_pos (h.rest c hc)
  have hleft := copied_left hk old
  have hroom := h.room
  obtain ⟨hbegun, hgrow, pre, post, hcalls, hnew⟩ := copied_spec hk old
  have hmod : (c.pos + c.chars) % OFFT ≤ c.pos + c.chars := Nat.mod_le _ _
  have htotal : (s.copied k c old).total = s.total := by
    unfold total
    rw [hbegun]
  have hshort : s.size + s.left < size₀ + s.total ∨
      (s.copied k c old).size < s.size + c.chars → Bad size₀ (s.copied k c old) := by
    intro h
    refine .short ?_
    omega
  -- the others are still there
  have hothers : ∀ d ∈ pre ++ post, d ∈ (s.copied k c old).calls := by
    intro d hd
    rcases hnew with ⟨-, hnew⟩ | ⟨-, hnew⟩
    · exact hnew ▸ hd
    · rw [hnew]
      exact perm_middle.mem_iff.mpr (mem_cons_of_mem _ hd)
  cases hbad with
  | short h => exact hshort (.inl h)
  | big h => exact .big (htotal ▸ h)
  | behind d hd hlt =>
      rw [hcalls] at hd
      rcases mem_cons.mp (perm_middle.mem_iff.mp hd) with rfl | hd
      · exact hshort (.inr (by omega))
      · exact .behind d (hothers d hd) (by omega)
  | two h2 =>
      by_cases hover : (s.copied k c old).size < s.size + c.chars
      · exact hshort (.inr hover)
      · -- it has written at the end, and the other one is behind
        have hother : ∃ d, d ∈ pre ++ post := by
          refine exists_mem_of_length_pos ?_
          rw [hcalls, perm_middle.length_eq, length_cons] at h2
          omega
        obtain ⟨d, hd⟩ := hother
        have hdpos : d.pos ≤ s.size := h.pos d (by
          rw [hcalls]
          exact perm_middle.mem_iff.mpr (mem_cons_of_mem c hd))
        exact .behind d (hothers d hd) (by omega)

theorem step_bad (h : Base size₀ s) (hbad : Bad size₀ s)
    (hstep : s.step e = some t) : Bad size₀ t := by
  cases e with
  | write fd bytes =>
      cases hstep
      have htotal := write_total s fd bytes
      have hleft := write_left s fd bytes
      have hsame : (s.write fd bytes).size = s.size ∧ s.calls.Sublist (s.write fd bytes).calls := by
        by_cases hbytes : bytes = []
        · subst hbytes
          exact ⟨rfl, List.Sublist.refl _⟩
        · obtain ⟨hcalls, hsize⟩ := write_cons s fd hbytes
          exact ⟨hsize, hcalls ▸ sublist_cons_self _ _⟩
      obtain ⟨hsize, hsub⟩ := hsame
      cases hbad with
      | short h => exact .short (by omega)
      | behind c hc h => exact .behind c (hsub.subset hc) (hsize ▸ h)
      | two h => exact .two (Nat.le_trans h hsub.length_le)
      | big h => exact .big (by omega)
  | mapped k =>
      have hleft := mapped_left hstep
      obtain ⟨c, pre, post, hcalls, rfl⟩ := mapped_spec hstep
      cases hbad with
      | short h => exact .short (by rw [hleft]; exact h)
      | behind d hd h =>
          rw [hcalls] at hd
          rcases mem_cons.mp (perm_middle.mem_iff.mp hd) with rfl | hd
          · exact .behind { d with place := s.fetch d } (by simp) h
          · exact .behind d (perm_middle.mem_iff.mpr (mem_cons_of_mem _ hd)) h
      | two h =>
          refine .two ?_
          rw [hcalls, perm_middle.length_eq] at h
          rw [perm_middle.length_eq]
          exact h
      | big h => exact .big h
  | got k old =>
      obtain ⟨c, hk, rfl, -⟩ := got_spec hstep
      exact got_bad h hbad hk old

/-- An append that should not begin. -/
theorem start_bad (h : Base size₀ s) (hfine : ¬ Fine s e)
    (hstep : s.step e = some t) : Bad size₀ t := by
  cases e with
  | mapped k => exact absurd trivial hfine
  | got k old => exact absurd trivial hfine
  | write fd bytes =>
      cases hstep
      have hbytes : bytes ≠ [] := fun hnil => hfine fun hne => absurd hnil hne
      obtain ⟨hcalls, -⟩ := write_cons s fd hbytes
      have hroom := h.room
      by_cases hquiet : s.calls = []
      · refine .big ?_
        rw [write_total]
        by_contra hsmall
        exact hfine fun _ => ⟨hquiet, by omega⟩
      · refine .two ?_
        rw [hcalls, length_cons]
        exact Nat.succ_le_succ (length_pos_iff.mpr hquiet)

theorem exec_bad {es : List Event} (h : Base size₀ s) (hbad : Bad size₀ s)
    (hexec : exec step s es = some t) : Bad size₀ t := by
  induction es generalizing s with
  | nil =>
      cases hexec
      exact hbad
  | cons e es ih =>
      obtain ⟨u, hu, hexec⟩ := Option.bind_eq_some_iff.mp hexec
      exact ih (step_base h hu) (step_bad h hbad hu) hexec

/-- A run in which nothing is lost has only fine steps. -/
theorem each_fine {es : List Event} (h : Base size₀ s) (hexec : exec step s es = some t)
    (hgood : ¬ Bad size₀ t) : Each step Fine s es := by
  induction es generalizing s with
  | nil => trivial
  | cons e es ih =>
      obtain ⟨u, hu, hexec⟩ := Option.bind_eq_some_iff.mp hexec
      have hbase := step_base h hu
      refine ⟨?_, fun v hv => ?_⟩
      · by_contra hfine
        exact hgood (exec_bad hbase (start_bad h hfine hu) hexec)
      · cases hu.symm.trans hv
        exact ih hbase hexec

/-- At the end the file has its size, or is short. -/
theorem not_bad (hsize : s.size < OFFT) (hdone : s.calls = []) (h : s.size = size₀ + s.total) :
    ¬ Bad size₀ s := by
  intro hbad
  cases hbad with
  | short hshort => omega
  | behind c hc _ =>
      rw [hdone] at hc
      cases hc
  | two htwo =>
      rw [hdone] at htwo
      cases htwo
  | big hbig => omega

/-! ## One append after another -/

/-- One call at most, at the end of the file, which has all bytes that were written. -/
structure Serial (size₀ : Nat) (s : Regfile) : Prop where
  one : s.calls.length ≤ 1
  pos : ∀ c ∈ s.calls, c.pos = s.size
  aligned : ∀ c ∈ s.calls, c.place = .getb → c.pos % BSIZE = 0
  rest : ∀ c ∈ s.calls, c.rest ≠ []
  room : s.size + s.left < OFFT
  bytes : ∃ out, s.begun.flatten = out ++ s.calls.flatMap WriteCall.rest ∧
    s.size = size₀ + out.length ∧ s.contents size₀ out.length = out

theorem quiet_serial (size : BitVec 32) (data : Nat → Byte) (curpos : Nat → Nat) :
    Serial size.toNat (quiet size data curpos) where
  one := Nat.zero_le 1
  pos _ hc := nomatch hc
  aligned _ hc := nomatch hc
  rest _ hc := nomatch hc
  room := size.isLt
  bytes := ⟨[], rfl, rfl, rfl⟩

/-- A block that is not read has nothing of the file in front of the position. -/
theorem fetch_getb (h : s.fetch c = .getb) : c.pos % BSIZE = 0 := by
  unfold fetch at h
  split at h
  · next hwhole =>
    rcases hwhole with hchars | ⟨hoff, -⟩
    · have hle : c.chars ≤ BSIZE - c.pos % BSIZE := Nat.min_le_left _ _
      have hpos : 0 < BSIZE := by decide
      omega
    · exact hoff
  · cases h

/-- A chunk leaves alone what is in front of it. -/
theorem memcpy_before {data : Nat → Byte} (hold : old ≠ none → c.pos % BSIZE = 0) {i : Nat}
    (hi : i < c.pos) : memcpy (fill data c.pos old) c i = data i := by
  unfold memcpy fill
  rw [if_neg fun h => Nat.not_le.mpr hi h.1]
  cases old with
  | none => rfl
  | some g =>
      have hoff := hold (Option.some_ne_none g)
      refine if_neg fun hblock => ?_
      have hi' := Nat.div_add_mod i BSIZE
      have hpos := Nat.div_add_mod c.pos BSIZE
      rw [hblock] at hi'
      omega

theorem memcpy_at (data : Nat → Byte) {i : Nat} (hi : i < c.chars) :
    memcpy data c (c.pos + i) = c.rest.getD i 0 := by
  unfold memcpy
  rw [if_pos ⟨Nat.le_add_right _ _, Nat.add_lt_add_left hi _⟩, Nat.add_sub_cancel_left]

/-- What the file has once a chunk is in it. -/
theorem copied_contents (hpos : c.pos = s.size) (hold : old ≠ none → c.pos % BSIZE = 0) {n : Nat}
    (hn : s.size = size₀ + n) :
    (s.copied k c old).contents size₀ (n + c.chars) =
      s.contents size₀ n ++ c.rest.take c.chars := by
  have hdata : (s.copied k c old).data = memcpy (fill s.data c.pos old) c := by
    unfold copied
    dsimp only
    split
    · rfl
    · rfl
  unfold contents
  rw [hdata, range_add, map_append, map_map]
  refine congrArg₂ _ (map_congr_left fun i hi => ?_) ?_
  · have hlt := mem_range.mp hi
    exact memcpy_before hold (by omega)
  · refine ext_getElem ?_ fun i hi hi' => ?_
    · rw [length_map, length_range, length_take, Nat.min_eq_left (chars_le c)]
    · have hlt : i < c.chars := by simpa using hi
      have hlen : i < c.rest.length := Nat.lt_of_lt_of_le hlt (chars_le c)
      rw [getElem_map, getElem_range, getElem_take]
      change memcpy _ c (size₀ + (n + i)) = _
      rw [← Nat.add_assoc, ← hn, ← hpos, memcpy_at _ hlt, getD_eq_getElem?_getD,
        List.getElem?_eq_getElem hlen, Option.getD_some]

/-- The only call there is. -/
theorem Serial.single (h : Serial size₀ s)
    (hcalls : s.calls = pre ++ c :: post) : pre = [] ∧ post = [] := by
  have hone := h.one
  rw [hcalls, perm_middle.length_eq, length_cons, length_append] at hone
  exact ⟨length_eq_zero_iff.mp (by omega), length_eq_zero_iff.mp (by omega)⟩

theorem got_serial (h : Serial size₀ s) (hk : s.calls[k]? = some c) (hold : old ≠ none →
    c.place = .getb) : Serial size₀ (s.copied k c old) := by
  have hc := mem_of_getElem? hk
  have hpos := h.pos c hc
  have hle := chars_le c
  have hleft := copied_left hk old
  have hroom := h.room
  obtain ⟨out, hflat, hsize, hout⟩ := h.bytes
  have hcontents := copied_contents (k := k) hpos (fun hne => h.aligned c hc (hold hne)) hsize
  obtain ⟨hbegun, hgrow, pre, post, hcalls, hnew⟩ := copied_spec hk old
  obtain ⟨rfl, rfl⟩ := h.single hcalls
  have hmod : (c.pos + c.chars) % OFFT = c.pos + c.chars := Nat.mod_eq_of_lt (by omega)
  have hflat' : (s.copied k c old).begun.flatten = (out ++ c.rest.take c.chars) ++
      c.rest.drop c.chars := by
    rw [hbegun, hflat, hcalls, append_assoc, take_append_drop]
    simp
  have hbytes : (s.copied k c old).calls.flatMap WriteCall.rest = c.rest.drop c.chars →
      ∃ out', (s.copied k c old).begun.flatten =
        out' ++ (s.copied k c old).calls.flatMap WriteCall.rest ∧
        (s.copied k c old).size = size₀ + out'.length ∧
        (s.copied k c old).contents size₀ out'.length = out' := by
    intro heq
    have hlen : (out ++ c.rest.take c.chars).length = out.length + c.chars := by
      rw [length_append, length_take, Nat.min_eq_left hle]
    refine ⟨out ++ c.rest.take c.chars, heq ▸ hflat', ?_, ?_⟩
    · rw [hgrow, hlen]
      omega
    · rw [hlen, hcontents, hout]
  rcases hnew with ⟨hnil, hnew⟩ | ⟨hne, hnew⟩
  · have hmem : ∀ d, d ∉ (s.copied k c old).calls := by
      intro d hd
      rw [hnew] at hd
      cases hd
    refine ⟨?_, fun d hd => absurd hd (hmem d), fun d hd => absurd hd (hmem d),
      fun d hd => absurd hd (hmem d), ?_, hbytes ?_⟩
    · rw [hnew]
      exact Nat.zero_le 1
    · omega
    · rw [hnew, hnil]
      rfl
  · refine ⟨?_, ?_, ?_, ?_, ?_, hbytes ?_⟩
    · rw [hnew]
      exact Nat.le_refl 1
    · intro d hd
      rw [hnew] at hd
      cases mem_singleton.mp hd
      dsimp only
      omega
    · intro d hd hplace
      rw [hnew] at hd
      cases mem_singleton.mp hd
      cases hplace
    · intro d hd
      rw [hnew] at hd
      cases mem_singleton.mp hd
      exact hne
    · omega
    · rw [hnew]
      exact append_nil _

theorem step_serial (h : Serial size₀ s) (hfine : Fine s e)
    (hstep : s.step e = some t) : Serial size₀ t := by
  cases e with
  | write fd bytes =>
      cases hstep
      obtain ⟨out, hflat, hsize, hout⟩ := h.bytes
      by_cases hbytes : bytes = []
      · subst hbytes
        refine ⟨h.one, h.pos, h.aligned, h.rest, h.room, out, ?_, hsize, hout⟩
        change (s.begun ++ [[]]).flatten = _
        rw [flatten_append, hflat]
        exact append_nil _
      · obtain ⟨hnone, hroom⟩ := hfine hbytes
        obtain ⟨hcalls, hsame⟩ := write_cons s fd hbytes
        have hmem : ∀ d ∈ (s.write fd bytes).calls,
            d = ⟨fd, s.size, bytes, bytes.length, .writemap⟩ := by
          intro d hd
          rw [hcalls, hnone] at hd
          exact mem_singleton.mp hd
        have hleft := write_left s fd bytes
        have hzero : s.left = 0 := by
          unfold left
          rw [hnone]
          rfl
        have hsplit : (s.write fd bytes).begun = s.begun ++ [bytes] ∧
            (s.write fd bytes).data = s.data := by
          unfold write
          rw [if_neg hbytes]
          exact ⟨rfl, rfl⟩
        refine ⟨?_, ?_, ?_, ?_, by omega, out, ?_, hsame ▸ hsize, ?_⟩
        · rw [hcalls, hnone]
          exact Nat.le_refl 1
        · intro d hd
          rw [hmem d hd, hsame]
        · intro d hd hplace
          rw [hmem d hd] at hplace
          cases hplace
        · intro d hd
          rw [hmem d hd]
          exact hbytes
        · rw [hsplit.1, hcalls, hnone, flatten_append, hflat, hnone]
          simp
        · unfold contents
          rw [hsplit.2]
          exact hout
  | mapped k =>
      have hleft := mapped_left hstep
      obtain ⟨c, pre, post, hcalls, rfl⟩ := mapped_spec hstep
      obtain ⟨rfl, rfl⟩ := h.single hcalls
      obtain ⟨out, hflat, hsize, hout⟩ := h.bytes
      have hc : c ∈ s.calls := hcalls ▸ mem_singleton_self c
      have hmem : ∀ d ∈ [{ c with place := s.fetch c }], d = { c with place := s.fetch c } :=
        fun d hd => mem_singleton.mp hd
      refine ⟨Nat.le_refl 1, ?_, ?_, ?_, ?_, out, ?_, hsize, hout⟩
      · intro d hd
        rw [hmem d hd]
        exact h.pos c hc
      · intro d hd hplace
        rw [hmem d hd] at hplace ⊢
        exact fetch_getb hplace
      · intro d hd
        rw [hmem d hd]
        exact h.rest c hc
      · rw [hleft]
        exact h.room
      · rw [hflat, hcalls]
        rfl
  | got k old =>
      obtain ⟨c, hk, rfl, hold⟩ := got_spec hstep
      exact got_serial h hk hold

/-- At the end, a file on which every append has been alone has all of them. -/
theorem Serial.appended (h : Serial size₀ s) (hdone : s.calls = []) : Appended size₀ s := by
  obtain ⟨out, hflat, hsize, hout⟩ := h.bytes
  rw [hdone, flatMap_nil, append_nil] at hflat
  have htotal : s.total = out.length := by
    unfold total
    rw [← length_flatten, hflat]
  exact ⟨htotal ▸ hsize, s.begun, List.Perm.refl _, by rw [htotal, hout, hflat]⟩

/-- **Appending writers.**  When all calls have returned, the file has grown by what was
written and has each piece of it, exactly when every append that writes something began
with no other one in progress and with room in an `off_t`. -/
theorem appends_iff {size : BitVec 32} {data : Nat → Byte} {curpos : Nat → Nat}
    {es : List Event} (hexec : exec step (quiet size data curpos) es = some t)
    (hdone : t.calls = []) :
    Appended size.toNat t ↔ Each step Fine (quiet size data curpos) es := by
  have hbase := quiet_base size data curpos
  constructor
  · intro happ
    have hlast : Base size.toNat t :=
      (always_iff_exec _ _).mp (always_of_step (fun s e t => step_base) es hbase) es [] t
        (List.append_nil es).symm hexec
    exact each_fine hbase hexec (not_bad hlast.size hdone happ.size)
  · intro hfine
    have hserial := always_of_each (fun s e t hs hf ht => step_serial hs hf ht)
      (quiet_serial size data curpos) hfine
    have hlast : Serial size.toNat t :=
      (always_iff_exec _ _).mp hserial es [] t (List.append_nil es).symm hexec
    exact hlast.appended hdone

/-- One append of one byte. -/
theorem appends_one : ∃ t, exec step (quiet 0 (fun _ => 0) fun _ => 0)
    [.write 0 [7], .mapped 0, .got 0 none] = some t ∧ Appended (0 : BitVec 32).toNat t := by
  have hdone : (exec step (quiet 0 (fun _ => 0) fun _ => 0)
      [.write 0 [7], .mapped 0, .got 0 none]).map (fun t => t.calls.length) = some 0 := by
    decide
  obtain ⟨t, ht, hlen⟩ := Option.map_eq_some_iff.mp hdone
  have hfine : Each step Fine (quiet 0 (fun _ => 0) fun _ => 0)
      [.write 0 [7], .mapped 0, .got 0 none] :=
    ⟨fun _ => ⟨rfl, by decide⟩, fun _ _ => ⟨trivial, fun _ _ => ⟨trivial, fun _ _ => trivial⟩⟩⟩
  exact ⟨t, ht, (appends_iff ht (List.length_eq_zero_iff.mp hlen)).mpr hfine⟩

/-- Two appends of one byte, the second while the first sleeps in `writemap`. -/
theorem append_over_append : ∃ es t,
    exec step (quiet 0 (fun _ => 0) fun _ => 0) es = some t ∧ t.calls = [] ∧ ¬ Appended 0 t := by
  refine ⟨[.write 0 [7], .write 1 [8], .mapped 0, .mapped 1, .got 0 none, .got 0 none], _,
    rfl, rfl, fun h => ?_⟩
  have hsize : (1 : Nat) = 0 + 2 := h.size
  cases hsize

end Regfile

end Unixlite.Fs
