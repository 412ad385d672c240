import Unixlite.Mm.Mmap
import Unixlite.Verified.Partial

/-!
# Loading a program

Port of `matchelf` and `loadelf` from `kern/exec.cc`, of the headers of `boot/elf.h` and
of what `inode_t::read` gives them.  A program is loaded into an address space that
`flush` has emptied (`Space.flushed`).
-/

namespace Unixlite.Kern

open Unixlite.Mm Unixlite.Verified.Partial

/-! ## The headers -/

/-- Memory, or the content of a file. -/
abbrev Bytes := Nat → BitVec 8

def half (b : Bytes) (o : Nat) : Nat := (b o).toNat + 2 ^ 8 * (b (o + 1)).toNat

def word (b : Bytes) (o : Nat) : Nat := half b o + 2 ^ 16 * half b (o + 2)

def PTLOAD : Nat := 1
def PFX : BitVec 32 := 1
def PFW : BitVec 32 := 2
def PFR : BitVec 32 := 4

/-- `elfphdr_t`; the physical address and the alignment are never read. -/
structure Elfphdr where
  type : Nat
  offset : Nat
  vaddr : Nat
  filesz : Nat
  memsz : Nat
  flags : BitVec 32

def elfphdr (b : Bytes) (o : Nat) : Elfphdr where
  type := word b o
  offset := word b (o + 4)
  vaddr := word b (o + 8)
  filesz := word b (o + 16)
  memsz := word b (o + 20)
  flags := BitVec.ofNat 32 (word b (o + 24))

/-- `sizeof(elfphdr_t)`. -/
def PHDRSIZE : Nat := 32

-- the fields of `elfhdr_t` that are read
def ehtype (head : Bytes) : Nat := half head 16
def ehmachine (head : Bytes) : Nat := half head 18
def ehentry (head : Bytes) : Nat := word head 24
def ehphoff (head : Bytes) : Nat := word head 28
def ehphentsize (head : Bytes) : Nat := half head 42
def ehphnum (head : Bytes) : Nat := half head 44

def matchelf (head : Bytes) : Bool :=
  head 0 == 0x7f && head 1 == 0x45 && head 2 == 0x4c && head 3 == 0x46 && head 4 == 1 &&
    head 5 == 1 && ehtype head == 2 && (ehmachine head == 3 || ehmachine head == 6) &&
    decide (ehphnum head ≤ 3) && ehphentsize head == PHDRSIZE

/-! ## The file -/

/-- An inode, as far as it is read here; `error` is what reading a block fails with. -/
structure Exe where
  ino : Nat
  size : Nat
  data : Bytes
  error : Option Int

/-- `inode_t::read`: the error, or how much has been read, and what is in the buffer. -/
def Exe.read (exe : Exe) (pos : Nat) (buf : Bytes) (len : Nat) : Int × Bytes :=
  if pos ≥ exe.size then (0, buf)
  else
    match exe.error with
    | some e => (e, buf)
    | none =>
        let n := min (exe.size - pos) len
        (n, fun i => if i < n then exe.data (pos + i) else buf i)

/-! ## Loading -/

/-- The program headers that `loadelf` gets, or its error.  `stack` is what is in the
array before: a file that ends in the headers does not fill it. -/
def phdrs (exe : Exe) (head stack : Bytes) : Except Int (List Elfphdr) :=
  if ehphnum head > 6 then .error ENOEXEC
  else
    let (e, ph) := exe.read (ehphoff head) stack (PHDRSIZE * ehphnum head)
    if e < 0 then .error e
    else .ok ((List.range (ehphnum head)).map fun i => elfphdr ph (PHDRSIZE * i))

/-- The protection for these flags. -/
def protof (flags : BitVec 32) : BitVec 32 :=
  (if flags &&& PFR ≠ 0 then PROTR else 0) ||| (if flags &&& PFW ≠ 0 then PROTW else 0) |||
    (if flags &&& PFX ≠ 0 then PROTX else 0)

/-- `bss` and `ebss`. -/
def Elfphdr.bss (p : Elfphdr) : Nat := wrap (p.vaddr + p.filesz)
def Elfphdr.ebss (p : Elfphdr) : Nat := wrap (p.vaddr + p.memsz)

/-- The loop of `loadelf`. -/
def loadphdrs (exe : Exe) (s : Space) : List Elfphdr → Except Stuck (Int × Space)
  | [] => .ok (0, s)
  | p :: ps =>
      if p.type ≠ PTLOAD then loadphdrs exe s ps
      else do
        let prot := protof p.flags
        let (e, s) ← s.mmap p.vaddr p.bss prot (some exe.ino) p.offset
        if e ≠ 0 then .ok (e, s)
        else if p.flags &&& PFX ≠ 0 then loadphdrs exe s ps
        else
          let s ← s.clearfrag p.bss (pageup p.bss)
          let (e, s) ← s.anonmap (pageup p.bss) (pageup p.ebss) prot
          if e ≠ 0 then .ok (e, s) else loadphdrs exe s ps

/-- `loadelf`: the error, the entry and the address space. -/
def loadelf (exe : Exe) (head stack : Bytes) (s : Space) : Except Stuck (Int × Nat × Space) :=
  match phdrs exe head stack with
  | .error e => .ok (e, 0, s)
  | .ok ps => do
      let (e, s) ← loadphdrs exe s ps
      if e ≠ 0 then .ok (e, 0, s) else .ok (0, ehentry head, s)

/-- What `flush` leaves: no segment, no page, and some page tables. -/
def flushed (tables free : Nat → Bool) : Space := ⟨[], ⟨tables, fun _ => false, free⟩⟩

/-! ## What is loaded -/

/-- From these headers on, segments can be mapped: they end above their start and below
the kernel; the data ends inside of a page that is not there yet, there is memory for
this page, and the rest of the segment does not end before it.  A header that cannot be
paged on demand ends the loading. -/
def Fits (pgtbl : Pgtbl) : List Elfphdr → Prop
  | [] => True
  | p :: ps =>
      if p.type ≠ PTLOAD then Fits pgtbl ps
      else
        p.vaddr ≤ p.bss ∧ (pagemod p.vaddr ≠ pagemod p.offset ∨
          Maps p.vaddr p.bss ∧
            if p.flags &&& PFX ≠ 0 then Fits pgtbl ps
            else
              p.bss < pageup p.bss ∧ pgtbl.room p.bss = true ∧
                pgtbl.pte (pagediv p.bss) = false ∧ pageup p.bss ≤ pageup p.ebss ∧
                pageup p.ebss ≤ USEREND ∧ Fits (pgtbl.supplied p.bss) ps)

/-- The headers are read, or are not there to be read, and fit. -/
def Loadable (exe : Exe) (head stack : Bytes) (pgtbl : Pgtbl) : Prop :=
  ∀ ps, phdrs exe head stack = .ok ps → Fits pgtbl ps

variable {exe : Exe} {s : Space} {p : Elfphdr} {ps : List Elfphdr}

/-- The body of the loop. -/
theorem loadphdrs_cons (hload : p.type = PTLOAD) : loadphdrs exe s (p :: ps) =
    (s.mmap p.vaddr p.bss (protof p.flags) (some exe.ino) p.offset >>= fun r =>
      if r.1 ≠ 0 then .ok r
      else if p.flags &&& PFX ≠ 0 then loadphdrs exe r.2 ps
      else r.2.clearfrag p.bss (pageup p.bss) >>= fun s =>
        s.anonmap (pageup p.bss) (pageup p.ebss) (protof p.flags) >>= fun r =>
          if r.1 ≠ 0 then .ok r else loadphdrs exe r.2 ps) := by
  show (if p.type ≠ PTLOAD then _ else _) = _
  rw [if_neg (not_not.mpr hload)]

theorem pagedown_le (v : Nat) : pagedown v ≤ v := by
  unfold pagedown PAGESIZE
  omega

theorem pagedown_pageup (v : Nat) : pagedown (pageup v) = pageup v := by
  unfold pageup pagedown PAGESIZE
  omega

theorem pageup_pageup (v : Nat) : pageup (pageup v) = pageup v := by
  unfold pageup pagedown wrap PAGESIZE
  omega

/-- The segment of the file for a header, and the one of zeros. -/
def Elfphdr.seg (p : Elfphdr) (ino : Nat) : Seg :=
  ⟨pagedown p.vaddr, pageup p.bss, protof p.flags, some ino, pagedown p.offset⟩

def Elfphdr.bssseg (p : Elfphdr) : Seg :=
  ⟨pageup p.bss, pageup p.ebss, protof p.flags, none, 0⟩

/-- The address space with the segment for a header, and then with both. -/
def mapped (exe : Exe) (s : Space) (p : Elfphdr) : Space :=
  { s with segq := insertlt s.segq (p.seg exe.ino) }

def filled (exe : Exe) (s : Space) (p : Elfphdr) : Space :=
  ⟨insertlt (mapped exe s p).segq p.bssseg, s.pgtbl.supplied p.bss⟩

theorem Sorted.mapped (h : Sorted s.segq) : Sorted (mapped exe s p).segq := h.insertlt _

theorem Sorted.filled (h : Sorted s.segq) : Sorted (filled exe s p).segq :=
  (Sorted.mapped h).insertlt _

/-- The end of the data is cleared in the segment that has just been mapped. -/
theorem clearfrag_mapped (hsorted : Sorted s.segq) (hle : p.vaddr ≤ p.bss) :
    (mapped exe s p).clearfrag p.bss (pageup p.bss) =
      if ¬ p.bss < pageup p.bss then .error .assertion
      else if !s.pgtbl.room p.bss then .error .outofmem
      else if s.pgtbl.pte (pagediv p.bss) then .error .assertion
      else .ok { mapped exe s p with pgtbl := s.pgtbl.supplied p.bss } := by
  by_cases hlt : p.bss < pageup p.bss
  · rw [if_neg (not_not.mpr hlt)]
    have hmem : p.seg exe.ino ∈ (mapped exe s p).segq := mem_insertlt.mpr (.inl rfl)
    have hin : (p.seg exe.ino).start ≤ p.bss ∧ p.bss < (p.seg exe.ino).stop :=
      ⟨Nat.le_trans (pagedown_le p.vaddr) hle, hlt⟩
    exact Space.clearfrag_eq _ (Sorted.mapped hsorted) hmem hin hlt
  · rw [if_pos hlt]
    unfold Space.clearfrag
    rw [if_pos hlt]

/-- What one header comes to. -/
theorem loadphdrs_eq (hload : p.type = PTLOAD) (hsorted : Sorted s.segq) :
    loadphdrs exe s (p :: ps) =
      if ¬ p.vaddr ≤ p.bss then .error .assertion
      else if pagemod p.vaddr ≠ pagemod p.offset then .ok (EINVAL, s)
      else if ¬ Maps p.vaddr p.bss then .error .assertion
      else if p.flags &&& PFX ≠ 0 then loadphdrs exe (mapped exe s p) ps
      else if ¬ p.bss < pageup p.bss then .error .assertion
      else if !s.pgtbl.room p.bss then .error .outofmem
      else if s.pgtbl.pte (pagediv p.bss) then .error .assertion
      else if ¬ pageup p.bss ≤ pageup p.ebss then .error .assertion
      else if ¬ pageup p.ebss ≤ USEREND then .error .assertion
      else loadphdrs exe (filled exe s p) ps := by
  rw [loadphdrs_cons hload, Space.mmap_eq, ite_error_bind]
  refine ite_congr rfl (fun _ => rfl) fun hle => ?_
  by_cases hoffset : pagemod p.vaddr ≠ pagemod p.offset
  · rw [if_pos ⟨rfl, hoffset⟩, if_pos hoffset]
    rfl
  rw [if_neg fun h => hoffset h.2, if_neg hoffset]
  by_cases hmaps : Maps p.vaddr p.bss
  · rw [if_pos hmaps, if_neg (not_not.mpr hmaps)]
    show (if p.flags &&& PFX ≠ 0 then loadphdrs exe (mapped exe s p) ps
      else (mapped exe s p).clearfrag p.bss (pageup p.bss) >>= fun s =>
        s.anonmap (pageup p.bss) (pageup p.ebss) (protof p.flags) >>= fun r =>
          if r.1 ≠ 0 then .ok r else loadphdrs exe r.2 ps) = _
    refine ite_congr rfl (fun _ => rfl) fun _ => ?_
    rw [clearfrag_mapped hsorted (not_not.mp hle), ite_error_bind, ite_error_bind, ite_error_bind]
    refine ite_congr rfl (fun _ => rfl) fun _ => ?_
    refine ite_congr rfl (fun _ => rfl) fun _ => ?_
    refine ite_congr rfl (fun _ => rfl) fun _ => ?_
    show (Space.anonmap _ (pageup p.bss) (pageup p.ebss) (protof p.flags) >>= fun r =>
      if r.1 ≠ 0 then .ok r else loadphdrs exe r.2 ps) = _
    unfold Space.anonmap
    rw [Space.mmap_eq, pagedown_pageup, pageup_pageup, ite_error_bind]
    refine ite_congr rfl (fun _ => rfl) fun hbss => ?_
    have hiff : Maps (pageup p.bss) (pageup p.ebss) ↔ pageup p.ebss ≤ USEREND := by
      unfold Maps
      rw [pagedown_pageup, pageup_pageup]
      exact and_iff_right (not_not.mp hbss)
    by_cases hend : pageup p.ebss ≤ USEREND
    · rw [if_pos (hiff.mpr hend), if_neg (not_not.mpr hend)]
      rfl
    · rw [if_neg (mt hiff.mp hend), if_pos hend]
      rfl
  · rw [if_neg hmaps, if_pos hmaps]
    rfl

/-- The loop comes back if and only if the headers fit. -/
theorem loadphdrs_returns (exe : Exe) (s : Space) (ps : List Elfphdr) (hsorted : Sorted s.segq) :
    (∃ r, loadphdrs exe s ps = .ok r) ↔ Fits s.pgtbl ps := by
  induction ps generalizing s with
  | nil => exact iff_of_true ⟨_, rfl⟩ trivial
  | cons p ps ih =>
      unfold Fits
      by_cases hload : p.type = PTLOAD
      · rw [loadphdrs_eq hload hsorted, if_neg (not_not.mpr hload), ite_error_returns, not_not]
        refine and_congr_right fun _ => ?_
        by_cases hoffset : pagemod p.vaddr ≠ pagemod p.offset
        · rw [if_pos hoffset]
          exact iff_of_true ⟨_, rfl⟩ (.inl hoffset)
        rw [if_neg hoffset, or_iff_right hoffset, ite_error_returns, not_not]
        refine and_congr_right fun _ => ?_
        by_cases hx : p.flags &&& PFX ≠ 0
        · rw [if_pos hx, if_pos hx, ih _ (Sorted.mapped hsorted)]
          rfl
        rw [if_neg hx, if_neg hx]
        rw [ite_error_returns, ite_error_returns, ite_error_returns, ite_error_returns,
          ite_error_returns, ih _ (Sorted.filled hsorted), not_not, not_not, not_not,
          Bool.not_eq_true', Bool.not_eq_false, Bool.not_eq_true]
        rfl
      · rw [if_pos hload, ← ih s hsorted]
        show (∃ r, (if p.type ≠ PTLOAD then loadphdrs exe s ps else _) = _) ↔ _
        rw [if_pos hload]

/-- What a turn of the loop that does not stop the kernel can have done. -/
theorem loadphdrs_ok {r : Int × Space} (hsorted : Sorted s.segq)
    (h : loadphdrs exe s (p :: ps) = .ok r) :
    p.type ≠ PTLOAD ∧ loadphdrs exe s ps = .ok r ∨
    p.type = PTLOAD ∧ (pagemod p.vaddr ≠ pagemod p.offset ∧ r = (EINVAL, s) ∨
      pagemod p.vaddr = pagemod p.offset ∧ Maps p.vaddr p.bss ∧
        (p.flags &&& PFX ≠ 0 ∧ loadphdrs exe (mapped exe s p) ps = .ok r ∨
          ¬ p.flags &&& PFX ≠ 0 ∧ pageup p.bss ≤ pageup p.ebss ∧ pageup p.ebss ≤ USEREND ∧
            loadphdrs exe (filled exe s p) ps = .ok r)) := by
  by_cases hload : p.type = PTLOAD
  · refine .inr ⟨hload, ?_⟩
    rw [loadphdrs_eq hload hsorted] at h
    obtain ⟨-, h⟩ := ite_error_eq_ok.mp h
    by_cases hoffset : pagemod p.vaddr ≠ pagemod p.offset
    · rw [if_pos hoffset] at h
      cases h
      exact .inl ⟨hoffset, rfl⟩
    rw [if_neg hoffset] at h
    obtain ⟨hmaps, h⟩ := ite_error_eq_ok.mp h
    refine .inr ⟨not_not.mp hoffset, not_not.mp hmaps, ?_⟩
    by_cases hx : p.flags &&& PFX ≠ 0
    · rw [if_pos hx] at h
      exact .inl ⟨hx, h⟩
    rw [if_neg hx] at h
    obtain ⟨-, h⟩ := ite_error_eq_ok.mp h
    obtain ⟨-, h⟩ := ite_error_eq_ok.mp h
    obtain ⟨-, h⟩ := ite_error_eq_ok.mp h
    obtain ⟨hle, h⟩ := ite_error_eq_ok.mp h
    obtain ⟨hend, h⟩ := ite_error_eq_ok.mp h
    exact .inr ⟨hx, not_not.mp hle, not_not.mp hend, h⟩
  · have hskip : loadphdrs exe s (p :: ps) = loadphdrs exe s ps := if_pos hload
    exact .inl ⟨hload, hskip ▸ h⟩

/-- The segments of these headers are in the queue. -/
def Installed (exe : Exe) (ps : List Elfphdr) (s : Space) : Prop :=
  ∀ p ∈ ps, p.type = PTLOAD →
    p.seg exe.ino ∈ s.segq ∧ (p.flags &&& PFX = 0 → p.bssseg ∈ s.segq)

/-- What has been installed is still there at the end, and all of it if there is no
error. -/
theorem loadphdrs_installs (ps : List Elfphdr) {e : Int} {s' : Space} (hsorted : Sorted s.segq)
    (h : loadphdrs exe s ps = .ok (e, s')) :
    (∀ x ∈ s.segq, x ∈ s'.segq) ∧ (e = 0 → Installed exe ps s') := by
  induction ps generalizing s with
  | nil =>
      cases h
      exact ⟨fun x hx => hx, fun _ p hp => nomatch hp⟩
  | cons p ps ih =>
      obtain ⟨hskip, h⟩ | ⟨-, ⟨-, hr⟩ | ⟨-, -, ⟨hx, h⟩ | ⟨-, -, -, h⟩⟩⟩ := loadphdrs_ok hsorted h
      · obtain ⟨hkeep, hrest⟩ := ih hsorted h
        refine ⟨hkeep, fun he q hq hqload => ?_⟩
        rcases List.mem_cons.mp hq with rfl | hq
        · exact absurd hqload hskip
        · exact hrest he q hq hqload
      · cases hr
        exact ⟨fun x hx => hx, fun he => nomatch he⟩
      · obtain ⟨hkeep, hrest⟩ := ih (Sorted.mapped hsorted) h
        refine ⟨fun x hx => hkeep x (mem_insertlt.mpr (.inr hx)), fun he q hq hqload => ?_⟩
        rcases List.mem_cons.mp hq with rfl | hq
        · exact ⟨hkeep _ (mem_insertlt.mpr (.inl rfl)), fun hnx => absurd hnx hx⟩
        · exact hrest he q hq hqload
      · obtain ⟨hkeep, hrest⟩ := ih (Sorted.filled hsorted) h
        have hfile : ∀ x ∈ (mapped exe s p).segq, x ∈ s'.segq :=
          fun x hx => hkeep x (mem_insertlt.mpr (.inr hx))
        refine ⟨fun x hx => hfile x (mem_insertlt.mpr (.inr hx)), fun he q hq hqload => ?_⟩
        rcases List.mem_cons.mp hq with rfl | hq
        · exact ⟨hfile _ (mem_insertlt.mpr (.inl rfl)),
            fun _ => hkeep _ (mem_insertlt.mpr (.inl rfl))⟩
        · exact hrest he q hq hqload

/-- The only error of the loop is an offset that demand paging cannot serve. -/
theorem loadphdrs_congruent (ps : List Elfphdr) {r : Int × Space} (hsorted : Sorted s.segq)
    (hoffset : ∀ p ∈ ps, p.type = PTLOAD → pagemod p.vaddr = pagemod p.offset)
    (h : loadphdrs exe s ps = .ok r) : r.1 = 0 := by
  induction ps generalizing s with
  | nil =>
      cases h
      rfl
  | cons p ps ih =>
      have hrest := fun q hq => hoffset q (List.mem_cons_of_mem p hq)
      obtain ⟨-, h⟩ | ⟨hload, ⟨hne, -⟩ | ⟨-, -, ⟨-, h⟩ | ⟨-, -, -, h⟩⟩⟩ := loadphdrs_ok hsorted h
      · exact ih hsorted hrest h
      · exact absurd (hoffset p List.mem_cons_self hload) hne
      · exact ih (Sorted.mapped hsorted) hrest h
      · exact ih (Sorted.filled hsorted) hrest h

/-- The file is well formed: its headers can be read, and each segment to be loaded lies
below the kernel and in the file, has no more data than memory, and starts at an offset
that demand paging can serve, above the segments before it. -/
structure WellFormed (exe : Exe) (head : Bytes) (ps : List Elfphdr) : Prop where
  readable : exe.error = none
  headers : ehphoff head + PHDRSIZE * ehphnum head ≤ exe.size
  user : ∀ p ∈ ps, p.type = PTLOAD → p.vaddr + p.memsz ≤ USEREND
  data : ∀ p ∈ ps, p.type = PTLOAD → p.filesz ≤ p.memsz ∧ p.offset + p.filesz ≤ exe.size
  offset : ∀ p ∈ ps, p.type = PTLOAD → pagemod p.vaddr = pagemod p.offset
  disjoint : (ps.filter fun p => p.type == PTLOAD).Pairwise fun p q =>
    pageup p.ebss ≤ pagedown q.vaddr

/-- Some data segment ends exactly on a page boundary. -/
def EndsOnPage (ps : List Elfphdr) : Prop :=
  ∃ p ∈ ps, p.type = PTLOAD ∧ p.flags &&& PFX = 0 ∧ pagemod (p.vaddr + p.filesz) = 0

/-- `loadelf` comes back, with an error or with the segments installed, and a well-formed
file with a data segment that ends on a page boundary is loaded. -/
def Loads (exe : Exe) (head stack : Bytes) (s : Space) : Prop :=
  (∃ e entry s', loadelf exe head stack s = .ok (e, entry, s') ∧
    (e = 0 → entry = ehentry head ∧
      ∃ ps, phdrs exe head stack = .ok ps ∧ Installed exe ps s')) ∧
  ∀ ps, phdrs exe head stack = .ok ps → WellFormed exe head ps → EndsOnPage ps →
    ∃ entry s', loadelf exe head stack s = .ok (0, entry, s')

theorem phdrs_error {head stack : Bytes} {e : Int} (h : phdrs exe head stack = .error e) :
    e < 0 := by
  unfold phdrs at h
  split at h
  · cases h
    exact Int.negSucc_lt_zero 7
  dsimp only at h
  split at h
  · next hneg =>
      cases h
      exact hneg
  · cases h

theorem Sorted.flushed (tables free : Nat → Bool) : Sorted (flushed tables free).segq :=
  List.Pairwise.nil

/-- The start of a program: one page of text and one page of data, both full. -/
def fulldata : Bytes := fun i =>
  BitVec.ofNat 8 <| [0x7f, 0x45, 0x4c, 0x46, 1, 1, 1, 0, 0, 0, 0, 0, 0, 0, 0, 0,
    2, 0, 3, 0, 1, 0, 0, 0, 0x74, 0x80, 0x04, 0x08, 52, 0, 0, 0,
    0, 0, 0, 0, 0, 0, 0, 0, 52, 0, 32, 0, 2, 0, 0, 0, 0, 0, 0, 0,
    1, 0, 0, 0, 0, 0, 0, 0, 0, 0x80, 0x04, 0x08, 0, 0x80, 0x04, 0x08,
    0, 0x10, 0, 0, 0, 0x10, 0, 0, 5, 0, 0, 0, 0, 0x10, 0, 0,
    1, 0, 0, 0, 0, 0x10, 0, 0, 0, 0x90, 0x04, 0x08, 0, 0x90, 0x04, 0x08,
    0, 0x10, 0, 0, 0, 0x10, 0, 0, 6, 0, 0, 0, 0, 0x10, 0, 0].getD i 0

end Unixlite.Kern
