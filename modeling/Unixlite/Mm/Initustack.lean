import Unixlite.Mm.Segq
import Unixlite.Mm.UstackFree
import Unixlite.Verified.Label
import Unixlite.Verified.Memory

/-!
# The stack of a new program

Port of `createargv` and `initustack` from `mm/mm.cc`: the pages with the strings are mapped below
the end of user space, and the vectors of pointers to the strings are written below the strings.
-/

namespace Unixlite.Mm

open Unixlite.Verified Label Layout Memory List
open Ustack (ATEGID image)

/-! ## The vectors -/

def ATNULL : Nat := 0
def ATPHDR : Nat := 3
def ATPHENT : Nat := 4
def ATPHNUM : Nat := 5
def ATPAGESZ : Nat := 6
def ATBASE : Nat := 7
def ATFLAGS : Nat := 8
def ATUID : Nat := 11
def ATEUID : Nat := 12
def ATGID : Nat := 13

/-- `sizeof(elfphdr_t)`. -/
def ELFPHDRSIZE : Nat := 32

/-- The identity of `curr`. -/
structure Ids where
  uid : BitVec 16
  euid : BitVec 16
  gid : BitVec 16
  egid : BitVec 16

/-- The auxiliary vector. -/
def auxvec (ids : Ids) : List (Nat × Nat) :=
  [(ATPHDR, 0), (ATPHENT, ELFPHDRSIZE), (ATPHNUM, 0), (ATPAGESZ, PAGESIZE), (ATBASE, 0),
    (ATFLAGS, 0), (ATEGID, 0), (ATUID, ids.uid.toNat), (ATEUID, ids.euid.toNat),
    (ATGID, ids.gid.toNat), (ATEGID, ids.egid.toNat), (ATNULL, 0)]

/-- User memory, and the words that have been written there. -/
structure Umem where
  mem : Bytes
  wrote : List Nat

def Umem.putword (m : Umem) (a v : Nat) : Umem := ⟨put m.mem a (bytes 4 v), a :: m.wrote⟩

/-- One of the loops of `createargv`, with the pointer behind it. -/
def putvec : Nat → Nat → Nat → Umem → Option (Umem × Nat)
  | 0, vec, str, m => some (m.putword vec 0, str)
  | n + 1, vec, str, m => do
      let m := m.putword vec str
      let len ← strlen (USEREND - str) m.mem str
      putvec n (vec + 4) (str + len + 1) m

/-- The `auxvec` statements. -/
def putaux : List (Nat × Nat) → Nat → Umem → Umem
  | [], _, m => m
  | (id, value) :: aux, entry, m =>
      putaux aux (entry + 8) ((m.putword entry id).putword (entry + 4) value)

namespace Ustack

/-- User memory once the pages are mapped, over a program. -/
def umem (u : Ustack) (program : Bytes) : Bytes := fun vaddr =>
  if u.vbase ≤ vaddr ∧ vaddr < USEREND then
    let i := (vaddr - (USEREND - MAXARGPAGE * PAGESIZE)) / PAGESIZE
    u.mem (u.page i + pagemod vaddr)
  else program vaddr

/-- `createargv`: the new stack pointer, and memory. -/
def createargv (u : Ustack) (ids : Ids) (m : Umem) : Option (Nat × Umem) := do
  let str := u.vbase + pagemod u.sp
  let sp := str / 4 * 4
  let envp := sp - 4 * (u.envc + 1)
  let argv := envp - 4 * (u.argc + 1)
  let sp := argv - 4
  let m := m.putword sp u.argc
  let (m, str) ← putvec u.argc argv str m
  let (m, str) ← putvec u.envc envp str m
  if str ≠ USEREND - AUXSIZE then none else some (sp, putaux (auxvec ids) str m)

end Ustack

/-- The loop of `initustack`, with what it maps. -/
def mapentries (s : Supply) : List Nat → Nat → Space → Except Stuck (Int × Space × List (Nat × Nat))
  | [], _, x => .ok (0, x, [])
  | page :: pages, vaddr, x =>
      if !s.vtop page then .error .assertion
      else
        match x.pgtbl.mapto vaddr with
        | .error e => .error e
        | .ok none => .ok (ENOMEM, x, [])
        | .ok (some pgtbl) => do
            let (e, x, l) ← mapentries s pages (vaddr + PAGESIZE) { x with pgtbl := pgtbl }
            .ok (e, x, (vaddr, page) :: l)

/-- What `initustack` leaves. -/
structure Newstack where
  space : Space
  mapped : List (Nat × Nat)
  umem : Umem
  initsp : Nat

def initustack (s : Supply) (u : Ustack) (ids : Ids) (program : Bytes) (esp : Nat) (x : Space) :
    Flow Newstack :=
  match mapentries s (u.entries.map Prod.snd) u.vbase x with
  | .error _ => .stop ⟨x, [], ⟨program, []⟩, 0⟩
  | .ok (e, x, mapped) =>
      if e ≠ 0 then .error e ⟨x, mapped, ⟨program, []⟩, 0⟩
      else
        match u.createargv ids ⟨u.umem program, []⟩ with
        | none => .stop ⟨x, mapped, ⟨u.umem program, []⟩, 0⟩
        | some (sp, m) =>
            -- a page fault that nothing is done about, or else
            match x.createargv esp (Space.argvpages u.vbase sp) with
            | .error _ => .stop ⟨x, mapped, m, sp⟩
            | .ok x =>
                match x.anonmap sp USEREND (PROTR ||| PROTW) with
                | .error _ => .stop ⟨x, mapped, m, sp⟩
                | .ok (e, x) =>
                    if e ≠ 0 then .error e ⟨x, mapped, m, sp⟩ else .next ⟨x, mapped, m, sp⟩

/-! ## What the vectors are to be -/

/-- The pointers to these strings, and NULL behind them. -/
def Vector (mem : Bytes) (a : Nat) (strs : List (List (BitVec 8))) : Prop :=
  (∀ i (hi : i < strs.length), ∃ p < 2 ^ 32,
    Word mem (a + 4 * i) p ∧ Holds mem p (strs[i] ++ [0])) ∧ Word mem (a + 4 * strs.length) 0

/-- What a program finds at its stack pointer. -/
structure Startup (mem : Bytes) (sp : Nat) (argv envp : List (List (BitVec 8))) (ids : Ids) :
    Prop where
  argc : Word mem sp argv.length
  args : Vector mem (sp + 4) argv
  env : Vector mem (sp + 4 + 4 * (argv.length + 1)) envp
  aux : Holds mem (USEREND - Ustack.AUXSIZE)
    ((auxvec ids).flatMap fun x => bytes 4 x.1 ++ bytes 4 x.2)

/-! ## Writing them -/

variable {m : Umem} {vec str n : Nat} {strs : List (List (BitVec 8))} {ids : Ids}

/-- A vector whose strings lie from `low` to `high`. -/
def Pointers (mem : Bytes) (a low high : Nat) (strs : List (List (BitVec 8))) : Prop :=
  (∀ i (hi : i < strs.length), ∃ p, low ≤ p ∧ p + strs[i].length + 1 ≤ high ∧
    Word mem (a + 4 * i) p ∧ Holds mem p (strs[i] ++ [0])) ∧ Word mem (a + 4 * strs.length) 0

theorem Pointers.vector {mem : Bytes} {a low high : Nat} (h : Pointers mem a low high strs)
    (hhigh : high ≤ USEREND) : Vector mem a strs := by
  refine ⟨fun i hi => ?_, h.2⟩
  obtain ⟨p, -, hend, hword, hstr⟩ := h.1 i hi
  unfold USEREND at hhigh
  exact ⟨p, by omega, hword, hstr⟩

theorem Pointers.congr {mem mem' : Bytes} {a low high : Nat} (h : Pointers mem a low high strs)
    (hvec : ∀ x, a ≤ x → x < a + 4 * (strs.length + 1) → mem' x = mem x)
    (hstrs : ∀ x, low ≤ x → x < high → mem' x = mem x) : Pointers mem' a low high strs := by
  refine ⟨fun i hi => ?_, h.2.congr fun x hlow hhigh => hvec x ?_ ?_⟩
  · obtain ⟨p, hle, hend, hword, hstr⟩ := h.1 i hi
    refine ⟨p, hle, hend, hword.congr fun x hlow hhigh => hvec x ?_ ?_,
      hstr.congr fun x hlow hhigh => hstrs x ?_ ?_⟩
    · omega
    · rw [length_bytes] at hhigh
      omega
    · omega
    · rw [length_append, length_singleton] at hhigh
      omega
  · omega
  · rw [length_bytes] at hhigh
    omega

/-- A vector is written before strings that end below `USEREND`: the pointers go to the strings,
and nothing else is changed. -/
theorem putvec_spec (vec : Nat) (hnul : ∀ s ∈ strs, 0 ∉ s) (hstrs : Holds m.mem str (image strs))
    (hvec : vec + 4 * (strs.length + 1) ≤ str) (hend : str + (image strs).length ≤ USEREND) :
    ∃ m', putvec strs.length vec str m = some (m', str + (image strs).length) ∧
      (∀ x, x < vec ∨ vec + 4 * (strs.length + 1) ≤ x → m'.mem x = m.mem x) ∧
      Pointers m'.mem vec str (str + (image strs).length) strs ∧
      (∀ a ∈ m'.wrote, a ∈ m.wrote ∨ vec ≤ a ∧ a + 4 ≤ vec + 4 * (strs.length + 1)) ∧
      ∀ a ∈ m.wrote, a ∈ m'.wrote := by
  induction strs generalizing vec str m with
  | nil =>
      refine ⟨m.putword vec 0, rfl, fun x hx => put_frame ?_, ⟨?_, word_put _ _ _⟩, ?_, ?_⟩
      · rwa [length_bytes]
      · exact fun i hi => absurd hi (Nat.not_lt_zero i)
      · intro a ha
        rcases mem_cons.mp ha with rfl | ha
        · exact .inr ⟨Nat.le_refl _, by simp⟩
        · exact .inl ha
      · exact fun a ha => mem_cons_of_mem _ ha
  | cons s strs ih =>
      have himage : image (s :: strs) = (s ++ [0]) ++ image strs := rfl
      have hlen : (image (s :: strs)).length = s.length + 1 + (image strs).length :=
        Ustack.length_image_cons
      rw [length_cons] at hvec
      -- the word is below the strings
      have hkeep : Holds (m.putword vec str).mem str (image (s :: strs)) :=
        Holds.put hstrs (.inr (by rw [length_bytes]; omega))
      obtain ⟨hs, hrest⟩ := holds_append.mp (himage ▸ hkeep)
      have hlt : s.length < USEREND - str := by omega
      have hstrlen := strlen_of_holds hs (hnul s mem_cons_self) hlt
      have hnext : str + (s ++ [0]).length = str + s.length + 1 := by
        simp [Nat.add_assoc]
      rw [hnext] at hrest
      obtain ⟨m', hput, hframe, ⟨hptrs, hnull⟩, hwrote, hold⟩ :=
        ih (vec + 4) (fun t ht => hnul t (mem_cons_of_mem s ht)) hrest (by omega)
          (by omega)
      have hinside : vec + 4 + 4 * (strs.length + 1) = vec + 4 * (strs.length + 1 + 1) := by omega
      rw [hinside] at hframe hwrote
      refine ⟨m', ?_, fun x hx => ?_, ⟨fun i hi => ?_, ?_⟩, fun a ha => ?_, fun a ha => ?_⟩
      · rw [length_cons, putvec, hstrlen, hlen]
        have hsum : str + (s.length + 1 + (image strs).length) =
            str + s.length + 1 + (image strs).length := by omega
        rw [hsum]
        exact hput
      · rw [length_cons] at hx
        rw [hframe x (by omega)]
        exact put_frame (by rw [length_bytes]; omega)
      · cases i with
        | zero =>
            refine ⟨str, Nat.le_refl _, ?_, ?_, ?_⟩
            · rw [hlen]
              show str + s.length + 1 ≤ _
              omega
            · exact (word_put m.mem vec str).congr fun x hlow hhigh => hframe x (by
                rw [length_bytes] at hhigh
                omega)
            · refine hs.congr fun x hlow hhigh => hframe x (by omega)
        | succ i =>
            obtain ⟨p, hle, hp, hword, hstr⟩ := hptrs i (Nat.lt_of_succ_lt_succ hi)
            have hslot : vec + 4 * (i + 1) = vec + 4 + 4 * i := by omega
            rw [hslot, hlen]
            exact ⟨p, by omega, Nat.le_trans hp (by omega), hword, hstr⟩
      · have hslot : vec + 4 * (s :: strs).length = vec + 4 + 4 * strs.length := by
          rw [length_cons]
          omega
        rw [hslot]
        exact hnull
      · rw [length_cons]
        rcases hwrote a ha with ha | ha
        · rcases mem_cons.mp ha with rfl | ha
          · exact .inr ⟨Nat.le_refl _, by omega⟩
          · exact .inl ha
        · exact .inr ⟨by omega, ha.2⟩
      · exact hold a (mem_cons_of_mem _ ha)

/-- `argc` and the two vectors are written, one behind the other, before the strings. -/
theorem putvecs_spec {argv envp : List (List (BitVec 8))} (vec : Nat)
    (hnul : ∀ s ∈ argv ++ envp, 0 ∉ s)
    (hstrs : Holds m.mem str (image argv ++ image envp)) (hlow : 4 ≤ vec)
    (hvec : vec + 4 * (argv.length + 1) + 4 * (envp.length + 1) ≤ str)
    (hend : str + (image argv).length + (image envp).length ≤ USEREND) :
    ∃ m₁ m₂, putvec argv.length vec str (m.putword (vec - 4) argv.length) =
        some (m₁, str + (image argv).length) ∧
      putvec envp.length (vec + 4 * (argv.length + 1)) (str + (image argv).length) m₁ =
        some (m₂, str + (image argv).length + (image envp).length) ∧
      Word m₂.mem (vec - 4) argv.length ∧
      Pointers m₂.mem vec str (str + (image argv).length) argv ∧
      Pointers m₂.mem (vec + 4 * (argv.length + 1)) (str + (image argv).length)
        (str + (image argv).length + (image envp).length) envp ∧
      (∀ a ∈ m₂.wrote, a ∈ m.wrote ∨ vec - 4 ≤ a ∧ a + 4 ≤ str) ∧ vec - 4 ∈ m₂.wrote := by
  have hholds : Holds (m.putword (vec - 4) argv.length).mem str
      (image argv ++ image envp) :=
    hstrs.put (.inr (by rw [length_bytes]; omega))
  obtain ⟨hargv, henvp⟩ := holds_append.mp hholds
  obtain ⟨m₁, hput₁, hframe₁, hptrs₁, hwrote₁, hold₁⟩ :=
    putvec_spec vec (fun s hs => hnul s (mem_append_left _ hs)) hargv (by omega) (by omega)
  have henvp₁ : Holds m₁.mem (str + (image argv).length) (image envp) :=
    henvp.congr fun x hlow hhigh => hframe₁ x (by omega)
  obtain ⟨m₂, hput₂, hframe₂, hptrs₂, hwrote₂, hold₂⟩ :=
    putvec_spec (vec + 4 * (argv.length + 1)) (fun s hs => hnul s (mem_append_right _ hs))
      henvp₁ (by omega) (by omega)
  refine ⟨m₁, m₂, hput₁, hput₂, ?_, ?_, hptrs₂, fun a ha => ?_, ?_⟩
  · have hargc : Word (m.putword (vec - 4) argv.length).mem (vec - 4) argv.length := word_put _ _ _
    refine hargc.congr fun x hlow hhigh => ?_
    rw [length_bytes] at hhigh
    rw [hframe₂ x (by omega), hframe₁ x (by omega)]
  · exact hptrs₁.congr (fun x hlow hhigh => hframe₂ x (by omega)) fun x hlow hhigh =>
      hframe₂ x (by omega)
  · rcases hwrote₂ a ha with ha | ha
    · rcases hwrote₁ a ha with ha | ha
      · rcases mem_cons.mp ha with rfl | ha
        · exact .inr ⟨Nat.le_refl _, by omega⟩
        · exact .inl ha
      · exact .inr ⟨by omega, by omega⟩
    · exact .inr ⟨by omega, by omega⟩
  · exact hold₂ _ (hold₁ _ mem_cons_self)

theorem putaux_spec (aux : List (Nat × Nat)) (entry : Nat) (m : Umem) :
    (∀ x, x < entry ∨ entry + 8 * aux.length ≤ x → (putaux aux entry m).mem x = m.mem x) ∧
      Holds (putaux aux entry m).mem entry (aux.flatMap fun x => bytes 4 x.1 ++ bytes 4 x.2) ∧
      (∀ a ∈ (putaux aux entry m).wrote,
        a ∈ m.wrote ∨ entry ≤ a ∧ a + 4 ≤ entry + 8 * aux.length) ∧
      ∀ a ∈ m.wrote, a ∈ (putaux aux entry m).wrote := by
  induction aux generalizing entry m with
  | nil => exact ⟨fun x _ => rfl, fun k hk => absurd hk (Nat.not_lt_zero k), fun a => .inl, fun a => id⟩
  | cons x aux ih =>
      obtain ⟨id, value⟩ := x
      obtain ⟨hframe, hholds, hwrote, hold⟩ :=
        ih (entry + 8) ((m.putword entry id).putword (entry + 4) value)
      rw [putaux, length_cons]
      refine ⟨fun x hx => ?_, ?_, fun a ha => ?_, fun a ha => ?_⟩
      · rw [hframe x (by omega)]
        have hsecond : ((m.putword entry id).putword (entry + 4) value).mem x =
            (m.putword entry id).mem x := put_frame (by rw [length_bytes]; omega)
        rw [hsecond]
        exact put_frame (by rw [length_bytes]; omega)
      · have hfirst : Word ((m.putword entry id).putword (entry + 4) value).mem entry id :=
          (word_put m.mem entry id).put (.inl (Nat.le_refl _))
        refine holds_append.mpr ⟨holds_append.mpr ⟨?_, ?_⟩, ?_⟩
        · exact hfirst.congr fun x hlow hhigh => hframe x (by
            rw [length_bytes] at hhigh
            omega)
        · rw [length_bytes]
          exact (word_put _ (entry + 4) value).congr fun x hlow hhigh => hframe x (by
            rw [length_bytes] at hhigh
            omega)
        · rw [length_append, length_bytes, length_bytes]
          exact hholds
      · rcases hwrote a ha with ha | ha
        · rcases mem_cons.mp ha with rfl | ha
          · exact .inr ⟨by omega, by omega⟩
          rcases mem_cons.mp ha with rfl | ha
          · exact .inr ⟨by omega, by omega⟩
          · exact .inl ha
        · exact .inr ⟨by omega, by omega⟩
      · exact hold a (mem_cons_of_mem _ (mem_cons_of_mem _ ha))

/-! ## The stack pointer -/

namespace Ustack

variable {s : Supply} {u : Ustack} {bs : List (BitVec 8)} {program : Bytes}
  {argv envp : List (List (BitVec 8))}

/-- Where `createargv` ends, after so many bytes and with so many pointers. -/
def initsp (n pointers : Nat) : Nat := (USEREND - n) / 4 * 4 - 4 * (pointers + 3)

theorem Pushed.size_le (h : u.Pushed s n) : n ≤ npages n * PAGESIZE ∧
    npages n * PAGESIZE ≤ MAXARGPAGE * PAGESIZE := by
  have hle := h.served.1
  unfold npages PAGESIZE at *
  omega

theorem Pushed.vbase (h : u.Pushed s n) : u.vbase = USEREND - npages n * PAGESIZE := by
  unfold Ustack.vbase
  rw [h.base]
  unfold USEREND MAXARGPAGE PAGESIZE at *
  omega

/-- The strings begin where the last byte has been pushed. -/
theorem Pushed.start (h : u.Pushed s n) (hn : 0 < n) : u.vbase + pagemod u.sp = USEREND - n := by
  have hle := h.size_le
  rw [h.vbase, h.sp, if_neg (Nat.ne_of_gt hn), s.pagemod_place]
  unfold npages USEREND MAXARGPAGE PAGESIZE at *
  omega

/-- What is on the stack is mapped to the end of user space. -/
theorem Pushed.umem (h : u.Pushed s n) (hbs : u.Contents s n bs) (program : Bytes) :
    Holds (u.umem program) (USEREND - n) bs := by
  obtain ⟨hlen, hbytes⟩ := hbs
  obtain ⟨hle, hmax⟩ := h.size_le
  intro k hk
  have hin : u.vbase ≤ USEREND - n + k ∧ USEREND - n + k < USEREND := by
    rw [h.vbase]
    unfold USEREND MAXARGPAGE PAGESIZE at *
    omega
  have hindex : (((USEREND - n + k - (USEREND - MAXARGPAGE * PAGESIZE)) / PAGESIZE : Nat) : Int) =
      (MAXARGPAGE : Int) - 1 - ((n - 1 - k) / PAGESIZE : Nat) := by
    unfold USEREND MAXARGPAGE PAGESIZE at *
    omega
  have hpage : (n - 1 - k) / PAGESIZE < npages n := by
    unfold npages PAGESIZE
    omega
  have hmod : pagemod (USEREND - n + k) = PAGESIZE - 1 - (n - 1 - k) % PAGESIZE := by
    unfold pagemod USEREND MAXARGPAGE PAGESIZE at *
    omega
  rw [← hbytes k hk]
  unfold Ustack.umem
  rw [if_pos hin]
  dsimp only
  rw [hindex, h.page _ hpage, hmod]
  rfl

theorem length_le_image (strs : List (List (BitVec 8))) : strs.length ≤ (image strs).length := by
  induction strs with
  | nil => exact Nat.le_refl 0
  | cons str strs ih =>
      rw [length_image_cons, length_cons]
      omega

/-- The vectors are written below the strings, whether this is on the pages or not. -/
theorem Pushed.createargv (h : u.Pushed s (size (argv ++ envp)))
    (hbs : u.Contents s (size (argv ++ envp)) (image (argv ++ envp)))
    (hargc : u.argc = argv.length) (henvc : u.envc = envp.length)
    (hnul : ∀ str ∈ argv ++ envp, 0 ∉ str) (ids : Ids) (program : Bytes) :
    ∃ m, u.createargv ids ⟨u.umem program, []⟩ =
        some (initsp (size (argv ++ envp)) (argv.length + envp.length), m) ∧
      Startup m.mem (initsp (size (argv ++ envp)) (argv.length + envp.length)) argv envp ids ∧
      (∀ a ∈ m.wrote, initsp (size (argv ++ envp)) (argv.length + envp.length) ≤ a ∧
        a + 4 ≤ USEREND) ∧
      initsp (size (argv ++ envp)) (argv.length + envp.length) ∈ m.wrote := by
  have hsize : size (argv ++ envp) = AUXSIZE + (image argv).length + (image envp).length := by
    simp [size, image, Nat.add_assoc]
  have hpos : 0 < size (argv ++ envp) := by
    rw [hsize]
    unfold AUXSIZE ATEGID
    omega
  have hstr := h.start hpos
  obtain ⟨hle, hmax⟩ := h.size_le
  have hholds := h.umem hbs program
  have hargvlen := length_le_image argv
  have henvplen := length_le_image envp
  have himage : image (argv ++ envp) = image argv ++ image envp := flatMap_append
  rw [himage] at hholds
  generalize hn : size (argv ++ envp) = n at *
  have hroom : 4 * (argv.length + envp.length + 3) + 4 ≤ USEREND - n := by
    unfold USEREND MAXARGPAGE PAGESIZE at *
    omega
  have hsp : initsp n (argv.length + envp.length) =
      (USEREND - n) / 4 * 4 - 4 * (envp.length + 1) - 4 * (argv.length + 1) - 4 := by
    unfold initsp
    omega
  have haux : AUXSIZE = 128 := rfl
  -- the words from the stack pointer up to the strings
  generalize hv : (USEREND - n) / 4 * 4 - 4 * (envp.length + 1) - 4 * (argv.length + 1) = vec at *
  have hvec : vec + 4 * (argv.length + 1) = (USEREND - n) / 4 * 4 - 4 * (envp.length + 1) := by
    omega
  have htop : vec + 4 * (argv.length + 1) + 4 * (envp.length + 1) ≤ USEREND - n := by omega
  have hvec4 : 4 ≤ vec := by omega
  have hend : USEREND - n + (image argv).length + (image envp).length = USEREND - AUXSIZE := by
    omega
  obtain ⟨m₁, m₂, hargv, henvp, hargc', hptrs, hptrs', hwrote, hmem⟩ :=
    putvecs_spec (m := ⟨u.umem program, []⟩) vec hnul hholds hvec4 htop (by omega)
  obtain ⟨hframe, haux₃, hwrote₃, hold⟩ := putaux_spec (auxvec ids) (USEREND - AUXSIZE) m₂
  have hauxlen : (auxvec ids).length = 12 := rfl
  rw [hend] at henvp
  have hresult : u.createargv ids ⟨u.umem program, []⟩ =
      some (vec - 4, putaux (auxvec ids) (USEREND - AUXSIZE) m₂) := by
    unfold Ustack.createargv
    rw [hstr, hargc, henvc]
    dsimp only
    rw [hv, ← hvec]
    show (putvec argv.length vec (USEREND - n) _).bind _ = _
    rw [hargv]
    show (putvec envp.length _ (USEREND - n + (image argv).length) m₁).bind _ = _
    rw [henvp, Option.bind_some]
    exact if_neg fun hne => hne rfl
  have hback : vec - 4 + 4 = vec := by omega
  rw [hsp]
  refine ⟨_, hresult, ⟨?_, ?_, ?_, haux₃⟩, fun a ha => ?_, hold _ hmem⟩
  · refine hargc'.congr fun x hlow hhigh => hframe x ?_
    rw [length_bytes] at hhigh
    omega
  · rw [hback]
    exact (hptrs.congr (fun x hlow hhigh => hframe x (by omega)) fun x hlow hhigh =>
      hframe x (by omega)).vector (by omega)
  · rw [hback]
    exact (hptrs'.congr (fun x hlow hhigh => hframe x (by omega)) fun x hlow hhigh =>
      hframe x (by omega)).vector (by omega)
  · rcases hwrote₃ a ha with ha | ha
    · rcases hwrote a ha with ha | ha
      · exact absurd ha not_mem_nil
      · exact ⟨ha.1, by omega⟩
    · exact ⟨by omega, by omega⟩

end Ustack

/-! ## Mapping the pages -/

section

variable {s : Supply} {u : Ustack} {x x' : Space} {pages : List Nat} {vaddr sp esp : Nat} {e : Int}
  {l : List (Nat × Nat)} {program : Bytes}

/-- An entry that is a page is mapped before the others, or there is no memory for its table. -/
theorem mapentries_cases {page : Nat} (h : mapentries s (page :: pages) vaddr x = .ok (e, x', l)) :
    s.vtop page = true ∧
      (x.pgtbl.mapto vaddr = .ok none ∧ e = ENOMEM ∧ x' = x ∧ l = [] ∨
        ∃ pgtbl l', x.pgtbl.mapto vaddr = .ok (some pgtbl) ∧ l = (vaddr, page) :: l' ∧
          mapentries s pages (vaddr + PAGESIZE) { x with pgtbl := pgtbl } = .ok (e, x', l')) := by
  rw [mapentries] at h
  cases hvtop : s.vtop page with
  | false =>
      rw [hvtop] at h
      cases h
  | true =>
      rw [hvtop, Bool.not_true, if_neg Bool.false_ne_true] at h
      refine ⟨rfl, ?_⟩
      cases hto : x.pgtbl.mapto vaddr with
      | error e =>
          rw [hto] at h
          cases h
      | ok r =>
          rw [hto] at h
          cases r with
          | none =>
              cases h
              exact .inl ⟨rfl, rfl, rfl, rfl⟩
          | some pgtbl =>
              dsimp only at h
              cases hrest : mapentries s pages (vaddr + PAGESIZE) { x with pgtbl := pgtbl } with
              | error e =>
                  rw [hrest] at h
                  cases h
              | ok r =>
                  rw [hrest] at h
                  cases h
                  exact .inr ⟨pgtbl, r.2.2, rfl, rfl, hrest⟩

/-- All entries are mapped, and all of them are pages. -/
theorem mapentries_done (h : mapentries s pages vaddr x = .ok (0, x', l)) :
    l.map Prod.snd = pages ∧ ∀ page ∈ pages, s.vtop page = true := by
  induction pages generalizing vaddr x l with
  | nil =>
      cases h
      exact ⟨rfl, fun page hpage => absurd hpage not_mem_nil⟩
  | cons page pages ih =>
      obtain ⟨hvtop, ⟨-, he, -⟩ | ⟨pgtbl, l', -, rfl, hrest⟩⟩ := mapentries_cases h
      · exact absurd he (by decide)
      · obtain ⟨hl, hall⟩ := ih hrest
        refine ⟨congrArg _ hl, fun q hq => ?_⟩
        rcases mem_cons.mp hq with rfl | hq
        · exact hvtop
        · exact hall q hq

/-- They are mapped one behind the other. -/
theorem mapentries_span (h : mapentries s pages vaddr x = .ok (0, x', l)) (a : Nat) :
    (∃ p ∈ l, p.1 ≤ a ∧ a < p.1 + PAGESIZE) ↔
      vaddr ≤ a ∧ a < vaddr + pages.length * PAGESIZE := by
  induction pages generalizing vaddr x l with
  | nil =>
      cases h
      simp only [not_mem_nil, false_and, exists_false, length_nil, Nat.zero_mul, false_iff]
      omega
  | cons page pages ih =>
      obtain ⟨-, ⟨-, he, -⟩ | ⟨pgtbl, l', -, rfl, hrest⟩⟩ := mapentries_cases h
      · exact absurd he (by decide)
      · rw [exists_mem_cons_iff, ih hrest, length_cons, Nat.succ_mul]
        omega

/-- Where there is a table `mapto` has enough memory. -/
theorem mapto_present {t : Pgtbl} (h : t.pde (pdeidx vaddr) = true) : t.mapto vaddr ≠ .ok none := by
  unfold Pgtbl.mapto Pgtbl.getpte
  rw [if_pos h]
  dsimp only
  split
  · exact fun hnone => nomatch hnone
  · exact fun hnone => nomatch hnone

theorem mapto_table {t t' : Pgtbl} (h : t.mapto vaddr = .ok (some t')) :
    t'.pde (pdeidx vaddr) = true := by
  unfold Pgtbl.mapto Pgtbl.getpte Pgtbl.allocpage at h
  by_cases hpde : t.pde (pdeidx vaddr) = true
  · rw [if_pos hpde] at h
    dsimp only at h
    split at h
    · cases h
    · cases h
      exact hpde
  · rw [if_neg hpde] at h
    dsimp only at h
    cases hfree : t.free 0 with
    | false =>
        rw [hfree] at h
        cases h
    | true =>
        rw [hfree, if_pos rfl] at h
        dsimp only at h
        split at h
        · cases h
        · cases h
          simp

/-- Where there is a table for all the pages, `mapto` does not run out of memory. -/
theorem mapentries_present {d : Nat} (hpde : x.pgtbl.pde d = true)
    (htable : ∀ i < pages.length, pdeidx (vaddr + i * PAGESIZE) = d)
    (h : mapentries s pages vaddr x = .ok (e, x', l)) : e = 0 := by
  induction pages generalizing vaddr x l with
  | nil =>
      cases h
      rfl
  | cons page pages ih =>
      have hfirst : pdeidx vaddr = d := by
        have hzero := htable 0 (Nat.zero_lt_succ _)
        rwa [Nat.zero_mul, Nat.add_zero] at hzero
      obtain ⟨-, ⟨hto, -⟩ | ⟨pgtbl, l', hto, -, hrest⟩⟩ := mapentries_cases h
      · exact absurd hto (mapto_present (hfirst.symm ▸ hpde))
      · refine ih (x := { x with pgtbl := pgtbl }) (hfirst ▸ mapto_table hto) (fun i hi => ?_) hrest
        rw [← htable (i + 1) (Nat.succ_lt_succ hi), Nat.succ_mul]
        congr 1
        omega

/-- `initustack` can only fail before the first page is mapped. -/
theorem mapentries_error {d : Nat} (htable : ∀ i < pages.length, pdeidx (vaddr + i * PAGESIZE) = d)
    (h : mapentries s pages vaddr x = .ok (e, x', l)) (he : e ≠ 0) : l = [] := by
  cases pages with
  | nil =>
      cases h
      rfl
  | cons page pages =>
      have hfirst : pdeidx vaddr = d := by
        have hzero := htable 0 (Nat.zero_lt_succ _)
        rwa [Nat.zero_mul, Nat.add_zero] at hzero
      obtain ⟨-, ⟨-, -, -, hnil⟩ | ⟨pgtbl, l', hto, -, hrest⟩⟩ := mapentries_cases h
      · exact hnil
      · refine absurd (mapentries_present (x := { x with pgtbl := pgtbl }) (d := d)
          (hfirst ▸ mapto_table hto) (fun i hi => ?_) hrest) he
        rw [← htable (i + 1) (Nat.succ_lt_succ hi), Nat.succ_mul]
        congr 1
        omega

/-- The argument pages have one table. -/
theorem Ustack.Pushed.table (h : u.Pushed s n) :
    ∀ i < (u.entries.map Prod.snd).length, pdeidx (u.vbase + i * PAGESIZE) = USEREND / 2 ^ 22 - 1 := by
  have hlen : (u.entries.map Prod.snd).length = npages n := by
    rw [h.entries, length_map, length_map, length_range]
  have hle := h.served.1
  intro i hi
  rw [h.vbase]
  unfold pdeidx USEREND MAXARGPAGE PAGESIZE at *
  omega

/-- The argument pages are mapped up to the end of user space. -/
theorem Ustack.Pushed.span (h : u.Pushed s n)
    (hmap : mapentries s (u.entries.map Prod.snd) u.vbase x = .ok (0, x', l)) (a : Nat) :
    (∃ p ∈ l, p.1 ≤ a ∧ a < p.1 + PAGESIZE) ↔ USEREND - npages n * PAGESIZE ≤ a ∧ a < USEREND := by
  have hlen : (u.entries.map Prod.snd).length = npages n := by
    rw [h.entries, length_map, length_map, length_range]
  have hle := h.served.1
  rw [mapentries_span hmap, hlen, h.vbase]
  unfold USEREND MAXARGPAGE PAGESIZE at *
  omega

theorem anonmap_ok {start stop : Nat} {prot : BitVec 32}
    (h : x.anonmap start stop prot = .ok (e, x')) : e = 0 := by
  unfold Space.anonmap at h
  rw [Space.mmap_eq] at h
  split at h
  · cases h
  rw [if_neg fun hinode => Bool.false_ne_true hinode.1] at h
  split at h
  · cases h
    rfl
  · cases h

/-- All entries can be mapped, and so `createargv` is called. -/
def Mapped (s : Supply) (u : Ustack) (x : Space) : Prop :=
  ∃ x' l, mapentries s (u.entries.map Prod.snd) u.vbase x = .ok (0, x', l)

/-- From `createargv` on `initustack` does not fail any more. -/
theorem initustack_mapped {m : Umem}
    (hmap : mapentries s (u.entries.map Prod.snd) u.vbase x = .ok (0, x', l))
    (hargv : u.createargv ids ⟨u.umem program, []⟩ = some (sp, m)) :
    (initustack s u ids program esp x).Meets
      (fun y => y.mapped = l ∧ y.umem = m ∧ y.initsp = sp) (fun _ _ => False)
      fun y => y.mapped = l ∧ y.umem = m ∧ y.initsp = sp := by
  unfold initustack
  rw [hmap]
  dsimp only
  rw [if_neg (not_not.mpr rfl), hargv]
  dsimp only
  split
  · exact ⟨rfl, rfl, rfl⟩
  split
  · exact ⟨rfl, rfl, rfl⟩
  · next hanon =>
    rw [if_neg (not_not.mpr (anonmap_ok hanon))]
    exact ⟨rfl, rfl, rfl⟩

/-- Before `createargv` no word is written. -/
theorem initustack_unmapped (ids : Ids) (program : Bytes) (esp : Nat) (h : ¬ Mapped s u x) :
    (initustack s u ids program esp x).Meets (fun _ => False) (fun _ y => y.umem.wrote = [])
      fun y => y.umem.wrote = [] := by
  unfold initustack
  split
  · exact rfl
  · next e y mapped hmap =>
    split
    · exact rfl
    · next he =>
      rw [not_not.mp he] at hmap
      exact absurd ⟨y, mapped, hmap⟩ h

/-- If `initustack` is done all entries are mapped; if it fails none is. -/
theorem initustack_pages (s : Supply) (u : Ustack) (ids : Ids) (program : Bytes) (esp : Nat)
    (x : Space) : (initustack s u ids program esp x).Meets
      (fun y => y.mapped.map Prod.snd = u.entries.map Prod.snd ∧ Mapped s u x)
      (fun _ y => (∃ n, u.Pushed s n) → y.mapped = []) fun _ => True := by
  unfold initustack
  split
  · exact trivial
  next e y mapped hmap =>
  split
  · next he => exact fun ⟨n, hpushed⟩ => mapentries_error hpushed.table hmap he
  next he =>
  rw [not_not.mp he] at hmap
  split
  · exact trivial
  split
  · exact trivial
  split
  · exact trivial
  next hanon =>
  rw [if_neg (not_not.mpr (anonmap_ok hanon))]
  exact ⟨(mapentries_done hmap).1, y, mapped, hmap⟩

/-- An error is not zero. -/
theorem initustack_fails : (initustack s u ids program esp x).Meets (fun _ => True)
    (fun e _ => e ≠ 0) fun _ => True := by
  unfold initustack
  split
  · exact trivial
  split
  · next he => exact he
  split
  · exact trivial
  split
  · exact trivial
  split
  · exact trivial
  split
  · next he => exact he
  · exact trivial

/-- NULL cannot be mapped. -/
theorem Ustack.Starved.not_mapped (h : u.Starved) : ¬ Mapped s u x := by
  rintro ⟨x', l, hmap⟩
  exact Bool.false_ne_true ((mapentries_done hmap).2 0 h.entry)

/-! ## As one address space -/

end

end Unixlite.Mm
