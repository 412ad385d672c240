import Unixlite.Mm.Mmap
import Unixlite.Lib.Errno

/-!
# The pages for the arguments of a program

Port of `ustack_t` of `mm/mm.h` and `mm/mm.cc`: strings are pushed from the last to the first
into pages that are asked for one at a time.  The state has the memory of the kernel around it,
and the addresses that have been written.

As long as all requests are served, the stack is a list of bytes that grows at its head
(`Pushed`, `Contents`); if one is not, an entry stays behind that is no page (`Starved`,
`Overflowed`).
-/

namespace Unixlite.Mm

open List
open Function (update update_of_ne update_self)

def MAXARGPAGE : Nat := 32

/-! ## Memory -/

/-- What the requests for a page get, in this order: a page of the kernel that nobody else has,
or NULL. -/
structure Supply where
  page : Nat → Nat
  kernend : Nat
  aligned : ∀ n, pagemod (page n) = 0
  kernel : ∀ n, page n ≠ 0 → USEREND ≤ page n ∧ page n < kernend
  distinct : ∀ m n, page m = page n → page m ≠ 0 → m = n

/-- Whether `vtop` does not fail, from `KERNSTART` on. -/
def Supply.vtop (s : Supply) (vaddr : Nat) : Bool := USEREND ≤ vaddr && vaddr < s.kernend

/-- The pages for so many bytes. -/
def npages (n : Nat) : Nat := (n + (PAGESIZE - 1)) / PAGESIZE

/-- Where the byte after the first `n` ones goes. -/
def Supply.place (s : Supply) (n : Nat) : Nat := s.page (n / PAGESIZE) + (PAGESIZE - 1 - n % PAGESIZE)

/-- So many bytes have room, and the pages for them are there. -/
def Supply.Served (s : Supply) (n : Nat) : Prop :=
  npages n ≤ MAXARGPAGE ∧ ∀ j < npages n, s.page j ≠ 0

instance (s : Supply) (n : Nat) : Decidable (s.Served n) := inferInstanceAs (Decidable (_ ∧ _))

/-! ## The stack -/

/-- `ustack_t`, with the memory around it. -/
structure Ustack where
  /-- The entries, and what stands before and behind them. -/
  page : Int → Nat
  sp : Nat
  base : Int
  argc : Nat
  envc : Nat
  /-- How many pages have been asked for. -/
  asked : Nat
  mem : Nat → BitVec 8
  wrote : List Nat

/-- A string of the user. -/
structure Ustr where
  /-- `verrstr` finds it. -/
  ok : Bool
  bytes : List (BitVec 8)
  terminated : 0 ∉ bytes

/-- An element of a vector of the user, which ends where nothing can be read any more. -/
inductive Slot where
  | bad
  | null
  | str (u : Ustr)

def verrvec : List Slot → Int
  | [] => EFAULT
  | .bad :: _ => EFAULT
  | .null :: _ => 0
  | .str _ :: vec => verrvec vec

/-- The strings before the end of a vector. -/
def strs : List Slot → List Ustr
  | .str u :: vec => u :: strs vec
  | _ => []

def count (vec : List Slot) : Nat := (strs vec).length

/-- What is to be pushed: a string, or something that stops the call. -/
abbrev Item := Option (List (BitVec 8))

def Ustr.item (u : Ustr) : Item := if u.ok then some u.bytes else none

namespace Ustack

/-- `init`, on a part of the kernel stack where this is. -/
def init (page : Int → Nat) (mem : Nat → BitVec 8) : Ustack :=
  ⟨page, 0, MAXARGPAGE, 0, 0, 0, mem, []⟩

def vbase (u : Ustack) : Nat :=
  ((USEREND : Int) - (MAXARGPAGE * PAGESIZE : Nat) + u.base * (PAGESIZE : Nat)).toNat

/-- Where `push` and `pushkstr` go on to the next page. -/
def room (s : Supply) (u : Ustack) : Int × Ustack :=
  if pagemod u.sp ≠ 0 then (0, u)
  else
    let u := { u with base := u.base - 1 }
    if u.base < 0 then (E2BIG, u)
    else
      let p := s.page u.asked
      let u := { u with page := update u.page u.base p, asked := u.asked + 1 }
      if p = 0 then (ENOMEM, u) else (0, { u with sp := p + PAGESIZE })

/-- `*--sp = c`. -/
def put (u : Ustack) (c : BitVec 8) : Ustack :=
  { u with
    sp := u.sp - 1
    mem := update u.mem (u.sp - 1) c
    wrote := (u.sp - 1) :: u.wrote }

/-- `push`, of at most `n` pieces; at its end it returns nothing. -/
def push (s : Supply) : Nat → Nat → Ustack → Option Int × Ustack
  | 0, _, u => (none, u)
  | n + 1, chars, u =>
      if chars = 0 then (none, u)
      else
        let (e, v) := u.room s
        if e ≠ 0 then (some e, v)
        else
          let once := if pagemod u.sp = 0 then min PAGESIZE chars else min (pagemod u.sp) chars
          push s n (chars - once) { v with sp := v.sp - once }

/-- The loop of `pushkstr`. -/
def pushbytes (s : Supply) : List (BitVec 8) → Ustack → Int × Ustack
  | [], u => (0, u)
  | c :: cs, u =>
      let (e, u) := u.room s
      if e ≠ 0 then (e, u) else pushbytes s cs (u.put c)

/-- `pushkstr`, from the terminator down. -/
def pushkstr (s : Supply) (u : Ustack) (str : List (BitVec 8)) : Int × Ustack :=
  pushbytes s (0 :: str.reverse) u

def pushustr (s : Supply) (u : Ustack) (str : Ustr) : Int × Ustack :=
  if !str.ok then (EFAULT, u) else u.pushkstr s str.bytes

/-- The loop of `pushuvec`. -/
def pushustrs (s : Supply) : List Ustr → Ustack → Int × Ustack
  | [], u => (0, u)
  | str :: strs, u =>
      let (e, u) := u.pushustr s str
      if e ≠ 0 then (e, u) else pushustrs s strs u

def pushuvec (s : Supply) (u : Ustack) (vec : List Slot) : Int × Ustack :=
  if verrvec vec ≠ 0 then (verrvec vec, u) else pushustrs s (strs vec).reverse u

/-- The entries from `base` on, which `destroy` and `initustack` go through. -/
def entries (u : Ustack) : List (Int × Nat) :=
  (List.range (MAXARGPAGE - u.base).toNat).map fun i : Nat => (u.base + i, u.page (u.base + i))

/-- `freepage`, after these: a page of the stack can be freed once, and `others` can be freed as
well. -/
def freepage (s : Supply) (others : Nat → Bool) (u : Ustack) (freed : List Nat) (p : Nat) :
    Option (List Nat) :=
  if !s.vtop p then none
  else if ((List.range u.asked).map s.page).contains p then
    if freed.contains p then none else some (p :: freed)
  else if others p then some (p :: freed) else none

/-- `destroy`: the pages that have been freed in the end. -/
def destroy (s : Supply) (others : Nat → Bool) (u : Ustack) : Option (List Nat) :=
  (u.entries.map Prod.snd).foldlM (u.freepage s others) []

end Ustack

/-! ## Places -/

variable {s : Supply} {u v : Ustack} {m n k : Nat} {bs : List (BitVec 8)} {c : BitVec 8}

theorem npages_succ (n : Nat) : npages (n + 1) = n / PAGESIZE + 1 := by
  unfold npages PAGESIZE
  omega

theorem npages_mono (h : m ≤ n) : npages m ≤ npages n := by
  unfold npages PAGESIZE
  omega

namespace Supply

theorem Served.mono (h : s.Served n) (hle : m ≤ n) : s.Served m :=
  ⟨Nat.le_trans (npages_mono hle) h.1, fun j hj => h.2 j (Nat.lt_of_lt_of_le hj (npages_mono hle))⟩

/-- A byte more is served if there is still room on its page, or a further page. -/
theorem served_succ_iff (h : s.Served n) : s.Served (n + 1) ↔
    n % PAGESIZE ≠ 0 ∨ n < MAXARGPAGE * PAGESIZE ∧ s.page (npages n) ≠ 0 := by
  obtain ⟨hle, hpages⟩ := h
  rw [Served, npages_succ]
  unfold npages MAXARGPAGE PAGESIZE at *
  constructor
  · rintro ⟨hle', hpages'⟩
    by_cases hmod : n % 4096 = 0
    · exact .inr ⟨by omega, hpages' _ (by omega)⟩
    · exact .inl hmod
  · rintro (hmod | ⟨hlt, hpage⟩)
    · exact ⟨by omega, fun j hj => hpages j (by omega)⟩
    · refine ⟨by omega, fun j hj => ?_⟩
      by_cases hj' : j < (n + (4096 - 1)) / 4096
      · exact hpages j hj'
      · have heq : j = (n + (4096 - 1)) / 4096 := by omega
        rw [heq]
        exact hpage

theorem pagemod_place (s : Supply) (n : Nat) : pagemod (s.place n) = PAGESIZE - 1 - n % PAGESIZE := by
  have haligned := s.aligned (n / PAGESIZE)
  unfold place pagemod PAGESIZE at *
  omega

/-- Each byte has a place of its own. -/
theorem place_inj (h : s.place m = s.place n) (hm : s.page (m / PAGESIZE) ≠ 0) : m = n := by
  have hpage : s.page (m / PAGESIZE) = s.page (n / PAGESIZE) := by
    have hmod := s.aligned (m / PAGESIZE)
    have hmod' := s.aligned (n / PAGESIZE)
    unfold place pagemod PAGESIZE at *
    omega
  have hdiv := s.distinct _ _ hpage hm
  unfold place PAGESIZE at *
  omega

end Supply

/-! ## The stack as a list of bytes -/

namespace Ustack

/-- So many bytes have been pushed, and all requests have been served. -/
structure Pushed (s : Supply) (u : Ustack) (n : Nat) : Prop where
  served : s.Served n
  asked : u.asked = npages n
  base : u.base = (MAXARGPAGE : Int) - npages n
  page : ∀ j < npages n, u.page ((MAXARGPAGE : Int) - 1 - j) = s.page j
  sp : u.sp = if n = 0 then 0 else s.place (n - 1)

/-- After so many bytes there is room for the next one. -/
structure Ready (s : Supply) (u : Ustack) (n : Nat) : Prop where
  served : s.Served (n + 1)
  asked : u.asked = npages (n + 1)
  base : u.base = (MAXARGPAGE : Int) - npages (n + 1)
  page : ∀ j < npages (n + 1), u.page ((MAXARGPAGE : Int) - 1 - j) = s.page j
  sp : u.sp = s.place n + 1

/-- All pages are full, and one more has been asked for. -/
structure Overflowed (s : Supply) (u : Ustack) : Prop where
  served : s.Served (MAXARGPAGE * PAGESIZE)
  asked : u.asked = MAXARGPAGE
  base : u.base = -1
  page : ∀ j < MAXARGPAGE, u.page ((MAXARGPAGE : Int) - 1 - j) = s.page j

/-- An entry is NULL. -/
def Starved (u : Ustack) : Prop :=
  ∃ i, u.base ≤ i ∧ 0 ≤ i ∧ i < MAXARGPAGE ∧ u.page i = 0

theorem Pushed.pagemod_sp (h : u.Pushed s n) : pagemod u.sp = 0 ↔ n % PAGESIZE = 0 := by
  rw [h.sp]
  split
  · next hn =>
    subst hn
    exact iff_of_true rfl rfl
  · next hn =>
    rw [s.pagemod_place]
    unfold PAGESIZE
    omega

theorem init_pushed (page : Int → Nat) (mem : Nat → BitVec 8) : (init page mem).Pushed s 0 where
  served := ⟨Nat.zero_le _, fun j hj => absurd hj (Nat.not_lt_zero j)⟩
  asked := rfl
  base := rfl
  page := fun j hj => absurd hj (Nat.not_lt_zero j)
  sp := rfl

/-- The stack with a further page. -/
def grown (s : Supply) (u : Ustack) : Ustack :=
  { u with
    base := u.base - 1
    page := update u.page (u.base - 1) (s.page u.asked)
    asked := u.asked + 1 }

/-- There is room, or no entry is left, or there is no page, or there is one. -/
theorem room_cases (s : Supply) (u : Ustack) :
    (pagemod u.sp ≠ 0 ∧ u.room s = (0, u)) ∨
    (pagemod u.sp = 0 ∧ u.base < 1 ∧ u.room s = (E2BIG, { u with base := u.base - 1 })) ∨
    (pagemod u.sp = 0 ∧ 1 ≤ u.base ∧ s.page u.asked = 0 ∧ u.room s = (ENOMEM, u.grown s)) ∨
    (pagemod u.sp = 0 ∧ 1 ≤ u.base ∧ s.page u.asked ≠ 0 ∧
      u.room s = (0, { u.grown s with sp := s.page u.asked + PAGESIZE })) := by
  by_cases hsp : pagemod u.sp = 0
  · by_cases hbase : u.base < 1
    · have hneg : u.base - 1 < 0 := by omega
      refine .inr (.inl ⟨hsp, hbase, ?_⟩)
      simp only [room, hsp, ne_eq, not_true_eq_false, if_false, if_pos hneg]
    · have hneg : ¬ u.base - 1 < 0 := by omega
      by_cases hpage : s.page u.asked = 0
      · refine .inr (.inr (.inl ⟨hsp, not_lt.mp hbase, hpage, ?_⟩))
        simp only [room, grown, hsp, ne_eq, not_true_eq_false, if_false, if_neg hneg, if_pos hpage]
      · refine .inr (.inr (.inr ⟨hsp, not_lt.mp hbase, hpage, ?_⟩))
        simp only [room, grown, hsp, ne_eq, not_true_eq_false, if_false, if_neg hneg, if_neg hpage]
  · exact .inl ⟨hsp, if_pos hsp⟩

/-- There is room, or the pages are full, or there is no further page. -/
theorem Pushed.room (h : u.Pushed s n) :
    (∃ v, u.room s = (0, v) ∧ v.mem = u.mem ∧ v.Ready s n) ∨
    (∃ v, u.room s = (E2BIG, v) ∧ n = MAXARGPAGE * PAGESIZE ∧ v.Overflowed s) ∨
    ∃ v, u.room s = (ENOMEM, v) ∧ n < MAXARGPAGE * PAGESIZE ∧ ¬ s.Served (n + 1) ∧ v.Starved := by
  have hmod := h.pagemod_sp
  have hbase := h.base
  obtain ⟨hle, -⟩ := h.served
  have hnpages := npages_succ n
  have hentry : (MAXARGPAGE : Int) - 1 - npages n = u.base - 1 := by omega
  obtain ⟨hsp, hroom⟩ | ⟨hsp, hlow, hroom⟩ | ⟨hsp, hlow, hpage, hroom⟩ | ⟨hsp, hlow, hpage, hroom⟩ :=
    room_cases s u
  · have hne : n % PAGESIZE ≠ 0 := fun hzero => hsp (hmod.mpr hzero)
    have hsame : npages (n + 1) = npages n := by
      unfold npages PAGESIZE at *
      omega
    refine .inl ⟨u, hroom, rfl, (Supply.served_succ_iff h.served).mpr (.inl hne), ?_, ?_, ?_, ?_⟩
    · rw [h.asked, hsame]
    · rw [h.base, hsame]
    · rw [hsame]
      exact h.page
    · have hn : n ≠ 0 := fun hzero => hne (by rw [hzero]; rfl)
      have hdiv : (n - 1) / PAGESIZE = n / PAGESIZE := by
        unfold PAGESIZE at *
        omega
      rw [h.sp, if_neg hn]
      unfold Supply.place
      rw [hdiv]
      unfold PAGESIZE at *
      omega
  · have hfull : n = MAXARGPAGE * PAGESIZE := by
      unfold npages MAXARGPAGE PAGESIZE at *
      omega
    have hall : npages n = MAXARGPAGE := by
      rw [hfull]
      decide
    refine .inr (.inl ⟨_, hroom, hfull, hfull ▸ h.served, h.asked.trans hall, ?_, fun j hj => ?_⟩)
    · show u.base - 1 = -1
      rw [h.base, hall]
      rfl
    · exact h.page j (hall.symm ▸ hj)
  · have hlt : n < MAXARGPAGE * PAGESIZE := by
      unfold npages MAXARGPAGE PAGESIZE at *
      omega
    rw [h.asked] at hpage
    refine .inr (.inr ⟨_, hroom, hlt, ?_, u.base - 1, Int.le_refl _, by omega, by omega, ?_⟩)
    · rw [Supply.served_succ_iff h.served]
      rintro (hne | ⟨-, hne⟩)
      · exact hne (hmod.mp hsp)
      · exact hne hpage
    · show update u.page (u.base - 1) (s.page u.asked) (u.base - 1) = 0
      rw [update_self, h.asked, hpage]
  · have hzero := hmod.mp hsp
    have hlt : n < MAXARGPAGE * PAGESIZE := by
      unfold npages MAXARGPAGE PAGESIZE at *
      omega
    have hsucc : npages (n + 1) = npages n + 1 := by
      unfold npages PAGESIZE at *
      omega
    rw [h.asked] at hpage
    refine .inl ⟨_, hroom, rfl, (Supply.served_succ_iff h.served).mpr (.inr ⟨hlt, hpage⟩), ?_, ?_,
      fun j hj => ?_, ?_⟩
    · show u.asked + 1 = npages (n + 1)
      rw [h.asked, hsucc]
    · show u.base - 1 = (MAXARGPAGE : Int) - npages (n + 1)
      omega
    · show update u.page (u.base - 1) (s.page u.asked) _ = s.page j
      by_cases hlast : j = npages n
      · rw [hlast, hentry, update_self, h.asked]
      · rw [update_of_ne (by omega)]
        exact h.page j (by omega)
    · show s.page u.asked + PAGESIZE = s.place n + 1
      have hdiv : n / PAGESIZE = npages n := by omega
      unfold Supply.place
      rw [hdiv, h.asked, hzero]
      unfold PAGESIZE
      omega

/-! ## What every push keeps -/

/-- What holds before a push holds behind it. -/
structure Kept (s : Supply) (P : Ustack → Prop) : Prop where
  room : ∀ u, P u → P (u.room s).2
  lower : ∀ u k, P u → (u.room s).1 = 0 →
    k ≤ (if pagemod u.sp = 0 then PAGESIZE else pagemod u.sp) →
      P { (u.room s).2 with sp := (u.room s).2.sp - k }
  put : ∀ u c, P u → (u.room s).1 = 0 → P ((u.room s).2.put c)

namespace Kept

variable {P : Ustack → Prop}

theorem push (h : Kept s P) (n chars : Nat) (hu : P u) : P (push s n chars u).2 := by
  induction n generalizing chars u with
  | zero => exact hu
  | succ n ih =>
      rw [Ustack.push]
      split
      · exact hu
      dsimp only
      split
      · exact h.room u hu
      · next he =>
        refine ih _ (h.lower u _ hu (not_not.mp he) ?_)
        split
        · exact Nat.min_le_left _ _
        · exact Nat.min_le_left _ _

theorem pushbytes (h : Kept s P) (cs : List (BitVec 8)) (hu : P u) : P (pushbytes s cs u).2 := by
  induction cs generalizing u with
  | nil => exact hu
  | cons c cs ih =>
      rw [Ustack.pushbytes]
      dsimp only
      split
      · exact h.room u hu
      · next he => exact ih (h.put u c hu (not_not.mp he))

theorem pushustr (h : Kept s P) (str : Ustr) (hu : P u) : P (u.pushustr s str).2 := by
  rw [Ustack.pushustr]
  split
  · exact hu
  · exact h.pushbytes _ hu

theorem pushuvec (h : Kept s P) (vec : List Slot) (hu : P u) : P (u.pushuvec s vec).2 := by
  rw [Ustack.pushuvec]
  split
  · exact hu
  · induction (strs vec).reverse generalizing u with
    | nil => exact hu
    | cons str strs ih =>
        rw [pushustrs]
        dsimp only
        split
        · exact h.pushustr str hu
        · exact ih (h.pushustr str hu)

end Kept

/-- The entries that there are stay as they are, and so does what stands before the first. -/
structure Grows (u v : Ustack) : Prop where
  argc : v.argc = u.argc
  envc : v.envc = u.envc
  base : v.base ≤ u.base
  page : ∀ i, u.base ≤ i ∨ i < 0 → v.page i = u.page i

theorem Grows.refl (u : Ustack) : Grows u u := ⟨rfl, rfl, Int.le_refl _, fun _ _ => rfl⟩

theorem Grows.trans {w : Ustack} (h : Grows u v) (h' : Grows v w) : Grows u w where
  argc := h'.argc.trans h.argc
  envc := h'.envc.trans h.envc
  base := Int.le_trans h'.base h.base
  page := fun i hi => (h'.page i (hi.imp_left (Int.le_trans h.base))).trans (h.page i hi)

theorem Grows.room (s : Supply) (u : Ustack) : Grows u (u.room s).2 := by
  have hentry : 1 ≤ u.base → ∀ i, u.base ≤ i ∨ i < 0 → (u.grown s).page i = u.page i :=
    fun hbase i hi => update_of_ne (by omega) _ _
  obtain ⟨-, hroom⟩ | ⟨-, -, hroom⟩ | ⟨-, hbase, -, hroom⟩ | ⟨-, hbase, -, hroom⟩ := room_cases s u
  · rw [hroom]
    exact .refl u
  · rw [hroom]
    exact ⟨rfl, rfl, Int.sub_le_self _ (by decide), fun _ _ => rfl⟩
  · rw [hroom]
    exact ⟨rfl, rfl, Int.sub_le_self _ (by decide), hentry hbase⟩
  · rw [hroom]
    exact ⟨rfl, rfl, Int.sub_le_self _ (by decide), hentry hbase⟩

theorem grows_kept (s : Supply) (u : Ustack) : Kept s (Grows u) where
  room := fun v h => h.trans (.room s v)
  lower := fun v _ h _ _ =>
    have hroom := h.trans (.room s v)
    ⟨hroom.argc, hroom.envc, hroom.base, hroom.page⟩
  put := fun v _ h _ =>
    have hroom := h.trans (.room s v)
    ⟨hroom.argc, hroom.envc, hroom.base, hroom.page⟩

theorem Starved.grows (h : u.Starved) (hv : Grows u v) : v.Starved := by
  obtain ⟨i, hbase, hpos, hlt, hnull⟩ := h
  exact ⟨i, Int.le_trans hv.base hbase, hpos, hlt, (hv.page i (.inl hbase)).trans hnull⟩

/-- Addresses of the pages that have been given out. -/
def Given (s : Supply) (asked a : Nat) : Prop :=
  ∃ n < asked, s.page n ≠ 0 ∧ s.page n ≤ a ∧ a < s.page n + PAGESIZE

/-- Only the pages have been written, and the next byte goes there, or a page is asked for. -/
structure Inside (s : Supply) (u : Ustack) : Prop where
  wrote : ∀ a ∈ u.wrote, Given s u.asked a
  sp : pagemod u.sp ≠ 0 → 0 < u.sp ∧ Given s u.asked (u.sp - 1)

theorem Given.mono {a : Nat} (h : Given s m a) (hle : m ≤ n) : Given s n a := by
  obtain ⟨j, hj, hpage⟩ := h
  exact ⟨j, Nat.lt_of_lt_of_le hj hle, hpage⟩

/-- Behind `room` the next byte goes to a page, and as many as there are before it. -/
theorem Inside.room (h : u.Inside s) : (u.room s).2.Inside s ∧ ((u.room s).1 = 0 →
    ∃ n < (u.room s).2.asked, s.page n ≠ 0 ∧ (u.room s).2.sp =
      s.page n + if pagemod u.sp = 0 then PAGESIZE else pagemod u.sp) := by
  have hmore : ∀ a ∈ u.wrote, Given s (u.asked + 1) a :=
    fun a ha => (h.wrote a ha).mono (Nat.le_succ _)
  obtain ⟨hsp, hroom⟩ | ⟨hsp, -, hroom⟩ | ⟨hsp, -, -, hroom⟩ | ⟨hsp, -, hpage, hroom⟩ :=
    room_cases s u
  · rw [hroom]
    refine ⟨h, fun _ => ?_⟩
    obtain ⟨hpos, n, hn, hne, hle, hlt⟩ := h.sp hsp
    refine ⟨n, hn, hne, ?_⟩
    rw [if_neg hsp]
    have haligned := s.aligned n
    show u.sp = s.page n + pagemod u.sp
    unfold pagemod PAGESIZE at *
    omega
  · rw [hroom]
    exact ⟨⟨h.wrote, fun hne => absurd hsp hne⟩, fun he : E2BIG = 0 => absurd he (by decide)⟩
  · rw [hroom]
    exact ⟨⟨hmore, fun hne => absurd hsp hne⟩, fun he : ENOMEM = 0 => absurd he (by decide)⟩
  · rw [hroom]
    refine ⟨⟨hmore, fun hne => absurd ?_ hne⟩, fun _ => ⟨u.asked, Nat.lt_succ_self _, hpage, ?_⟩⟩
    · have haligned := s.aligned u.asked
      show pagemod (s.page u.asked + PAGESIZE) = 0
      unfold pagemod PAGESIZE at *
      omega
    · rw [if_pos hsp]

theorem inside_kept (s : Supply) : Kept s (Inside s) := by
  have hspan : ∀ u : Ustack, 0 < (if pagemod u.sp = 0 then PAGESIZE else pagemod u.sp) ∧
      (if pagemod u.sp = 0 then PAGESIZE else pagemod u.sp) ≤ PAGESIZE := by
    intro u
    unfold pagemod PAGESIZE
    split_ifs
    · omega
    · omega
  refine ⟨fun u h => h.room.1, fun u k h he hk => ?_, fun u c h he => ?_⟩
  · obtain ⟨hin, hsp⟩ := h.room
    obtain ⟨n, hn, hne, hsp⟩ := hsp he
    have hbound := hspan u
    have haligned := s.aligned n
    refine ⟨hin.wrote, fun hmod => ?_⟩
    show 0 < (u.room s).2.sp - k ∧ Given s (u.room s).2.asked ((u.room s).2.sp - k - 1)
    have hpos : k ≠ (if pagemod u.sp = 0 then PAGESIZE else pagemod u.sp) := by
      intro heq
      rw [hsp, heq, Nat.add_sub_cancel] at hmod
      exact hmod haligned
    exact ⟨by omega, n, hn, hne, by omega, by omega⟩
  · obtain ⟨hin, hsp⟩ := h.room
    obtain ⟨n, hn, hne, hsp⟩ := hsp he
    have hbound := hspan u
    have haligned := s.aligned n
    have hbyte : Given s (u.room s).2.asked ((u.room s).2.sp - 1) :=
      ⟨n, hn, hne, by omega, by omega⟩
    refine ⟨fun a ha => ?_, fun hmod => ?_⟩
    · rcases mem_cons.mp ha with rfl | ha
      · exact hbyte
      · exact hin.wrote a ha
    · have hmod : pagemod ((u.room s).2.sp - 1) ≠ 0 := hmod
      have hpos : (if pagemod u.sp = 0 then PAGESIZE else pagemod u.sp) ≠ 1 := by
        intro heq
        rw [hsp, heq, Nat.add_sub_cancel] at hmod
        exact hmod haligned
      show 0 < (u.room s).2.sp - 1 ∧ Given s (u.room s).2.asked ((u.room s).2.sp - 1 - 1)
      exact ⟨by omega, n, hn, hne, by omega, by omega⟩

/-! ## What is on the stack -/

/-- These bytes are on the stack, after `n` bytes with them. -/
def Contents (s : Supply) (u : Ustack) (n : Nat) (bs : List (BitVec 8)) : Prop :=
  bs.length ≤ n ∧ ∀ k (hk : k < bs.length), u.mem (s.place (n - 1 - k)) = bs[k]

/-- Some bytes of the page are taken. -/
theorem Ready.pushed (h : u.Ready s n) (hk : 0 < k) (hfit : n % PAGESIZE + k ≤ PAGESIZE) :
    Pushed s { u with sp := u.sp - k } (n + k) := by
  have hsame : npages (n + k) = npages (n + 1) := by
    unfold npages PAGESIZE at *
    omega
  constructor
  · exact ⟨hsame ▸ h.served.1, hsame ▸ h.served.2⟩
  · exact h.asked.trans hsame.symm
  · rw [hsame]
    exact h.base
  · rw [hsame]
    exact h.page
  · show u.sp - k = _
    have hdiv : (n + k - 1) / PAGESIZE = n / PAGESIZE := by
      unfold PAGESIZE at *
      omega
    rw [if_neg (by omega), h.sp]
    unfold Supply.place
    rw [hdiv]
    unfold PAGESIZE at *
    omega

theorem Ready.put (h : u.Ready s n) (hbs : u.Contents s n bs) (c : BitVec 8) :
    (u.put c).Pushed s (n + 1) ∧ (u.put c).Contents s (n + 1) (c :: bs) := by
  have hfit : n % PAGESIZE + 1 ≤ PAGESIZE := Nat.mod_lt n (by decide)
  obtain ⟨hserved, hasked, hbase, hpage, hsp⟩ := h.pushed Nat.one_pos hfit
  refine ⟨⟨hserved, hasked, hbase, hpage, hsp⟩, Nat.succ_le_succ hbs.1, fun k hk => ?_⟩
  have hplace : u.sp - 1 = s.place n := by
    rw [h.sp]
    rfl
  show update u.mem (u.sp - 1) c (s.place (n + 1 - 1 - k)) = (c :: bs)[k]
  rw [hplace]
  cases k with
  | zero => exact update_self _ _ _
  | succ k =>
      have hk : k < bs.length := Nat.lt_of_succ_lt_succ hk
      have hle := hbs.1
      have hne : s.place (n + 1 - 1 - (k + 1)) ≠ s.place n := by
        intro heq
        have hserved' := h.served.2 (n / PAGESIZE) (by rw [npages_succ]; exact Nat.lt_succ_self _)
        have hsame := Supply.place_inj heq.symm hserved'
        omega
      have hback : n + 1 - 1 - (k + 1) = n - 1 - k := by omega
      rw [update_of_ne hne, hback]
      exact hbs.2 k hk

/-- The supply has failed, or the room. -/
def Spent (s : Supply) (u : Ustack) (n : Nat) : Prop :=
  ¬ s.Served n ∧ (u.Overflowed s ∨ ¬ s.Served (MAXARGPAGE * PAGESIZE) ∧ u.Starved)

theorem Spent.mono (h : u.Spent s m) (hle : m ≤ n) : u.Spent s n :=
  ⟨fun hn => h.1 (hn.mono hle), h.2⟩

/-- All bytes are pushed, or the supply fails. -/
theorem Pushed.pushbytes (h : u.Pushed s n) (hbs : u.Contents s n bs) (cs : List (BitVec 8)) :
    ∃ e v, pushbytes s cs u = (e, v) ∧
      (e = 0 ∧ v.Pushed s (n + cs.length) ∧ v.Contents s (n + cs.length) (cs.reverse ++ bs) ∨
        e ≠ 0 ∧ v.Spent s (n + cs.length)) := by
  induction cs generalizing u n bs with
  | nil => exact ⟨0, u, rfl, .inl ⟨rfl, h, hbs⟩⟩
  | cons c cs ih =>
      have hlen : n + (c :: cs).length = n + 1 + cs.length := by
        rw [length_cons]
        omega
      rw [hlen, reverse_cons, append_assoc, singleton_append]
      obtain ⟨v, hroom, hmem, hv⟩ | ⟨v, hroom, hfull, hv⟩ | ⟨v, hroom, hlt, hns, hv⟩ := h.room
      · have hbs' : v.Contents s n bs := by
          unfold Contents
          rw [hmem]
          exact hbs
        obtain ⟨hput, hcontents⟩ := hv.put hbs' c
        obtain ⟨e, w, hw, hcases⟩ := ih hput hcontents
        refine ⟨e, w, ?_, hcases⟩
        simp only [Ustack.pushbytes, hroom, ne_eq, not_true_eq_false, if_false]
        exact hw
      · refine ⟨E2BIG, v, ?_, .inr ⟨by decide, fun hserved => ?_, .inl hv⟩⟩
        · simp only [Ustack.pushbytes, hroom]
          rfl
        · have hmany := hserved.1
          unfold npages MAXARGPAGE PAGESIZE at *
          omega
      · have hmax : ¬ s.Served (MAXARGPAGE * PAGESIZE) := fun hserved => hns (hserved.mono hlt)
        refine ⟨ENOMEM, v, ?_, .inr ⟨by decide, fun hserved => ?_, .inr ⟨hmax, hv⟩⟩⟩
        · simp only [Ustack.pushbytes, hroom]
          rfl
        · exact hns (hserved.mono (Nat.le_add_right _ _))

/-! ## Strings -/

/-- The bytes of these strings. -/
def image (strs : List (List (BitVec 8))) : List (BitVec 8) := strs.flatMap fun str => str ++ [0]

def ATEGID : Nat := 14

/-- The room for the auxiliary vector. -/
def AUXSIZE : Nat := (ATEGID + 2) * 4 * 2

/-- The bytes for these strings and the auxiliary vector. -/
def size (strs : List (List (BitVec 8))) : Nat := AUXSIZE + (image strs).length

/-- The strings on the stack, the last one pushed first.  What `push` returns is ignored, and so
the first page may be missing. -/
def Live (s : Supply) (u : Ustack) (strs : List (List (BitVec 8))) : Prop :=
  u.Pushed s (size strs) ∧ u.Contents s (size strs) (image strs) ∨
    s.page 0 = 0 ∧ u.Starved

variable {strs : List (List (BitVec 8))} {str : List (BitVec 8)}

theorem length_image_cons : (image (str :: strs)).length = str.length + 1 + (image strs).length := by
  unfold image
  rw [flatMap_cons, length_append, length_append, length_singleton]

theorem size_cons : size (str :: strs) = size strs + (str.length + 1) := by
  unfold size
  rw [length_image_cons]
  omega

theorem size_le_append (strs' : List (List (BitVec 8))) : size strs ≤ size (strs' ++ strs) := by
  unfold size image
  rw [flatMap_append, length_append]
  omega

/-- Without the first page nothing is served. -/
theorem spent_of_starved (h : s.page 0 = 0) (hu : u.Starved) (hn : 0 < n) : u.Spent s n := by
  have hnone : ∀ m, 0 < m → ¬ s.Served m := by
    intro m hm hserved
    refine hserved.2 0 ?_ h
    unfold npages PAGESIZE
    omega
  exact ⟨hnone n hn, .inr ⟨hnone _ (by decide), hu⟩⟩

/-- `push`, in one piece. -/
theorem push_live (page : Int → Nat) (mem : Nat → BitVec 8) :
    Live s (push s AUXSIZE AUXSIZE (init page mem)).2 [] := by
  have hinit : (init page mem).Pushed s 0 := init_pushed page mem
  have hpush : push s AUXSIZE AUXSIZE (init page mem) =
      if ((init page mem).room s).1 ≠ 0 then
        (some ((init page mem).room s).1, ((init page mem).room s).2)
      else (none, { ((init page mem).room s).2 with
        sp := ((init page mem).room s).2.sp - AUXSIZE }) := rfl
  rw [hpush]
  obtain ⟨v, hroom, -, hv⟩ | ⟨v, -, hfull, -⟩ | ⟨v, hroom, hlt, hns, hv⟩ := hinit.room
  · rw [hroom, if_neg (not_not.mpr rfl)]
    have hpushed := hv.pushed (k := AUXSIZE) (by decide) (by decide)
    exact .inl ⟨hpushed, Nat.zero_le _, fun k hk => absurd hk (Nat.not_lt_zero k)⟩
  · exact absurd hfull (by decide)
  · rw [hroom, if_pos (show ENOMEM ≠ 0 by decide)]
    refine .inr ⟨?_, hv⟩
    by_contra hpage
    refine hns ⟨by decide, fun j hj => ?_⟩
    have hzero : j = 0 := Nat.lt_one_iff.mp hj
    rw [hzero]
    exact hpage

theorem Live.pushkstr (h : u.Live s strs) (str : List (BitVec 8)) :
    ∃ e v, u.pushkstr s str = (e, v) ∧
      (e = 0 ∧ v.Live s (str :: strs) ∨ e ≠ 0 ∧ v.Spent s (size (str :: strs))) := by
  have hlen : (0 :: str.reverse).length = str.length + 1 := by
    rw [length_cons, length_reverse]
  rcases h with ⟨hpushed, hcontents⟩ | ⟨hnone, hstarved⟩
  · obtain ⟨e, v, heq, hcases⟩ := hpushed.pushbytes hcontents (0 :: str.reverse)
    have hbytes : (0 :: str.reverse).reverse ++ image strs = image (str :: strs) := by
      simp [image]
    rw [hlen, ← size_cons, hbytes] at hcases
    refine ⟨e, v, heq, hcases.imp_left fun hok => ⟨hok.1, .inl hok.2⟩⟩
  · have hv : (u.pushkstr s str).2.Starved :=
      hstarved.grows ((grows_kept s u).pushbytes _ (.refl u))
    by_cases he : (u.pushkstr s str).1 = 0
    · exact ⟨_, _, rfl, .inl ⟨he, .inr ⟨hnone, hv⟩⟩⟩
    · refine ⟨_, _, rfl, .inr ⟨he, spent_of_starved hnone hv ?_⟩⟩
      unfold size AUXSIZE ATEGID
      omega

/-- The strings before the call is stopped, in the order in which they are pushed. -/
def wants : List Item → List (List (BitVec 8))
  | some str :: items => str :: wants items
  | _ => []

/-- What `pushuvec` pushes. -/
def uvecitems (vec : List Slot) : List Item :=
  if verrvec vec ≠ 0 then [none] else (Mm.strs vec).reverse.map Ustr.item

variable {items items' : List Item}

theorem wants_append (h : none ∉ items) (items' : List Item) :
    wants (items ++ items') = wants items ++ wants items' := by
  induction items with
  | nil => rfl
  | cons item items ih =>
      cases item with
      | none => exact absurd mem_cons_self h
      | some str => exact congrArg _ (ih fun hmem => h (mem_cons_of_mem _ hmem))

/-- With these strings the stack is as it should be, or the supply has failed. -/
def Ends (s : Supply) (u : Ustack) (strs : List (List (BitVec 8))) : Prop :=
  u.Live s strs ∨ u.Spent s (size strs)

/-- On top of these strings, one of the items stops the call, or the supply fails there. -/
def Blocked (s : Supply) (strs : List (List (BitVec 8))) (items : List Item) (u : Ustack) : Prop :=
  ∃ pre post, none ∉ pre ∧
    (items = pre ++ none :: post ∧ u.Live s ((wants pre).reverse ++ strs) ∨
      items = pre ++ post ∧ pre ≠ [] ∧ u.Spent s (size ((wants pre).reverse ++ strs)))

theorem Blocked.append (h : Blocked s strs items u) (items' : List Item) :
    Blocked s strs (items ++ items') u := by
  obtain ⟨pre, post, hsome, ⟨rfl, hlive⟩ | ⟨rfl, hne, hspent⟩⟩ := h
  · exact ⟨pre, post ++ items', hsome, .inl ⟨by simp, hlive⟩⟩
  · exact ⟨pre, post ++ items', hsome, .inr ⟨by simp, hne, hspent⟩⟩

theorem Blocked.behind (hitems : none ∉ items)
    (h : Blocked s ((wants items).reverse ++ strs) items' u) : Blocked s strs (items ++ items') u := by
  obtain ⟨pre, post, hsome, hcases⟩ := h
  have hpre : none ∉ items ++ pre := fun hmem => (mem_append.mp hmem).elim hitems hsome
  have hwants : (wants (items ++ pre)).reverse ++ strs =
      (wants pre).reverse ++ ((wants items).reverse ++ strs) := by
    rw [wants_append hitems, reverse_append, append_assoc]
  refine ⟨items ++ pre, post, hpre, ?_⟩
  rw [hwants]
  obtain ⟨rfl, hlive⟩ | ⟨rfl, hne, hspent⟩ := hcases
  · exact .inl ⟨(append_assoc _ _ _).symm, hlive⟩
  · exact .inr ⟨(append_assoc _ _ _).symm, by simp [hne], hspent⟩

/-- Either way nothing more is pushed. -/
theorem Blocked.ends (h : Blocked s strs items u) : u.Ends s ((wants items).reverse ++ strs) := by
  obtain ⟨pre, post, hsome, ⟨rfl, hlive⟩ | ⟨rfl, -, hspent⟩⟩ := h
  · rw [wants_append hsome]
    exact .inl ((append_nil (wants pre)).symm ▸ hlive)
  · refine .inr (hspent.mono ?_)
    rw [wants_append hsome, reverse_append, append_assoc]
    exact size_le_append _

/-- These items have been pushed on the strings, or one of them has not. -/
def Passes (s : Supply) (strs : List (List (BitVec 8))) (items : List Item) (r : Int × Ustack) :
    Prop :=
  r.1 = 0 ∧ none ∉ items ∧ r.2.Live s ((wants items).reverse ++ strs) ∨
    r.1 ≠ 0 ∧ Blocked s strs items r.2

theorem Live.pushkstr_passes (h : u.Live s strs) (str : List (BitVec 8)) :
    Passes s strs [some str] (u.pushkstr s str) := by
  obtain ⟨e, v, heq, ⟨he, hv⟩ | ⟨he, hv⟩⟩ := h.pushkstr str
  · rw [heq]
    exact .inl ⟨he, by simp, hv⟩
  · rw [heq]
    exact .inr ⟨he, [some str], [], by simp, .inr ⟨rfl, cons_ne_nil _ _, hv⟩⟩

theorem Live.pushustr (h : u.Live s strs) (str : Ustr) :
    Passes s strs [Ustr.item str] (u.pushustr s str) := by
  unfold Ustack.pushustr Ustr.item
  cases hok : str.ok with
  | false =>
      exact .inr ⟨(by decide : EFAULT ≠ 0), [], [], not_mem_nil, .inl ⟨rfl, h⟩⟩
  | true => exact h.pushkstr_passes str.bytes

theorem Live.pushustrs (h : u.Live s strs) (l : List Ustr) :
    Passes s strs (l.map Ustr.item) (pushustrs s l u) := by
  induction l generalizing u strs with
  | nil => exact .inl ⟨rfl, not_mem_nil, h⟩
  | cons str l ih =>
      rw [Ustack.pushustrs, map_cons, ← singleton_append]
      obtain ⟨he, hsome, hlive⟩ | ⟨he, hblocked⟩ := h.pushustr str
      · simp only [he, ne_eq, not_true_eq_false, if_false]
        rcases ih hlive with ⟨he', hsome', hlive'⟩ | ⟨he', hblocked⟩
        · refine .inl ⟨he', fun hmem => (mem_append.mp hmem).elim hsome hsome', ?_⟩
          rw [wants_append hsome, reverse_append, append_assoc]
          exact hlive'
        · exact .inr ⟨he', hblocked.behind hsome⟩
      · simp only [if_pos he]
        exact .inr ⟨he, hblocked.append _⟩

theorem Live.pushuvec (h : u.Live s strs) (vec : List Slot) :
    Passes s strs (uvecitems vec) (u.pushuvec s vec) := by
  unfold Ustack.pushuvec uvecitems
  split
  · next he => exact .inr ⟨he, [], [], not_mem_nil, .inl ⟨rfl, h⟩⟩
  · exact h.pushustrs _

end Ustack

end Unixlite.Mm
