import Unixlite.Fs.Open
import Unixlite.Verified.Counter
import Unixlite.Verified.Words

/-!
# Looking up a path

Port of `strncpy`, `toknum` and `scanstr_t` of `lib/string.h` and `lib/string.cc`, of `lookup2`
and `lookup` of `fs/dir.cc` and of `advancei` and `namei` of `fs/namei.cc`, for one task among
directories with file systems mounted on them, of which not everything can be read.  The state
has the reference counts of the inodes, and memory; what becomes of an inode that nobody holds
any more is left out.  `none` is an assertion that fails, or a pointer that is not there.

A lookup leaves the counts as they were but for the inode that it returns, and this is a mount
point only where `lookup` does not cross (`namei_balanced_iff`).
-/

namespace Unixlite.Fs

open Verified Counter Words List
open Function (update)

/-! ## Strings -/

abbrev Mem := Nat → BitVec 8

/-- `strncpy`, of a string without its terminator. -/
def strncpy : Nat → Mem → Nat → Name → Mem
  | 0, mem, _, _ => mem
  | _ + 1, mem, dst, [] => update mem dst 0
  | n + 1, mem, dst, c :: src => strncpy n (update mem dst c) (dst + 1) src

/-- `toknum`, with what it makes of the string; `state` is set inside of a name. -/
def toknum : Bool → Name → Nat × Name
  | _, [] => (0, [])
  | state, c :: str =>
      if c = sep then
        let (sum, str) := toknum false str
        (sum, 0 :: str)
      else
        let (sum, str) := toknum true str
        (if state then sum else sum + 1, c :: str)

/-- `scanstr_t`. -/
structure Scanstr where
  /-- The bytes from `cur` to `eroom`. -/
  rest : Name
  nlefttok : Nat

namespace Scanstr

def SIZE : Nat := 256

def skiptok (x : Scanstr) : Scanstr := { x with rest := x.rest.dropWhile fun c => !c == 0 }
def skipsep (x : Scanstr) : Scanstr := { x with rest := x.rest.dropWhile fun c => c == 0 }

/-- The constructor.  Either room has a byte more than the string, for the terminator; a string
that is longer leaves the pointers as they are. -/
def construct (str : Name) : Option Scanstr :=
  if str.length < SIZE ∨ str.length < PAGESIZE then
    let (sum, room) := toknum false str
    some (skipsep ⟨room, sum⟩)
  else none

def more (x : Scanstr) : Bool := !x.rest.isEmpty

def curtok (x : Scanstr) : Name := x.rest.takeWhile fun c => !c == 0

def next (x : Scanstr) : Scanstr :=
  let x := x.skiptok.skipsep
  { x with nlefttok := x.nlefttok - 1 }

end Scanstr

/-! ## Directories -/

/-- What does not change during a lookup: the inodes, what is mounted, what can be read, and
the task. -/
structure Dirtree where
  inode : Ref → Inode
  peer : Ref → Option Ref
  /-- The blocks of a directory that can be read. -/
  readable : Ref → Nat → Bool
  /-- What `readi` returns, which depends on how many inodes are held. -/
  readi : (Ref → Nat) → Ref → Int
  cred : Cred
  root : Ref
  cwd : Ref
  /-- Only on directories something is mounted. -/
  mounted_isdir : ∀ r, (inode r).mounted = true → (inode r).isdir = true
  /-- A name is what stands before the terminator. -/
  named : ∀ r, ∀ de ∈ (inode r).slots, 0 ∉ de.name

/-- `refcnt`. -/
abbrev Counts := Ref → Nat

namespace Dirtree

def lose (s : Counts) (r : Ref) : Option Counts :=
  if s r = 0 then none else some (Counter.lose s r)

/-- What a scan comes to; blocks that cannot be read are passed over. -/
def entries (t : Dirtree) (r : Ref) : List De :=
  ((t.inode r).slots.zipIdx.filter fun x => t.readable r (x.2 / DEPERBLOCK)).map Prod.fst

def findde (t : Dirtree) (r : Ref) (name : Name) : Option De :=
  (t.entries r).find? fun de => de.ino != MINIXFREEINO && de.name == name

def lookup2 (t : Dirtree) (s : Counts) (r : Ref) (name : Name) : Except Int (Ref × Counts) :=
  match t.findde r name with
  | none => .error ENOENT
  | some de =>
      let sub := (r.1, de.ino)
      if t.readi s sub ≠ 0 then .error (t.readi s sub) else .ok (sub, hold s sub)

def lookup (t : Dirtree) (s : Counts) (r : Ref) (name : Name) :
    Option (Except Int (Ref × Counts)) :=
  if !(t.inode r).isdir then some (.error ENOTDIR)
  else if (t.inode r).deny t.cred IX ≠ 0 then some (.error EACCES)
  else if (t.inode r).mounted then none
  else if name = dotdot ∧ r = t.root then some (.ok (r, hold s r))
  else if name = dotdot ∧ r.2 = MINIXROOTINO then
    -- cross from root dir to mount point
    (t.peer r).map fun p => t.lookup2 s p name
  else
    match t.lookup2 s r name with
    | .error e => some (.error e)
    | .ok (sub, s) =>
        -- cross from mount point to root dir
        if (t.inode sub).mounted then do
          let s ← lose s sub
          let p ← t.peer sub
          some (.ok (p, hold s p))
        else some (.ok (sub, s))

def advancei (t : Dirtree) (s : Counts) (cwd : Ref) (name : Name) :
    Option (Except Int (Ref × Counts)) := do
  match ← t.lookup s cwd name with
  | .error e => some (.error e)
  | .ok (sub, s) =>
      let s ← lose s cwd
      some (.ok (sub, s))

/-- The loop of `namei`, for `n` names at most. -/
def walk (t : Dirtree) (split : Bool) (basename : Nat) :
    Nat → Scanstr → Ref → Counts → Mem → Option (Except Int Ref × Counts × Mem)
  | 0, _, _, _, _ => none
  | n + 1, scan, cwd, s, mem =>
      if !scan.more then some (.ok cwd, s, mem)
      else if !(t.inode cwd).isdir then do
        let s ← lose s cwd
        some (.error ENOTDIR, s, mem)
      else if scan.nlefttok = 1 ∧ split = true then
        some (.ok cwd, s, strncpy (NAMEMAX + 1) mem basename scan.curtok)
      else do
        match ← t.advancei s cwd scan.curtok with
        | .error e =>
            let s ← lose s cwd
            some (.error e, s, mem)
        | .ok (sub, s) => walk t split basename n scan.next sub s mem

/-- Where a path begins. -/
def start (t : Dirtree) (pathname : Name) : Ref :=
  if pathname.head? = some sep then t.root else t.cwd

/-- `namei`; `split` is `I2SPLIT`. -/
def namei (t : Dirtree) (s : Counts) (split : Bool) (pathname : Name) (mem : Mem) (basename : Nat) :
    Option (Except Int Ref × Counts × Mem) := do
  let scan ← Scanstr.construct pathname
  let mem := if split then update mem basename 0 else mem
  if scan.nlefttok = 0 ∧ split = true then some (.error ENOENT, s, mem)
  else
    let cwd := t.start pathname
    walk t split basename (pathname.length + 1) scan cwd (hold s cwd) mem

end Dirtree

/-! ## The names of a path -/

open Kernel (tokens)

theorem tokens_eq (path : Name) : tokens path = words (fun c => c == sep) path := by
  apply filter_congr
  intro w _
  cases w with
  | nil => rfl
  | cons c w => rfl

/-- The separators of a string become terminators. -/
def cut (c : BitVec 8) : BitVec 8 := if c = sep then 0 else c

theorem toknum_snd (state : Bool) (str : Name) : (toknum state str).2 = str.map cut := by
  induction str generalizing state with
  | nil => rfl
  | cons c str ih =>
      rw [toknum, map_cons, cut]
      by_cases hc : c = sep
      · rw [if_pos hc, if_pos hc]
        exact congrArg _ (ih false)
      · rw [if_neg hc, if_neg hc]
        exact congrArg _ (ih true)

theorem toknum_fst (str : Name) :
    (toknum false str).1 = (tokens str).length ∧
      (toknum true str).1 = (tokens (str.dropWhile fun c => !c == sep)).length := by
  simp only [tokens_eq]
  induction str with
  | nil => exact ⟨rfl, rfl⟩
  | cons c str ih =>
      rw [toknum, toknum]
      by_cases hc : c = sep
      · have hsep : (c == sep) = true := by simpa using hc
        have hwords : words (fun c => c == sep) (c :: str) = words (fun c => c == sep) str :=
          words_cons_sep hsep
        rw [if_pos hc, if_pos hc, dropWhile_cons_of_neg (by simp [hsep]), hwords]
        exact ⟨ih.1, ih.1⟩
      · have hsep : (c == sep) = false := by simpa using hc
        have hscan := words_scan (p := fun c => c == sep) (l := c :: str) (cons_ne_nil c str)
          (by simpa using hc)
        rw [if_neg hc, if_neg hc, hscan, dropWhile_cons_of_pos (by simp [hsep])]
        exact ⟨congrArg (· + 1) ih.2, ih.2⟩

/-- A scanner in front of these names. -/
structure Scans (x : Scanstr) (toks : List Name) : Prop where
  head : ∀ c ∈ x.rest.head?, (c == 0) = false
  words : words (fun c => c == 0) x.rest = toks
  nlefttok : x.nlefttok = toks.length

namespace Scans

variable {x : Scanstr} {tok : Name} {toks : List Name}

theorem more (h : Scans x toks) : x.more = !toks.isEmpty := by
  cases hrest : x.rest with
  | nil =>
      have hnone := h.words
      simp [Scanstr.more, hrest, ← hnone]
  | cons c rest =>
      have hsome := h.words
      rw [words_scan (by rw [hrest]; exact cons_ne_nil c rest) h.head] at hsome
      simp [Scanstr.more, hrest, ← hsome]

/-- The scanner is on a name, and then in front of the others. -/
theorem next (h : Scans x (tok :: toks)) : x.curtok = tok ∧ Scans x.next toks := by
  have hne : x.rest ≠ [] := by
    intro hrest
    have hnone := h.words
    rw [hrest] at hnone
    cases hnone
  have hscan := h.words
  rw [words_scan hne h.head] at hscan
  obtain ⟨htok, htoks⟩ := List.cons.inj hscan
  refine ⟨htok, fun c hc => ?_, ?_, ?_⟩
  · have hstop := List.head?_dropWhile_not (fun c => c == 0) (x.rest.dropWhile fun c => !c == 0)
    have hc : ((x.rest.dropWhile fun c => !c == 0).dropWhile fun c => c == 0).head? = some c := hc
    rw [hc] at hstop
    simpa using hstop
  · exact (words_dropWhile _).trans htoks
  · show x.nlefttok - 1 = toks.length
    rw [h.nlefttok, length_cons, Nat.add_sub_cancel]

theorem construct {str : Name} (hnul : 0 ∉ str) (hlen : str.length < PAGESIZE) :
    ∃ x, Scanstr.construct str = some x ∧ Scans x (tokens str) := by
  have hwords : Words.words (fun c => c == 0) (str.map cut) = tokens str := by
    have hmap : Words.words (fun c => c == 0) (str.map cut) =
        (Words.words (fun c => c == sep) str).map (List.map cut) := by
      apply words_map
      intro c hc
      unfold cut
      by_cases hsep : c = sep
      · simp [hsep]
      · have hne : (c == 0) = false := beq_eq_false_iff_ne.mpr fun hzero => hnul (hzero ▸ hc)
        rw [if_neg hsep, hne]
        exact (beq_eq_false_iff_ne.mpr hsep).symm
    rw [hmap, tokens_eq]
    conv_rhs => rw [← map_id (Words.words (fun c => c == sep) str)]
    apply map_congr_left
    intro w hw
    have hcut : ∀ c ∈ w, cut c = c := by
      intro c hc
      have hsep : ¬ c = sep := by simpa using (mem_words hw).2 c hc
      exact if_neg hsep
    exact (map_congr_left hcut).trans (map_id w)
  refine ⟨Scanstr.skipsep ⟨(toknum false str).2, (toknum false str).1⟩, ?_, ?_, ?_, ?_⟩
  · rw [Scanstr.construct, if_pos (.inr hlen)]
  · intro c hc
    have hstop := List.head?_dropWhile_not (fun c => c == 0) (toknum false str).2
    have hc : ((toknum false str).2.dropWhile fun c => c == 0).head? = some c := hc
    rw [hc] at hstop
    simpa using hstop
  · show Words.words _ ((toknum false str).2.dropWhile _) = _
    rw [words_dropWhile, toknum_snd, hwords]
  · exact (toknum_fst str).1

end Scans

/-! ## Where a path leads -/

namespace Dirtree

/-- The inode of an entry, which can be read. -/
def child (t : Dirtree) (s : Counts) (r : Ref) (name : Name) : Except Int Ref :=
  match t.findde r name with
  | none => .error ENOENT
  | some de =>
      if t.readi s (r.1, de.ino) ≠ 0 then .error (t.readi s (r.1, de.ino)) else .ok (r.1, de.ino)

/-- Where `lookup` gets to. -/
def target (t : Dirtree) (s : Counts) (r : Ref) (name : Name) : Option (Except Int Ref) :=
  if !(t.inode r).isdir then some (.error ENOTDIR)
  else if (t.inode r).deny t.cred IX ≠ 0 then some (.error EACCES)
  else if (t.inode r).mounted then none
  else if name = dotdot ∧ r = t.root then some (.ok r)
  else if name = dotdot ∧ r.2 = MINIXROOTINO then (t.peer r).map fun p => t.child s p name
  else
    match t.child s r name with
    | .error e => some (.error e)
    | .ok sub => if (t.inode sub).mounted then (t.peer sub).map .ok else some (.ok sub)

/-- Where these names lead, when nothing is held at first. -/
def way (t : Dirtree) (s : Counts) : List Name → Ref → Option (Except Int Ref)
  | [], cwd => some (.ok cwd)
  | tok :: toks, cwd =>
      if !(t.inode cwd).isdir then some (.error ENOTDIR)
      else
        match t.target (hold s cwd) cwd tok with
        | none => none
        | some (.error e) => some (.error e)
        | some (.ok sub) => way t s toks sub

variable {t : Dirtree} {s : Counts} {r cwd : Ref} {name tok last : Name} {toks init : List Name}
  {path : Name} {mem : Mem} {b n : Nat} {x : Scanstr}

theorem lose_hold (s : Counts) (r : Ref) : lose (hold s r) r = some s := by
  have hpos : hold s r r ≠ 0 := by
    rw [hold_apply, if_pos rfl]
    exact Nat.succ_ne_zero _
  rw [lose, if_neg hpos, Counter.lose_hold]

theorem hold_comm (s : Counts) (r q : Ref) : hold (hold s r) q = hold (hold s q) r := by
  funext a
  simp only [hold_apply]
  omega

theorem lookup2_eq (t : Dirtree) (s : Counts) (r : Ref) (name : Name) :
    t.lookup2 s r name = (t.child s r name).map fun sub => (sub, hold s sub) := by
  unfold lookup2 child
  cases t.findde r name with
  | none => rfl
  | some de =>
      dsimp only
      split_ifs
      · rfl
      · rfl

/-- A lookup that comes to an inode holds it, and nothing else. -/
theorem lookup_eq (t : Dirtree) (s : Counts) (r : Ref) (name : Name) :
    t.lookup s r name = (t.target s r name).map (Except.map fun sub => (sub, hold s sub)) := by
  unfold lookup target
  split
  · rfl
  split
  · rfl
  split
  · rfl
  split
  · rfl
  split
  · simp only [lookup2_eq, Option.map_map]
    rfl
  · rw [lookup2_eq]
    cases t.child s r name with
    | error e => rfl
    | ok sub =>
        simp only [Except.map, lose_hold]
        split
        · cases t.peer sub with
          | none => rfl
          | some p => rfl
        · rfl

/-- Going on from a directory gives it up. -/
theorem advancei_eq (t : Dirtree) (s : Counts) (cwd : Ref) (tok : Name) :
    t.advancei (hold s cwd) cwd tok =
      (t.target (hold s cwd) cwd tok).map (Except.map fun sub => (sub, hold s sub)) := by
  unfold advancei
  rw [lookup_eq]
  cases t.target (hold s cwd) cwd tok with
  | none => rfl
  | some y =>
      cases y with
      | error e => rfl
      | ok sub =>
          have hlose : lose (hold (hold s cwd) sub) cwd = some (hold s sub) := by
            rw [hold_comm]
            exact lose_hold _ _
          show (lose (hold (hold s cwd) sub) cwd).bind _ = _
          rw [hlose]
          rfl

/-- The counts that a lookup leaves. -/
def leave (s : Counts) : Except Int Ref → Counts
  | .ok r => hold s r
  | .error _ => s

theorem walk_eq (h : Scans x toks) (hn : toks.length < n) :
    t.walk false b n x cwd (hold s cwd) mem =
      (t.way s toks cwd).map fun y => (y, leave s y, mem) := by
  induction toks generalizing n x cwd with
  | nil =>
      obtain ⟨n, rfl⟩ := Nat.exists_eq_succ_of_ne_zero (Nat.ne_of_gt hn)
      rw [walk, h.more]
      rfl
  | cons tok toks ih =>
      obtain ⟨n, rfl⟩ := Nat.exists_eq_succ_of_ne_zero (Nat.ne_of_gt (Nat.zero_lt_of_lt hn))
      obtain ⟨htok, hnext⟩ := h.next
      have hn : toks.length < n := Nat.lt_of_succ_lt_succ hn
      rw [walk, h.more, way]
      by_cases hdir : (t.inode cwd).isdir = true
      · simp only [isEmpty_cons, hdir, htok, advancei_eq, Bool.not_false, Bool.not_true,
          Bool.false_eq_true, and_false, if_false]
        cases htarget : t.target (hold s cwd) cwd tok with
        | none => rfl
        | some y =>
            cases y with
            | error e =>
                show (lose (hold s cwd) cwd).bind _ = _
                rw [lose_hold]
                rfl
            | ok sub => exact ih hnext hn
      · rw [Bool.not_eq_true] at hdir
        simp only [isEmpty_cons, hdir, lose_hold]
        rfl

/-- What `namei` makes of the directory that the last name is in. -/
def finish (t : Dirtree) (s : Counts) (mem : Mem) (b : Nat) (last : Name) :
    Except Int Ref → Except Int Ref × Counts × Mem
  | .error e => (.error e, s, mem)
  | .ok d =>
      if (t.inode d).isdir then (.ok d, hold s d, strncpy (NAMEMAX + 1) mem b last)
      else (.error ENOTDIR, s, mem)

theorem walk_split_eq (h : Scans x (init ++ [last])) (hn : init.length + 1 < n) :
    t.walk true b n x cwd (hold s cwd) mem =
      (t.way s init cwd).map (t.finish s mem b last) := by
  induction init generalizing n x cwd with
  | nil =>
      obtain ⟨n, rfl⟩ := Nat.exists_eq_succ_of_ne_zero (Nat.ne_of_gt (Nat.zero_lt_of_lt hn))
      obtain ⟨htok, -⟩ := @Scans.next x last [] h
      have hleft : x.nlefttok = 1 := h.nlefttok
      rw [walk, h.more]
      by_cases hdir : (t.inode cwd).isdir = true
      · simp [way, finish, hdir, htok, hleft]
      · simp [way, finish, hdir, lose_hold]
  | cons tok init ih =>
      obtain ⟨n, rfl⟩ := Nat.exists_eq_succ_of_ne_zero (Nat.ne_of_gt (Nat.zero_lt_of_lt hn))
      obtain ⟨htok, hnext⟩ := h.next
      have hn : init.length + 1 < n := Nat.lt_of_succ_lt_succ hn
      have hleft : ¬ x.nlefttok = 1 := by
        rw [h.nlefttok]
        simp
      rw [walk, h.more, way]
      by_cases hdir : (t.inode cwd).isdir = true
      · simp only [cons_append, isEmpty_cons, hdir, htok, advancei_eq, hleft,
          Bool.not_false, Bool.not_true, Bool.false_eq_true, false_and, if_false]
        cases htarget : t.target (hold s cwd) cwd tok with
        | none => rfl
        | some y =>
            cases y with
            | error e =>
                show (lose (hold s cwd) cwd).bind _ = _
                rw [lose_hold]
                rfl
            | ok sub => exact ih hnext hn
      · rw [Bool.not_eq_true] at hdir
        simp only [cons_append, isEmpty_cons, hdir, lose_hold]
        rfl

theorem length_tokens_le (path : Name) : (tokens path).length ≤ path.length := by
  have hsum : ∀ (state : Bool) (str : Name), (toknum state str).1 ≤ str.length := by
    intro state str
    induction str generalizing state with
    | nil => simp [toknum]
    | cons c str ih =>
        have hin := ih true
        have hout := ih false
        simp only [toknum, length_cons]
        split_ifs
        · exact Nat.le_succ_of_le hout
        · exact Nat.le_succ_of_le hin
        · exact Nat.succ_le_succ hin
  rw [← (toknum_fst path).1]
  exact hsum false path

/-- Without `I2SPLIT`. -/
theorem namei_eq (hnul : 0 ∉ path) (hlen : path.length < PAGESIZE) :
    t.namei s false path mem b =
      (t.way s (tokens path) (t.start path)).map fun y => (y, leave s y, mem) := by
  obtain ⟨x, hx, hscans⟩ := Scans.construct hnul hlen
  have hwalk : t.walk false b (path.length + 1) x (t.start path) (hold s (t.start path)) mem = _ :=
    walk_eq hscans (Nat.lt_succ_of_le (length_tokens_le path))
  simpa [namei, hx] using hwalk

theorem namei_split_nil (hnul : 0 ∉ path) (hlen : path.length < PAGESIZE)
    (htoks : tokens path = []) :
    t.namei s true path mem b = some (.error ENOENT, s, update mem b 0) := by
  obtain ⟨x, hx, hscans⟩ := Scans.construct hnul hlen
  simp [namei, hx, hscans.nlefttok, htoks]

/-- Only an inode that is found is held. -/
theorem namei_cases (t : Dirtree) (s : Counts) (mem : Mem) (b : Nat) (hnul : 0 ∉ path) :
    t.namei s false path mem b = none ∨
      (∃ e, t.namei s false path mem b = some (.error e, s, mem)) ∨
      ∃ r, t.namei s false path mem b = some (.ok r, hold s r, mem) := by
  by_cases hlen : path.length < PAGESIZE
  · rw [namei_eq hnul hlen]
    cases t.way s (tokens path) (t.start path) with
    | none => exact .inl rfl
    | some y =>
        cases y with
        | error e => exact .inr (.inl ⟨e, rfl⟩)
        | ok r => exact .inr (.inr ⟨r, rfl⟩)
  · have hsize : ¬ (path.length < Scanstr.SIZE ∨ path.length < PAGESIZE) := by
      unfold Scanstr.SIZE PAGESIZE at *
      omega
    unfold namei Scanstr.construct
    rw [if_neg hsize]
    exact .inl rfl

/-- With `I2SPLIT` the last name is not looked up. -/
theorem namei_split_eq (hnul : 0 ∉ path) (hlen : path.length < PAGESIZE)
    (htoks : tokens path = init ++ [last]) :
    t.namei s true path mem b =
      (t.way s init (t.start path)).map (t.finish s (update mem b 0) b last) := by
  obtain ⟨x, hx, hscans⟩ := Scans.construct hnul hlen
  have hcount := length_tokens_le path
  rw [htoks] at hscans hcount
  rw [length_append, length_singleton] at hcount
  have hwalk : t.walk true b (path.length + 1) x (t.start path) (hold s (t.start path))
      (update mem b 0) = _ :=
    walk_split_eq hscans (Nat.lt_succ_of_le hcount)
  simpa [namei, hx, hscans.nlefttok] using hwalk

/-! ## What is held in the end -/

theorem way_append (toks toks' : List Name) (cwd : Ref) :
    t.way s (toks ++ toks') cwd =
      match t.way s toks cwd with
      | some (.ok c) => t.way s toks' c
      | y => y := by
  induction toks generalizing cwd with
  | nil => rfl
  | cons tok toks ih =>
      simp only [cons_append, way]
      split_ifs
      · rfl
      · cases t.target (hold s cwd) cwd tok with
        | none => rfl
        | some y =>
            cases y with
            | error e => rfl
            | ok sub => exact ih sub

/-- A name can be looked up here. -/
def Searchable (t : Dirtree) (r : Ref) : Prop :=
  (t.inode r).isdir = true ∧ (t.inode r).deny t.cred IX = 0 ∧ (t.inode r).mounted = false

/-- `lookup` comes to a mount point.  Out of the root of a file system it takes what it finds, and
else it crosses once, to a root on which something may be mounted again. -/
def Miss (t : Dirtree) (s : Counts) (r : Ref) (name : Name) : Prop :=
  if name = dotdot ∧ r = t.root then False
  else if name = dotdot ∧ r.2 = MINIXROOTINO then
    ∃ p sub, t.peer r = some p ∧ t.child s p name = .ok sub ∧ (t.inode sub).mounted = true
  else
    ∃ sub p, t.child s r name = .ok sub ∧ (t.inode sub).mounted = true ∧ t.peer sub = some p ∧
      (t.inode p).mounted = true

/-- These names lead to a mount point, and not to what is mounted there. -/
def Astray (t : Dirtree) (s : Counts) (toks : List Name) (cwd : Ref) : Prop :=
  toks = [] ∧ (t.inode cwd).mounted = true ∨
    ∃ init last c, toks = init ++ [last] ∧ t.way s init cwd = some (.ok c) ∧ t.Searchable c ∧
      t.Miss (hold s c) c last

theorem target_of_searchable (h : t.Searchable r) (s : Counts) (name : Name) :
    t.target s r name =
      if name = dotdot ∧ r = t.root then some (.ok r)
      else if name = dotdot ∧ r.2 = MINIXROOTINO then (t.peer r).map fun p => t.child s p name
      else
        match t.child s r name with
        | .error e => some (.error e)
        | .ok sub => if (t.inode sub).mounted then (t.peer sub).map .ok else some (.ok sub) := by
  obtain ⟨hdir, hdeny, hmounted⟩ := h
  simp [target, hdir, hdeny, hmounted]

theorem searchable_of_target {sub : Ref} (h : t.target s r name = some (.ok sub)) :
    t.Searchable r := by
  unfold target at h
  split at h
  · cases h
  rename_i hdir
  split at h
  · cases h
  rename_i hdeny
  split at h
  · cases h
  rename_i hmounted
  exact ⟨by simpa using hdir, by simpa using hdeny, by simpa using hmounted⟩

theorem target_mounted_iff :
    (∃ sub, t.target s r name = some (.ok sub) ∧ (t.inode sub).mounted = true) ↔
      t.Searchable r ∧ t.Miss s r name := by
  constructor
  · rintro ⟨sub, htarget, hsub⟩
    have hr := searchable_of_target htarget
    refine ⟨hr, ?_⟩
    rw [target_of_searchable hr] at htarget
    unfold Miss
    split_ifs at htarget ⊢
    · cases htarget
      simp [hr.2.2] at hsub
    · simp only [Option.map_eq_some_iff] at htarget
      obtain ⟨p, hp, hchild⟩ := htarget
      exact ⟨p, sub, hp, hchild, hsub⟩
    · cases hchild : t.child s r name with
      | error e => simp [hchild] at htarget
      | ok sub' =>
          rw [hchild] at htarget
          cases hsub' : (t.inode sub').mounted with
          | false =>
              simp only [hsub', Bool.false_eq_true, if_false, Option.some.injEq,
                Except.ok.injEq] at htarget
              rw [htarget, hsub] at hsub'
              cases hsub'
          | true =>
              simp only [hsub', if_true, Option.map_eq_some_iff] at htarget
              obtain ⟨p, hp, heq⟩ := htarget
              cases heq
              exact ⟨sub', sub, rfl, hsub', hp, hsub⟩
  · rintro ⟨hr, hmiss⟩
    rw [target_of_searchable hr]
    unfold Miss at hmiss
    split_ifs at hmiss ⊢
    · obtain ⟨p, sub, hp, hchild, hsub⟩ := hmiss
      exact ⟨sub, by simp [hp, hchild], hsub⟩
    · obtain ⟨sub, p, hchild, hsub, hp, hmounted⟩ := hmiss
      exact ⟨p, by simp [hchild, hsub, hp], hmounted⟩

theorem way_singleton {sub : Ref} :
    t.way s [tok] r = some (.ok sub) ↔ t.target (hold s r) r tok = some (.ok sub) := by
  cases htarget : t.target (hold s r) r tok with
  | none => simp [way, htarget]
  | some y =>
      cases y with
      | error e =>
          simp only [way, htarget]
          split_ifs
          · simp
          · simp
      | ok sub' => simp [way, htarget, (searchable_of_target htarget).1]

theorem astray_iff :
    t.Astray s toks cwd ↔ ∃ r, t.way s toks cwd = some (.ok r) ∧ (t.inode r).mounted = true := by
  induction toks using List.reverseRecOn with
  | nil => simp [Astray, way]
  | append_singleton init last _ =>
      rw [way_append]
      constructor
      · rintro (⟨hnil, -⟩ | ⟨init', last', c, heq, hway, hmiss⟩)
        · simp at hnil
        obtain ⟨rfl, hlast⟩ := append_inj' heq rfl
        cases hlast
        obtain ⟨r, htarget, hr⟩ := target_mounted_iff.mpr hmiss
        refine ⟨r, ?_, hr⟩
        rw [hway]
        exact way_singleton.mpr htarget
      · rintro ⟨r, hway, hr⟩
        cases hinit : t.way s init cwd with
        | none => simp [hinit] at hway
        | some y =>
            cases y with
            | error e => simp [hinit] at hway
            | ok c =>
                rw [hinit] at hway
                have htarget := way_singleton.mp hway
                exact .inr ⟨init, last, c, rfl, hinit, target_mounted_iff.mp ⟨r, htarget, hr⟩⟩

/-- Only the inode that is returned is held once more, and nothing is mounted on it. -/
def Balanced (t : Dirtree) (s s' : Counts) : Except Int Ref → Prop
  | .error _ => s' = s
  | .ok r => s' = hold s r ∧ (t.inode r).mounted = false

/-- The names of a path that are looked up. -/
def names (split : Bool) (path : Name) : List Name :=
  if split then (tokens path).dropLast else tokens path

/-- **Lookup balances references: `namei` gives back all but the inode that it returns, and this
is a mount point only where the names lead to one that `lookup` does not cross.** -/
theorem namei_balanced_iff (split : Bool) (hnul : 0 ∉ path) (hlen : path.length < PAGESIZE) :
    (∀ y s' mem', t.namei s split path mem b = some (y, s', mem') → t.Balanced s s' y) ↔
      split = true ∧ tokens path = [] ∨ ¬ t.Astray s (names split path) (t.start path) := by
  rw [astray_iff]
  cases split with
  | false =>
      rw [namei_eq hnul hlen]
      simp only [names, Bool.false_eq_true, false_and, false_or, if_false]
      constructor
      · rintro h ⟨r, hway, hr⟩
        have hbal := h (.ok r) (hold s r) mem (by rw [hway]; rfl)
        simp [hbal.2] at hr
      · intro h y s' mem' hy
        obtain ⟨z, hway, heq⟩ := Option.map_eq_some_iff.mp hy
        cases heq
        cases y with
        | error e => exact rfl
        | ok r =>
            refine ⟨rfl, ?_⟩
            by_contra hr
            exact h ⟨r, hway, by simpa using hr⟩
  | true =>
      induction htoks : tokens path using List.reverseRecOn with
      | nil =>
          rw [namei_split_nil hnul hlen htoks]
          refine iff_of_true ?_ (.inl ⟨rfl, rfl⟩)
          intro y s' mem' hy
          cases hy
          exact rfl
      | append_singleton init last _ =>
          rw [namei_split_eq hnul hlen htoks]
          have hnames : names true path = init := by simp [names, htoks]
          simp only [hnames, List.append_ne_nil_of_right_ne_nil, and_false, false_or, ne_eq,
            List.cons_ne_self, not_false_eq_true]
          constructor
          · rintro h ⟨d, hway, hd⟩
            have hdir := t.mounted_isdir d hd
            have hbal := h (.ok d) (hold s d) _ (by rw [hway, Option.map_some, finish, if_pos hdir])
            simp [hbal.2] at hd
          · intro h y s' mem' hy
            obtain ⟨z, hway, heq⟩ := Option.map_eq_some_iff.mp hy
            cases z with
            | error e =>
                cases heq
                exact rfl
            | ok d =>
                simp only [finish] at heq
                split_ifs at heq
                · cases heq
                  refine ⟨rfl, ?_⟩
                  by_contra hd
                  exact h ⟨d, hway, by simpa using hd⟩
                · cases heq
                  exact rfl

/-! ## Errors -/

variable {e : Int} {s' : Counts} {mem' : Mem}

/-- An error is not zero. -/
theorem lookup2_error (h : t.lookup2 s r name = .error e) : e ≠ 0 := by
  unfold lookup2 at h
  split at h
  · cases h
    decide
  · dsimp only at h
    split at h
    · next hreadi =>
      cases h
      exact hreadi
    · cases h

theorem lookup_error (h : t.lookup s r name = some (.error e)) : e ≠ 0 := by
  unfold lookup at h
  split at h
  · cases h
    decide
  split at h
  · cases h
    decide
  split at h
  · cases h
  split at h
  · cases h
  split at h
  · obtain ⟨p, -, hlookup⟩ := Option.map_eq_some_iff.mp h
    exact lookup2_error hlookup
  split at h
  · next hlookup =>
    cases h
    exact lookup2_error hlookup
  · next sub s₁ _ =>
    split at h
    · cases hlose : lose s₁ sub with
      | none =>
          rw [hlose] at h
          cases h
      | some s₂ =>
          rw [hlose] at h
          cases hpeer : t.peer sub with
          | none | some =>
              rw [hpeer] at h
              cases h
    · cases h

theorem advancei_error (h : t.advancei s cwd name = some (.error e)) : e ≠ 0 := by
  unfold advancei at h
  cases hlookup : t.lookup s cwd name with
  | none =>
      rw [hlookup] at h
      cases h
  | some y =>
      rw [hlookup] at h
      cases y with
      | error e' =>
          cases h
          exact lookup_error hlookup
      | ok y =>
          cases hlose : lose y.2 cwd with
          | none =>
              simp [hlose] at h
          | some s₁ =>
              simp [hlose] at h

theorem walk_error {split : Bool} (h : t.walk split b n x cwd s mem = some (.error e, s', mem')) :
    e ≠ 0 := by
  induction n generalizing x cwd s with
  | zero => cases h
  | succ n ih =>
      rw [walk] at h
      split at h
      · cases h
      split at h
      · cases hlose : lose s cwd with
        | none => simp [hlose] at h
        | some s₁ =>
            rw [hlose] at h
            cases h
            decide
      split at h
      · cases h
      cases hadvance : t.advancei s cwd x.curtok with
      | none => simp [hadvance] at h
      | some y =>
          rw [hadvance] at h
          cases y with
          | error e' =>
              cases hlose : lose s cwd with
              | none => simp [hlose] at h
              | some s₁ =>
                  simp only [hlose, Option.bind_eq_bind, Option.bind_some] at h
                  cases h
                  exact advancei_error hadvance
          | ok y => exact ih h

theorem namei_error {split : Bool}
    (h : t.namei s split path mem b = some (.error e, s', mem')) : e ≠ 0 := by
  unfold namei at h
  cases hscan : Scanstr.construct path with
  | none => simp [hscan] at h
  | some x =>
      simp only [hscan, Option.bind_eq_bind, Option.bind_some] at h
      split at h
      · cases h
        decide
      · exact walk_error h

/-- `/x` and `/x/y`, and a volume on each of them. -/
def nested (cwd : Ref) : Dirtree where
  inode r :=
    { mode := SIFDIR ||| 0o755
      nlink := 2
      uid := 0
      gid := 0
      size := 0
      rdev := 0
      slots :=
        if r = (1, 1) then [⟨1, dotdot⟩, ⟨2, [0x78]⟩]
        else if r = (1, 2) then [⟨1, dotdot⟩, ⟨3, [0x79]⟩]
        else if r = (1, 3) then [⟨2, dotdot⟩]
        else [⟨1, dotdot⟩]
      zones := 1
      refcnt := 1
      cached := true
      mounted := r == (1, 2) || r == (1, 3) }
  peer r :=
    if r = (1, 2) then some (2, 1) else if r = (2, 1) then some (1, 2)
    else if r = (1, 3) then some (3, 1) else if r = (3, 1) then some (1, 3) else none
  readable _ _ := true
  readi _ _ := 0
  cred := ⟨0, 0, 0, 0, 0⟩
  root := (1, 1)
  cwd := cwd
  mounted_isdir _ _ := show ((SIFDIR ||| 0o755) &&& SIFMT == SIFDIR) = true by decide
  named r de hde := by
    dsimp only at hde
    split_ifs at hde
    · exact (by decide : ∀ de ∈ [(⟨1, dotdot⟩ : De), ⟨2, [0x78]⟩], 0 ∉ de.name) de hde
    · exact (by decide : ∀ de ∈ [(⟨1, dotdot⟩ : De), ⟨3, [0x79]⟩], 0 ∉ de.name) de hde
    · exact (by decide : ∀ de ∈ [(⟨2, dotdot⟩ : De)], 0 ∉ de.name) de hde
    · exact (by decide : ∀ de ∈ [(⟨1, dotdot⟩ : De)], 0 ∉ de.name) de hde

theorem namei_balanced_x :
    0 ∉ [sep, 0x78] ∧ ∀ y s' mem', (nested (1, 1)).namei (fun _ => 1) false [sep, 0x78]
      (fun _ => 0) 0 = some (y, s', mem') → (nested (1, 1)).Balanced (fun _ => 1) s' y := by
  refine ⟨by decide, (namei_balanced_iff false (by decide) (by decide)).mpr (.inr ?_)⟩
  rw [astray_iff]
  rintro ⟨r, hway, hr⟩
  have hroot : (nested (1, 1)).way (fun _ => 1) [[0x78]] (1, 1) = some (.ok (2, 1)) := rfl
  cases hroot.symm.trans hway
  cases hr

/-- From the root of the volume on `/x/y` the name `..` leads to the `/x` below a volume. -/
theorem dotdot_misses_mount :
    ¬ ∀ y s' mem', (nested (3, 1)).namei (fun _ => 1) false dotdot (fun _ => 0) 0 =
        some (y, s', mem') → (nested (3, 1)).Balanced (fun _ => 1) s' y := by
  intro h
  rw [namei_eq (by decide) (by decide)] at h
  have hbal := h (.ok (1, 2)) (hold (fun _ => 1) (1, 2)) (fun _ => 0) rfl
  cases hbal.2

end Dirtree

end Unixlite.Fs
