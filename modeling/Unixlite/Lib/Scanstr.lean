import Unixlite.Verified.Words

/-!
# Tokens of a string

Port of `toknum`, `scanstr_t` and `scanstrprev_t` of `lib/string.h` and `lib/string.cc`.
A scanner copies the string into a room of its own, where the separators become
terminators, and walks over it: `scanstr_t` from the front up to the last terminator,
`scanstrprev_t` from there down to the byte before the room.

Strings and separator sets are lists of bytes without their terminators.
-/

namespace Unixlite.Lib.Scanstr

open Unixlite.Verified.Words List Option

abbrev Byte := BitVec 8

def SIZE : Nat := 256
def PAGESIZE : Nat := 4096

/-! ## The room -/

/-- `strchr`: where the first such byte is. -/
def strchr (s : List Byte) (c : Byte) : Option Nat := s.findIdx? (· == c)

/-- `toknum`, with what it makes of the string; `state` is set inside of a token. -/
def toknum (sep : List Byte) : Bool → List Byte → Nat × List Byte
  | _, [] => (0, [])
  | state, c :: str =>
      let issep := (strchr sep c).isSome
      let r := toknum sep (!issep) str
      (if !state && !issep then r.1 + 1 else r.1, (if issep then 0 else c) :: r.2)

/-- `smallroom` or `bigroom`, with the string and its terminator; a string of a page or
more is refused with a warning. -/
inductive Storage where
  | smallroom
  | bigroom
  deriving DecidableEq, Repr

def Storage.of (len : Nat) : Option Storage :=
  if len < SIZE then some .smallroom
  else if len < PAGESIZE then some .bigroom
  else none

/-- The C string at an index, if it is terminated. -/
def cstring (room : List Byte) (i : Nat) : Option (List Byte) :=
  let s := room.drop i
  if 0 ∈ s then some (s.takeWhile fun c => !c == 0) else none

/-! ## `scanstr_t` -/

/-- `scanstr_t`; the pointers are counted from the room. -/
structure Fwd where
  storage : Storage
  room : List Byte
  eroom : Nat
  cur : Nat
  nlefttok : Int

namespace Fwd

/-- `while ((cur < eroom) && f(*cur)) cur++` -/
def skip (f : Byte → Bool) (room : List Byte) (eroom : Nat) : (fuel cur : Nat) → Nat
  | 0, cur => cur
  | fuel + 1, cur =>
      if cur < eroom ∧ f (room.getD cur 0) then skip f room eroom fuel (cur + 1) else cur

def skiptok (x : Fwd) : Fwd :=
  { x with cur := skip (fun c => !c == 0) x.room x.eroom (x.eroom - x.cur) x.cur }

def skipsep (x : Fwd) : Fwd :=
  { x with cur := skip (fun c => c == 0) x.room x.eroom (x.eroom - x.cur) x.cur }

/-- `scanstr_t(str, sep)` -/
def construct (str sep : List Byte) : Option Fwd :=
  (Storage.of str.length).map fun storage =>
    let r := toknum sep false str
    skipsep ⟨storage, r.2 ++ [0], str.length, 0, r.1⟩

def more (x : Fwd) : Bool := decide (x.cur < x.eroom)

def curtok (x : Fwd) : Option (List Byte) := cstring x.room x.cur

def next (x : Fwd) : Fwd :=
  let x := x.skiptok.skipsep
  { x with nlefttok := x.nlefttok - 1 }

end Fwd

/-! ## `scanstrprev_t` -/

/-- `scanstrprev_t`; `cur` is counted from `eroom`, the byte before the room. -/
structure Bwd where
  storage : Storage
  room : List Byte
  cur : Nat
  nlefttok : Int

namespace Bwd

/-- `while (istok(cur) && istok(cur-1)) cur--`; `eroom` itself is no token. -/
def movetotokhead (room : List Byte) : Nat → Nat
  | 0 => 0
  | 1 => 1
  | n + 2 =>
      if room.getD (n + 1) 0 ≠ 0 ∧ room.getD n 0 ≠ 0 then movetotokhead room (n + 1) else n + 2

/-- `while ((cur > eroom) && !*cur) cur--` -/
def skipsep (room : List Byte) : Nat → Nat
  | 0 => 0
  | n + 1 => if room.getD n 0 = 0 then skipsep room n else n + 1

/-- The moves that end in front of a token. -/
def settle (x : Bwd) : Bwd := { x with cur := movetotokhead x.room (skipsep x.room x.cur) }

/-- `scanstrprev_t(str, sep)` -/
def construct (str sep : List Byte) : Option Bwd :=
  (Storage.of str.length).map fun storage =>
    let r := toknum sep false str
    settle ⟨storage, r.2 ++ [0], str.length + 1, r.1⟩

def more (x : Bwd) : Bool := decide (0 < x.cur)

def curtok (x : Bwd) : Option (List Byte) := cstring x.room (x.cur - 1)

def prev (x : Bwd) : Bwd :=
  let x := settle { x with cur := x.cur - 1 }
  { x with nlefttok := x.nlefttok - 1 }

end Bwd

/-! ## Scanners -/

/-- What a loop over the tokens uses. -/
structure Scanner (σ : Type) where
  more : σ → Bool
  curtok : σ → Option (List Byte)
  next : σ → σ
  nlefttok : σ → Int

/-- The loop gets these tokens one after the other, with what is left counted, and stops. -/
def Scanner.Yields {σ : Type} (s : Scanner σ) : σ → List (List Byte) → Prop
  | x, [] => s.more x = false ∧ s.nlefttok x = 0
  | x, tok :: toks =>
      s.more x = true ∧ s.curtok x = some tok ∧ s.nlefttok x = toks.length + 1 ∧
        s.Yields (s.next x) toks

/-- A relation between scanners and the tokens that are left, kept from token to token. -/
theorem Scanner.yields {σ : Type} {s : Scanner σ} {R : σ → List (List Byte) → Prop}
    (hend : ∀ x, R x [] → s.more x = false ∧ s.nlefttok x = 0)
    (hnext : ∀ x tok toks, R x (tok :: toks) → s.more x = true ∧ s.curtok x = some tok ∧
      s.nlefttok x = toks.length + 1 ∧ R (s.next x) toks)
    {x : σ} {toks : List (List Byte)} (h : R x toks) : s.Yields x toks := by
  induction toks generalizing x with
  | nil => exact hend x h
  | cons tok toks ih =>
      obtain ⟨hmore, htok, hleft, hrest⟩ := hnext x tok toks h
      exact ⟨hmore, htok, hleft, ih hrest⟩

def fwd : Scanner Fwd := ⟨Fwd.more, Fwd.curtok, Fwd.next, Fwd.nlefttok⟩

def bwd : Scanner Bwd := ⟨Bwd.more, Bwd.curtok, Bwd.prev, Bwd.nlefttok⟩

/-! ## `toknum` -/

variable {sep str : List Byte} {tok : List Byte} {toks : List (List Byte)}

theorem Storage.exists_of {len : Nat} (h : len < PAGESIZE) :
    ∃ storage, Storage.of len = some storage := by
  unfold Storage.of
  split
  · exact ⟨.smallroom, rfl⟩
  · exact ⟨.bigroom, rfl⟩

/-- The tokens of a string. -/
noncomputable def tokens (sep str : List Byte) : List (List Byte) :=
  words (fun c => sep.contains c) str

/-- The separators become terminators. -/
def cut (sep : List Byte) (c : Byte) : Byte := if sep.contains c then 0 else c

theorem strchr_isSome (sep : List Byte) (c : Byte) : (strchr sep c).isSome = sep.contains c := by
  rw [strchr, List.findIdx?_isSome, contains_eq_any_beq]
  congr 1
  funext x
  exact Bool.beq_comm

theorem toknum_snd (state : Bool) (str : List Byte) :
    (toknum sep state str).2 = str.map (cut sep) := by
  induction str generalizing state with
  | nil => rfl
  | cons c str ih =>
      simp only [toknum, strchr_isSome, map_cons, cut, ih]

theorem toknum_fst (str : List Byte) :
    (toknum sep false str).1 = (tokens sep str).length ∧
      (toknum sep true str).1 =
        (tokens sep (str.dropWhile fun c => !sep.contains c)).length := by
  induction str with
  | nil => exact ⟨rfl, rfl⟩
  | cons c str ih =>
      simp only [toknum, strchr_isSome]
      cases hc : sep.contains c with
      | true =>
          have hwords : tokens sep (c :: str) = tokens sep str := words_cons_sep hc
          rw [dropWhile_cons_of_neg (by rw [hc]; decide), hwords]
          exact ⟨ih.1, ih.1⟩
      | false =>
          have hscan : tokens sep (c :: str) = _ := words_scan (cons_ne_nil c str)
            (by simpa using hc)
          rw [hscan, dropWhile_cons_of_pos (by rw [hc]; rfl)]
          exact ⟨congrArg (· + 1) ih.2, ih.2⟩

/-- The tokens are what stands between the terminators. -/
theorem words_cut (hnul : 0 ∉ str) :
    words (fun c => c == 0) (str.map (cut sep)) = tokens sep str := by
  have hmap : words (fun c => c == 0) (str.map (cut sep))
      = (tokens sep str).map (List.map (cut sep)) := by
    refine words_map fun c hc => ?_
    unfold cut
    cases hsep : sep.contains c with
    | true => rfl
    | false =>
        have hne : c ≠ 0 := fun hzero => hnul (hzero ▸ hc)
        simpa using hne
  rw [hmap]
  conv_rhs => rw [← map_id (tokens sep str)]
  refine map_congr_left fun w hw => ?_
  have hcut : ∀ c ∈ w, cut sep c = c := by
    intro c hc
    rw [cut, (mem_words hw).2 c hc]
    rfl
  exact (map_congr_left hcut).trans (map_id w)

/-! ## Forwards -/

/-- Before the terminator a C string goes up to the first one. -/
theorem cstring_append {l : List Byte} {room : List Byte} {i : Nat} (h : room.drop i = l ++ [0]) :
    cstring room i = some (l.takeWhile fun c => !c == 0) := by
  unfold cstring
  rw [h]
  rw [if_pos (by simp), takeWhile_append]
  split
  · next hall =>
      have hself := takeWhile_prefix (fun c : Byte => !c == 0) (l := l)
      rw [hself.eq_of_length hall]
      simp
  · rfl

/-- Where the terminator is known. -/
theorem cstring_of {w tail room : List Byte} {i : Nat} (h : room.drop i = w ++ 0 :: tail)
    (hw : ∀ c ∈ w, (c == 0) = false) : cstring room i = some w := by
  unfold cstring
  rw [h]
  rw [if_pos (by simp), takeWhile_append_of_pos (fun c hc => by rw [hw c hc]; rfl)]
  simp

namespace Fwd

/-- What lies between `cur` and `eroom`. -/
def rest (x : Fwd) : List Byte := (x.room.take x.eroom).drop x.cur

/-- A scanner in front of these tokens. -/
structure On (x : Fwd) (toks : List (List Byte)) : Prop where
  room : x.room = x.room.take x.eroom ++ [0]
  le : x.cur ≤ x.eroom
  head : ∀ c ∈ x.rest.head?, (c == 0) = false
  words : words (fun c => c == 0) x.rest = toks
  nlefttok : x.nlefttok = toks.length

variable {x : Fwd}

theorem skip_spec (f : Byte → Bool) {room : List Byte} {eroom fuel cur : Nat}
    (hroom : eroom ≤ room.length) (hle : cur ≤ eroom) (hfuel : eroom - cur ≤ fuel) :
    skip f room eroom fuel cur ≤ eroom ∧
      (room.take eroom).drop (skip f room eroom fuel cur) =
        ((room.take eroom).drop cur).dropWhile f := by
  induction fuel generalizing cur with
  | zero =>
      have hend : cur = eroom := by omega
      rw [hend, skip, drop_eq_nil_of_le (by rw [length_take]; omega)]
      exact ⟨le_rfl, rfl⟩
  | succ fuel ih =>
      rw [skip]
      by_cases hlt : cur < eroom
      · have hlen : cur < (room.take eroom).length := by
          rw [length_take]
          omega
        have hget : room.getD cur 0 = (room.take eroom)[cur] := by
          rw [getElem_take, getD_eq_getElem?_getD, List.getElem?_eq_getElem (by omega)]
          rfl
        rw [hget, drop_eq_getElem_cons hlen]
        by_cases hf : f (room.take eroom)[cur] = true
        · rw [if_pos ⟨hlt, hf⟩, dropWhile_cons_of_pos hf]
          exact ih (by omega) (by omega)
        · rw [if_neg (fun h => hf h.2), dropWhile_cons_of_neg hf,
            ← drop_eq_getElem_cons hlen]
          exact ⟨hle, rfl⟩
      · rw [if_neg (fun h => hlt h.1), drop_eq_nil_of_le (by rw [length_take]; omega)]
        exact ⟨hle, rfl⟩

theorem rest_skiptok (hroom : x.eroom ≤ x.room.length) (hle : x.cur ≤ x.eroom) :
    x.skiptok.cur ≤ x.eroom ∧ x.skiptok.rest = x.rest.dropWhile fun c => !c == 0 :=
  skip_spec _ hroom hle le_rfl

theorem rest_skipsep (hroom : x.eroom ≤ x.room.length) (hle : x.cur ≤ x.eroom) :
    x.skipsep.cur ≤ x.eroom ∧ x.skipsep.rest = x.rest.dropWhile fun c => c == 0 :=
  skip_spec _ hroom hle le_rfl

/-- Behind separators a scanner is in front of what is left. -/
theorem on_skipsep (hroom : x.room = x.room.take x.eroom ++ [0]) (hle : x.cur ≤ x.eroom)
    (hwords : words (fun c => c == 0) x.rest = toks) (hleft : x.nlefttok = toks.length) :
    x.skipsep.On toks := by
  have hlen : x.eroom ≤ x.room.length := by
    have := congrArg List.length hroom
    rw [length_append, length_take, length_singleton] at this
    omega
  obtain ⟨hcur, hrest⟩ := rest_skipsep hlen hle
  refine ⟨hroom, hcur, ?_, ?_, hleft⟩
  · intro c hc
    rw [hrest] at hc
    have hstop := List.head?_dropWhile_not (fun c : Byte => c == 0) x.rest
    rw [mem_def.mp hc] at hstop
    simpa using hstop
  · rw [hrest, words_dropWhile, hwords]

theorem On.stop (h : x.On []) : x.more = false ∧ x.nlefttok = 0 := by
  have hnone : x.rest = [] := by
    by_contra hne
    have hwords := h.words
    rw [words_scan hne h.head] at hwords
    cases hwords
  have hroom := congrArg List.length h.room
  have hlen : (x.room.take x.eroom).length ≤ x.cur := drop_eq_nil_iff.mp hnone
  rw [length_append, length_singleton] at hroom
  rw [length_take] at hlen hroom
  refine ⟨decide_eq_false ?_, h.nlefttok⟩
  omega

/-- The scanner is on a token, and then in front of the others. -/
theorem On.next (h : x.On (tok :: toks)) :
    x.more = true ∧ x.curtok = some tok ∧ x.nlefttok = toks.length + 1 ∧ x.next.On toks := by
  have hne : x.rest ≠ [] := by
    intro hnil
    have hwords := h.words
    rw [hnil] at hwords
    cases hwords
  have hscan := h.words
  rw [words_scan hne h.head] at hscan
  obtain ⟨htok, htoks⟩ := List.cons.inj hscan
  have hlen := congrArg List.length h.room
  rw [length_append, length_take, length_singleton] at hlen
  have hlt : x.cur < x.eroom := by
    have := length_pos_of_ne_nil hne
    rw [rest, length_drop, length_take] at this
    omega
  have hdrop : x.room.drop x.cur = x.rest ++ [0] := by
    conv_lhs => rw [h.room]
    rw [drop_append_of_le_length (by rw [length_take]; omega)]
    rfl
  refine ⟨decide_eq_true hlt, ?_, h.nlefttok, ?_⟩
  · rw [← htok]
    exact cstring_append hdrop
  · obtain ⟨hcur, hrest⟩ := rest_skiptok (by omega) h.le
    refine on_skipsep (x := { x.skiptok with nlefttok := x.nlefttok - 1 }) h.room hcur ?_ ?_
    · rw [← htoks]
      exact congrArg _ hrest
    · have hleft := h.nlefttok
      rw [length_cons] at hleft
      show x.nlefttok - 1 = toks.length
      omega

theorem construct_on (hnul : 0 ∉ str) (hlen : str.length < PAGESIZE) :
    ∃ x, construct str sep = some x ∧ x.On (tokens sep str) := by
  obtain ⟨storage, hstorage⟩ := Storage.exists_of hlen
  refine ⟨_, by rw [construct, hstorage, map_some], ?_⟩
  have hroom : ((toknum sep false str).2 ++ [0]).take str.length = (toknum sep false str).2 := by
    rw [toknum_snd]
    simp
  refine on_skipsep ?_ (Nat.zero_le _) ?_ ?_
  · dsimp only
    rw [hroom]
  · show words _ ((((toknum sep false str).2 ++ [0]).take str.length).drop 0) = _
    rw [hroom, drop_zero, toknum_snd, words_cut hnul]
  · exact congrArg Nat.cast (toknum_fst str).1

end Fwd

/-! ## Backwards -/

namespace Bwd

/-- A scanner in front of these tokens, the last one of the string first: `cur` is on the
head of the first of them, and a terminator stands before it. -/
inductive On (x : Bwd) : List (List Byte) → Prop where
  | stop (hcur : x.cur = 0) (hleft : x.nlefttok = 0) : On x []
  | tok {tok : List Byte} {toks : List (List Byte)} {n : Nat} (hcur : x.cur = n + 1)
      (hle : n ≤ x.room.length) (htok : cstring x.room n = some tok)
      (hsep : ∀ c, (x.room.take n).getLast? = some c → c = 0)
      (hwords : (words (fun c => c == 0) (x.room.take n)).reverse = toks)
      (hleft : x.nlefttok = toks.length + 1) : On x (tok :: toks)

variable {x : Bwd}

variable {room : List Byte} {n : Nat}

theorem take_succ_getD (h : n < room.length) :
    room.take (n + 1) = room.take n ++ [room.getD n 0] := by
  rw [take_succ_eq_append_getElem h, getD_eq_getElem?_getD, List.getElem?_eq_getElem h]
  rfl

/-- Going back over terminators. -/
theorem skipsep_spec (h : n ≤ room.length) :
    skipsep room n ≤ n ∧
      room.take (skipsep room n) = (room.take n).rdropWhile (fun c => c == 0) ∧
      (skipsep room n < n → room.getD (skipsep room n) 0 = 0) := by
  induction n with
  | zero => exact ⟨le_rfl, by simp [skipsep], fun hlt => absurd hlt (Nat.lt_irrefl 0)⟩
  | succ n ih =>
      rw [skipsep, take_succ_getD h]
      by_cases hzero : room.getD n 0 = 0
      · rw [if_pos hzero, hzero, rdropWhile_concat_pos _ _ _ (by decide)]
        obtain ⟨hle, htake, hnext⟩ := ih (by omega)
        refine ⟨by omega, htake, fun _ => ?_⟩
        rcases Nat.lt_or_ge (skipsep room n) n with hlt | hge
        · exact hnext hlt
        · rw [Nat.le_antisymm hle hge]
          exact hzero
      · rw [if_neg hzero, rdropWhile_concat_neg _ _ _ (by simpa using hzero)]
        exact ⟨le_rfl, take_succ_getD h, fun hlt => absurd hlt (Nat.lt_irrefl _)⟩

/-- Going back to the head of a token. -/
theorem movetotokhead_spec (h : n < room.length) (hlast : room.getD n 0 ≠ 0) :
    ∃ m, movetotokhead room (n + 1) = m + 1 ∧ m ≤ n ∧
      room.take m = (room.take (n + 1)).rdropWhile fun c => !c == 0 := by
  induction n with
  | zero =>
      refine ⟨0, rfl, le_rfl, ?_⟩
      rw [take_succ_getD h, rdropWhile_concat_pos _ _ _ (by simpa using hlast)]
      simp
  | succ n ih =>
      rw [take_succ_getD h, rdropWhile_concat_pos _ _ _ (by simpa using hlast), movetotokhead]
      by_cases hprev : room.getD n 0 = 0
      · rw [if_neg (fun hboth => hboth.2 hprev)]
        refine ⟨n + 1, rfl, le_rfl, ?_⟩
        rw [take_succ_getD (by omega), rdropWhile_concat_neg _ _ _ (by rw [hprev]; decide)]
      · rw [if_pos ⟨hlast, hprev⟩]
        obtain ⟨m, hm, hle, htake⟩ := ih (by omega) hprev
        exact ⟨m, hm, by omega, htake⟩

/-- The token whose head is at `m`, with the terminator behind it at `n`. -/
theorem cstring_head {m : Nat} (hm : m ≤ n) (hn : n < room.length)
    (hhead : room.take m = (room.take n).rdropWhile fun c => !c == 0) (hzero : room.getD n 0 = 0) :
    cstring room m = some ((room.take n).rtakeWhile fun c => !c == 0) := by
  have htok := rdropWhile_append_rtakeWhile (p := fun c : Byte => !c == 0)
    (l := room.take n)
  rw [← hhead] at htok
  have hget : room[n] = 0 := by
    rw [← hzero, getD_eq_getElem?_getD, List.getElem?_eq_getElem hn]
    rfl
  have hroom : room = room.take m ++
      ((room.take n).rtakeWhile (fun c => !c == 0) ++ 0 :: room.drop (n + 1)) := by
    conv_lhs => rw [← take_append_drop n room]
    rw [drop_eq_getElem_cons hn, hget, ← append_assoc, htok]
  have hdrop : room.drop m =
      (room.take n).rtakeWhile (fun c => !c == 0) ++ 0 :: room.drop (n + 1) := by
    conv_lhs => rw [hroom]
    exact drop_left' (by rw [length_take]; omega)
  exact cstring_of hdrop fun c hc => by simpa using mem_rtakeWhile_imp hc

/-- From a terminator, or from below the room, one comes to the last token before it. -/
theorem on_settle (hle : x.cur ≤ x.room.length)
    (hlast : ∀ c, (x.room.take x.cur).getLast? = some c → c = 0)
    (hwords : (words (fun c => c == 0) (x.room.take x.cur)).reverse = toks)
    (hleft : x.nlefttok = toks.length) : x.settle.On toks := by
  obtain ⟨hskip, htake, hnext⟩ := skipsep_spec hle
  subst hwords
  cases hn : skipsep x.room x.cur with
  | zero =>
      -- only terminators
      rw [hn, take_zero] at htake
      have hnone : words (fun c => c == 0) (x.room.take x.cur) = [] :=
        words_eq_nil.mpr (rdropWhile_eq_nil_iff.mp htake.symm)
      rw [hnone] at hleft ⊢
      exact .stop (by rw [settle, hn]; rfl) hleft
  | succ n =>
      rw [hn] at hskip htake hnext
      have hlt : n < x.room.length := by omega
      have hend : x.room.getD n 0 ≠ 0 := by
        have hstop := rdropWhile_last_not (fun c : Byte => c == 0) (x.room.take x.cur)
        simp only [← htake, take_succ_getD hlt, getLast_append_singleton] at hstop
        simpa using hstop
      have hne : words (fun c => c == 0) (x.room.take x.cur) ≠ [] := by
        intro hnone
        have hall := words_eq_nil.mp hnone
        have hnil := rdropWhile_eq_nil_iff.mpr hall
        rw [← htake, take_succ_getD hlt] at hnil
        simp at hnil
      obtain ⟨m, hm, hmn, hhead⟩ := movetotokhead_spec hlt hend
      have hscan := words_rscan hne
      rw [← htake, ← hhead] at hscan
      rw [hscan, reverse_append] at hleft ⊢
      refine .tok (n := m) (by rw [settle, hn, hm]) (by show m ≤ x.room.length; omega) ?_ ?_ rfl
        hleft
      · have hterm : n + 1 < x.cur := by
          refine lt_of_le_of_ne hskip fun heq => hend (hlast _ ?_)
          rw [← heq, take_succ_getD hlt, List.getLast?_concat]
        show cstring x.room m = _
        exact cstring_head (by omega) (by omega) hhead (hnext hterm)
      · intro c hc
        replace hc : (x.room.take m).getLast? = some c := hc
        have hne' : x.room.take m ≠ [] := by
          intro hnil
          rw [hnil] at hc
          cases hc
        rw [List.getLast?_eq_some_getLast hne', some.injEq] at hc
        rw [← hc]
        have hstop := rdropWhile_last_not (fun c : Byte => !c == 0) (x.room.take (n + 1))
          (hhead ▸ hne')
        simp only [← hhead] at hstop
        simpa using hstop

theorem On.ended (h : x.On []) : x.more = false ∧ x.nlefttok = 0 := by
  cases h with
  | stop hcur hleft => exact ⟨decide_eq_false (by omega), hleft⟩

/-- The scanner is on a token, and then in front of the others. -/
theorem On.next (h : x.On (tok :: toks)) :
    x.more = true ∧ x.curtok = some tok ∧ x.nlefttok = toks.length + 1 ∧ x.prev.On toks := by
  cases h with
  | @tok _ _ n hcur hle htok hsep hwords hleft =>
      refine ⟨decide_eq_true (by omega), ?_, hleft, ?_⟩
      · rw [curtok, hcur]
        exact htok
      · refine on_settle (x := { x with cur := x.cur - 1, nlefttok := x.nlefttok - 1 }) ?_ ?_ ?_ ?_
        · show x.cur - 1 ≤ x.room.length
          omega
        · rw [hcur]
          exact hsep
        · rw [hcur]
          exact hwords
        · show x.nlefttok - 1 = toks.length
          omega

theorem construct_on (hnul : 0 ∉ str) (hlen : str.length < PAGESIZE) :
    ∃ x, construct str sep = some x ∧ x.On (tokens sep str).reverse := by
  obtain ⟨storage, hstorage⟩ := Storage.exists_of hlen
  have hroom : ((toknum sep false str).2 ++ [0]).take (str.length + 1) =
      str.map (cut sep) ++ [0] := by
    rw [toknum_snd, take_of_length_le (by simp)]
  refine ⟨_, by rw [construct, hstorage, map_some], on_settle ?_ ?_ ?_ ?_⟩
  · dsimp only
    rw [toknum_snd]
    simp
  · dsimp only
    rw [hroom, List.getLast?_concat]
    exact fun c hc => (some.inj hc).symm
  · dsimp only
    rw [hroom, words_append_seps (by simp), words_cut hnul]
  · rw [length_reverse]
    exact congrArg Nat.cast (toknum_fst str).1

end Bwd

/-- **Tokenisers.**  Both scanners get the tokens of the string, from the front and from the
back, each as a terminated string and with the number of those that are left. -/
theorem scanners_yield (str sep : List Byte) (hnul : 0 ∉ str) (hlen : str.length < PAGESIZE) :
    (∃ x, Fwd.construct str sep = some x ∧ fwd.Yields x (tokens sep str)) ∧
      ∃ x, Bwd.construct str sep = some x ∧ bwd.Yields x (tokens sep str).reverse := by
  have hfwd : ∃ x, Fwd.construct str sep = some x ∧ x.On (tokens sep str) :=
    Fwd.construct_on hnul hlen
  have hbwd : ∃ x, Bwd.construct str sep = some x ∧ x.On (tokens sep str).reverse :=
    Bwd.construct_on hnul hlen
  obtain ⟨x, hx, hfwd⟩ := hfwd
  obtain ⟨y, hy, hbwd⟩ := hbwd
  refine ⟨⟨x, hx, ?_⟩, y, hy, ?_⟩
  · exact Scanner.yields (fun _ h => h.stop) (fun _ _ _ h => h.next) hfwd
  · exact Scanner.yields (fun _ h => h.ended) (fun _ _ _ h => h.next) hbwd

/-- `::/bin:` has one token. -/
theorem scanners_yield_path :
    (∃ x, Fwd.construct [58, 58, 47, 98, 105, 110, 58] [58] = some x ∧
      fwd.Yields x (tokens [58] [58, 58, 47, 98, 105, 110, 58])) ∧
    ∃ x, Bwd.construct [58, 58, 47, 98, 105, 110, 58] [58] = some x ∧
      bwd.Yields x (tokens [58] [58, 58, 47, 98, 105, 110, 58]).reverse :=
  scanners_yield [58, 58, 47, 98, 105, 110, 58] [58] (by decide) (by decide)

end Unixlite.Lib.Scanstr
