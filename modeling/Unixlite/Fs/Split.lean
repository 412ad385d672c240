import Unixlite.Fs.Namei

/-!
# Splitting a path

`namei` with `I2SPLIT` leaves the last name of a path in `basename`, which has room for `NAMEMAX`
bytes and a terminator, and returns the directory that the rest of the path leads to.  Paths of up
to `PATHMAX` bytes are accepted, and so a name may be too long for that room: what is left there
has no terminator then (`namei_splits_iff`).
-/

namespace Unixlite.Fs

open Verified Counter Words
open Kernel (tokens)

def PATHMAX : Nat := 1024

/-- The string that is in memory here, with its terminator, in so much room. -/
def Cstring (mem : Mem) (b room : Nat) (str : Name) : Prop :=
  str.length < room ∧ (∀ i (hi : i < str.length), mem (b + i) = str[i]) ∧ mem (b + str.length) = 0

/-! ## What `strncpy` writes -/

theorem strncpy_apply (n : Nat) (mem : Mem) (dst : Nat) (src : Name) (a : Nat) :
    strncpy n mem dst src a =
      if dst ≤ a ∧ a < dst + min n (src.length + 1) then src[a - dst]?.getD 0 else mem a := by
  induction n generalizing mem dst src with
  | zero => rw [strncpy, if_neg (by omega)]
  | succ n ih =>
      cases src with
      | nil =>
          rw [strncpy, Function.update_apply]
          by_cases ha : a = dst
          · simp [ha]
          · rw [if_neg ha, if_neg (by simp; omega)]
      | cons c src =>
          rw [strncpy, ih, Function.update_apply, List.length_cons]
          by_cases ha : a = dst
          · rw [if_neg (by omega), if_pos ha, if_pos (by omega), ha]
            simp
          · by_cases hin : dst + 1 ≤ a ∧ a < dst + 1 + min n (src.length + 1)
            · have hnext : a - dst = a - (dst + 1) + 1 := by omega
              rw [if_pos hin, if_pos (by omega), hnext, List.getElem?_cons_succ]
            · rw [if_neg hin, if_neg ha, if_neg (by omega)]

theorem strncpy_frame {n dst a : Nat} (mem : Mem) (src : Name) (ha : a < dst ∨ dst + n ≤ a) :
    strncpy n mem dst src a = mem a := by
  rw [strncpy_apply, if_neg (by omega)]

/-- What is copied is terminated if the terminator has room. -/
theorem strncpy_cstring_iff {n dst : Nat} {mem : Mem} {src : Name} :
    Cstring (strncpy n mem dst src) dst n src ↔ src.length < n := by
  constructor
  · exact fun h => h.1
  · intro hlen
    refine ⟨hlen, fun i hi => ?_, ?_⟩
    · rw [strncpy_apply, if_pos (by omega), Nat.add_sub_cancel_left]
      simp [hi]
    · rw [strncpy_apply, if_pos (by omega), Nat.add_sub_cancel_left]
      simp

/-! ## The last name -/

/-- The last name of a path. -/
def lastname (path : Name) : Name :=
  (path.rdropWhile fun c => c == sep).rtakeWhile fun c => !c == sep

/-- The part of a path before its last name. -/
def before (path : Name) : Name :=
  (path.rdropWhile fun c => c == sep).rdropWhile fun c => !c == sep

variable {t : Dirtree} {s : Counts} {path : Name} {mem : Mem} {b : Nat}

theorem tokens_split (htoks : tokens path ≠ []) :
    tokens path = tokens (before path) ++ [lastname path] := by
  simp only [tokens_eq] at htoks ⊢
  exact words_rscan htoks

/-- A path of one name. -/
theorem tokens_name (hne : path ≠ []) (hsep : sep ∉ path) : tokens path = [] ++ [path] := by
  rw [tokens_eq]
  refine words_eq_singleton (fun c hc => ?_) hne
  exact beq_eq_false_iff_ne.mpr fun heq => hsep (heq ▸ hc)

theorem lastname_name (hne : path ≠ []) (hsep : sep ∉ path) : lastname path = path := by
  have htoks := tokens_name hne hsep
  have hsplit := tokens_split (show tokens path ≠ [] by simp [htoks])
  rw [htoks] at hsplit
  exact (List.cons.inj (List.append_inj' hsplit rfl).2).1.symm

/-- What follows the last name are separators. -/
theorem path_eq (path : Name) :
    path = before path ++ lastname path ++ path.rtakeWhile fun c => c == sep := by
  rw [before, lastname, List.rdropWhile_append_rtakeWhile, List.rdropWhile_append_rtakeWhile]

theorem before_subset : before path ⊆ path := by
  intro c hc
  rw [path_eq path]
  simp [hc]

theorem length_before_le : (before path).length ≤ path.length := by
  conv_rhs => rw [path_eq path]
  simp

theorem start_before (htoks : tokens path ≠ []) : t.start (before path) = t.start path := by
  have hlast : lastname path ∈ words (fun c => c == sep) path := by
    simp [← tokens_eq, tokens_split htoks]
  obtain ⟨hne, hname⟩ := mem_words hlast
  have hhead : (before path).head? = some sep ↔ path.head? = some sep := by
    conv_rhs => rw [path_eq path]
    cases before path with
    | cons c pre => simp
    | nil =>
        cases hl : lastname path with
        | nil => exact absurd hl hne
        | cons c l =>
            have hc : c ≠ sep := by
              simpa using hname c (by simp [hl])
            simp [hc]
  simp [Dirtree.start, hhead]

namespace Dirtree

/-- **Splitting a path: `namei` with `I2SPLIT` writes in `basename` only, and leaves the last name
there as a string, and returns what the part before it leads to, if and only if the name fits or
the part before it does not lead to a directory.** -/
theorem namei_splits_iff (hnul : 0 ∉ path) (hlen : path.length ≤ PATHMAX)
    (htoks : tokens path ≠ []) :
    (∀ y s' mem', t.namei s true path mem b = some (y, s', mem') →
      (∀ a, a < b ∨ b + (NAMEMAX + 1) ≤ a → mem' a = mem a) ∧
      ∀ d, y = .ok d → Cstring mem' b (NAMEMAX + 1) (lastname path) ∧
        t.namei s false (before path) mem b = some (.ok d, s', mem)) ↔
    (lastname path).length ≤ NAMEMAX ∨
      ∀ d, t.way s (tokens (before path)) (t.start path) = some (.ok d) →
        (t.inode d).isdir = false := by
  have hpage : path.length < PAGESIZE := Nat.lt_of_le_of_lt hlen (by decide)
  have hbefore : t.namei s false (before path) mem b = _ :=
    namei_eq (fun hin => hnul (before_subset hin)) (Nat.lt_of_le_of_lt length_before_le hpage)
  rw [start_before htoks] at hbefore
  rw [namei_split_eq hnul hpage (tokens_split htoks), hbefore]
  constructor
  · intro h
    by_contra hnot
    push Not at hnot
    obtain ⟨hlong, d, hway, hdir⟩ := hnot
    have hdir : (t.inode d).isdir = true := by simpa using hdir
    have hsplit := (h (.ok d) _ _ (by rw [hway, Option.map_some, finish, if_pos hdir])).2 d rfl
    have hshort := strncpy_cstring_iff.mp hsplit.1
    omega
  · intro h y s' mem' hy
    obtain ⟨z, hway, heq⟩ := Option.map_eq_some_iff.mp hy
    have hzero : ∀ a, a < b ∨ b + (NAMEMAX + 1) ≤ a → Function.update mem b 0 a = mem a := by
      intro a ha
      exact Function.update_of_ne (by omega) _ _
    cases z with
    | error e =>
        cases heq
        exact ⟨hzero, fun d hd => by cases hd⟩
    | ok d =>
        simp only [finish] at heq
        split_ifs at heq with hdir
        · cases heq
          refine ⟨fun a ha => (strncpy_frame _ _ ha).trans (hzero a ha), ?_⟩
          rintro _ ⟨rfl⟩
          have hfits : (lastname path).length ≤ NAMEMAX := by
            rcases h with hshort | hnodir
            · exact hshort
            · simp [hnodir d hway] at hdir
          exact ⟨strncpy_cstring_iff.mpr (Nat.lt_succ_of_le hfits), by rw [hway]; rfl⟩
        · cases heq
          exact ⟨hzero, fun d hd => by cases hd⟩

/-- `x//y/`. -/
theorem namei_splits_xy :
    lastname [0x78, sep, sep, 0x79, sep] = [0x79] ∧
    ∀ y s' mem', (nested (1, 1)).namei (fun _ => 1) true [0x78, sep, sep, 0x79, sep] (fun _ => 1) 0
        = some (y, s', mem') →
      (∀ a, a < 0 ∨ 0 + (NAMEMAX + 1) ≤ a → mem' a = 1) ∧
      ∀ d, y = .ok d → Cstring mem' 0 (NAMEMAX + 1) [0x79] ∧
        (nested (1, 1)).namei (fun _ => 1) false [0x78, sep, sep] (fun _ => 1) 0 =
          some (.ok d, s', fun _ => 1) :=
  ⟨rfl, (namei_splits_iff (by decide) (by decide) (by decide)).mpr (.inl (by decide))⟩

/-- A name that fills `basename`. -/
def longname : Name := List.replicate (NAMEMAX + 1) 0x61

theorem longname_not_split :
    ¬ ∀ y s' mem', (nested (1, 1)).namei (fun _ => 1) true longname (fun _ => 1) 0 =
        some (y, s', mem') →
      (∀ a, a < 0 ∨ 0 + (NAMEMAX + 1) ≤ a → mem' a = 1) ∧
      ∀ d, y = .ok d → Cstring mem' 0 (NAMEMAX + 1) (lastname longname) ∧
        (nested (1, 1)).namei (fun _ => 1) false (before longname) (fun _ => 1) 0 =
          some (.ok d, s', fun _ => 1) := by
  have hmem : ∀ c ∈ longname, c = 0x61 := fun c hc => (List.mem_replicate.mp hc).2
  have hlen : longname.length = NAMEMAX + 1 := List.length_replicate
  have hnul : 0 ∉ longname := fun hin => absurd (hmem 0 hin) (by decide)
  have hsep : sep ∉ longname := fun hin => absurd (hmem sep hin) (by decide)
  have hne : longname ≠ [] := List.ne_nil_of_length_pos (by rw [hlen]; decide)
  rw [namei_split_eq hnul (by rw [hlen]; decide) (tokens_name hne hsep), lastname_name hne hsep]
  intro h
  have hstring := ((h (.ok (1, 1)) _ _ rfl).2 _ rfl).1
  have hshort := strncpy_cstring_iff.mp hstring
  rw [hlen] at hshort
  exact absurd hshort (Nat.lt_irrefl _)

end Dirtree

end Unixlite.Fs
