import Mathlib.Data.List.Basic
import Mathlib.Logic.Function.Basic

/-!
# Tables with free places

A table is a list of places; a place is free or has an entry under a key.  An entry goes to
the first free place, or to a new place at the end when none is free.  As long as no key is
there twice, a table is the finite map that takes a key to what is under it.
-/

namespace Unixlite.Verified

open Option

/-- A place that is free is `none`. -/
abbrev Table (κ ν : Type*) := List (Option (κ × ν))

namespace Table

variable {κ ν : Type*}

/-! ## Places -/

/-- The entry at a place. -/
def entry (t : Table κ ν) (i : Nat) : Option (κ × ν) := t[i]?.join

/-- The first free place. -/
def free (t : Table κ ν) : Option Nat := t.findIdx? Option.isNone

def insert (t : Table κ ν) (k : κ) (v : ν) : Table κ ν :=
  match t.free with
  | some i => t.set i (some (k, v))
  | none => t ++ [some (k, v)]

/-- No key is there twice. -/
def Unique (t : Table κ ν) : Prop :=
  ∀ i j k v w, t.entry i = some (k, v) → t.entry j = some (k, w) → i = j

variable {t : Table κ ν} {k : κ} {v : ν} {i : Nat}

theorem entry_of_lt (hi : i < t.length) : t.entry i = t[i] := by
  rw [entry, List.getElem?_eq_getElem hi]
  rfl

theorem entry_of_ge (hi : t.length ≤ i) : t.entry i = none := by
  rw [entry, List.getElem?_eq_none hi]
  rfl

theorem lt_of_entry {e : κ × ν} (h : t.entry i = some e) : i < t.length := by
  by_contra hi
  rw [entry_of_ge (Nat.le_of_not_lt hi)] at h
  cases h

theorem free_some (h : t.free = some i) : t.entry i = none ∧ i < t.length := by
  obtain ⟨hlt, hnone, -⟩ := List.findIdx?_eq_some_iff_getElem.mp h
  rw [entry_of_lt hlt]
  exact ⟨isNone_iff_eq_none.mp hnone, hlt⟩

theorem entry_set (t : Table κ ν) (x : Option (κ × ν)) (hi : i < t.length) (j : Nat) :
    entry (t.set i x) j = if j = i then x else t.entry j := by
  unfold entry
  rw [List.getElem?_set]
  by_cases hj : j = i
  · rw [if_pos hj, if_pos hj.symm, if_pos (hj ▸ hi)]
    rfl
  · rw [if_neg hj, if_neg (Ne.symm hj)]

theorem entry_append (t : Table κ ν) (x : Option (κ × ν)) (j : Nat) :
    entry (t ++ [x]) j = if j = t.length then x else t.entry j := by
  unfold entry
  rcases Nat.lt_trichotomy j t.length with hlt | rfl | hgt
  · rw [List.getElem?_append_left hlt, if_neg (Nat.ne_of_lt hlt)]
  · rw [List.getElem?_concat_length, if_pos rfl]
    rfl
  · rw [if_neg (Nat.ne_of_gt hgt), List.getElem?_eq_none (Nat.le_of_lt hgt),
      List.getElem?_eq_none]
    rw [List.length_append]
    exact hgt

/-- An entry that is put in takes a place that had none; the others stay. -/
theorem entry_insert (t : Table κ ν) (k : κ) (v : ν) :
    ∃ i, t.entry i = none ∧ ∀ j, (t.insert k v).entry j = if j = i then some (k, v)
      else t.entry j := by
  unfold insert
  cases hfree : t.free with
  | some i =>
      obtain ⟨hnone, hlt⟩ := free_some hfree
      exact ⟨i, hnone, entry_set t _ hlt⟩
  | none => exact ⟨t.length, entry_of_ge (Nat.le_refl _), entry_append t _⟩

/-! ## Keys -/

variable [DecidableEq κ]

/-- Whether the place has an entry under this key. -/
def hasKey (k : κ) (x : Option (κ × ν)) : Bool := x.any fun e => e.1 == k

/-- The place of a key. -/
def find (t : Table κ ν) (k : κ) : Option Nat := t.findIdx? (hasKey k)

def lookup (t : Table κ ν) (k : κ) : Option ν :=
  (t.find k).bind fun i => (t.entry i).map Prod.snd

def erase (t : Table κ ν) (k : κ) : Table κ ν :=
  match t.find k with
  | some i => t.set i none
  | none => t

theorem hasKey_iff {x : Option (κ × ν)} : hasKey k x = true ↔ ∃ v, x = some (k, v) := by
  constructor
  · intro h
    cases x with
    | none => cases h
    | some e =>
        obtain ⟨j, v⟩ := e
        have hj : j = k := by simpa [hasKey] using h
        exact ⟨v, by rw [hj]⟩
  · rintro ⟨v, rfl⟩
    simp [hasKey]

/-! ## Looking up -/

/-- Where a key is. -/
theorem find_some (h : t.find k = some i) : ∃ v, t.entry i = some (k, v) := by
  obtain ⟨hlt, hkey, -⟩ := List.findIdx?_eq_some_iff_getElem.mp h
  rw [entry_of_lt hlt]
  exact hasKey_iff.mp hkey

theorem find_none (h : t.find k = none) : t.entry i ≠ some (k, v) := by
  intro hi
  have hlt := lt_of_entry hi
  rw [entry_of_lt hlt] at hi
  have hnot := List.findIdx?_eq_none_iff.mp h _ (List.getElem_mem hlt)
  rw [hi, hasKey_iff.mpr ⟨v, rfl⟩] at hnot
  cases hnot

theorem lookup_eq_none : t.lookup k = none ↔ t.find k = none := by
  unfold lookup
  cases hfind : t.find k with
  | none => exact iff_of_true rfl rfl
  | some i =>
      obtain ⟨v, hv⟩ := find_some hfind
      rw [bind_some, hv]
      exact iff_of_false (fun h => by cases h) fun h => by cases h

/-- What a table maps a key to. -/
theorem lookup_eq_some (h : t.Unique) : t.lookup k = some v ↔ ∃ i, t.entry i = some (k, v) := by
  unfold lookup
  constructor
  · intro hv
    obtain ⟨i, hfind, hv⟩ := bind_eq_some_iff.mp hv
    obtain ⟨w, hw⟩ := find_some hfind
    rw [hw] at hv
    cases hv
    exact ⟨i, hw⟩
  · rintro ⟨i, hi⟩
    cases hfind : t.find k with
    | none => exact absurd hi (find_none hfind)
    | some j =>
        obtain ⟨w, hw⟩ := find_some hfind
        rw [bind_some, ← h i j k v w hi hw, hi]
        rfl

/-- Two tables with the same entries map alike. -/
theorem lookup_ext {t' : Table κ ν} (h : t.Unique) (h' : t'.Unique) {k' : κ}
    (hiff : ∀ v, (∃ i, t.entry i = some (k, v)) ↔ ∃ i, t'.entry i = some (k', v)) :
    t.lookup k = t'.lookup k' := by
  refine Option.ext fun v => ?_
  rw [lookup_eq_some h, lookup_eq_some h']
  exact hiff v

/-! ## Putting in and taking out -/

theorem unique_insert (h : t.Unique) (hnew : t.lookup k = none) (v : ν) :
    (t.insert k v).Unique := by
  obtain ⟨i, -, hentry⟩ := entry_insert t k v
  have hnot : ∀ {j v}, t.entry j ≠ some (k, v) := find_none (lookup_eq_none.mp hnew)
  intro j j' l w w' hj hj'
  rw [hentry] at hj hj'
  by_cases hji : j = i
  · rw [if_pos hji] at hj
    cases hj
    by_contra hne
    rw [if_neg fun h => hne (hji.trans h.symm)] at hj'
    exact hnot hj'
  · rw [if_neg hji] at hj
    by_cases hji' : j' = i
    · rw [if_pos hji'] at hj'
      cases hj'
      exact absurd hj hnot
    · rw [if_neg hji'] at hj'
      exact h j j' l w w' hj hj'

/-- Putting in a new key changes the map at this key. -/
theorem lookup_insert (h : t.Unique) (hnew : t.lookup k = none) (v : ν) (l : κ) :
    (t.insert k v).lookup l = if l = k then some v else t.lookup l := by
  obtain ⟨i, hfree, hentry⟩ := entry_insert t k v
  have hunique := unique_insert h hnew v
  by_cases hl : l = k
  · rw [if_pos hl, hl]
    exact (lookup_eq_some hunique).mpr ⟨i, by rw [hentry, if_pos rfl]⟩
  · rw [if_neg hl]
    refine lookup_ext hunique h fun w => ?_
    constructor
    · rintro ⟨j, hj⟩
      rw [hentry] at hj
      by_cases hji : j = i
      · rw [if_pos hji] at hj
        cases hj
        exact absurd rfl hl
      · rw [if_neg hji] at hj
        exact ⟨j, hj⟩
    · rintro ⟨j, hj⟩
      refine ⟨j, ?_⟩
      rw [hentry, if_neg]
      · exact hj
      · rintro rfl
        rw [hfree] at hj
        cases hj

/-- Taking out a key leaves the entries at the other places. -/
theorem entry_erase (hi : t.find k = some i) (j : Nat) :
    (t.erase k).entry j = if j = i then none else t.entry j := by
  obtain ⟨v, hv⟩ := find_some hi
  unfold erase
  rw [hi]
  exact entry_set t none (lt_of_entry hv) j

theorem erase_of_none (h : t.lookup k = none) : t.erase k = t := by
  unfold erase
  rw [lookup_eq_none.mp h]

theorem unique_erase (h : t.Unique) (k : κ) : (t.erase k).Unique := by
  cases hi : t.find k with
  | none =>
      rw [erase_of_none (lookup_eq_none.mpr hi)]
      exact h
  | some i =>
      intro j j' l w w' hj hj'
      rw [entry_erase hi] at hj hj'
      by_cases hji : j = i
      · rw [if_pos hji] at hj
        cases hj
      by_cases hji' : j' = i
      · rw [if_pos hji'] at hj'
        cases hj'
      rw [if_neg hji] at hj
      rw [if_neg hji'] at hj'
      exact h j j' l w w' hj hj'

/-- Taking out a key changes the map at this key. -/
theorem lookup_erase (h : t.Unique) (k l : κ) :
    (t.erase k).lookup l = if l = k then none else t.lookup l := by
  cases hi : t.find k with
  | none =>
      rw [erase_of_none (lookup_eq_none.mpr hi)]
      by_cases hl : l = k
      · rw [if_pos hl, hl, lookup_eq_none, hi]
      · rw [if_neg hl]
  | some i =>
      obtain ⟨v, hv⟩ := find_some hi
      have hentry := entry_erase hi
      by_cases hl : l = k
      · rw [if_pos hl, hl]
        by_contra hne
        obtain ⟨w, hw⟩ := ne_none_iff_exists'.mp hne
        obtain ⟨j, hj⟩ := (lookup_eq_some (unique_erase h k)).mp hw
        rw [hentry] at hj
        by_cases hji : j = i
        · rw [if_pos hji] at hj
          cases hj
        · rw [if_neg hji] at hj
          exact hji (h j i k w v hj hv)
      · rw [if_neg hl]
        refine lookup_ext (unique_erase h k) h fun w => ?_
        constructor
        · rintro ⟨j, hj⟩
          rw [hentry] at hj
          by_cases hji : j = i
          · rw [if_pos hji] at hj
            cases hj
          · rw [if_neg hji] at hj
            exact ⟨j, hj⟩
        · rintro ⟨j, hj⟩
          refine ⟨j, ?_⟩
          rw [hentry, if_neg]
          · exact hj
          · rintro rfl
            rw [hv] at hj
            cases hj
            exact hl rfl

end Table

end Unixlite.Verified
