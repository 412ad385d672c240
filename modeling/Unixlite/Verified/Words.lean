import Mathlib.Data.List.DropRight
import Mathlib.Data.List.TakeWhile

/-!
# Words between separators

The words of a list are what is left between the separators when what is empty is left out.  A
scanner that skips a word and the separators behind it comes to one word after the other.
-/

namespace Unixlite.Verified.Words

open List

variable {α β : Type*} {p : α → Bool} {l l' w : List α} {a : α}

/-- The words between what `p` holds of. -/
noncomputable def words (p : α → Bool) (l : List α) : List (List α) :=
  (l.splitOnP p).filter fun w => !w.isEmpty

@[simp] theorem words_nil : words p [] = [] := rfl

/-- A separator ends a word. -/
theorem words_append_cons (ha : p a = true) : words p (l ++ a :: l') = words p l ++ words p l' := by
  simp [words, splitOnP_append_cons _ _ ha]

theorem words_cons_sep (ha : p a = true) : words p (a :: l) = words p l :=
  (words_append_cons (l := []) ha).trans (nil_append _)

theorem words_eq_singleton (hw : ∀ x ∈ w, p x = false) (hne : w ≠ []) : words p w = [w] := by
  simp [words, splitOnP_eq_singleton hw, hne]

theorem words_seps (hl : ∀ x ∈ l, p x = true) : words p l = [] := by
  induction l with
  | nil => rfl
  | cons a l ih =>
      rw [words_cons_sep (hl a mem_cons_self)]
      exact ih fun x hx => hl x (mem_cons_of_mem a hx)

/-- Separators at the end make no word. -/
theorem words_append_seps (hl' : ∀ x ∈ l', p x = true) : words p (l ++ l') = words p l := by
  cases l' with
  | nil => rw [append_nil]
  | cons a l' =>
      rw [words_append_cons (hl' a mem_cons_self),
        words_seps fun x hx => hl' x (mem_cons_of_mem a hx), append_nil]

/-- Skipping separators skips no word. -/
theorem words_dropWhile (l : List α) : words p (l.dropWhile p) = words p l := by
  induction l with
  | nil => rfl
  | cons a l ih =>
      cases ha : p a with
      | true => rw [dropWhile_cons_of_pos ha, ih, words_cons_sep ha]
      | false => rw [dropWhile_cons_of_neg (by simp [ha])]

/-- The first word, and the words behind it. -/
theorem words_scan (hne : l ≠ []) (hhead : ∀ a ∈ l.head?, p a = false) :
    words p l = l.takeWhile (fun x => !p x) :: words p (l.dropWhile fun x => !p x) := by
  have hsplit : l.takeWhile (fun x => !p x) ++ l.dropWhile (fun x => !p x) = l :=
    takeWhile_append_dropWhile
  have hword : ∀ x ∈ l.takeWhile (fun x => !p x), p x = false := by
    intro x hx
    simpa using mem_takeWhile_imp hx
  have hfirst : l.takeWhile (fun x => !p x) ≠ [] := by
    cases l with
    | nil => exact absurd rfl hne
    | cons a l => simp [hhead a rfl]
  cases hrest : l.dropWhile fun x => !p x with
  | nil =>
      rw [hrest, append_nil] at hsplit
      rw [hsplit] at hword hfirst
      rw [hsplit, words_nil]
      exact words_eq_singleton hword hfirst
  | cons a l' =>
      have ha : p a = true := by
        have hstop := List.head?_dropWhile_not (fun x => !p x) l
        rw [hrest] at hstop
        simpa using hstop
      calc words p l
          = words p (l.takeWhile (fun x => !p x) ++ a :: l') := by rw [← hrest, hsplit]
        _ = words p (l.takeWhile fun x => !p x) ++ words p l' := words_append_cons ha
        _ = l.takeWhile (fun x => !p x) :: words p (a :: l') := by
              rw [words_eq_singleton hword hfirst, words_cons_sep ha]
              rfl

/-- There is no word where all are separators. -/
theorem words_eq_nil : words p l = [] ↔ ∀ x ∈ l, p x = true := by
  refine ⟨fun h => ?_, words_seps⟩
  induction l with
  | nil => exact fun x hx => absurd hx not_mem_nil
  | cons a l ih =>
      cases ha : p a with
      | false =>
          rw [words_scan (cons_ne_nil a l) (by simpa using ha)] at h
          cases h
      | true =>
          rw [words_cons_sep ha] at h
          exact forall_mem_cons.mpr ⟨ha, ih h⟩

/-- The last word, and the words before it. -/
theorem words_rscan (hne : words p l ≠ []) :
    words p l = words p ((l.rdropWhile p).rdropWhile fun x => !p x) ++
      [(l.rdropWhile p).rtakeWhile fun x => !p x] := by
  have htrail : words p l = words p (l.rdropWhile p) := by
    conv_lhs => rw [← rdropWhile_append_rtakeWhile (p := p) (l := l)]
    exact words_append_seps fun x hx => mem_rtakeWhile_imp hx
  have hsplit := rdropWhile_append_rtakeWhile (p := fun x => !p x) (l := l.rdropWhile p)
  rw [htrail] at hne ⊢
  have hword : ∀ x ∈ (l.rdropWhile p).rtakeWhile (fun x => !p x), p x = false := by
    intro x hx
    simpa using mem_rtakeWhile_imp hx
  have hlast : (l.rdropWhile p).rtakeWhile (fun x => !p x) ≠ [] := by
    intro hnil
    have hnonempty : l.rdropWhile p ≠ [] := by
      intro hl
      rw [hl] at hne
      exact hne rfl
    have hsep := rtakeWhile_eq_nil_iff.mp hnil hnonempty
    have hstop := rdropWhile_last_not p l hnonempty
    simp [hstop] at hsep
  induction hpre : (l.rdropWhile p).rdropWhile (fun x => !p x) using List.reverseRecOn with
  | nil =>
      rw [hpre, nil_append] at hsplit
      rw [words_nil, nil_append, hsplit]
      rw [hsplit] at hword hlast
      exact words_eq_singleton hword hlast
  | append_singleton pre a _ =>
      have ha : p a = true := by
        have hstop := rdropWhile_last_not (fun x => !p x) (l.rdropWhile p) (by simp [hpre])
        simpa [hpre] using hstop
      calc words p (l.rdropWhile p)
          = words p (pre ++ a :: (l.rdropWhile p).rtakeWhile fun x => !p x) := by
              rw [append_cons, ← hpre, hsplit]
        _ = words p pre ++ [(l.rdropWhile p).rtakeWhile fun x => !p x] := by
              rw [words_append_cons ha, words_eq_singleton hword hlast]
        _ = words p (pre ++ [a]) ++ [(l.rdropWhile p).rtakeWhile fun x => !p x] := by
              rw [words_append_seps fun x hx => by rw [mem_singleton.mp hx, ha]]

/-- Words are not empty, and have no separator. -/
theorem mem_words (h : w ∈ words p l) : w ≠ [] ∧ ∀ x ∈ w, p x = false := by
  induction hn : l.length using Nat.strong_induction_on generalizing l with
  | _ n ih =>
      rw [← words_dropWhile] at h
      have hlen : (l.dropWhile p).length ≤ l.length := length_dropWhile_le p l
      cases hl : l.dropWhile p with
      | nil =>
          rw [hl] at h
          cases h
      | cons a l' =>
          have ha : p a = false := by
            have hstop := List.head?_dropWhile_not p l
            rw [hl] at hstop
            simpa using hstop
          have hscan := words_scan (p := p) (l := a :: l') (cons_ne_nil a l')
            (by simpa using ha)
          rw [hl, hscan] at h
          rcases mem_cons.mp h with rfl | h
          · constructor
            · simp [ha]
            · intro x hx
              simpa using mem_takeWhile_imp hx
          · have hshort : ((a :: l').dropWhile fun x => !p x).length < n := by
              rw [hl] at hlen
              simp only [dropWhile_cons, ha, Bool.not_false, if_true]
              have hdrop := length_dropWhile_le (fun x => !p x) l'
              simp only [length_cons] at hlen
              omega
            exact ih _ hshort h rfl

/-- What is in a word is in the list. -/
theorem words_subset (h : w ∈ words p l) : w ⊆ l := by
  replace h : w ∈ l.splitOnP p := (mem_filter.mp h).1
  induction l generalizing w with
  | nil =>
      rw [splitOnP_nil, mem_singleton] at h
      exact h ▸ List.Subset.refl []
  | cons a l ih =>
      rw [splitOnP_cons_eq_if_modifyHead] at h
      split at h
      · rcases mem_cons.mp h with rfl | h
        · exact nil_subset _
        · exact subset_cons_of_subset a (ih h)
      · cases hsplit : l.splitOnP p with
        | nil =>
            rw [hsplit] at h
            exact absurd h not_mem_nil
        | cons first rest =>
            rw [hsplit, modifyHead_cons] at h
            rw [hsplit] at ih
            rcases mem_cons.mp h with rfl | h
            · exact cons_subset_cons a (ih mem_cons_self)
            · exact subset_cons_of_subset a (ih (mem_cons_of_mem _ h))

/-- Other separators, which are told apart in the same way. -/
theorem words_map {q : β → Bool} {f : α → β} (hf : ∀ x ∈ l, q (f x) = p x) :
    words q (l.map f) = (words p l).map (List.map f) := by
  have hsplit : (l.map f).splitOnP q = (l.splitOnP p).map (List.map f) := by
    induction l with
    | nil => rfl
    | cons a l ih =>
        have ih := ih fun x hx => hf x (mem_cons_of_mem a hx)
        rw [map_cons, splitOnP_cons_eq_if_modifyHead, splitOnP_cons_eq_if_modifyHead,
          hf a mem_cons_self, ih]
        cases p a with
        | true => rfl
        | false =>
            cases hl : l.splitOnP p with
            | nil => rfl
            | cons w ws => rfl
  rw [words, words, hsplit, filter_map]
  congr 1
  apply filter_congr
  intro w _
  cases w with
  | nil => rfl
  | cons a w => rfl

end Unixlite.Verified.Words
