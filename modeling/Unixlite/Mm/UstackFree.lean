import Unixlite.Mm.Ustack

/-!
# Giving the argument pages back

The entries of a stack that has been served are the pages that have been given out, each of them
once, and `destroy` frees these.  If a request has failed, there is an entry that is no page: NULL,
which `freepage` does not take, or what stands before the array.
-/

namespace Unixlite.Mm

open List

namespace Ustack

variable {s : Supply} {u : Ustack} {m n : Nat}

theorem Pushed.entries (h : u.Pushed s n) : u.entries =
    (List.range (npages n)).map fun i : Nat =>
      (((MAXARGPAGE - npages n : Nat) : Int) + i, s.page (npages n - 1 - i)) := by
  have hle := h.served.1
  have hlen : ((MAXARGPAGE : Int) - u.base).toNat = npages n := by
    rw [h.base]
    omega
  unfold Ustack.entries
  rw [hlen]
  refine map_congr_left fun i hi => ?_
  have hi : i < npages n := mem_range.mp hi
  have hindex : u.base + i = (MAXARGPAGE : Int) - 1 - ((npages n - 1 - i : Nat) : Int) := by
    omega
  have hbase : u.base + i = ((MAXARGPAGE - npages n : Nat) : Int) + i := by
    omega
  rw [← hbase, hindex, h.page _ (by omega)]

/-- An entry of the array, with a page that has been given out. -/
def Good (s : Supply) (u : Ustack) (entry : Int × Nat) : Prop :=
  0 ≤ entry.1 ∧ entry.1 < MAXARGPAGE ∧ entry.2 ≠ 0 ∧ ∃ n < u.asked, s.page n = entry.2

theorem Pushed.good (h : u.Pushed s n) : ∀ entry ∈ u.entries, u.Good s entry := by
  intro entry hentry
  rw [h.entries] at hentry
  obtain ⟨i, hi, rfl⟩ := mem_map.mp hentry
  have hi : i < npages n := mem_range.mp hi
  have hle := h.served.1
  refine ⟨by dsimp only; omega, by dsimp only; omega, h.served.2 _ (by omega), npages n - 1 - i, ?_, rfl⟩
  rw [h.asked]
  omega

theorem Starved.entry (h : u.Starved) : 0 ∈ u.entries.map Prod.snd := by
  obtain ⟨i, hbase, hpos, hlt, hnull⟩ := h
  refine mem_map.mpr ⟨(i, 0), mem_map.mpr ⟨(i - u.base).toNat, ?_, ?_⟩, rfl⟩
  · exact mem_range.mpr (by omega)
  · have hindex : u.base + ((i - u.base).toNat : Int) = i := by omega
    rw [hindex, hnull]

theorem Starved.not_good (h : u.Starved) : ¬ ∀ entry ∈ u.entries, u.Good s entry := by
  intro hgood
  obtain ⟨entry, hentry, hzero⟩ := mem_map.mp h.entry
  exact (hgood entry hentry).2.2.1 hzero

theorem Overflowed.not_good (h : u.Overflowed s) : ¬ ∀ entry ∈ u.entries, u.Good s entry := by
  intro hgood
  have hfirst : (u.base, u.page u.base) ∈ u.entries := by
    refine mem_map.mpr ⟨0, mem_range.mpr ?_, ?_⟩
    · rw [h.base]
      decide
    · rw [Nat.cast_zero, Int.add_zero]
  have hpos : 0 ≤ u.base := (hgood _ hfirst).1
  rw [h.base] at hpos
  exact absurd hpos (by decide)

theorem Spent.not_good (h : u.Spent s n) : ¬ ∀ entry ∈ u.entries, u.Good s entry :=
  h.2.elim Overflowed.not_good fun h => h.2.not_good

/-! ## Freeing -/

variable {others : Nat → Bool} {freed : List Nat}

/-- A page of the stack. -/
theorem freepage_own {p : Nat} (hvtop : s.vtop p = true)
    (hown : ((List.range u.asked).map s.page).contains p = true) :
    u.freepage s others freed p = if freed.contains p then none else some (p :: freed) := by
  unfold freepage
  rw [hvtop, Bool.not_true, if_neg Bool.false_ne_true, if_pos hown]

/-- A page of somebody else. -/
theorem freepage_other {p : Nat} (hvtop : s.vtop p = true)
    (hown : ((List.range u.asked).map s.page).contains p = false) :
    u.freepage s others freed p = if others p then some (p :: freed) else none := by
  unfold freepage
  rw [hvtop, Bool.not_true, if_neg Bool.false_ne_true, if_neg (by rw [hown]; exact Bool.false_ne_true)]

theorem freepage_some {p : Nat} {freed' : List Nat} (h : u.freepage s others freed p = some freed') :
    freed' = p :: freed := by
  unfold freepage at h
  split_ifs at h
  · exact (Option.some.inj h).symm
  · exact (Option.some.inj h).symm

/-- Pages that have been given out are freed, each of them once. -/
theorem foldlM_freepage {l : List Nat} (hgiven : ∀ p ∈ l, p ≠ 0 ∧ ∃ n < u.asked, s.page n = p)
    (hnodup : l.Nodup) (hfresh : ∀ p ∈ l, p ∉ freed) :
    l.foldlM (u.freepage s others) freed = some (l.reverse ++ freed) := by
  induction l generalizing freed with
  | nil => rfl
  | cons p l ih =>
      obtain ⟨hp, hrest⟩ := nodup_cons.mp hnodup
      obtain ⟨hne, n, hn, rfl⟩ := hgiven p mem_cons_self
      have hvtop : s.vtop (s.page n) = true := by
        obtain ⟨hlow, hhigh⟩ := s.kernel n hne
        simp [Supply.vtop, hlow, hhigh]
      have hmem : ((List.range u.asked).map s.page).contains (s.page n) = true :=
        contains_iff_mem.mpr (mem_map_of_mem (mem_range.mpr hn))
      have hnew : ¬ freed.contains (s.page n) = true := by
        simpa using hfresh _ mem_cons_self
      rw [foldlM_cons, freepage_own hvtop hmem, if_neg hnew, Option.bind_eq_bind,
        Option.bind_some, reverse_cons, append_assoc, singleton_append]
      refine ih (fun q hq => hgiven q (mem_cons_of_mem _ hq)) hrest fun q hq hmem => ?_
      rcases mem_cons.mp hmem with rfl | hmem
      · exact hp hq
      · exact hfresh q (mem_cons_of_mem _ hq) hmem

/-- One entry that cannot be freed is enough. -/
theorem foldlM_freepage_none {l : List Nat} {p : Nat} (hp : p ∈ l) (hfreed : ∀ freed',
    freed ⊆ freed' → u.freepage s others freed' p = none) :
    l.foldlM (u.freepage s others) freed = none := by
  induction l generalizing freed with
  | nil => exact absurd hp not_mem_nil
  | cons q l ih =>
      rw [foldlM_cons]
      rcases mem_cons.mp hp with rfl | hp
      · rw [hfreed freed (List.Subset.refl _)]
        rfl
      · cases hq : u.freepage s others freed q with
        | none => rfl
        | some freed' =>
            refine ih hp fun freed'' hsub => hfreed freed'' fun x hx => hsub ?_
            rw [freepage_some hq]
            exact mem_cons_of_mem _ hx

theorem pages_nodup (hm : ∀ j < m, s.page j ≠ 0) :
    ((List.range m).map fun i => s.page (m - 1 - i)).Nodup := by
  refine nodup_range.map_on fun i hi j hj heq => ?_
  have hi : i < m := mem_range.mp hi
  have hj : j < m := mem_range.mp hj
  have hsame := s.distinct _ _ heq (hm _ (by omega))
  omega

theorem mem_pages (hn : n < m) : s.page n ∈ (List.range m).map fun i => s.page (m - 1 - i) := by
  refine mem_map.mpr ⟨m - 1 - n, mem_range.mpr (by omega), ?_⟩
  congr 1
  omega

theorem Pushed.pages (h : u.Pushed s n) :
    u.entries.map Prod.snd = (List.range u.asked).map fun i => s.page (u.asked - 1 - i) := by
  rw [h.entries, h.asked, map_map]
  rfl

theorem Pushed.nodup (h : u.Pushed s n) : (u.entries.map Prod.snd).Nodup := by
  rw [h.pages]
  exact pages_nodup fun j hj => h.served.2 j (h.asked ▸ hj)

/-- Each page that has been given out is among the entries, once. -/
theorem Pushed.count (h : u.Pushed s n) (hm : m < u.asked) :
    (u.entries.map Prod.snd).count (s.page m) = 1 :=
  count_eq_one_of_mem h.nodup (h.pages ▸ mem_pages hm)

theorem Pushed.destroy (h : u.Pushed s n) :
    u.destroy s others = some (u.entries.map Prod.snd).reverse := by
  have hgiven : ∀ p ∈ u.entries.map Prod.snd, p ≠ 0 ∧ ∃ n < u.asked, s.page n = p := by
    intro p hp
    obtain ⟨entry, hentry, rfl⟩ := mem_map.mp hp
    exact (h.good entry hentry).2.2
  unfold Ustack.destroy
  rw [foldlM_freepage hgiven h.nodup fun p _ => not_mem_nil, append_nil]

/-- `freepage` does not come back from NULL. -/
theorem Starved.destroy (h : u.Starved) : u.destroy s others = none :=
  foldlM_freepage_none h.entry fun _ _ => rfl

theorem Overflowed.pages (h : u.Overflowed s) : u.entries.map Prod.snd =
    u.page (-1) :: (List.range MAXARGPAGE).map fun i => s.page (MAXARGPAGE - 1 - i) := by
  have hlen : ((MAXARGPAGE : Int) - u.base).toNat = MAXARGPAGE + 1 := by
    rw [h.base]
    rfl
  unfold entries
  rw [hlen, map_map, range_succ_eq_map, map_cons, map_map]
  refine congrArg₂ _ ?_ (map_congr_left fun i hi => ?_)
  · show u.page (u.base + ((0 : Nat) : Int)) = _
    rw [h.base]
    rfl
  · have hi : i < MAXARGPAGE := mem_range.mp hi
    have hindex : u.base + ((i + 1 : Nat) : Int) =
        (MAXARGPAGE : Int) - 1 - ((MAXARGPAGE - 1 - i : Nat) : Int) := by
      omega
    show u.page (u.base + ((i + 1 : Nat) : Int)) = _
    rw [hindex, h.page _ (by omega)]

/-- What stands before the array is freed like an entry, which it must not be. -/
theorem Overflowed.destroy (h : u.Overflowed s) : (u.destroy s others).isSome = true ↔
    s.vtop (u.page (-1)) = true ∧ (∀ j < MAXARGPAGE, s.page j ≠ u.page (-1)) ∧
      others (u.page (-1)) = true := by
  have hall : ∀ j < MAXARGPAGE, s.page j ≠ 0 := h.served.2
  have hcontains : ((List.range u.asked).map s.page).contains (u.page (-1)) = false ↔
      ∀ j < MAXARGPAGE, s.page j ≠ u.page (-1) := by
    rw [h.asked]
    simp
  unfold Ustack.destroy
  rw [h.pages, foldlM_cons]
  cases hvtop : s.vtop (u.page (-1)) with
  | false => simp [freepage, hvtop]
  | true =>
      rw [← hcontains]
      cases hown : ((List.range u.asked).map s.page).contains (u.page (-1)) with
      | false =>
          rw [freepage_other hvtop hown]
          cases hothers : others (u.page (-1)) with
          | false => exact iff_of_false Bool.false_ne_true fun hall => Bool.false_ne_true hall.2.2
          | true =>
              have hgiven : ∀ p ∈ (List.range MAXARGPAGE).map fun i => s.page (MAXARGPAGE - 1 - i),
                  p ≠ 0 ∧ ∃ n < u.asked, s.page n = p := by
                intro p hp
                obtain ⟨i, hi, rfl⟩ := mem_map.mp hp
                have hi : i < MAXARGPAGE := mem_range.mp hi
                exact ⟨hall _ (by omega), MAXARGPAGE - 1 - i, by rw [h.asked]; omega, rfl⟩
              have hfresh : ∀ p ∈ (List.range MAXARGPAGE).map fun i => s.page (MAXARGPAGE - 1 - i),
                  p ∉ [u.page (-1)] := by
                intro p hp hmem
                obtain ⟨i, hi, rfl⟩ := mem_map.mp hp
                have hi : i < MAXARGPAGE := mem_range.mp hi
                exact hcontains.mp hown _ (by omega) (mem_singleton.mp hmem)
              rw [if_pos rfl, Option.bind_eq_bind, Option.bind_some,
                foldlM_freepage hgiven (pages_nodup hall) hfresh]
              exact iff_of_true rfl ⟨rfl, rfl, rfl⟩
      | true =>
          -- the page that stands there is freed a second time as an entry
          obtain ⟨j, hj, heq⟩ := mem_map.mp (contains_iff_mem.mp hown)
          have hj : j < MAXARGPAGE := h.asked ▸ mem_range.mp hj
          have htwice : ∀ freed', [u.page (-1)] ⊆ freed' →
              u.freepage s others freed' (u.page (-1)) = none := by
            intro freed' hsub
            rw [freepage_own hvtop hown, if_pos]
            exact contains_iff_mem.mpr (hsub mem_cons_self)
          rw [freepage_own hvtop hown, if_neg (by simp), Option.bind_eq_bind, Option.bind_some,
            foldlM_freepage_none (heq ▸ mem_pages hj) htwice]
          exact iff_of_false Bool.false_ne_true fun hall => Bool.noConfusion hall.2.1

end Ustack

end Unixlite.Mm
