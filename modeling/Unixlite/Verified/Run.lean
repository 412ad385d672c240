import Mathlib.Data.List.Basic

/-!
# Runs of a partial labelled step function

A system is a partial function `step : σ → α → Option σ`.  The label carries
everything the environment decides, so a state and a list of labels have at
most one run; `none` means that the step is not enabled or does not return.

Two predicates speak about the whole run and not only about its last state:
`Always` (a property of every state visited) and `Each` (a condition on every
step taken, read off the state before it).  The rules `always_of_each` and
`each_of_always` turn a one-step lemma into a statement about runs.
-/

namespace Unixlite.Verified.Run

variable {σ α : Type*}

/-- The state reached after a list of labels, if every step is enabled. -/
def exec (step : σ → α → Option σ) : σ → List α → Option σ
  | s, [] => some s
  | s, a :: as => (step s a).bind fun t => exec step t as

/-- `P` holds in every state the run visits, the first one included. -/
def Always (step : σ → α → Option σ) (P : σ → Prop) : σ → List α → Prop
  | s, [] => P s
  | s, a :: as => P s ∧ ∀ t, step s a = some t → Always step P t as

/-- `ok` holds of every step the run takes, in the state before the step. -/
def Each (step : σ → α → Option σ) (ok : σ → α → Prop) : σ → List α → Prop
  | _, [] => True
  | s, a :: as => ok s a ∧ ∀ t, step s a = some t → Each step ok t as

variable {step : σ → α → Option σ} {P Q : σ → Prop} {ok : σ → α → Prop}

@[simp] theorem exec_nil (s : σ) : exec step s [] = some s := rfl

@[simp] theorem exec_cons (s : σ) (a : α) (as : List α) :
    exec step s (a :: as) = (step s a).bind fun t => exec step t as := rfl

/-- A run splits where its label list splits. -/
theorem exec_append (s : σ) (as bs : List α) :
    exec step s (as ++ bs) = (exec step s as).bind fun t => exec step t bs := by
  induction as generalizing s with
  | nil => rfl
  | cons a as ih =>
      cases h : step s a with
      | none => simp [h]
      | some t => simp [h, ih t]

variable {s : σ} {as : List α} {a : α}

/-- The first state of a run is one of its states. -/
theorem Always.head (h : Always step P s as) : P s := by
  cases as with
  | nil => exact h
  | cons a as => exact h.1

theorem Always.mono (hPQ : ∀ s, P s → Q s) (h : Always step P s as) : Always step Q s as := by
  induction as generalizing s with
  | nil => exact hPQ s h
  | cons a as ih => exact ⟨hPQ s h.1, fun t ht => ih (h.2 t ht)⟩

theorem Always.and (hP : Always step P s as)
    (hQ : Always step Q s as) : Always step (fun s => P s ∧ Q s) s as := by
  induction as generalizing s with
  | nil => exact ⟨hP, hQ⟩
  | cons a as ih => exact ⟨⟨hP.1, hQ.1⟩, fun t ht => ih (hP.2 t ht) (hQ.2 t ht)⟩

/-- A second invariant that is kept where the first one holds. -/
theorem Always.and_of_step (hstep : ∀ s a t, P s → Q s → step s a = some t → Q t)
    (h : Always step P s as) (hs : Q s) : Always step (fun s => P s ∧ Q s) s as := by
  induction as generalizing s with
  | nil => exact ⟨h, hs⟩
  | cons a as ih =>
      exact ⟨⟨h.1, hs⟩, fun t ht => ih (h.2 t ht) (hstep s a t h.1 hs ht)⟩

/-- `Always` is the same as the property in the last state of every prefix. -/
theorem always_iff_exec (s : σ) (as : List α) :
    Always step P s as ↔
      ∀ pre post t, as = pre ++ post → exec step s pre = some t → P t := by
  induction as generalizing s with
  | nil =>
      constructor
      · intro h pre post t hsplit hexec
        obtain ⟨rfl, rfl⟩ := List.append_eq_nil_iff.mp hsplit.symm
        cases hexec
        exact h
      · intro h
        exact h [] [] s rfl rfl
  | cons a as ih =>
      constructor
      · rintro ⟨hs, hrest⟩ pre post t hsplit hexec
        cases pre with
        | nil => cases hexec; exact hs
        | cons b pre =>
            obtain ⟨rfl, rfl⟩ := hsplit
            obtain ⟨u, hu, hexec⟩ := Option.bind_eq_some_iff.mp hexec
            exact (ih u).mp (hrest u hu) pre post t rfl hexec
      · intro h
        refine ⟨h [] (a :: as) s rfl rfl, fun u hu => (ih u).mpr ?_⟩
        intro pre post t hsplit hexec
        refine h (a :: pre) post t (by simp [hsplit]) ?_
        simp [hu, hexec]

/-- **Invariant rule.**  An invariant kept by every step that meets the
condition holds along every run whose steps all meet it. -/
theorem always_of_each
    (hstep : ∀ s a t, P s → ok s a → step s a = some t → P t) (hs : P s) (hok : Each step ok s as) :
    Always step P s as := by
  induction as generalizing s with
  | nil => exact hs
  | cons a as ih =>
      exact ⟨hs, fun t ht => ih (hstep s a t hs hok.1 ht) (hok.2 t ht)⟩

/-- An unconditional invariant holds along every run. -/
theorem always_of_step (hstep : ∀ s a t, P s → step s a = some t → P t)
    (as : List α) (hs : P s) : Always step P s as := by
  induction as generalizing s with
  | nil => exact hs
  | cons a as ih => exact ⟨hs, fun t ht => ih (hstep s a t hs ht)⟩

/-- **Converse rule.**  If a step that breaks the condition also breaks the
invariant, a run that keeps the invariant meets the condition at each step. -/
theorem each_of_always
    (hstep : ∀ s a, P s → (∀ t, step s a = some t → P t) → ok s a)
    (h : Always step P s as) : Each step ok s as := by
  induction as generalizing s with
  | nil => trivial
  | cons a as ih =>
      exact ⟨hstep s a h.1 fun t ht => (h.2 t ht).head,
        fun t ht => ih (h.2 t ht)⟩

theorem Each.and {ok' : σ → α → Prop} (h : Each step ok s as)
    (h' : Each step ok' s as) : Each step (fun s a => ok s a ∧ ok' s a) s as := by
  induction as generalizing s with
  | nil => trivial
  | cons a as ih => exact ⟨⟨h.1, h'.1⟩, fun t ht => ih (h.2 t ht) (h'.2 t ht)⟩

/-- A condition on the labels alone is met by a run whose labels meet it. -/
theorem each_of_forall {c : α → Prop} (h : ∀ a ∈ as, c a) (s : σ) :
    Each step (fun _ a => c a) s as := by
  induction as generalizing s with
  | nil => trivial
  | cons a as ih =>
      exact ⟨h a (by simp), fun t _ => ih (fun b hb => h b (by simp [hb])) t⟩

/-- A condition on the steps of a given run can be checked. -/
instance decidableEach (step : σ → α → Option σ) (ok : σ → α → Prop)
    [∀ s a, Decidable (ok s a)] : (s : σ) → (as : List α) → Decidable (Each step ok s as)
  | _, [] => .isTrue trivial
  | s, a :: as =>
      match h : step s a with
      | none => decidable_of_iff (ok s a) (by simp [Each, h])
      | some t =>
          have := decidableEach step ok t as
          decidable_of_iff (ok s a ∧ Each step ok t as) (by simp [Each, h])

/-- A property of the steps from the states of the run. -/
theorem Always.each (hstep : ∀ s a, P s → ok s a) (h : Always step P s as) : Each step ok s as := by
  induction as generalizing s with
  | nil => trivial
  | cons a as ih => exact ⟨hstep s a h.1, fun t ht => ih (h.2 t ht)⟩

/-- **Both rules**, in the runs whose steps all meet another condition.  `I` is kept by the
steps that meet both, and a step that does not meet `ok` leaves a state without `P`. -/
theorem Each.always_iff {I : σ → Prop} {c : σ → α → Prop} (hI : ∀ s, I s → P s)
    (hkeep : ∀ s a t, I s → c s a → ok s a → step s a = some t → I t)
    (hbreak : ∀ s a, I s → c s a → (∀ t, step s a = some t → P t) → ok s a)
    (hc : Each step c s as) (hs : I s) : Always step P s as ↔ Each step ok s as := by
  constructor
  · intro h
    induction as generalizing s with
    | nil => trivial
    | cons a as ih =>
        have hok : ok s a := hbreak s a hs hc.1 fun t ht => (h.2 t ht).head
        exact ⟨hok, fun t ht => ih (hc.2 t ht) (hkeep s a t hs hc.1 hok ht) (h.2 t ht)⟩
  · intro h
    exact (always_of_each (fun s a t hs hok => hkeep s a t hs hok.1 hok.2) hs (hc.and h)).mono hI

/-- **Both rules.**  `I` is kept by the steps that meet the condition, and a step that
does not meet it leaves a state without `P`. -/
theorem always_iff_each {I : σ → Prop} (hI : ∀ s, I s → P s)
    (hkeep : ∀ s a t, I s → ok s a → step s a = some t → I t)
    (hbreak : ∀ s a, I s → (∀ t, step s a = some t → P t) → ok s a)
    (hs : I s) : Always step P s as ↔ Each step ok s as := by
  have hall : Each step (fun _ _ => True) s as :=
    each_of_forall (c := fun _ => True) (fun _ _ => trivial) s
  exact hall.always_iff hI (fun s a t hs _ => hkeep s a t hs) (fun s a hs _ => hbreak s a hs) hs

/-- The steps after a part of the run meet the condition as well. -/
theorem Each.at {t : σ} {bs : List α} (h : Each step ok s (as ++ bs))
    (hexec : exec step s as = some t) : Each step ok t bs := by
  induction as generalizing s with
  | nil =>
      cases hexec
      exact h
  | cons a as ih =>
      obtain ⟨u, hu, hexec⟩ := Option.bind_eq_some_iff.mp hexec
      exact ih (h.2 u hu) hexec

/-- What a step does for its caller is proved from the invariant and the
condition. -/
theorem Each.of_always {ok' : σ → α → Prop} (hstep : ∀ s a, P s → ok s a → ok' s a)
    (h : Always step P s as) (hok : Each step ok s as) :
    Each step ok' s as := by
  induction as generalizing s with
  | nil => trivial
  | cons a as ih =>
      exact ⟨hstep s a h.1 hok.1, fun t ht => ih (h.2 t ht) (hok.2 t ht)⟩

/-! ## Going on -/

/-- With one label again and again a state with the property is reached. -/
def Leads (step : σ → α → Option σ) (a : α) (P : σ → Prop) (s : σ) : Prop :=
  ∃ n t, exec step s (List.replicate n a) = some t ∧ P t

theorem Leads.here (h : P s) : Leads step a P s := ⟨0, s, rfl, h⟩

theorem Leads.next {t : σ} (hstep : step s a = some t) (h : Leads step a P t) :
    Leads step a P s := by
  obtain ⟨n, u, hexec, hu⟩ := h
  refine ⟨n + 1, u, ?_, hu⟩
  rw [List.replicate_succ, exec_cons, hstep]
  exact hexec

/-! ## History variables -/

/-- The system with a variable that records its past and that no step reads. -/
def ghost {γ : Type*} (step : σ → α → Option σ) (next : σ → α → σ → γ → γ) (x : σ × γ)
    (a : α) : Option (σ × γ) :=
  (step x.1 a).map fun t => (t, next x.1 a t x.2)

theorem ghost_eq_some {γ : Type*} {next : σ → α → σ → γ → γ} {x y : σ × γ} :
    ghost step next x a = some y ↔
      step x.1 a = some y.1 ∧ y.2 = next x.1 a y.1 x.2 := by
  obtain ⟨t, g⟩ := y
  simp only [ghost, Option.map_eq_some_iff, Prod.mk.injEq]
  constructor
  · rintro ⟨u, hu, rfl, rfl⟩
    exact ⟨hu, rfl⟩
  · rintro ⟨hu, rfl⟩
    exact ⟨t, hu, rfl, rfl⟩

/-- A condition that does not read the history. -/
theorem each_ghost {γ : Type*} {next : σ → α → σ → γ → γ} {g : γ} :
    Each (ghost step next) (fun x a => ok x.1 a) (s, g) as ↔ Each step ok s as := by
  induction as generalizing s g with
  | nil => exact Iff.rfl
  | cons a as ih =>
      constructor
      · rintro ⟨ha, hrest⟩
        exact ⟨ha, fun t ht => ih.mp (hrest (t, next s a t g) (ghost_eq_some.mpr ⟨ht, rfl⟩))⟩
      · rintro ⟨ha, hrest⟩
        refine ⟨ha, ?_⟩
        rintro ⟨t, g'⟩ ht
        exact ih.mpr (hrest t (ghost_eq_some.mp ht).1)

end Unixlite.Verified.Run
