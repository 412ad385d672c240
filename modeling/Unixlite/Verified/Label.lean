import Mathlib.Tactic.TypeStar

/-!
# Functions with a label for errors

A function in the manner of C whose steps go on, jump to the label that undoes what has been
done so far, or do not come back.  Where a step ends decides what is still to be undone, so it
has three postconditions (`Meets`), and a sequence of steps is taken apart at each of them
(`Meets.andThen`).
-/

namespace Unixlite.Verified.Label

/-- Where a step ends: behind it, at the label with an error, or nowhere. -/
inductive Flow (σ : Type*) where
  | next (s : σ)
  | error (e : Int) (s : σ)
  | stop (s : σ)

namespace Flow

variable {σ : Type*} {o : Flow σ} {f : σ → Flow σ}

def andThen (o : Flow σ) (f : σ → Flow σ) : Flow σ :=
  match o with
  | .next s => f s
  | .error e s => .error e s
  | .stop s => .stop s

@[simp] theorem next_andThen (s : σ) : (next s).andThen f = f s := rfl
@[simp] theorem error_andThen (e : Int) (s : σ) : (error e s).andThen f = error e s := rfl
@[simp] theorem stop_andThen (s : σ) : (stop s).andThen f = stop s := rfl

/-- A sequence goes on if each of its steps does. -/
theorem andThen_eq_next {s' : σ} : o.andThen f = next s' ↔ ∃ s, o = next s ∧ f s = next s' := by
  cases o with
  | next s => simp
  | error e s => simp
  | stop s => simp

/-- What holds behind the step, at the label, and where it stops. -/
def Meets (N : σ → Prop) (E : Int → σ → Prop) (S : σ → Prop) : Flow σ → Prop
  | .next s => N s
  | .error e s => E e s
  | .stop s => S s

variable {N N' : σ → Prop} {E E' : Int → σ → Prop} {S S' : σ → Prop}

theorem Meets.mono (h : o.Meets N E S) (hN : ∀ s, N s → N' s) (hE : ∀ e s, E e s → E' e s)
    (hS : ∀ s, S s → S' s) : o.Meets N' E' S' := by
  cases o with
  | next s => exact hN s h
  | error e s => exact hE e s h
  | stop s => exact hS s h

/-- One step after the other. -/
theorem Meets.andThen (h : o.Meets N E S) (hf : ∀ s, N s → (f s).Meets N' E S) :
    (o.andThen f).Meets N' E S := by
  cases o with
  | next s => exact hf s h
  | error e s => exact h
  | stop s => exact h

theorem Meets.and (h : o.Meets N E S) (h' : o.Meets N' E' S') :
    o.Meets (fun s => N s ∧ N' s) (fun e s => E e s ∧ E' e s) fun s => S s ∧ S' s := by
  cases o with
  | next s => exact ⟨h, h'⟩
  | error e s => exact ⟨h, h'⟩
  | stop s => exact ⟨h, h'⟩

end Flow

end Unixlite.Verified.Label
