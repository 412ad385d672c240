import Mathlib.Logic.Function.Basic
import Mathlib.Tactic.SplitIfs

/-!
# What a program remembers of its memory

Memory ends somewhere, and the end can be moved: what is given up is forgotten, and what is new
has one known value.  `Agrees` says that whatever is remembered can be seen.
-/

namespace Unixlite.Verified

structure Recall (β : Type*) where
  top : Nat
  byte : Nat → Option β

namespace Recall

variable {β : Type*} {m : Recall β} {see see' : Nat → Option β} {a top : Nat} {v zero : β}

/-- The end of the memory is moved. -/
def move (m : Recall β) (zero : β) (top : Nat) : Recall β where
  top := top
  byte a :=
    if top ≤ a ∧ a < m.top then none else if m.top ≤ a ∧ a < top then some zero else m.byte a

def write (m : Recall β) (a : Nat) (v : β) : Recall β :=
  { m with byte := Function.update m.byte a (some v) }

def Agrees (m : Recall β) (see : Nat → Option β) : Prop :=
  ∀ a v, m.byte a = some v → see a = some v

theorem Agrees.mono (h : m.Agrees see) (hsee : ∀ a v, see a = some v → see' a = some v) :
    m.Agrees see' :=
  fun a v hv => hsee a v (h a v hv)

/-- One byte is written. -/
theorem Agrees.write (h : m.Agrees see) (ha : see' a = some v) (hsee : ∀ b, b ≠ a → see' b = see b) :
    (m.write a v).Agrees see' := by
  intro b w hw
  simp only [Recall.write, Function.update_apply] at hw
  split_ifs at hw with hb
  · cases hw
    rw [hb]
    exact ha
  · rw [hsee b hb]
    exact h b w hw

/-- The end moves: outside of what is given up everything stays. -/
theorem Agrees.move (h : m.Agrees see) (hnew : ∀ a, m.top ≤ a → a < top → see' a = some zero)
    (hkept : ∀ a v, ¬ (top ≤ a ∧ a < m.top) → see a = some v → see' a = some v) :
    (m.move zero top).Agrees see' := by
  intro a v hv
  simp only [Recall.move] at hv
  split_ifs at hv with hgone hnew'
  · cases hv
    exact hnew a hnew'.1 hnew'.2
  · exact hkept a v hgone (h a v hv)

end Recall

end Unixlite.Verified
