import Unixlite.Kern.SignalRun

/-!
# What `syssigreturn` takes from the user

`syssigreturn` loads the trap frame from a `sigcontext_t` in user memory, which
the program may have written itself.  The selectors are set to the user's, the
general registers are the user's own anyway, and `eflags` is copied as it
stands: the I/O privilege level and the interrupt flag come from the context.
`sigreturn_unprivileged_iff` says for which contexts that does no harm.
-/

namespace Unixlite.Kern

/-! ## The flags -/

/-- Carry, parity, adjust, zero, sign and overflow: the flags that an
arithmetic instruction sets. -/
def ARITHFLAGS : BitVec 32 := 0x8d5

/-- Interrupts are taken. -/
def IFFLAG : BitVec 32 := 0x200

/-- The I/O privilege level. -/
def IOPLFLAGS : BitVec 32 := 0x3000

/-- The two values differ in arithmetic flags at most. -/
def SameSystem (eflags eflags' : BitVec 32) : Prop :=
  eflags' &&& ~~~ARITHFLAGS = eflags &&& ~~~ARITHFLAGS

instance (eflags eflags' : BitVec 32) : Decidable (SameSystem eflags eflags') :=
  inferInstanceAs (Decidable (_ = _))

/-! ## The frame that goes back to user mode -/

/-- The selectors of user code and data. -/
structure Regs.User (r : Regs) : Prop where
  cs : r.cs = UCODESEL
  ss : r.ss = UDATASEL
  ds : r.ds = UDATASEL
  es : r.es = UDATASEL
  fs : r.fs = UDATASEL
  gs : r.gs = UDATASEL

/-- `r'` has no more privilege than `r`. -/
structure Unprivileged (r r' : Regs) : Prop where
  user : r'.User
  eflags : SameSystem r.eflags r'.eflags

variable {t t' : Task} {r r' : Regs} {eipok : Bool} {eax : BitVec 32}

/-- **What a successful `syssigreturn` returns.** -/
theorem syssigreturn_eq_ok {sc : Option Sigcontext}
    (h : syssigreturn t r sc eipok = .ok (eax, t', r')) :
    ∃ c, sc = some c ∧ eipok = true ∧ eax = c.eax ∧ r'.User ∧ r'.eflags = c.eflags := by
  cases sc with
  | none => cases h
  | some c =>
      cases eipok with
      | false => cases h
      | true =>
          cases h
          exact ⟨c, rfl, rfl, rfl, ⟨rfl, rfl, rfl, rfl, rfl, rfl⟩, rfl⟩

/-- **`sigreturn` raises no privilege** exactly when it does not return to user
mode, or the context's flags are the task's own outside the arithmetic ones. -/
theorem sigreturn_unprivileged_iff (t : Task) (r : Regs) (sc : Option Sigcontext) (eipok : Bool) :
    (∀ eax t' r', syssigreturn t r sc eipok = .ok (eax, t', r') → Unprivileged r r') ↔
      ∀ c, sc = some c → eipok = true → SameSystem r.eflags c.eflags := by
  constructor
  · rintro h c rfl rfl
    exact (h _ _ _ rfl).eflags
  · intro h eax t' r' hret
    obtain ⟨c, hsc, heip, -, huser, hflags⟩ := syssigreturn_eq_ok hret
    refine ⟨huser, ?_⟩
    rw [hflags]
    exact h c hsc heip

/-- A frame of user mode at the first page, with interrupts on. -/
def userframe : Regs where
  ebx := 0
  ecx := 0
  edx := 0
  esi := 0
  edi := 0
  ebp := 0
  eax := 119
  ds := UDATASEL
  es := UDATASEL
  fs := UDATASEL
  gs := UDATASEL
  origeax := 119
  eip := 0x8048010
  cs := UCODESEL
  eflags := 0x202
  esp := 0x8050000
  ss := UDATASEL

/-- The context `setupframe` would save for this frame, but with the I/O
privilege level 3 and the interrupts off. -/
def portcontext : Sigcontext := setupframe { userframe with eflags := 0x3002 } SIGTSTP Sigset.clear

/-- The program gets the I/O ports, and a processor that takes no interrupts. -/
theorem sigreturn_ports :
    ∃ eax t' r', syssigreturn (bootTask false false) userframe (some portcontext) true =
        .ok (eax, t', r') ∧
      r'.eflags &&& IOPLFLAGS = IOPLFLAGS ∧ r'.eflags &&& IFFLAG = 0 ∧
      ¬ Unprivileged userframe r' := by
  refine ⟨_, _, _, rfl, by decide, by decide, fun h => ?_⟩
  exact absurd h.eflags (by decide)

end Unixlite.Kern
