import Unixlite.Kern.FdesRun

/-!
# Access modes of descriptors

FDREAD and FDWRITE of a descriptor are what it was created with as long as no
F_SETFL writes others over them.  Then a write goes through descriptors opened
for writing only, and the destructor of a pipe's end, which asks FDREAD which
end it is, takes it off the right count.
-/

namespace Unixlite.Files

open Unixlite.Verified.Partial Unixlite.Verified.Refcount Unixlite.Verified.Run

/-! ## Descriptors that stay -/

/-- The access mode. -/
def FDMODE : BitVec 32 := FDREAD ||| FDWRITE

/-- A descriptor of `t` that `s` has made has the type and the access mode it
has in `s`. -/
structure SameMode (s t : Sys) : Prop where
  nfdes : s.nfdes ≤ t.nfdes
  fdes : ∀ o d', o < s.nfdes → t.fdes o = some d' →
    ∃ d, s.fdes o = some d ∧ d'.type = d.type ∧ d'.fdflags &&& FDMODE = d.fdflags &&& FDMODE

variable {s t : Sys} {o p : Nat} {fd r : Int} {x : Sys × Born} {e : Event}

theorem SameMode.of_eq (hn : t.nfdes = s.nfdes) (hf : t.fdes = s.fdes) : SameMode s t where
  nfdes := hn.ge
  fdes := fun o d' _ ho => ⟨d', by rwa [hf] at ho, rfl, rfl⟩

theorem SameMode.refl (s : Sys) : SameMode s s := .of_eq rfl rfl

theorem SameMode.trans {u : Sys} (h : SameMode s t) (h' : SameMode t u) : SameMode s u where
  nfdes := h.nfdes.trans h'.nfdes
  fdes := by
    intro o d' ho hd'
    obtain ⟨e, he, htype, hmode⟩ := h'.fdes o d' (ho.trans_le h.nfdes) hd'
    obtain ⟨d, hd, htype', hmode'⟩ := h.fdes o e ho he
    exact ⟨d, hd, htype.trans htype', hmode.trans hmode'⟩

/-- A descriptor is written to. -/
theorem sameMode_set {d d' : Fdes} (hd : s.fdes o = some d)
    (htype : d'.type = d.type) (hmode : d'.fdflags &&& FDMODE = d.fdflags &&& FDMODE) :
    SameMode s (s.setFdes o (some d')) where
  nfdes := Nat.le_refl _
  fdes := by
    intro x e _ hx
    simp only [Sys.setFdes, Function.update_apply] at hx
    split at hx
    · next hxo =>
        cases hx
        exact ⟨d, hxo ▸ hd, htype, hmode⟩
    · exact ⟨e, hx, rfl, rfl⟩

theorem sameMode_none (s : Sys) (o : Nat) : SameMode s (s.setFdes o none) where
  nfdes := Nat.le_refl _
  fdes := by
    intro x e _ hx
    simp only [Sys.setFdes, Function.update_apply] at hx
    split at hx
    · cases hx
    · exact ⟨e, hx, rfl, rfl⟩

theorem sameMode_new (s : Sys) (type : Fdtype) (fdflags : BitVec 32) :
    SameMode s (s.new type fdflags).2 where
  nfdes := Nat.le_succ _
  fdes := by
    intro x e hlt hx
    simp only [Sys.new, Function.update_of_ne hlt.ne] at hx
    exact ⟨e, hx, rfl, rfl⟩

theorem rlose_mode {q : Nat} (h : s.rlose q = .ok t) : SameMode s t := by
  unfold Sys.rlose at h
  split at h
  · cases h
  · dsimp only at h
    split_ifs at h <;> cases h <;> exact .of_eq rfl rfl

theorem wlose_mode {q : Nat} (h : s.wlose q = .ok t) : SameMode s t := by
  unfold Sys.wlose at h
  split at h
  · cases h
  · dsimp only at h
    split_ifs at h <;> cases h <;> exact .of_eq rfl rfl

theorem destroy_mode {d : Fdes} (h : s.destroy o d = .ok t) : SameMode s t := by
  unfold Sys.destroy at h
  split at h
  · obtain ⟨u, hu, ht⟩ := bind_ok h
    cases ht
    have hsame : SameMode s u := by
      split at hu
      · exact rlose_mode hu
      · exact wlose_mode hu
    exact hsame.trans (sameMode_none u o)
  · cases h
    exact sameMode_none s o

theorem lose_mode (h : s.lose o = .ok t) : SameMode s t := by
  unfold Sys.lose at h
  split at h
  · cases h
  next d hd =>
  split_ifs at h
  · cases h; exact sameMode_set hd rfl rfl
  · exact destroy_mode h

theorem hold_mode (h : s.hold o = .ok t) : SameMode s t := by
  unfold Sys.hold at h
  split at h
  · cases h
  · next d hd => cases h; exact sameMode_set hd rfl rfl

theorem holdInto_mode {i : Nat} (h : s.holdInto p i o = .ok t) : SameMode s t := by
  obtain ⟨u, hu, ht⟩ := bind_ok h
  cases ht
  exact (hold_mode hu).trans (.of_eq rfl rfl)

theorem drop_mode {i : Nat} (h : s.drop p i o = .ok t) : SameMode s t := by
  obtain ⟨u, hu, ht⟩ := bind_ok h
  cases ht
  exact (lose_mode hu).trans (.of_eq rfl rfl)

/-! ## Calls -/

theorem putNew_mode {type : Fdtype} {fdflags : BitVec 32}
    (h : s.putNew p type fdflags = .ok (r, t)) : SameMode s t := by
  have hput : SameMode s ((s.new type fdflags).2.put p (s.new type fdflags).1).2 := by
    refine (sameMode_new s type fdflags).trans ?_
    unfold Sys.put
    split <;> exact .of_eq rfl rfl
  unfold Sys.putNew at h
  dsimp only at h
  split at h
  · obtain ⟨u, hu, ht⟩ := bind_ok h
    cases ht
    exact hput.trans (lose_mode hu)
  · cases h
    exact hput

theorem syspipe_mode {ver : Int} (h : s.syspipe p ver = .ok (r, t)) : SameMode s t := by
  unfold Sys.syspipe at h
  split at h
  · cases h
    exact .refl s
  have hnew : SameMode s s.newPipefds.2.2 :=
    ((SameMode.of_eq rfl rfl : SameMode s s.newPipe.2).trans (sameMode_new _ _ _)).trans
      (sameMode_new _ _ _)
  have hput : SameMode s
      (s.newPipefds.2.2.putpair p s.newPipefds.1 s.newPipefds.2.1).2 := by
    refine hnew.trans ?_
    unfold Sys.putpair
    split <;> exact .of_eq rfl rfl
  dsimp only at h
  split at h
  · obtain ⟨u, hu, h⟩ := bind_ok h
    obtain ⟨v, hv, h⟩ := bind_ok h
    cases h
    exact (hput.trans (lose_mode hu)).trans (lose_mode hv)
  · cases h
    exact hput

theorem dup_mode (h : s.dup p fd = .ok (r, t)) : SameMode s t := by
  unfold Sys.dup at h
  split at h
  · cases h; exact .refl s
  split at h
  · cases h; exact .refl s
  · obtain ⟨u, hu, h⟩ := bind_ok h
    cases h
    exact holdInto_mode hu

theorem close_mode (h : s.close p fd = .ok (r, t)) : SameMode s t := by
  unfold Sys.close at h
  split at h
  · cases h; exact .refl s
  · obtain ⟨u, hu, h⟩ := bind_ok h
    cases h
    exact (drop_mode hu).trans (.of_eq rfl rfl)

theorem dup2_mode {oldfd newfd : Int} (h : s.dup2 p oldfd newfd = .ok (r, t)) : SameMode s t := by
  unfold Sys.dup2 at h
  split at h
  · cases h; exact .refl s
  split at h
  · cases h; exact .refl s
  obtain ⟨⟨r', u⟩, hclose, h⟩ := bind_ok h
  dsimp only at h
  split at h
  · cases h
  · obtain ⟨v, hv, h⟩ := bind_ok h
    cases h
    exact (close_mode hclose).trans (holdInto_mode hv)

theorem fcntl_mode {cmd : Int} {arg : BitVec 32} (hkeeps : KeepsMode s p (.fcntl false fd cmd arg))
    (h : s.fcntl p fd cmd arg = .ok (r, t)) : SameMode s t := by
  unfold Sys.fcntl at h
  split at h
  · cases h; exact .refl s
  next o ho =>
  split at h
  · unfold Sys.fdupfd at h
    rw [ho] at h
    split at h
    · cases h
    dsimp only at h
    split at h
    · cases h; exact .refl s
    · obtain ⟨u, hu, h⟩ := bind_ok h
      cases h
      exact holdInto_mode hu
  split at h
  · cases h; exact .refl s
  split at h
  · cases h; exact .of_eq rfl rfl
  split at h
  · split at h
    · cases h
    · cases h; exact .refl s
  split at h
  · next hcmd =>
      split at h
      · cases h
      · next d hd => cases h; exact sameMode_set hd rfl (hkeeps rfl hcmd o d ho hd)
  · cases h; exact .refl s

theorem call_mode {c : Call} (hkeeps : KeepsMode s p c)
    (h : s.call p c = .ok (r, t)) : SameMode s t := by
  cases c with
  | «open» flags file =>
      cases file with
      | error e => cases h; exact .refl s
      | ok ft => exact putNew_mode h
  | socket fdflags => exact putNew_mode h
  | pipe ver => exact syspipe_mode h
  | dup low fd =>
      cases low with
      | true => cases h; exact .refl s
      | false => exact dup_mode h
  | dup2 low oldfd newfd =>
      cases low with
      | true => cases h; exact .refl s
      | false => exact dup2_mode h
  | fcntl low fd cmd arg =>
      cases low with
      | true => cases h; exact .refl s
      | false => exact fcntl_mode hkeeps h
  | close fd => exact close_mode h
  | read low fd ver n =>
      cases low with
      | true => cases h; exact .refl s
      | false => rw [Sys.transfer_eq h]; exact .refl s
  | write low fd ver n =>
      cases low with
      | true => cases h; exact .refl s
      | false => rw [Sys.transfer_eq h]; exact .refl s
  | fork e =>
      simp only [Sys.call] at h
      split at h
      · cases h; exact .refl s
      obtain ⟨u, hu, h⟩ := bind_ok h
      cases h
      have hnew : SameMode s s.newProc := .of_eq rfl rfl
      refine foldlM_range (P := fun _ t => SameMode s t) ?_ hnew hu
      intro i v w _ hv hone
      unfold Sys.cloneOne at hone
      split at hone
      · cases hone; exact hv
      · exact hv.trans (holdInto_mode hone)
  | exec =>
      obtain ⟨u, hu, h⟩ := bind_ok h
      cases h
      refine foldlM_range (P := fun _ t => SameMode s t) ?_ (.refl s) hu
      intro i v w _ hv hone
      unfold Sys.closeonexecOne at hone
      split at hone
      · split at hone
        · cases hone
        · have hclear : SameMode v (v.setClose p i false) := .of_eq rfl rfl
          exact (hv.trans hclear).trans (drop_mode hone)
      · cases hone; exact hv
  | exit =>
      obtain ⟨u, hu, h⟩ := bind_ok h
      cases h
      have hall : SameMode s u := by
        refine foldlM_range (P := fun _ t => SameMode s t) ?_ (.refl s) hu
        intro i v w _ hv hone
        unfold Sys.closeallOne at hone
        split at hone
        · cases hone; exact hv
        · exact hv.trans (drop_mode hone)
      exact hall.trans (.of_eq rfl rfl)

/-! ## The flags at creation -/

/-- The flags each descriptor was created with. -/
abbrev Born := Nat → BitVec 32

/-- A descriptor that was not there before the step is new. -/
def setBorn (s t : Sys) (b : Born) : Born := fun o =>
  match s.fdes o with
  | some _ => b o
  | none =>
      match t.fdes o with
      | some d => d.fdflags
      | none => b o

/-- The run with the flags at creation beside it. -/
def bornStep : Sys × Born → Event → Option (Sys × Born) :=
  ghost step fun s _ t b => setBorn s t b

/-- The live `pipefd_t` of a pipe that were created as its read ends (as its
write ends). -/
noncomputable def liveEnds (x : Sys × Born) (q : Nat) (read : Bool) : Nat :=
  {o | ∃ d, x.1.fdes o = some d ∧ d.type = .pipe q ∧
    decide (x.2 o &&& FDREAD ≠ 0) = read}.ncard

/-- What should hold of every state: descriptors keep their access mode, a pipe
counts its live ends, and is there as long as it has any. -/
structure ModeOk (x : Sys × Born) : Prop where
  mode : ∀ o d, x.1.fdes o = some d → d.fdflags &&& FDMODE = x.2 o &&& FDMODE
  count : ∀ q y, x.1.pipe q = some y →
    y.nreader = liveEnds x q true ∧ y.nwriter = liveEnds x q false
  deleted : ∀ q, x.1.pipe q = none ↔ liveEnds x q true = 0 ∧ liveEnds x q false = 0

/-- What should hold of every call: a write that does not fail goes through a
descriptor opened for writing, and no call uses a deleted pipe or fails an
assertion. -/
structure ModeStepOk (x : Sys × Born) (e : Event) : Prop where
  write : ∀ low fd ver n r t, e.call = .write low fd ver n →
    x.1.call e.p e.call = .ok (r, t) → 0 ≤ r →
    ∃ o, x.1.get e.p fd = some o ∧ x.2 o &&& FDWRITE ≠ 0
  returns : x.1.alive e.p = true → ∀ f, x.1.call e.p e.call = .error f → f = .outside

/-- The access modes are fixed along the whole run. -/
def FixedMode (es : List Event) : Prop :=
  Always bornStep ModeOk (init, fun _ => 0) es ∧
    Each bornStep ModeStepOk (init, fun _ => 0) es

/-- The invariant, with the access modes. -/
structure ModeInv (x : Sys × Born) : Prop extends Ok x.1 where
  mode : ∀ o d, x.1.fdes o = some d → d.fdflags &&& FDMODE = x.2 o &&& FDMODE

theorem and_read_of_mode {a b : BitVec 32} (h : a &&& FDMODE = b &&& FDMODE) :
    a &&& FDREAD = b &&& FDREAD := by
  have h' := congrArg (· &&& FDREAD) h
  simpa [BitVec.and_assoc, FDMODE, FDREAD, FDWRITE] using h'

theorem and_write_of_mode {a b : BitVec 32} (h : a &&& FDMODE = b &&& FDMODE) :
    a &&& FDWRITE = b &&& FDWRITE := by
  have h' := congrArg (· &&& FDWRITE) h
  simpa [BitVec.and_assoc, FDMODE, FDREAD, FDWRITE] using h'

/-- An end is still the end it was created as. -/
theorem ModeInv.liveEnds (h : ModeInv x) (q : Nat) (read : Bool) :
    liveEnds x q read = x.1.ends q read := by
  have hset : {o | ∃ d, x.1.fdes o = some d ∧ d.type = .pipe q ∧
      decide (x.2 o &&& FDREAD ≠ 0) = read} =
      ↑((Finset.range x.1.nfdes).filter fun o =>
        (x.1.fdes o).bind Fdes.pipeEnd = some (q, read)) := by
    ext o
    simp only [Set.mem_ofPred_eq, Finset.coe_filter, Finset.mem_range]
    constructor
    · rintro ⟨d, hd, htype, hread⟩
      refine ⟨h.inv.counted.lt hd, ?_⟩
      simp [hd, Fdes.pipeEnd, htype, and_read_of_mode (h.mode o d hd), ← hread]
    · rintro ⟨hlt, hend⟩
      obtain ⟨d, hd, hend⟩ := Option.bind_eq_some_iff.mp hend
      cases htype : d.type with
      | pipe q' =>
          simp only [Fdes.pipeEnd, htype, Option.some.injEq, Prod.mk.injEq] at hend
          refine ⟨d, hd, by rw [htype, hend.1], ?_⟩
          rw [← and_read_of_mode (h.mode o d hd)]
          exact hend.2
      | file | sock => simp [Fdes.pipeEnd, htype] at hend
  rw [Files.liveEnds, hset, Set.ncard_coe_finset]
  rfl

theorem ModeInv.modeOk (h : ModeInv x) : ModeOk x where
  mode := h.mode
  count := by
    intro q y hy
    have hpipe := h.inv.counted.pipe q
    rw [hy, pipeOf] at hpipe
    split at hpipe
    · cases hpipe
    · cases hpipe
      rw [h.liveEnds, h.liveEnds]
      exact ⟨rfl, rfl⟩
  deleted := by
    intro q
    rw [h.liveEnds, h.liveEnds, h.inv.counted.pipe q, pipeOf]
    split
    · next hzero => simp [hzero]
    · next hzero => simp [hzero]

theorem modeInv_init : ModeInv (init, fun _ => 0) where
  toOk := init_ok
  mode := by simp [init]

/-- A living process stores no other access mode. -/
def Keeps (s : Sys) (e : Event) : Prop := s.alive e.p = true → KeepsMode s e.p e.call

theorem modeInv_step {y : Sys × Born} (h : ModeInv x) (hkeeps : Keeps x.1 e)
    (hstep : bornStep x e = some y) : ModeInv y := by
  obtain ⟨ht, hborn⟩ := ghost_eq_some.mp hstep
  obtain ⟨hp, r, hcall⟩ := step_eq_some.mp ht
  refine ⟨step_ok h.toOk (hkeeps hp) ht, ?_⟩
  intro o d' hd'
  rw [hborn]
  unfold setBorn
  cases hd : x.1.fdes o with
  | none => simp only [hd']
  | some d =>
      -- an old descriptor has its old mode
      obtain ⟨d₁, hd₁, -, hmode⟩ :=
        (call_mode (hkeeps hp) hcall).fdes o d' (h.inv.counted.lt hd) hd'
      rw [hmode]
      exact h.mode o d₁ hd₁

theorem modeStepOk (h : ModeInv x) (hkeeps : Keeps x.1 e) : ModeStepOk x e where
  write := by
    intro low fd ver n r t hcall hret hr
    rw [hcall] at hret
    cases low with
    | true =>
        cases hret
        exact absurd hr (by decide)
    | false =>
        simp only [Sys.call, Bool.false_eq_true, if_false, Sys.syswrite, Sys.transfer] at hret
        split at hret
        · cases hret
          exact absurd hr (by decide)
        next o ho =>
        split at hret
        · cases hret
        next d hd =>
        split at hret
        · cases hret
          exact absurd hr (by decide)
        · next hwrite =>
            refine ⟨o, ho, ?_⟩
            rwa [← and_write_of_mode (h.mode o d hd)]
  returns := by
    intro hp f herror
    rcases call_inv h.inv h.map hp (hkeeps hp) with hbelow | ⟨r, t, hcall, -⟩
    · obtain ⟨p, c⟩ := e
      cases c with
      | fcntl low fd cmd arg =>
          obtain ⟨rfl, rfl, hget, hneg⟩ := hbelow
          obtain ⟨o, ho⟩ := Option.ne_none_iff_exists'.mp hget
          simp [Sys.call, Sys.fcntl, ho, Sys.fdupfd, hneg] at herror
          exact herror.symm
      | _ => exact hbelow.elim
    · rw [hcall] at herror
      cases herror

/-- An F_SETFL that stores another access mode shows in the next state. -/
theorem keeps_of_modeOk (h : ModeOk x)
    (hnext : ∀ y, bornStep x e = some y → ModeOk y) : Keeps x.1 e := by
  intro hp
  obtain ⟨p, c⟩ := e
  cases c with
  | fcntl low fd cmd arg =>
      rintro rfl rfl o d hget hd
      have hcall : x.1.call p (.fcntl false fd FSETFL arg) =
          .ok (0, x.1.setFdes o (some { d with fdflags := utok arg })) := by
        simp [Sys.call, Sys.fcntl, hget, hd, FSETFL, FGETFL, FSETFD, FGETFD, FDUPFD]
      have hstep : step x.1 ⟨p, .fcntl false fd FSETFL arg⟩ =
          some (x.1.setFdes o (some { d with fdflags := utok arg })) :=
        step_eq_some.mpr ⟨hp, 0, hcall⟩
      have hafter := (hnext (_, setBorn x.1 _ x.2) (ghost_eq_some.mpr ⟨hstep, rfl⟩)).mode o
        { d with fdflags := utok arg } (by simp)
      have hold := h.mode o d hd
      simp only [setBorn, hd] at hafter
      exact hafter.trans hold.symm
  | _ => trivial

/-- **Access mode.**  In a run the access modes are fixed, and with them what
depends on them, if and only if every F_SETFL stores the access mode that the
descriptor has. -/
theorem fixedMode_iff (es : List Event) : FixedMode es ↔ Each step Keeps init es := by
  constructor
  · rintro ⟨hmode, -⟩
    refine each_ghost.mp (each_of_always ?_ hmode)
    intro x e hx hnext
    exact keeps_of_modeOk hx hnext
  · intro h
    have h' : Each bornStep (fun x e => Keeps x.1 e) (init, fun _ => 0) es := each_ghost.mpr h
    have hinv : Always bornStep ModeInv (init, fun _ => 0) es :=
      always_of_each (fun x e y hx he hy => modeInv_step hx he hy) modeInv_init h'
    exact ⟨hinv.mono fun x hx => hx.modeOk,
      Each.of_always (fun x e hx he => modeStepOk hx he) hinv h'⟩

/-- `fcntl(fd, F_SETFL, O_RDWR)` on the read end of a pipe lets it be written
to. -/
theorem not_fixedMode_setfl :
    ¬ FixedMode [⟨0, .pipe 0⟩, ⟨0, .fcntl false 0 FSETFL 2⟩] := by
  rintro ⟨hmode, -⟩
  have hlast := ((hmode.2 _ rfl).2 _ rfl).mode 0 _ rfl
  revert hlast
  decide

end Unixlite.Files
