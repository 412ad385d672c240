import Unixlite.Fs.BufRun

/-!
# Buffers and what is on the disk

A buffer that is clean and not locked has what is on the disk, and what has been stored
in a buffer stays marked as dirty until it is on the disk, as long as nothing is stored
in a sector that the disk has already been given, nothing is stored through a pointer
into a buffer that is no longer dirty, and no write fails (`run_synced`).
-/

namespace Unixlite.Bcache

open Unixlite.Verified.Run Option

/-! ## What a step does to the buffers -/

/-- What `Task.go` does to the cache. -/
inductive Moves (c : Cache) : Cache → Prop
  | recount (r : Nat → BitVec 16) (q : List Nat) : Moves c (c.recount r q)
  | rekey (r : Nat → BitVec 16) (b dev : Nat) (bno : Int) (hlocked : (c.buf b).locked = false)
      (hdirty : (c.buf b).state ≠ .dirty) : Moves c ((c.recount r c.freeq).rekey b dev bno)
  | addreq (rw : Rw) (b : Nat) (hheld : (c.buf b).refcnt ≠ 0)
      (hlocked : (c.buf b).locked = false) : Moves c (c.addreq rw b)

section Moves

variable {c c' : Cache} {x x' : Task} {b : Nat}

theorem Moves.refl (c : Cache) : Moves c c := .recount (fun b => (c.buf b).refcnt) c.freeq

theorem Moves.hold (h : c.hold b = some c') : Moves c c' := by
  obtain ⟨_, rfl⟩ := hold_cases h
  exact .recount _ _

theorem Moves.lose (h : c.lose b = some c') : Moves c c' := by
  obtain ⟨_, rfl⟩ := lose_cases h
  exact .recount _ _

theorem Moves.writeb {c₁ : Cache} {k : Writeb} {phase : Phase} (h : c.hold b = some c₁)
    (hw : Bcache.writeb c₁ b k = some (c', phase)) : Moves c c' := by
  obtain ⟨_, rfl⟩ := hold_cases h
  unfold Bcache.writeb at hw
  split at hw
  · cases hw
    exact .recount _ _
  · obtain ⟨c₂, hhold, heq⟩ := map_eq_some_iff.mp hw
    cases heq
    obtain ⟨r, rfl⟩ := holdall_recount hhold
    exact .recount _ _

theorem Task.go_moves (hgo : x.go c = some (c', x')) : Moves c c' := by
  obtain ⟨phase, held⟩ := x
  cases Task.go_cases hgo with
  | take => exact .recount (fun b => (c.buf b).refcnt) _
  | hit _ hhold => exact .hold hhold
  | clean hhold hw | sync hhold hw => exact .writeb hhold hw
  | @rekey b _ dev bno _ _ _ _ hlocked hdirty hhold =>
      obtain ⟨_, rfl⟩ := hold_cases hhold
      exact .rekey _ b dev bno (Bool.eq_false_iff.mpr hlocked) hdirty
  | @addreq rw _ b _ _ _ hheld hlocked =>
      refine .addreq rw b (fun hzero => ?_) (Bool.eq_false_iff.mpr hlocked)
      rw [hzero] at hheld
      exact absurd hheld (by decide)
  | fails hlose | lose hlose | synced hlose | retry hlose => exact .lose hlose
  | _ => exact .refl c

end Moves

/-! ## Buffers that agree with the disk -/

/-- The first `k` sectors are the same. -/
def Agree (k : Nat) (d e : Bdata) : Prop := ∀ o, o / SECTSIZE < k → d o = e o

/-- What a request for the buffer `x` has done so far. -/
def Req.Ok (r : Req) (x : Buf) (disk : Bdata) : Prop :=
  match r.cmd with
  | .read => x.state = .error ∨ x.state = .inval ∧ Agree r.done x.data disk
  | .write =>
      x.state = .dirty ∧ r.done ≤ r.sent ∧ r.sent ≤ SECTPERBLK ∧ Agree r.sent x.data r.copy ∧
        Agree r.done x.data disk

/-- A buffer is locked while there is a request for it; else it is what is on the disk
if it is clean. -/
def Synced (c : Cache) (b : Nat) : Prop :=
  match c.req b with
  | none =>
      (c.buf b).locked = false ∧ (c.buf b).state ≠ .error ∧
        ((c.buf b).state = .clean →
          Agree SECTPERBLK (c.buf b).data (c.disk (c.buf b).dev (c.buf b).bno))
  | some r =>
      (c.buf b).locked = true ∧ r.Ok (c.buf b) (c.disk (c.buf b).dev (c.buf b).bno)

section Synced

variable {c c' : Cache} {n : Nat → Nat} {b i : Nat} {d d' e e' : Bdata} {r : Req} {x : Buf}

theorem Agree.zero (d e : Bdata) : Agree 0 d e := fun _ h => absurd h (Nat.not_lt_zero _)

variable {k : Nat}

theorem Agree.sector_left (h : Agree k d e) : Agree (k + 1) (Cache.sector k e d) e := by
  intro o ho
  unfold Cache.sector
  split
  · rfl
  · next hne => exact h o (Nat.lt_of_le_of_ne (Nat.le_of_lt_succ ho) hne)

theorem Agree.sector_right (h : Agree k d e) (hsrc : Agree (k + 1) d e') :
    Agree (k + 1) d (Cache.sector k e' e) := by
  intro o ho
  unfold Cache.sector
  split
  · exact hsrc o ho
  · next hne => exact h o (Nat.lt_of_le_of_ne (Nat.le_of_lt_succ ho) hne)

theorem Agree.mono {l : Nat} (h : Agree k d e) (hle : l ≤ k) : Agree l d e :=
  fun o ho => h o (Nat.lt_of_lt_of_le ho hle)

/-- Nothing of the buffer is touched. -/
theorem Synced.congr (h : Synced c b) (hstate : (c'.buf b).state = (c.buf b).state)
    (hdata : (c'.buf b).data = (c.buf b).data) (hlocked : (c'.buf b).locked = (c.buf b).locked)
    (hreq : c'.req b = c.req b) (hdisk : c'.disk (c'.buf b).dev (c'.buf b).bno =
      c.disk (c.buf b).dev (c.buf b).bno) : Synced c' b := by
  unfold Synced Req.Ok at h ⊢
  rw [hstate, hdata, hlocked, hreq, hdisk]
  exact h

theorem Synced.frame (h : Synced c b) (hbuf : c'.buf b = c.buf b) (hreq : c'.req b = c.req b)
    (hdisk : c'.disk (c.buf b).dev (c.buf b).bno = c.disk (c.buf b).dev (c.buf b).bno) :
    Synced c' b := by
  refine h.congr (congrArg Buf.state hbuf) (congrArg Buf.data hbuf) (congrArg Buf.locked hbuf)
    hreq ?_
  rw [hbuf]
  exact hdisk

theorem Synced.req_none (h : Synced c b) (hlocked : (c.buf b).locked = false) : c.req b = none := by
  unfold Synced at h
  cases hreq : c.req b with
  | none => rfl
  | some r =>
      rw [hreq] at h
      rw [h.1] at hlocked
      cases hlocked

theorem Synced.clean (h : Synced c b) (hlocked : (c.buf b).locked = false)
    (hclean : (c.buf b).state = .clean) :
    Agree SECTPERBLK (c.buf b).data (c.disk (c.buf b).dev (c.buf b).bno) := by
  have hreq := h.req_none hlocked
  unfold Synced at h
  rw [hreq] at h
  exact h.2.2 hclean

theorem Synced.of_none (hreq : c.req b = none) (hlocked : (c.buf b).locked = false)
    (herror : (c.buf b).state ≠ .error) (hclean : (c.buf b).state = .clean →
      Agree SECTPERBLK (c.buf b).data (c.disk (c.buf b).dev (c.buf b).bno)) : Synced c b := by
  unfold Synced
  rw [hreq]
  exact ⟨hlocked, herror, hclean⟩

theorem Synced.of_some (hreq : c.req b = some r) (hlocked : (c.buf b).locked = true)
    (hok : r.Ok (c.buf b) (c.disk (c.buf b).dev (c.buf b).bno)) : Synced c b := by
  unfold Synced
  rw [hreq]
  exact ⟨hlocked, hok⟩

theorem Synced.some (h : Synced c b) (hreq : c.req b = some r) :
    (c.buf b).locked = true ∧ r.Ok (c.buf b) (c.disk (c.buf b).dev (c.buf b).bno) := by
  unfold Synced at h
  rw [hreq] at h
  exact h

theorem setBuf_self (c : Cache) (b : Nat) (x : Buf) : (c.setBuf b x).buf b = x := if_pos rfl

theorem setBuf_of_ne (c : Cache) (x : Buf) (h : i ≠ b) : (c.setBuf b x).buf i = c.buf i :=
  if_neg h

theorem setBuf_setBuf (c : Cache) (b : Nat) (x y : Buf) :
    (c.setBuf b x).setBuf b y = c.setBuf b y := by
  unfold Cache.setBuf
  congr 1
  funext i
  by_cases hi : i = b
  · rw [if_pos hi, if_pos hi]
  · rw [if_neg hi, if_neg hi]
    exact if_neg hi

theorem zapreq_req (h : c.zapreq b = some c') : c.req b ≠ none := by
  intro hnone
  unfold Cache.zapreq at h
  rw [hnone] at h
  cases h

theorem nextsect_req {ok : Bool} (h : c.nextsect b ok = some c') : c.req b ≠ none := by
  intro hnone
  unfold Cache.nextsect at h
  rw [hnone] at h
  cases h

theorem Moves.synced (h : Moves c c') (hb : Synced c b) : Synced c' b := by
  cases h with
  | recount r q => exact hb.congr rfl rfl rfl rfl rfl
  | rekey r i dev bno hlocked hdirty =>
      by_cases hib : b = i
      · subst hib
        have hnew : ((c.recount r c.freeq).rekey b dev bno).buf b =
            { c.buf b with refcnt := r b, state := .inval, dev := dev, bno := bno } := if_pos rfl
        refine .of_none (hb.req_none hlocked) ?_ ?_ ?_
        · rw [hnew]
          exact hlocked
        · rw [hnew]
          nofun
        · rw [hnew]
          nofun
      · have hsame := rekey_of_ne (c.recount r c.freeq) dev bno hib
        refine hb.congr ?_ ?_ ?_ rfl ?_
        · rw [hsame]
          rfl
        · rw [hsame]
          rfl
        · rw [hsame]
          rfl
        · rw [hsame]
          rfl
  | addreq rw i hheld hlocked =>
      unfold Cache.addreq
      split
      · exact hb
      next hstate =>
      by_cases hib : b = i
      · subst hib
        refine .of_some (r := ⟨rw, 0, 0, fun _ => 0⟩) (if_pos rfl) ?_ ?_
        · show ((c.setBuf b _).buf b).locked = true
          rw [setBuf_self]
        · show Req.Ok _ ((c.setBuf b _).buf b) _
          rw [setBuf_self]
          cases rw with
          | read => exact .inr ⟨not_not.mp hstate, .zero _ _⟩
          | write =>
              exact ⟨not_not.mp hstate, Nat.le_refl 0, Nat.zero_le _, .zero _ _, .zero _ _⟩
      · exact hb.frame (setBuf_of_ne c _ hib) (if_neg hib) rfl

/-! ## Storing in a buffer -/

/-- Nothing is stored in a buffer that is being read, or in a sector that the disk has
been given. -/
def Unsent (c : Cache) (b : Nat) (bytes : Nat → Option (BitVec 8)) : Prop :=
  ∀ r, c.req b = some r → r.cmd = .write ∧ ∀ o, bytes o ≠ none → r.sent ≤ o / SECTSIZE

/-- The buffer after some bytes have been stored. -/
def stored (bytes : Nat → Option (BitVec 8)) (data : Bdata) : Bdata :=
  fun o => (bytes o).getD (data o)

variable {bytes : Nat → Option (BitVec 8)}

theorem Agree.stored (h : Agree k d e)
    (hunsent : ∀ o, bytes o ≠ none → k ≤ o / SECTSIZE) : Agree k (stored bytes d) e := by
  intro o ho
  have hnone : bytes o = none := by
    by_contra hne
    exact Nat.not_le_of_gt ho (hunsent o hne)
  unfold Bcache.stored
  rw [hnone]
  exact h o ho

theorem setState_store (c : Cache) (b : Nat) (bytes : Nat → Option (BitVec 8))
    (state : Bstate) : (c.store b bytes).setState b state =
      c.setBuf b { c.buf b with data := stored bytes (c.buf b).data, state := state } := by
  unfold Cache.setState Cache.store
  rw [setBuf_self, setBuf_setBuf]
  rfl

/-- Bytes are stored in a buffer, which is dirty then. -/
theorem Synced.stored (h : Synced c i) (hunsent : Unsent c b bytes)
    (hx : x = { c.buf b with data := stored bytes (c.buf b).data, state := .dirty }) :
    Synced (c.setBuf b x) i := by
  by_cases hib : i = b
  · subst hib
    cases hreq : c.req i with
    | none =>
        have hlocked : (c.buf i).locked = false := by
          unfold Synced at h
          rw [hreq] at h
          exact h.1
        refine .of_none hreq ?_ ?_ ?_
        · rw [setBuf_self, hx]
          exact hlocked
        · rw [setBuf_self, hx]
          nofun
        · rw [setBuf_self, hx]
          nofun
    | some r =>
        obtain ⟨hlocked, hok⟩ := h.some hreq
        obtain ⟨hcmd, hsent⟩ := hunsent r hreq
        refine .of_some hreq ?_ ?_
        · rw [setBuf_self, hx]
          exact hlocked
        · rw [setBuf_self, hx]
          unfold Req.Ok at hok ⊢
          rw [hcmd] at hok ⊢
          obtain ⟨_, hdone, hmax, hcopy, hdisk⟩ := hok
          exact ⟨rfl, hdone, hmax, hcopy.stored hsent,
            hdisk.stored fun o ho => Nat.le_trans hdone (hsent o ho)⟩
  · exact h.frame (setBuf_of_ne c x hib) rfl rfl

/-! ## The disk -/

theorem send_synced (hsend : c.send b = some c') (h : Synced c i) : Synced c' i := by
  unfold Cache.send at hsend
  split at hsend
  · cases hsend
  next r hreq =>
  split at hsend
  · next hwrite =>
      cases hsend
      by_cases hib : i = b
      · subst hib
        obtain ⟨hlocked, hok⟩ := h.some hreq
        refine .of_some (if_pos rfl) hlocked ?_
        unfold Req.Ok at hok ⊢
        rw [hwrite.1] at hok ⊢
        obtain ⟨hdirty, hdone, _, hcopy, hdisk⟩ := hok
        exact ⟨hdirty, Nat.le_succ_of_le hdone, hwrite.2, hcopy.sector_right fun _ _ => rfl, hdisk⟩
      · exact h.frame rfl (if_neg hib) rfl
  · cases hsend

/-- A sector has been transferred, or a read has failed. -/
theorem nextsect_synced {ok : Bool} (hnext : c.nextsect b ok = some c')
    (hfail : ∀ r, c.req b = some r → ok = false → r.cmd = .read)
    (hkey : i ≠ b → ¬ ((c.buf i).dev = (c.buf b).dev ∧ (c.buf i).bno = (c.buf b).bno))
    (hb : Synced c b) (h : Synced c i) : Synced c' i := by
  unfold Cache.nextsect at hnext
  split at hnext
  · cases hnext
  next r hreq =>
  obtain ⟨hlocked, hok⟩ := hb.some hreq
  split at hnext
  · cases hnext
  split at hnext
  · next hok' =>
      cases hnext
      have hread := hfail r hreq (by simpa using hok')
      by_cases hib : i = b
      · subst hib
        refine .of_some (if_pos rfl) ?_ ?_
        · show ((c.setBuf i _).buf i).locked = true
          rw [setBuf_self]
          exact hlocked
        · show Req.Ok _ ((c.setBuf i _).buf i) _
          rw [setBuf_self]
          rw [hread]
          exact .inl rfl
      · exact h.frame (setBuf_of_ne c _ hib) (if_neg hib) rfl
  split at hnext
  · next hread =>
      cases hnext
      by_cases hib : i = b
      · subst hib
        refine .of_some (if_pos rfl) ?_ ?_
        · show ((c.setBuf i _).buf i).locked = true
          rw [setBuf_self]
          exact hlocked
        · show Req.Ok _ ((c.setBuf i _).buf i) (c.disk ((c.setBuf i _).buf i).dev ((c.setBuf i _).buf i).bno)
          rw [setBuf_self]
          unfold Req.Ok at hok ⊢
          rw [hread] at hok ⊢
          rcases hok with herror | ⟨hinval, hagree⟩
          · exact .inl herror
          · exact .inr ⟨hinval, hagree.sector_left⟩
      · exact h.frame (setBuf_of_ne c _ hib) (if_neg hib) rfl
  split at hnext
  · cases hnext
  · next hwrite hsent =>
      cases hnext
      unfold Req.Ok at hok
      rw [hwrite] at hok
      obtain ⟨hdirty, hdone, hmax, hcopy, hdisk⟩ := hok
      have hlt : r.done < r.sent := not_not.mp hsent
      by_cases hib : i = b
      · subst hib
        refine .of_some (if_pos rfl) hlocked ?_
        dsimp only
        rw [hwrite, if_pos ⟨rfl, rfl⟩]
        exact ⟨hdirty, hlt, hmax, hcopy, hdisk.sector_right (hcopy.mono hlt)⟩
      · exact h.frame rfl (if_neg hib) (if_neg (hkey hib))

theorem zapreq_synced (hzap : c.zapreq b = some c') (h : Synced c i) : Synced c' i := by
  unfold Cache.zapreq at hzap
  split at hzap
  · cases hzap
  next r hreq =>
  split at hzap
  · cases hzap
  next hdone =>
  cases hzap
  by_cases hib : i = b
  · subst hib
    obtain ⟨_, hok⟩ := h.some hreq
    refine .of_none (if_pos rfl) ?_ ?_ ?_
    · show ((c.setBuf i _).buf i).locked = false
      rw [setBuf_self]
    · show ((c.setBuf i _).buf i).state ≠ .error
      rw [setBuf_self]
      split
      · nofun
      · nofun
    · show ((c.setBuf i _).buf i).state = .clean → Agree SECTPERBLK ((c.setBuf i _).buf i).data
        (c.disk ((c.setBuf i _).buf i).dev ((c.setBuf i _).buf i).bno)
      rw [setBuf_self]
      intro hclean
      unfold Req.Ok at hok
      rw [not_not.mp hdone] at hok
      split at hok
      · rcases hok with herror | ⟨_, hagree⟩
        · rw [if_pos herror] at hclean
          cases hclean
        · exact hagree
      · exact hok.2.2.2.2
  · exact h.frame (setBuf_of_ne c _ hib) (if_neg hib) rfl

end Synced

/-! ## Runs -/

section Runs

variable {Tid : Type*} {s s' : Sys Tid} {c c' : Cache} {b : Nat}

/-- What an event stores in a buffer. -/
def Event.bytes (e : Event Tid) (b : Nat) : Option (Nat → Option (BitVec 8)) :=
  match e with
  | .call (.modify b' bytes) => if b' = b then some bytes else none
  | .call (.store b' bytes) => if b' = b then some bytes else none
  | _ => none

/-- Nothing is stored in a sector that the disk has been given, or in a buffer that is
being read; a pointer is stored in a buffer that is still dirty; no write fails. -/
def Careful (s : Sys Tid) : Event Tid → Prop
  | .call (.modify b bytes) => Unsent s.cache b bytes
  | .call (.store b bytes) => (s.cache.buf b).state = .dirty ∧ Unsent s.cache b bytes
  | .nextsect b false => ∀ r, s.cache.req b = some r → r.cmd = .read
  | _ => True

/-- A buffer that is clean and not locked has what is on the disk. -/
def Clean (s : Sys Tid) : Prop :=
  ∀ b ∈ s.cache.allq, (s.cache.buf b).locked = false → (s.cache.buf b).state = .clean →
    Agree SECTPERBLK (s.cache.buf b).data
      (s.cache.disk (s.cache.buf b).dev (s.cache.buf b).bno)

/-- What is in a dirty buffer, or is stored in a buffer, is in a dirty buffer for the
block afterwards, or has reached the disk. -/
def Saves (s : Sys Tid) (e : Event Tid) (s' : Sys Tid) : Prop :=
  ∀ b ∈ s.cache.allq, (s.cache.buf b).state = .dirty ∨ (e.bytes b).isSome = true →
    (s'.cache.buf b).dev = (s.cache.buf b).dev ∧ (s'.cache.buf b).bno = (s.cache.buf b).bno ∧
      ((s'.cache.buf b).state = .dirty ∧
          (s'.cache.buf b).data = stored ((e.bytes b).getD fun _ => none) (s.cache.buf b).data ∨
        e.bytes b = none ∧ Agree SECTPERBLK (s.cache.buf b).data
          (s'.cache.disk (s.cache.buf b).dev (s.cache.buf b).bno))

/-- The invariant. -/
structure Sys.DiskInv [Fintype Tid] (s : Sys Tid) : Prop where
  inv : s.Inv
  synced : ∀ b ∈ s.cache.allq, Synced s.cache b
  req : ∀ b, s.cache.req b ≠ none → b ∈ s.cache.allq

variable {e : Event Tid}

/-- What is not touched is saved. -/
theorem Saves.of_same (he : ∀ b, e.bytes b = none)
    (h : ∀ b ∈ s.cache.allq, (s.cache.buf b).state = .dirty →
      (s'.cache.buf b).state = .dirty ∧ (s'.cache.buf b).data = (s.cache.buf b).data)
    (hkey : Rekeys s.cache s'.cache) : Saves s e s' := by
  intro b hb hsaved
  rw [he b] at hsaved
  have hdirty := hsaved.resolve_right nofun
  obtain ⟨hdirty', hdata⟩ := h b hb hdirty
  rcases hkey b with hkey | hfree
  · refine ⟨hkey.1, hkey.2, .inl ⟨hdirty', ?_⟩⟩
    rw [he b, hdata]
    rfl
  · exact absurd hdirty hfree.2.2

theorem Moves.dirty (h : Moves c c') (hdirty : (c.buf b).state = .dirty) :
    (c'.buf b).state = .dirty ∧ (c'.buf b).data = (c.buf b).data := by
  cases h with
  | recount r q => exact ⟨hdirty, rfl⟩
  | rekey r i dev bno hlocked hclean =>
      have hib : b ≠ i := fun heq => hclean (heq ▸ hdirty)
      rw [rekey_of_ne (c.recount r c.freeq) dev bno hib]
      exact ⟨hdirty, rfl⟩
  | addreq rw i hheld hlocked =>
      unfold Cache.addreq
      split
      · exact ⟨hdirty, rfl⟩
      · show ((c.setBuf i _).buf b).state = _ ∧ ((c.setBuf i _).buf b).data = _
        by_cases hib : b = i
        · subst hib
          rw [setBuf_self]
          exact ⟨hdirty, rfl⟩
        · rw [setBuf_of_ne c _ hib]
          exact ⟨hdirty, rfl⟩

theorem Moves.req (h : Moves c c') (hreq : c'.req b ≠ none) :
    c.req b ≠ none ∨ (c.buf b).refcnt ≠ 0 := by
  cases h with
  | recount r q => exact .inl hreq
  | rekey r i dev bno hlocked hclean => exact .inl hreq
  | addreq rw i hheld hlocked =>
      unfold Cache.addreq at hreq
      split at hreq
      · exact .inl hreq
      · by_cases hib : b = i
        · exact .inr (hib ▸ hheld)
        · have hsame : (if b = i then some ⟨rw, 0, 0, fun _ => 0⟩ else c.req b) = c.req b :=
            if_neg hib
          exact .inl (hsame ▸ hreq)

variable [Fintype Tid]

theorem boot_diskInv (t : Tid) (nbuf : Nat) (data : Nat → Bdata) (disk : Nat → Int → Bdata)
    (blkdev : Nat → Bool) : (Sys.boot t nbuf data disk blkdev).DiskInv where
  inv := inv_boot t nbuf data disk blkdev
  synced := fun _ _ => ⟨rfl, nofun, nofun⟩
  req := fun _ hb => absurd rfl hb

/-- A step that only moves buffers about. -/
theorem Sys.DiskInv.moves (h : s.DiskInv) (hinv : s'.Inv)
    (hallq : s'.cache.allq = s.cache.allq) (hkey : Rekeys s.cache s'.cache)
    (hmoves : Moves s.cache s'.cache) (he : ∀ b, e.bytes b = none) : s'.DiskInv ∧ Saves s e s' := by
  refine ⟨⟨hinv, fun b hb => ?_, fun b hb => ?_⟩, ?_⟩
  · exact hmoves.synced (h.synced b (hallq ▸ hb))
  · rw [hallq]
    rcases hmoves.req hb with hreq | hheld
    · exact h.req b hreq
    · exact h.inv.cached.mem b fun hzero =>
        hheld ((h.inv.cached.refcnt_eq_zero_iff b).mpr hzero)
  · exact .of_same he (fun b _ => hmoves.dirty) hkey

/-- A step that stores bytes in a buffer, which is dirty then. -/
theorem Sys.DiskInv.stores {bytes : Nat → Option (BitVec 8)} {x : Buf}
    (h : s.DiskInv) (hinv : s'.Inv) (hunsent : Unsent s.cache b bytes)
    (hx : x = { s.cache.buf b with
      data := stored bytes (s.cache.buf b).data, state := .dirty })
    (hcache : s'.cache = s.cache.setBuf b x)
    (he : ∀ i, e.bytes i = if b = i then some bytes else none) : s'.DiskInv ∧ Saves s e s' := by
  refine ⟨⟨hinv, fun i hi => ?_, fun i hi => ?_⟩, fun i hi hsaved => ?_⟩
  · rw [hcache] at hi ⊢
    exact (h.synced i hi).stored hunsent hx
  · rw [hcache] at hi ⊢
    exact h.req i hi
  · rw [he i] at hsaved ⊢
    rw [hcache]
    by_cases hib : i = b
    · subst hib
      rw [setBuf_self, hx, if_pos rfl]
      exact ⟨rfl, rfl, .inl ⟨rfl, rfl⟩⟩
    · rw [if_neg fun heq => hib heq.symm] at hsaved ⊢
      rw [setBuf_of_ne _ _ hib]
      exact ⟨rfl, rfl, .inl ⟨hsaved.resolve_right nofun, rfl⟩⟩

omit [Fintype Tid] in
/-- What the disk does to a dirty buffer, none of whose sectors fails. -/
theorem send_saves (hsend : s.cache.send b = some c) : Saves s (.send b) { s with cache := c } := by
  have hs := send_spares hsend
  refine .of_same (fun _ => rfl) (fun i _ hdirty => ?_) hs.same.rekeys
  unfold Cache.send at hsend
  split at hsend
  · cases hsend
  split at hsend
  · cases hsend
    exact ⟨hdirty, rfl⟩
  · cases hsend

omit [Fintype Tid] in
theorem nextsect_saves {ok : Bool} (hnext : s.cache.nextsect b ok = some c)
    (hb : Synced s.cache b) (hfail : ∀ r, s.cache.req b = some r → ok = false → r.cmd = .read) :
    Saves s (.nextsect b ok) { s with cache := c } := by
  have hs := nextsect_spares hnext
  refine .of_same (fun _ => rfl) (fun i _ hdirty => ?_) hs.same.rekeys
  show (c.buf i).state = .dirty ∧ (c.buf i).data = (s.cache.buf i).data
  unfold Cache.nextsect at hnext
  split at hnext
  · cases hnext
  next r hreq =>
  obtain ⟨_, hok⟩ := hb.some hreq
  -- a buffer that is being read is not dirty
  have hread : r.cmd = .read → i ≠ b := by
    rintro hread rfl
    unfold Req.Ok at hok
    rw [hread] at hok
    rcases hok with herror | ⟨hinval, _⟩
    · rw [herror] at hdirty
      cases hdirty
    · rw [hinval] at hdirty
      cases hdirty
  split at hnext
  · cases hnext
  dsimp only at hnext
  split at hnext
  · next hok' =>
      cases hnext
      have hib := hread (hfail r hreq (by simpa using hok'))
      have hsame := setBuf_of_ne s.cache { s.cache.buf b with state := .error } hib
      exact ⟨(congrArg Buf.state hsame).trans hdirty, congrArg Buf.data hsame⟩
  split at hnext
  · next hcmd =>
      cases hnext
      have hsame := setBuf_of_ne s.cache { s.cache.buf b with
        data := Cache.sector r.done (s.cache.disk (s.cache.buf b).dev (s.cache.buf b).bno)
          (s.cache.buf b).data } (hread hcmd)
      exact ⟨(congrArg Buf.state hsame).trans hdirty, congrArg Buf.data hsame⟩
  split at hnext
  · cases hnext
  · cases hnext
    exact ⟨hdirty, rfl⟩

omit [Fintype Tid] in
theorem zapreq_saves (hzap : s.cache.zapreq b = some c) (hb : Synced s.cache b) :
    Saves s (.zapreq b) { s with cache := c } := by
  have hs := zapreq_spares hzap
  intro i hi hsaved
  have hdirty := hsaved.resolve_right nofun
  refine ⟨(hs.same.buf i).1, (hs.same.buf i).2.1, ?_⟩
  unfold Cache.zapreq at hzap
  split at hzap
  · cases hzap
  next r hreq =>
  split at hzap
  · cases hzap
  next hdone =>
  cases hzap
  by_cases hib : i = b
  · subst hib
    obtain ⟨_, hok⟩ := hb.some hreq
    unfold Req.Ok at hok
    rw [not_not.mp hdone] at hok
    right
    refine ⟨rfl, ?_⟩
    split at hok
    · rcases hok with herror | ⟨hinval, _⟩
      · rw [herror] at hdirty
        cases hdirty
      · rw [hinval] at hdirty
        cases hdirty
    · exact hok.2.2.2.2
  · left
    show ((s.cache.setBuf b _).buf i).state = _ ∧ ((s.cache.setBuf b _).buf i).data = _
    rw [setBuf_of_ne s.cache _ hib]
    exact ⟨hdirty, rfl⟩

/-- A step of the disk. -/
theorem Sys.DiskInv.spares (h : s.DiskInv) (hs : Spares s.cache c)
    (hsynced : ∀ i ∈ s.cache.allq, Synced c i) (hsaves : Saves s e { s with cache := c }) :
    ({ s with cache := c } : Sys Tid).DiskInv ∧ Saves s e { s with cache := c } := by
  refine ⟨⟨h.inv.spares hs, fun i hi => hsynced i (hs.same.allq ▸ hi), fun i hi => ?_⟩, hsaves⟩
  show i ∈ c.allq
  rw [hs.same.allq]
  exact h.req i (hs.req i hi)

omit [Fintype Tid] in
/-- A call that stores nothing only moves buffers about. -/
theorem Task.call_moves {x x' : Task} {op : Op} (hcall : x.call s.cache op = some (c, x'))
    (hop : ∀ b, (Event.call op : Event Tid).bytes b = none) : Moves s.cache c := by
  unfold Task.call at hcall
  cases op with
  | getb dev bno =>
      dsimp only at hcall
      split at hcall
      · cases hcall
      · cases hcall
        exact .refl _
  | readb dev bno =>
      dsimp only at hcall
      split at hcall
      · cases hcall
        exact .refl _
      split at hcall
      · cases hcall
      · cases hcall
        exact .refl _
  | lose b =>
      dsimp only at hcall
      split at hcall
      · obtain ⟨c₁, hlose, heq⟩ := map_eq_some_iff.mp hcall
        cases heq
        exact .lose hlose
      · cases hcall
  | syncb dev =>
      cases hcall
      exact .refl _
  | llrwab rw bs wait =>
      dsimp only at hcall
      split at hcall
      · cases hcall
        exact .refl _
      · cases hcall
  | modify b bytes => exact nomatch (hop b).symm.trans (if_pos rfl)
  | store b bytes => exact nomatch (hop b).symm.trans (if_pos rfl)

variable [DecidableEq Tid]

theorem Sys.DiskInv.step (h : s.DiskInv) (hok : Careful s e)
    (hstep : s.step e = some s') : s'.DiskInv ∧ Saves s e s' := by
  obtain ⟨hinv, hallq, hkey⟩ := h.inv.step hstep
  unfold Sys.step at hstep
  cases e with
  | sched t =>
      dsimp only at hstep
      split at hstep
      · cases hstep
        exact h.moves hinv hallq hkey (.refl _) fun _ => rfl
      · cases hstep
  | go =>
      obtain ⟨⟨c, x⟩, hgo, rfl⟩ := map_eq_some_iff.mp hstep
      exact h.moves hinv hallq hkey (Task.go_moves hgo) fun _ => rfl
  | call op =>
      dsimp only at hstep
      split at hstep
      · obtain ⟨⟨c, x⟩, hcall, rfl⟩ := map_eq_some_iff.mp hstep
        cases op with
        | modify b bytes =>
            dsimp only [Task.call] at hcall
            split at hcall
            · cases hcall
              exact h.stores hinv hok rfl (setState_store s.cache b bytes .dirty) fun _ => rfl
            · cases hcall
        | store b bytes =>
            dsimp only [Task.call] at hcall
            split at hcall
            · cases hcall
              refine h.stores hinv hok.2 ?_ rfl fun _ => rfl
              exact congrArg (fun state => { s.cache.buf b with
                data := stored bytes (s.cache.buf b).data, state := state }) hok.1
            · cases hcall
        | _ => exact h.moves hinv hallq hkey (Task.call_moves hcall fun _ => rfl) fun _ => rfl
      · cases hstep
  | send b =>
      obtain ⟨c, hsend, rfl⟩ := map_eq_some_iff.mp hstep
      exact h.spares (send_spares hsend) (fun i hi => send_synced hsend (h.synced i hi))
        (send_saves hsend)
  | nextsect b ok =>
      obtain ⟨c, hnext, rfl⟩ := map_eq_some_iff.mp hstep
      have hb := h.req b (nextsect_req hnext)
      have hfail : ∀ r, s.cache.req b = some r → ok = false → r.cmd = .read := by
        rintro r hreq rfl
        exact hok r hreq
      refine h.spares (nextsect_spares hnext) (fun i hi => ?_)
        (nextsect_saves hnext (h.synced b hb) hfail)
      refine nextsect_synced hnext hfail (fun hne hkey => ?_) (h.synced b hb) (h.synced i hi)
      exact hne (h.inv.cached.keys i hi b hb hkey.1 hkey.2)
  | zapreq b =>
      obtain ⟨c, hzap, rfl⟩ := map_eq_some_iff.mp hstep
      exact h.spares (zapreq_spares hzap) (fun i hi => zapreq_synced hzap (h.synced i hi))
        (zapreq_saves hzap (h.synced b (h.req b (zapreq_req hzap))))

/-- In a run whose stores and writes meet the condition, a buffer that is clean and not
locked has what is on the disk, and what is stored in a buffer is not lost. -/
theorem run_saved (t : Tid) (nbuf : Nat) (data : Nat → Bdata) (disk : Nat → Int → Bdata)
    (blkdev : Nat → Bool) (events : List (Event Tid))
    (hok : Each Sys.step Careful (Sys.boot t nbuf data disk blkdev) events) :
    Always Sys.step Clean (Sys.boot t nbuf data disk blkdev) events ∧
      Each Sys.step (fun s e => ∀ s', s.step e = some s' → Saves s e s')
        (Sys.boot t nbuf data disk blkdev) events := by
  have hinv : Always Sys.step Sys.DiskInv (Sys.boot t nbuf data disk blkdev) events :=
    always_of_each (fun s e s' h hok hstep => (h.step hok hstep).1)
      (boot_diskInv t nbuf data disk blkdev) hok
  refine ⟨hinv.mono fun s h b hb => (h.synced b hb).clean, ?_⟩
  exact Each.of_always (fun s e h hok s' hstep => (h.step hok hstep).2) hinv hok

end Runs

/-! ## A store in a sector that the disk has been given -/

/-- One byte. -/
def poke (o : Nat) (v : BitVec 8) : Nat → Option (BitVec 8) := fun i => if i = o then some v else none

/-- A task gets a buffer, stores a byte and starts to write it; when the disk has been
given the first sector, the byte at `o` is stored. -/
def midwrite (o : Nat) : List (Event Unit) :=
  [.call (.getb 0x301 5), .go, .go, .go, .call (.modify 0 (poke 0 1)),
    .call (.llrwab .write [0] false), .go, .go, .go, .send 0, .call (.modify 0 (poke o 2)),
    .send 0, .nextsect 0 true, .nextsect 0 true, .zapreq 0]

def zeros : Bdata := fun _ => 0

/-- The byte is in the second sector. -/
theorem run_saved_midwrite :
    Always Sys.step Clean (Sys.boot () 128 (fun _ => zeros) (fun _ _ => zeros) fun _ => true)
        (midwrite 600) ∧
      Each Sys.step (fun s e => ∀ s', s.step e = some s' → Saves s e s')
        (Sys.boot () 128 (fun _ => zeros) (fun _ _ => zeros) fun _ => true) (midwrite 600) := by
  apply run_saved
  have hlater : ∀ o, poke 600 2 o ≠ none → 1 ≤ o / SECTSIZE := by
    intro o ho
    have heq : o = 600 := by
      by_contra hne
      exact ho (if_neg hne)
    subst heq
    decide
  iterate 4
    refine ⟨trivial, fun _ h => ?_⟩
    cases h
  refine ⟨fun r hr => (nomatch hr), fun _ h => ?_⟩
  cases h
  iterate 5
    refine ⟨trivial, fun _ h => ?_⟩
    cases h
  refine ⟨fun r hr => ?_, fun _ h => ?_⟩
  · cases hr
    exact ⟨rfl, hlater⟩
  cases h
  iterate 4
    refine ⟨trivial, fun _ h => ?_⟩
    cases h
  trivial

/-- The byte is in the first sector, and is in a clean buffer at the end. -/
theorem midwrite_loses : ¬ ∀ (nbuf : Nat) (data : Nat → Bdata) (disk : Nat → Int → Bdata)
    (blkdev : Nat → Bool) (events : List (Event Unit)),
    Always Sys.step Clean (Sys.boot () nbuf data disk blkdev) events := by
  intro hall
  have hrun := hall 128 (fun _ => zeros) (fun _ _ => zeros) (fun _ => true) (midwrite 0)
  have hclean := (always_iff_exec _ _).mp hrun (midwrite 0) [] _ (List.append_nil _).symm rfl
  have hagree := hclean 0 (by decide) rfl rfl 0 (by decide)
  exact absurd hagree (by decide)

end Unixlite.Bcache
