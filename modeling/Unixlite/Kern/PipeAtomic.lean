import Unixlite.Kern.Pipe

/-!
# Writes of at most `PIPEBUF` bytes

`pipe_t::write` fills what room there is and sleeps with the rest in its hand,
however few bytes it was asked for.  Another writer that runs before the sleeper
puts its bytes behind the first part.

Each byte in the stream carries here, as history, the call that has written it.
`atomic_iff` says that the bytes of small writes stay together exactly in the
runs in which no call puts bytes into the pipe while a small write sleeps with
part of its own in it.
-/

namespace Unixlite.Kern.Pipe

open Unixlite.Verified.Run Unixlite.Lib
open Machine (goto pipe wait write)
open List Option

/-! ## Elements that stand together -/

section Together

variable {α : Type*} {a b : α} {l : List α}

/-- All places of `a` in the list are next to each other. -/
def Together (a : α) (l : List α) : Prop :=
  ∃ pre n post, l = pre ++ List.replicate n a ++ post ∧ a ∉ pre ∧ a ∉ post

/-- `a` stands at the end of the list, and nowhere else. -/
def AtEnd (a : α) (l : List α) : Prop := ∃ pre n, l = pre ++ List.replicate n a ∧ a ∉ pre

theorem AtEnd.together (h : AtEnd a l) : Together a l := by
  obtain ⟨pre, n, rfl, hpre⟩ := h
  exact ⟨pre, n, [], by simp, hpre, by simp⟩

theorem atEnd_of_not_mem (h : a ∉ l) : AtEnd a l := ⟨l, 0, by simp, h⟩

theorem AtEnd.append (h : AtEnd a l) (k : Nat) : AtEnd a (l ++ List.replicate k a) := by
  obtain ⟨pre, n, rfl, hpre⟩ := h
  exact ⟨pre, n + k, by rw [append_assoc, replicate_append_replicate], hpre⟩

/-- Other elements at the end do not part the places of `a`. -/
theorem Together.append (h : Together a l) (hab : a ≠ b) (k : Nat) :
    Together a (l ++ List.replicate k b) := by
  obtain ⟨pre, n, post, rfl, hpre, hpost⟩ := h
  refine ⟨pre, n, post ++ List.replicate k b, by simp, hpre, ?_⟩
  simp only [mem_append, mem_replicate, not_or, not_and]
  exact ⟨hpost, fun _ => hab⟩

/-- An element behind the places of `a`: they are not at the end. -/
theorem not_atEnd_append (ha : a ∈ l) (hab : a ≠ b) {k : Nat} (hk : k ≠ 0) :
    ¬ AtEnd a (l ++ List.replicate k b) := by
  rintro ⟨pre, n, heq, hpre⟩
  obtain ⟨j, rfl⟩ := Nat.exists_eq_succ_of_ne_zero hk
  cases n with
  | zero =>
      rw [replicate_zero, append_nil] at heq
      exact hpre (heq ▸ mem_append_left _ ha)
  | succ n =>
      have hlast := congrArg List.getLast? heq
      rw [replicate_succ', replicate_succ', ← append_assoc, ← append_assoc,
        List.getLast?_concat, List.getLast?_concat] at hlast
      exact hab (some.inj hlast).symm

/-- Another element between two places of `a`. -/
theorem not_together {i j k : Nat} (hij : i < j) (hjk : j < k) (hi : l[i]? = some a)
    (hj : l[j]? = some b) (hk : l[k]? = some a) (hab : a ≠ b) : ¬ Together a l := by
  rintro ⟨pre, n, post, rfl, hpre, hpost⟩
  rw [append_assoc] at hi hj hk
  have hlo : pre.length ≤ i := by
    by_contra hlt
    rw [List.getElem?_append_left (by omega)] at hi
    exact hpre (mem_of_getElem? hi)
  have hhi : k - pre.length < n := by
    by_contra hge
    rw [List.getElem?_append_right (by omega),
      List.getElem?_append_right (by rw [length_replicate]; omega)] at hk
    exact hpost (mem_of_getElem? hk)
  rw [List.getElem?_append_right (by omega),
    List.getElem?_append_left (by rw [length_replicate]; omega),
    List.getElem?_replicate, if_pos (by omega)] at hj
  exact hab (some.inj hj)

end Together

/-! ## One write -/

/-- **What a round of `write` does**, from the test of its loop to the next sleep or
its return: `k` bytes of the buffer go into the pipe. -/
structure Wrote (m m' : Machine) (tid : Nat) (obuf buf : List Byte) (k : Nat) : Prop where
  le : k ≤ buf.length
  accepted : m'.accepted = m.accepted ++ buf.take k
  other : ∀ u, u ≠ tid → m'.frame u = m.frame u
  self : m'.frame tid = .out ∨ m'.frame tid = .write (obuf ++ buf.take k) (buf.drop k)

variable {tid : Nat} {buf obuf : List Byte}

theorem wrote_wait {m : Machine} {r : Ret} :
    Wrote m (m.wait tid (.write obuf buf) r) tid obuf buf 0 := by
  unfold wait
  split
  · exact ⟨Nat.zero_le _, by simp [Machine.leave, goto], fun u hu => if_neg hu,
      .inl (if_pos rfl)⟩
  · exact ⟨Nat.zero_le _, by simp [Machine.setTask, goto], fun u hu => if_neg hu,
      .inr (by simp [goto])⟩

theorem wrote_leave {m m₁ : Machine} {r : Ret}
    (haccepted : m₁.accepted = m.accepted) (hframe : m₁.frame = m.frame) :
    Wrote m (m₁.leave tid r) tid obuf buf 0 where
  le := Nat.zero_le _
  accepted := by
    rw [take_zero, append_nil]
    exact haccepted
  other := by
    intro u hu
    rw [← hframe]
    exact if_neg hu
  self := .inl (if_pos rfl)

/-- What `putc` has taken and what the rest of the loop puts. -/
theorem Wrote.after_putc {m m' : Machine} {fifo : Fifoq} {n k : Nat} (hn : n ≤ buf.length)
    (h : Wrote ({ m with fifo := fifo, accepted := m.accepted ++ buf.take n } : Machine).broadcast
      m' tid (obuf ++ buf.take n) (buf.drop n) k) : Wrote m m' tid obuf buf (n + k) where
  le := by
    have := h.le
    rw [length_drop] at this
    omega
  accepted := by
    rw [h.accepted]
    show m.accepted ++ buf.take n ++ (buf.drop n).take k = _
    rw [append_assoc, ← take_add]
  other := h.other
  self := by
    have hself := h.self
    rwa [append_assoc, ← take_add, drop_drop] at hself

/-- The call writes nothing exactly when it has nothing to write, nobody reads, or
the pipe is full. -/
theorem write_spec {fuel : Nat} {m m' : Machine} (h : Inv m)
    (hm : write fuel m tid obuf buf = some m') :
    ∃ k, Wrote m m' tid obuf buf k ∧
      (k = 0 ↔ buf = [] ∨ m.nreader = 0 ∨ m.fifo.full = true) := by
  induction fuel generalizing m obuf buf with
  | zero =>
      unfold write at hm
      split at hm
      · next hdone =>
        cases hm
        exact ⟨0, wrote_leave rfl rfl, by simp [length_eq_zero_iff.mp hdone]⟩
      split at hm
      · next hnreader =>
        cases hm
        exact ⟨0, wrote_leave rfl rfl, by simp [hnreader]⟩
      split at hm
      · next hfull =>
        cases hm
        exact ⟨0, wrote_wait, by simp [hfull]⟩
      · cases hm
  | succ fuel ih =>
      unfold write at hm
      split at hm
      · next hdone =>
        cases hm
        exact ⟨0, wrote_leave rfl rfl, by simp [length_eq_zero_iff.mp hdone]⟩
      next hdone =>
      split at hm
      · next hnreader =>
        cases hm
        exact ⟨0, wrote_leave rfl rfl, by simp [hnreader]⟩
      next hnreader =>
      split at hm
      · next hfull =>
        cases hm
        exact ⟨0, wrote_wait, by simp [hfull]⟩
      next hfull =>
      obtain ⟨n, fifo, hn, hputc, hinv⟩ := h.putc buf
      simp only [hputc, bind_eq_bind, bind_some] at hm
      obtain ⟨k, hwrote, -⟩ := ih hinv.broadcast hm
      have hle := h.ok.nbyte_le
      have hroom := hfull
      rw [Fifoq.full_iff h.ok] at hroom
      have hbuf : buf ≠ [] := fun hnil => hdone (by rw [hnil]; rfl)
      refine ⟨n + k, hwrote.after_putc (by omega), ?_⟩
      constructor
      · intro hzero
        omega
      · rintro (hnil | hnone | hfull')
        · exact absurd hnil hbuf
        · exact absurd hnone hnreader
        · exact absurd hfull' hfull

/-! ## Events that run `write` -/

/-- The task that the event lets run in `write`, what it has written and what is
left. -/
def writes (m : Machine) : Event → Option (Nat × List Byte × List Byte)
  | .write tid count buf ver =>
      if m.frame tid = .out ∧ (m.tasks tid).state = .run ∧ buf.length = count.toNat ∧
          verify count ver = 0 then
        some (tid, [], buf)
      else none
  | .resume tid =>
      match m.frame tid with
      | .write obuf buf =>
          if (m.tasks tid).state = .run ∧ (m.tasks tid).hassig = false then some (tid, obuf, buf)
          else none
      | _ => none
  | _ => none

section Go

variable {m m' : Machine} {e : Event} {tid : Nat} {obuf buf : List Byte}

theorem go_writes (h : writes m e = some (tid, obuf, buf)) :
    go m e = write buf.length m tid obuf buf := by
  cases e with
  | write t count b ver =>
      simp only [writes] at h
      split at h
      · next hw =>
        cases h
        obtain ⟨hframe, hstate, hlen, hver⟩ := hw
        simp [go, hframe, hstate, hlen, hver]
      · cases h
  | resume t =>
      simp only [writes] at h
      split at h
      · next ob b hframe =>
        split at h
        · next hw =>
          cases h
          simp [go, hframe, hw.1, hw.2]
        · cases h
      · cases h
  | _ => cases h

/-- No task gets to the wait of `write` from elsewhere. -/
def NoNewWriter (m m' : Machine) : Prop :=
  ∀ u obuf buf, m'.frame u = .write obuf buf → m.frame u = .write obuf buf

theorem noNewWriter_goto {m₁ : Machine} {f : Frame} (hframe : m₁.frame = m.frame)
    (hf : ∀ obuf buf, f ≠ .write obuf buf) : NoNewWriter m (m₁.goto tid f) := by
  intro u obuf buf hu
  by_cases h : u = tid
  · simp only [goto, h, if_true] at hu
    exact absurd hu (hf obuf buf)
  · simp only [goto, h, if_false, hframe] at hu
    exact hu

theorem noNewWriter_read {count : Int} (hm : m.read tid count = some m') :
    NoNewWriter m m' ∧ m'.accepted = m.accepted := by
  have hleave : ∀ (m₁ : Machine) r, m₁.frame = m.frame → m₁.accepted = m.accepted →
      NoNewWriter m (m₁.leave tid r) ∧ (m₁.leave tid r).accepted = m.accepted :=
    fun m₁ r hframe hacc => ⟨noNewWriter_goto hframe (by simp), hacc⟩
  unfold Machine.read at hm
  split at hm
  · split at hm
    · cases hm
      exact hleave m _ rfl rfl
    · cases hm
      unfold wait
      split
      · exact hleave m _ rfl rfl
      · exact ⟨noNewWriter_goto rfl (by simp), rfl⟩
  · obtain ⟨⟨bytes, fifo⟩, -, hm⟩ := bind_eq_some_iff.mp hm
    cases hm
    exact hleave _ _ rfl rfl

theorem noNewWriter_lose (hm : m.rlose = some m' ∨ m.wlose = some m') :
    NoNewWriter m m' ∧ m'.accepted = m.accepted := by
  unfold Machine.rlose Machine.wlose at hm
  dsimp only at hm
  rcases hm with hm | hm
  all_goals
    split_ifs at hm
    all_goals
      cases hm
      exact ⟨fun _ _ _ hu => hu, rfl⟩

/-- An event that does not run `write` leaves the stream and the writers alone. -/
theorem go_quiet (hw : writes m e = none) (hm : go m e = some m') :
    NoNewWriter m m' ∧ m'.accepted = m.accepted := by
  cases e with
  | read t count ver =>
      simp only [go] at hm
      split at hm
      · cases hm
      split at hm
      · cases hm
        exact ⟨noNewWriter_goto rfl (by simp), rfl⟩
      · exact noNewWriter_read hm
  | write t count b ver =>
      simp only [go] at hm
      split at hm
      · cases hm
      next hout =>
      split at hm
      · cases hm
        exact ⟨noNewWriter_goto rfl (by simp), rfl⟩
      · next hver =>
        simp only [not_or, not_not] at hout hver
        simp [writes, hout.1, hout.2.1, hout.2.2, hver] at hw
  | resume t =>
      simp only [go] at hm
      split at hm
      · cases hm
      next hstate =>
      split at hm
      · cases hm
      · split at hm
        · cases hm
          exact ⟨noNewWriter_goto rfl (by simp), rfl⟩
        · exact noNewWriter_read hm
      · next ob b hframe =>
        split at hm
        · cases hm
          exact ⟨noNewWriter_goto rfl (by simp), rfl⟩
        · next hsig =>
          simp [writes, hframe, hstate, hsig] at hw
  | rhold | whold | post | wakeup =>
      cases hm
      exact ⟨fun _ _ _ hu => hu, rfl⟩
  | rlose => exact noNewWriter_lose (.inl hm)
  | wlose => exact noNewWriter_lose (.inr hm)
  | other t x =>
      simp only [go] at hm
      split at hm
      · cases hm
        exact ⟨fun _ _ _ hu => hu, rfl⟩
      · cases hm

/-- A task that calls `write` is not in the pipe. -/
theorem go_write_out {t : Nat} {count : Int} {b : List Byte} {ver : Bool}
    (hm : go m (.write t count b ver) = some m') : m.frame t = .out := by
  simp only [go] at hm
  split at hm
  · cases hm
  · next hout =>
    simp only [not_or, not_not] at hout
    exact hout.1

end Go

/-! ## The calls behind the bytes -/

/-- `PIPEBUF` of `lib/limits.h`. -/
def PIPEBUF : Nat := 4096

/-- A call of `write`, and its `count`. -/
structure Call where
  id : Nat
  count : Nat
deriving DecidableEq

/-- The history of the pipe: the call behind each byte of the stream, and the last
call of each task. -/
structure Log where
  owner : List Call
  call : Nat → Call
  ncall : Nat

def Log.start : Log := ⟨[], fun _ => ⟨0, 0⟩, 0⟩

/-- The bytes that a step has added to the stream. -/
def added (m m' : Machine) : Nat := m'.accepted.length - m.accepted.length

/-- What an event adds to the history. -/
def log (m : Machine) (e : Event) (m' : Machine) (g : Log) : Log :=
  match e with
  | .write tid _ buf _ =>
      let c : Call := ⟨g.ncall, buf.length⟩
      { owner := g.owner ++ List.replicate (added m m') c
        call := fun u => if u = tid then c else g.call u
        ncall := g.ncall + 1 }
  | .resume tid => { g with owner := g.owner ++ List.replicate (added m m') (g.call tid) }
  | _ => g

/-- The bytes of small calls stand together in the stream, and those of one that is
not over stand at its end, where the others can follow. -/
structure Whole (x : Machine × Log) : Prop where
  together : ∀ c : Call, c.count ≤ PIPEBUF → Together c x.2.owner
  atEnd : ∀ u obuf buf, x.1.frame u = .write obuf buf → (x.2.call u).count ≤ PIPEBUF →
    AtEnd (x.2.call u) x.2.owner

/-- No call puts bytes into the pipe while a small call of another task sleeps with
part of its own in it. -/
def Undivided (m : Machine) (e : Event) : Prop :=
  ∀ tid obuf buf, m.alive = true → writes m e = some (tid, obuf, buf) →
    buf ≠ [] ∧ m.nreader ≠ 0 ∧ m.fifo.full = false →
      ∀ u obuf' buf', u ≠ tid → m.frame u = .write obuf' buf' → obuf' ≠ [] →
        PIPEBUF < obuf'.length + buf'.length

/-- What the history has of the calls that are not over. -/
structure Known (x : Machine × Log) : Prop where
  inv : Inv x.1
  length : x.2.owner.length = x.1.accepted.length
  owner_lt : ∀ c ∈ x.2.owner, c.id < x.2.ncall
  call_lt : ∀ u obuf buf, x.1.frame u = .write obuf buf → (x.2.call u).id < x.2.ncall
  count : ∀ u obuf buf, x.1.frame u = .write obuf buf →
    (x.2.call u).count = obuf.length + buf.length
  started : ∀ u obuf buf, x.1.frame u = .write obuf buf → (obuf ≠ [] ↔ x.2.call u ∈ x.2.owner)
  distinct : ∀ u obuf buf v obuf' buf', x.1.frame u = .write obuf buf →
    x.1.frame v = .write obuf' buf' → x.2.call u = x.2.call v → u = v

/-- The call of the task that an event lets run in `write`, and what the history
gets from it. -/
structure Turn (x : Machine × Log) (tid : Nat) (obuf buf : List Byte) (c : Call) (g' : Log)
    (k : Nat) : Prop where
  owner : g'.owner = x.2.owner ++ List.replicate k c
  self : g'.call tid = c
  other : ∀ u, u ≠ tid → g'.call u = x.2.call u
  ncall : x.2.ncall ≤ g'.ncall
  lt : c.id < g'.ncall
  count : c.count = obuf.length + buf.length
  started : obuf ≠ [] ↔ c ∈ x.2.owner
  fresh : ∀ u ob b, u ≠ tid → x.1.frame u = .write ob b → x.2.call u ≠ c
  atEnd : Whole x → c.count ≤ PIPEBUF → AtEnd c x.2.owner

theorem Known.turn {x : Machine × Log} (h : Known x) {e : Event} {tid : Nat}
    {obuf buf : List Byte} (hw : writes x.1 e = some (tid, obuf, buf)) (m' : Machine) :
    ∃ c, Turn x tid obuf buf c (log x.1 e m' x.2) (added x.1 m') := by
  cases e with
  | write t count b ver =>
      simp only [writes] at hw
      split at hw
      · cases hw
        -- the number of a new call is that of no other
        have hnot : (⟨x.2.ncall, buf.length⟩ : Call) ∉ x.2.owner := fun hmem =>
          Nat.lt_irrefl _ (h.owner_lt _ hmem)
        refine ⟨⟨x.2.ncall, buf.length⟩, rfl, if_pos rfl, fun u hu => if_neg hu, Nat.le_succ _,
          Nat.lt_succ_self _, by simp, by simp [hnot], ?_, fun _ _ => atEnd_of_not_mem hnot⟩
        intro u ob b _ hframe heq
        have := h.call_lt u ob b hframe
        rw [heq] at this
        exact Nat.lt_irrefl _ this
      · cases hw
  | resume t =>
      simp only [writes] at hw
      split at hw
      · next ob b hframe =>
        split at hw
        · cases hw
          refine ⟨x.2.call tid, rfl, rfl, fun _ _ => rfl, Nat.le_refl _, h.call_lt _ _ _ hframe,
            h.count _ _ _ hframe, h.started _ _ _ hframe, ?_,
            fun hwhole hsmall => hwhole.atEnd _ _ _ hframe hsmall⟩
          intro u ob b hu hframe' heq
          exact hu (h.distinct _ _ _ _ _ _ hframe' hframe heq)
        · cases hw
      · cases hw
  | _ => cases hw

section Step

variable {x : Machine × Log} {m' : Machine} {e : Event}

/-- An event that does not run `write` leaves the history of the writers alone. -/
theorem log_quiet (hnew : NoNewWriter x.1 m') (hacc : m'.accepted = x.1.accepted)
    (hout : ∀ t count b ver, e = .write t count b ver → x.1.frame t = .out) :
    (log x.1 e m' x.2).owner = x.2.owner ∧ x.2.ncall ≤ (log x.1 e m' x.2).ncall ∧
      ∀ u obuf buf, m'.frame u = .write obuf buf → (log x.1 e m' x.2).call u = x.2.call u := by
  have hadded : added x.1 m' = 0 := by simp [added, hacc]
  cases e with
  | write t count b ver =>
      refine ⟨by simp [log, hadded], Nat.le_succ _, fun u obuf buf hu => ?_⟩
      have hne : u ≠ t := by
        rintro rfl
        have hold := hnew u obuf buf hu
        rw [hout u count b ver rfl] at hold
        cases hold
      exact if_neg hne
  | resume t => exact ⟨by simp [log, hadded], Nat.le_refl _, fun _ _ _ _ => rfl⟩
  | _ => exact ⟨rfl, Nat.le_refl _, fun _ _ _ _ => rfl⟩

/-- What is known after such an event. -/
theorem Known.of_quiet (h : Known x) (hinv : Inv m') {g : Log} (hnew : NoNewWriter x.1 m')
    (hacc : m'.accepted = x.1.accepted) (howner : g.owner = x.2.owner) (hncall : x.2.ncall ≤ g.ncall)
    (hcall : ∀ u obuf buf, m'.frame u = .write obuf buf → g.call u = x.2.call u) :
    Known (m', g) where
  inv := hinv
  length := by
    show g.owner.length = m'.accepted.length
    rw [howner, hacc]
    exact h.length
  owner_lt := by
    intro c hc
    rw [howner] at hc
    exact Nat.lt_of_lt_of_le (h.owner_lt c hc) hncall
  call_lt := by
    intro u obuf buf hu
    show (g.call u).id < g.ncall
    rw [hcall u obuf buf hu]
    exact Nat.lt_of_lt_of_le (h.call_lt u obuf buf (hnew u obuf buf hu)) hncall
  count := by
    intro u obuf buf hu
    show (g.call u).count = _
    rw [hcall u obuf buf hu]
    exact h.count u obuf buf (hnew u obuf buf hu)
  started := by
    intro u obuf buf hu
    show _ ↔ g.call u ∈ g.owner
    rw [hcall u obuf buf hu, howner]
    exact h.started u obuf buf (hnew u obuf buf hu)
  distinct := by
    intro u obuf buf v obuf' buf' hu hv heq
    rw [hcall u obuf buf hu, hcall v obuf' buf' hv] at heq
    exact h.distinct u obuf buf v obuf' buf' (hnew _ _ _ hu) (hnew _ _ _ hv) heq

theorem Whole.of_quiet (h : Whole x) {g : Log} (hnew : NoNewWriter x.1 m')
    (howner : g.owner = x.2.owner)
    (hcall : ∀ u obuf buf, m'.frame u = .write obuf buf → g.call u = x.2.call u) :
    Whole (m', g) where
  together := by
    intro c hc
    show Together c g.owner
    rw [howner]
    exact h.together c hc
  atEnd := by
    intro u obuf buf hu hsmall
    show AtEnd (g.call u) g.owner
    rw [hcall u obuf buf hu] at hsmall ⊢
    rw [howner]
    exact h.atEnd u obuf buf (hnew u obuf buf hu) hsmall

variable {tid k : Nat} {obuf buf : List Byte} {c : Call} {g' : Log}

/-- What is known after a call has put `k` bytes. -/
theorem Known.of_wrote (h : Known x) (hinv : Inv m') (ht : Turn x tid obuf buf c g' k)
    (hwrote : Wrote x.1 m' tid obuf buf k) : Known (m', g') := by
  have hself : ∀ ob b, m'.frame tid = .write ob b →
      ob = obuf ++ buf.take k ∧ b = buf.drop k := by
    intro ob b hframe
    rcases hwrote.self with hout | hwrite
    · rw [hout] at hframe
      cases hframe
    · rw [hwrite] at hframe
      cases hframe
      exact ⟨rfl, rfl⟩
  have hother : ∀ u ob b, u ≠ tid → m'.frame u = .write ob b → x.1.frame u = .write ob b := by
    intro u ob b hu hframe
    rwa [hwrote.other u hu] at hframe
  refine ⟨hinv, ?_, ?_, ?_, ?_, ?_, ?_⟩
  · show g'.owner.length = m'.accepted.length
    have hle := hwrote.le
    rw [ht.owner, hwrote.accepted, length_append, length_append, length_replicate,
      length_take, h.length]
    omega
  · intro d hd
    rw [ht.owner, mem_append, mem_replicate] at hd
    rcases hd with hd | ⟨-, rfl⟩
    · exact Nat.lt_of_lt_of_le (h.owner_lt d hd) ht.ncall
    · exact ht.lt
  · intro u ob b hframe
    show (g'.call u).id < g'.ncall
    by_cases hu : u = tid
    · rw [hu, ht.self]
      exact ht.lt
    · rw [ht.other u hu]
      exact Nat.lt_of_lt_of_le (h.call_lt u ob b (hother u ob b hu hframe)) ht.ncall
  · intro u ob b hframe
    show (g'.call u).count = _
    by_cases hu : u = tid
    · subst hu
      obtain ⟨rfl, rfl⟩ := hself ob b hframe
      rw [ht.self, ht.count, length_append, length_take, length_drop]
      omega
    · rw [ht.other u hu]
      exact h.count u ob b (hother u ob b hu hframe)
  · intro u ob b hframe
    show _ ↔ g'.call u ∈ g'.owner
    by_cases hu : u = tid
    · subst hu
      obtain ⟨rfl, rfl⟩ := hself ob b hframe
      have hle := hwrote.le
      have htake : buf.take k = [] ↔ k = 0 := by
        rw [← length_eq_zero_iff, length_take]
        omega
      rw [ht.self, ht.owner, mem_append, mem_replicate, ← ht.started, Ne,
        append_eq_nil_iff, htake]
      tauto
    · rw [ht.other u hu, ht.owner, mem_append, mem_replicate,
        h.started u ob b (hother u ob b hu hframe)]
      have := ht.fresh u ob b hu (hother u ob b hu hframe)
      tauto
  · intro u ob b v ob' b' hu hv heq
    by_cases hut : u = tid <;> by_cases hvt : v = tid
    · rw [hut, hvt]
    · rw [hut, ht.self, ht.other v hvt] at heq
      exact absurd heq.symm (ht.fresh v ob' b' hvt (hother v ob' b' hvt hv))
    · rw [hvt, ht.self, ht.other u hut] at heq
      exact absurd heq (ht.fresh u ob b hut (hother u ob b hut hu))
    · rw [ht.other u hut, ht.other v hvt] at heq
      exact h.distinct u ob b v ob' b' (hother u ob b hut hu) (hother v ob' b' hvt hv) heq

/-- A call that finds no small call half done leaves the small calls whole. -/
theorem Whole.of_wrote (h : Known x) (hw : Whole x) (ht : Turn x tid obuf buf c g' k)
    (hwrote : Wrote x.1 m' tid obuf buf k)
    (hok : k ≠ 0 → ∀ u ob b, u ≠ tid → x.1.frame u = .write ob b → ob ≠ [] →
      PIPEBUF < ob.length + b.length) : Whole (m', g') where
  together := by
    intro d hd
    show Together d g'.owner
    rw [ht.owner]
    by_cases hdc : d = c
    · subst hdc
      exact ((ht.atEnd hw hd).append k).together
    · exact (hw.together d hd).append hdc k
  atEnd := by
    intro u ob b hframe hsmall
    show AtEnd (g'.call u) g'.owner
    rw [ht.owner]
    by_cases hu : u = tid
    · rw [hu, ht.self] at hsmall ⊢
      exact (ht.atEnd hw hsmall).append k
    · rw [ht.other u hu] at hsmall ⊢
      rw [hwrote.other u hu] at hframe
      by_cases hk : k = 0
      · rw [hk, replicate_zero, append_nil]
        exact hw.atEnd u ob b hframe hsmall
      · -- a small call that sleeps has no byte in the pipe
        refine atEnd_of_not_mem fun hmem => ?_
        rw [mem_append, mem_replicate] at hmem
        rcases hmem with hmem | ⟨-, heq⟩
        · have hlarge := hok hk u ob b hu hframe ((h.started u ob b hframe).mpr hmem)
          rw [← h.count u ob b hframe] at hlarge
          omega
        · exact ht.fresh u ob b hu hframe heq

/-- A call that puts bytes behind those of a small one that is not over. -/
theorem not_whole_of_wrote (h : Known x) (ht : Turn x tid obuf buf c g' k)
    (hwrote : Wrote x.1 m' tid obuf buf k) (hk : k ≠ 0) {u : Nat} {ob b : List Byte}
    (hu : u ≠ tid) (hframe : x.1.frame u = .write ob b) (hob : ob ≠ [])
    (hsmall : ob.length + b.length ≤ PIPEBUF) : ¬ Whole (m', g') := by
  intro hw
  have hframe' : m'.frame u = .write ob b := by rw [hwrote.other u hu, hframe]
  have hcount : (g'.call u).count ≤ PIPEBUF := by
    rw [ht.other u hu, h.count u ob b hframe]
    exact hsmall
  have hend : AtEnd (g'.call u) g'.owner := hw.atEnd u ob b hframe' hcount
  rw [ht.other u hu, ht.owner] at hend
  exact not_atEnd_append ((h.started u ob b hframe).mp hob) (ht.fresh u ob b hu hframe) hk hend

end Step

/-! ## Runs -/

variable {x y : Machine × Log} {e : Event}

/-- **What a step of the pipe and its history is**: an event that leaves the writers
alone, or a turn of one of them. -/
theorem step_log (h : Known x) (hstep : ghost step log x e = some y) :
    Inv y.1 ∧
      ((writes x.1 e = none ∧ NoNewWriter x.1 y.1 ∧ y.1.accepted = x.1.accepted ∧
          y.2.owner = x.2.owner ∧ x.2.ncall ≤ y.2.ncall ∧
          ∀ u obuf buf, y.1.frame u = .write obuf buf → y.2.call u = x.2.call u) ∨
        ∃ tid obuf buf c k, writes x.1 e = some (tid, obuf, buf) ∧
          Turn x tid obuf buf c y.2 k ∧ Wrote x.1 y.1 tid obuf buf k ∧
          (k = 0 ↔ buf = [] ∨ x.1.nreader = 0 ∨ x.1.fifo.full = true)) := by
  obtain ⟨hm, hlog⟩ := ghost_eq_some.mp hstep
  refine ⟨(step_ok h.inv hm).1, ?_⟩
  unfold step at hm
  split at hm
  · have hforget : Inv { x.1 with ret := none } := ⟨h.inv.ok, h.inv.stream, h.inv.count⟩
    cases hw : writes x.1 e with
    | none =>
        obtain ⟨hnew, hacc⟩ := go_quiet (m := { x.1 with ret := none }) hw hm
        have hout : ∀ t count b ver, e = .write t count b ver → x.1.frame t = .out := by
          rintro t count b ver rfl
          exact go_write_out (m := { x.1 with ret := none }) hm
        obtain ⟨howner, hncall, hcall⟩ := log_quiet (x := x) hnew hacc hout
        rw [hlog]
        exact .inl ⟨rfl, hnew, hacc, howner, hncall, hcall⟩
    | some w =>
        obtain ⟨tid, obuf, buf⟩ := w
        rw [go_writes (m := { x.1 with ret := none }) hw] at hm
        obtain ⟨k, hwrote, hzero⟩ := write_spec hforget hm
        obtain ⟨c, hturn⟩ := h.turn hw y.1
        have hk : added x.1 y.1 = k := by
          have hle := hwrote.le
          unfold added
          rw [hwrote.accepted, length_append, length_take]
          show x.1.accepted.length + min k buf.length - x.1.accepted.length = k
          omega
        rw [hk, ← hlog] at hturn
        exact .inr ⟨tid, obuf, buf, c, k, rfl, hturn,
          ⟨hwrote.le, hwrote.accepted, hwrote.other, hwrote.self⟩, hzero⟩
  · cases hm

theorem Known.step (h : Known x) (hstep : ghost step log x e = some y) : Known y := by
  obtain ⟨hinv, ⟨-, hnew, hacc, howner, hncall, hcall⟩ |
    ⟨tid, obuf, buf, c, k, -, ht, hwrote, -⟩⟩ := step_log h hstep
  · exact h.of_quiet hinv hnew hacc howner hncall hcall
  · exact h.of_wrote hinv ht hwrote

theorem Whole.step (h : Known x) (hw : Whole x)
    (hok : Undivided x.1 e) (hstep : ghost step log x e = some y) : Whole y := by
  have halive : x.1.alive = true := by
    obtain ⟨hm, -⟩ := ghost_eq_some.mp hstep
    unfold Pipe.step at hm
    split at hm
    · assumption
    · cases hm
  obtain ⟨-, ⟨-, hnew, -, howner, -, hcall⟩ |
    ⟨tid, obuf, buf, c, k, hwrites, ht, hwrote, hzero⟩⟩ := step_log h hstep
  · exact hw.of_quiet hnew howner hcall
  · refine hw.of_wrote h ht hwrote fun hk => ?_
    have hputs : ¬ (buf = [] ∨ x.1.nreader = 0 ∨ x.1.fifo.full = true) := fun h => hk (hzero.mpr h)
    simp only [not_or, Bool.not_eq_true] at hputs
    exact hok tid obuf buf halive hwrites hputs

/-- A step that divides a small call leaves its bytes divided. -/
theorem undivided_of_whole (h : Known x)
    (hnext : ∀ y, ghost step log x e = some y → Whole y) : Undivided x.1 e := by
  intro tid obuf buf halive hw hputs u ob b hu hframe hob
  by_contra hsmall
  have hsome : (step x.1 e).isSome = true := by
    have hforget : Inv { x.1 with ret := none } := ⟨h.inv.ok, h.inv.stream, h.inv.count⟩
    unfold step
    rw [if_pos halive, go_writes (m := { x.1 with ret := none }) hw]
    exact write_isSome hforget tid (Nat.le_refl _)
  obtain ⟨m', hm⟩ := isSome_iff_exists.mp hsome
  have hstep : ghost step log x e = some (m', log x.1 e m' x.2) := ghost_eq_some.mpr ⟨hm, rfl⟩
  obtain ⟨-, ⟨hnone, -⟩ | ⟨tid', obuf', buf', c, k, hwrites, ht, hwrote, hzero⟩⟩ := step_log h hstep
  · rw [hnone] at hw
    cases hw
  · rw [hw] at hwrites
    cases hwrites
    have hk : k ≠ 0 := by
      intro hk
      rcases hzero.mp hk with hnil | hnone | hfull
      · exact hputs.1 hnil
      · exact hputs.2.1 hnone
      · rw [hputs.2.2] at hfull
        cases hfull
    exact not_whole_of_wrote h ht hwrote hk hu hframe hob (by omega) (hnext _ hstep)

theorem known_start (page : Nat → Byte) (tasks : Nat → Task) : Known (.pipe page tasks, .start) :=
  ⟨.pipe page tasks, rfl, by simp [Log.start], by simp [pipe], by simp [pipe],
    by simp [pipe], by simp [pipe]⟩

theorem whole_start (page : Nat → Byte) (tasks : Nat → Task) : Whole (.pipe page tasks, .start) :=
  ⟨fun _ _ => (atEnd_of_not_mem (by simp [Log.start])).together, by simp [pipe]⟩

/-- **Small writes are atomic** exactly in the runs in which no call puts bytes into
the pipe while a small call of another task sleeps with part of its own in it. -/
theorem atomic_iff (page : Nat → Byte) (tasks : Nat → Task) (es : List Event) :
    Always (ghost step log) Whole (.pipe page tasks, .start) es ↔
      Each step Undivided (.pipe page tasks) es := by
  have hghost : Each (ghost step log) (fun x e => Undivided x.1 e) (.pipe page tasks, .start) es ↔
      Each step Undivided (.pipe page tasks) es := each_ghost
  rw [← hghost]
  refine always_iff_each (I := fun x => Known x ∧ Whole x) (fun _ h => h.2) ?_ ?_
    ⟨known_start page tasks, whole_start page tasks⟩
  · exact fun x e y h hok hstep => ⟨h.1.step hstep, h.2.step h.1 hok hstep⟩
  · exact fun x e h hnext => undivided_of_whole h.1 hnext

/-- A writer fills the pipe, a second one puts half of its 12 bytes and sleeps, a
reader makes room, and a third writer is the first to run. -/
def divides : List Event :=
  [.write 1 4090 (List.replicate 4090 1) true, .write 2 12 (List.replicate 12 2) true,
    .read 4 100 true, .write 3 5 (List.replicate 5 3) true, .resume 2]

/-- The pipe of tasks without signals, with its history. -/
def quietpipe : Machine × Log :=
  (.pipe (fun _ => 0) fun _ => ⟨false, false, .run, .clear, .clear, fun _ => Sigact.zero, .none⟩,
    .start)

/-- The bytes of the second writer are on both sides of those of the third. -/
theorem atomic_divided :
    ∃ x, exec (ghost step log) quietpipe divides = some x ∧
      ¬ Together (⟨1, 12⟩ : Call) x.2.owner := by
  have hplaces : (exec (ghost step log) quietpipe divides).map (fun x =>
      (x.2.owner[4090]?, x.2.owner[4096]?, x.2.owner[4101]?)) =
        some (some ⟨1, 12⟩, some ⟨2, 5⟩, some ⟨1, 12⟩) := by
    decide +kernel
  obtain ⟨x, hx, hplaces⟩ := Option.map_eq_some_iff.mp hplaces
  simp only [Prod.mk.injEq] at hplaces
  obtain ⟨hi, hj, hk⟩ := hplaces
  exact ⟨x, hx, not_together (by decide) (by decide) hi hj hk (by decide)⟩

end Unixlite.Kern.Pipe
