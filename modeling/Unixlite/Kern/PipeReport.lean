import Unixlite.Kern.PipeAtomic

/-!
# What a write says it has done

The exits of `pipe_t::write` with `EINTR` and `EPIPE` do not look at `buf - obuf`, so
a call that has filled the pipe before it sleeps may end with an error although a
reader gets its first bytes.

The history has the buffer of the last call of each task and the bytes of it that
are in the stream.  `report_iff` says that every return tells what has entered
exactly in the runs in which no call meets a signal or the end of the readers with
part of its bytes in the pipe.
-/

namespace Unixlite.Kern.Pipe

open Unixlite.Verified.Run Unixlite.Lib List Option

/-! ## The end of a turn -/

/-- How a task leaves `write` after it has put `k` bytes of `buf`: it is done, nobody
reads, it has a signal at its `waitq.wait()`, or it sleeps there. -/
inductive End (m m' : Machine) (tid : Nat) (obuf buf : List Byte) (k : Nat) : Prop where
  | done (hk : k = buf.length) (hreader : buf = [] ∨ m.nreader ≠ 0)
      (frame : m'.frame tid = .out)
      (ret : m'.ret = some (.write ((obuf ++ buf).length : Nat)))
  | epipe (hk : k = 0) (hreader : m.nreader = 0) (frame : m'.frame tid = .out)
      (ret : m'.ret = some (.write EPIPE))
  | eintr (hlt : k < buf.length) (hreader : m.nreader ≠ 0)
      (hsig : (m.tasks tid).hassig = true) (frame : m'.frame tid = .out)
      (ret : m'.ret = some (.write EINTR))
  | sleeps (hlt : k < buf.length) (hreader : m.nreader ≠ 0)
      (hsig : (m.tasks tid).hassig = false)
      (frame : m'.frame tid = .write (obuf ++ buf.take k) (buf.drop k)) (ret : m'.ret = none)

@[simp] theorem wakeup_hassig (t : Task) : (Wait.wakeup t).hassig = t.hassig := by
  unfold Wait.wakeup
  split <;> rfl

@[simp] theorem broadcast_hassig (m : Machine) (tid : Nat) :
    (m.broadcast.tasks tid).hassig = (m.tasks tid).hassig := by
  simp only [Machine.broadcast]
  split
  · rfl
  · exact wakeup_hassig _

section Turn

variable {m m' : Machine} {tid fuel : Nat} {obuf buf : List Byte}

/-- The wait for room. -/
theorem End.of_wait (hret : m.ret = none) (hbuf : buf ≠ []) (hreader : m.nreader ≠ 0) :
    End m (m.wait tid (.write obuf buf) (.write EINTR)) tid obuf buf 0 := by
  have hlt : 0 < buf.length := length_pos_iff.mpr hbuf
  unfold Machine.wait
  split
  · next hsig => exact .eintr hlt hreader hsig (if_pos rfl) rfl
  · next hsig =>
    refine .sleeps hlt hreader (by simpa using hsig) ?_ hret
    simp [Machine.goto]

/-- The end of the rest of the loop is that of the turn. -/
theorem End.after_putc {fifo : Fifoq} {n k : Nat} (hn : n ≤ buf.length) (hreader : m.nreader ≠ 0)
    (h : End ({ m with fifo := fifo, accepted := m.accepted ++ buf.take n } : Machine).broadcast
      m' tid (obuf ++ buf.take n) (buf.drop n) k) : End m m' tid obuf buf (n + k) := by
  cases h with
  | done hk _ frame ret =>
      rw [length_drop] at hk
      rw [append_assoc, take_append_drop] at ret
      exact .done (by omega) (.inr hreader) frame ret
  | epipe _ hnone => exact absurd hnone hreader
  | eintr hlt _ hsig frame ret =>
      rw [length_drop] at hlt
      rw [broadcast_hassig] at hsig
      exact .eintr (by omega) hreader hsig frame ret
  | sleeps hlt _ hsig frame ret =>
      rw [length_drop] at hlt
      rw [broadcast_hassig] at hsig
      rw [append_assoc, ← take_add, drop_drop] at frame
      exact .sleeps (by omega) hreader hsig frame ret

/-- The loop ends before it puts a byte. -/
theorem write_stop (hm : Machine.write fuel m tid obuf buf = some m') (hret : m.ret = none)
    (hstop : buf = [] ∨ m.nreader = 0 ∨ m.fifo.full = true) :
    Wrote m m' tid obuf buf 0 ∧ End m m' tid obuf buf 0 := by
  unfold Machine.write at hm
  split at hm
  · next hdone =>
    cases hm
    have hnil : buf = [] := length_eq_zero_iff.mp hdone
    refine ⟨wrote_leave rfl rfl, .done hdone.symm (.inl hnil) (if_pos rfl) ?_⟩
    simp [hnil]
  next hdone =>
  have hbuf : buf ≠ [] := fun hnil => hdone (by rw [hnil]; rfl)
  split at hm
  · next hnone =>
    cases hm
    exact ⟨wrote_leave rfl rfl, .epipe rfl hnone (if_pos rfl) rfl⟩
  next hreader =>
  rw [if_pos ((hstop.resolve_left hbuf).resolve_left hreader)] at hm
  cases hm
  exact ⟨wrote_wait, .of_wait hret hbuf hreader⟩

/-- **A turn of `write`** puts what there is room for, if anybody reads. -/
theorem write_end (h : Inv m) (hret : m.ret = none)
    (hm : Machine.write fuel m tid obuf buf = some m') :
    ∃ k, Wrote m m' tid obuf buf k ∧ End m m' tid obuf buf k ∧
      (m.nreader ≠ 0 → k = min buf.length m.fifo.space) := by
  by_cases hstop : buf = [] ∨ m.nreader = 0 ∨ m.fifo.full = true
  · obtain ⟨hwrote, hend⟩ := write_stop hm hret hstop
    refine ⟨0, hwrote, hend, fun hreader => ?_⟩
    rcases hstop with rfl | hnone | hfull
    · simp
    · exact absurd hnone hreader
    · have hspace : m.fifo.space = 0 := by simpa [Fifoq.full] using hfull
      rw [hspace, Nat.min_zero]
  simp only [not_or, Bool.not_eq_true] at hstop
  obtain ⟨hbuf, hreader, hfull⟩ := hstop
  unfold Machine.write at hm
  rw [if_neg (by rwa [length_eq_zero_iff]), if_neg hreader, hfull,
    if_neg Bool.false_ne_true] at hm
  split at hm
  · cases hm
  obtain ⟨fifo, hputc, hok, hsize, hcontents⟩ := Fifoq.putc_eq h.ok buf
  simp only [hputc, bind_eq_bind, bind_some] at hm
  -- the buffer is full now, or nothing is left
  have hnbyte := congrArg List.length hcontents
  rw [length_append, Fifoq.contents_length, Fifoq.contents_length, length_take] at hnbyte
  have hle := h.ok.nbyte_le
  have hrest : buf.drop (min buf.length (m.fifo.size - m.fifo.nbyte)) = [] ∨ m.nreader = 0 ∨
      fifo.full = true := by
    rw [Fifoq.full_iff hok, drop_eq_nil_iff]
    omega
  obtain ⟨hwrote, hend⟩ := write_stop hm hret hrest
  exact ⟨_, hwrote.after_putc (Nat.min_le_left _ _),
    hend.after_putc (Nat.min_le_left _ _) hreader, fun _ => rfl⟩

/-! ## Events that do not run `write` -/

/-- A read returns from no write. -/
theorem read_ret_ne {m m' : Machine} (hret : m.ret = none) {count : Int}
    (hm : m.read tid count = some m') (r : Int) : m'.ret ≠ some (.write r) := by
  unfold Machine.read at hm
  split at hm
  · split at hm
    · cases hm
      simp
    · cases hm
      rcases wait_ret hret tid (.read count) (.read EINTR) with hnone | hsome
      · simp [hnone]
      · simp [hsome]
  · obtain ⟨⟨bytes, fifo⟩, -, hm⟩ := bind_eq_some_iff.mp hm
    cases hm
    simp

/-- A write of a buffer that is refused. -/
theorem go_refused {count : Int} {ver : Bool} (hw : writes m (.write tid count buf ver) = none)
    (hm : go m (.write tid count buf ver) = some m') :
    verify count ver ≠ 0 ∧ m'.ret = some (.write EFAULT) := by
  simp only [go] at hm
  split at hm
  · cases hm
  next hout =>
  simp only [not_or, not_not] at hout
  split at hm
  · next hver =>
    cases hm
    exact ⟨hver, by rw [Machine.leave_ret, verify_ne count ver hver]⟩
  · next hver =>
    simp [writes, hout.1, hout.2.1, hout.2.2, hver] at hw

/-- A task that is resumed and does not go on in `write` was in `read`, or has a signal. -/
theorem go_resumed (hret : m.ret = none) (hw : writes m (.resume tid) = none)
    (hm : go m (.resume tid) = some m') :
    ((∃ count, m.frame tid = .read count) ∧ ∀ r, m'.ret ≠ some (.write r)) ∨
      ∃ obuf buf, m.frame tid = .write obuf buf ∧ (m.tasks tid).state = .run ∧
        (m.tasks tid).hassig = true ∧ m'.ret = some (.write EINTR) := by
  simp only [go] at hm
  split at hm
  · cases hm
  next hstate =>
  simp only [not_not] at hstate
  split at hm
  · cases hm
  · next count hframe =>
    refine .inl ⟨⟨count, hframe⟩, ?_⟩
    split at hm
    · cases hm
      simp
    · exact read_ret_ne hret hm
  · next obuf buf hframe =>
    split at hm
    · next hsig =>
      cases hm
      exact .inr ⟨obuf, buf, hframe, hstate, hsig, rfl⟩
    · next hsig => simp [writes, hframe, hstate, hsig] at hw

end Turn

/-! ## The history of the calls -/

/-- The buffer of the last call of each task, what of it is in the stream, and the
task whose call the last step was part of. -/
structure Account where
  given : Nat → List Byte
  entered : Nat → List Byte
  last : Option Nat

def Account.start : Account := ⟨fun _ => [], fun _ => [], none⟩

/-- What an event adds to the history. -/
def account (m : Machine) (e : Event) (m' : Machine) (g : Account) : Account :=
  let new := m'.accepted.drop m.accepted.length
  match e with
  | .write tid _ buf _ =>
      { given := fun u => if u = tid then buf else g.given u
        entered := fun u => if u = tid then new else g.entered u
        last := some tid }
  | .resume tid =>
      { g with
        entered := fun u => if u = tid then g.entered u ++ new else g.entered u
        last := some tid }
  | _ => { g with last := none }

/-- **The return of the last step was right**: `r` says that the first `r` bytes have
entered, an error that none has. -/
def Reported (x : Machine × Account) : Prop :=
  ∀ tid r, x.2.last = some tid → x.1.ret = some (.write r) →
    if 0 ≤ r then
      x.2.entered tid = (x.2.given tid).take r.toNat ∧ ((x.2.entered tid).length : Int) = r
    else x.2.entered tid = []

/-- No call meets a signal or the end of the readers with part of its bytes in the
pipe: a task with a signal writes what there is room for, or finds no room at all. -/
def Told (m : Machine) : Event → Prop
  | .write tid count buf ver =>
      m.alive = true → m.frame tid = .out → (m.tasks tid).state = .run →
        buf.length = count.toNat → verify count ver = 0 → (m.tasks tid).hassig = true →
          m.nreader ≠ 0 → buf.length ≤ m.fifo.space ∨ m.fifo.space = 0
  | .resume tid =>
      ∀ obuf buf, m.alive = true → m.frame tid = .write obuf buf → (m.tasks tid).state = .run →
        obuf ≠ [] → (m.tasks tid).hassig = false ∧ m.nreader ≠ 0
  | _ => True

/-- What the history has of the calls that are not over. -/
structure Kept (x : Machine × Account) : Prop where
  inv : Inv x.1
  given : ∀ u obuf buf, x.1.frame u = .write obuf buf → x.2.given u = obuf ++ buf
  entered : ∀ u obuf buf, x.1.frame u = .write obuf buf → x.2.entered u = obuf
  left : ∀ u obuf buf, x.1.frame u = .write obuf buf → buf ≠ []

section Step

variable {x y : Machine × Account} {tid k : Nat} {obuf buf : List Byte}

/-- The history after a turn of `write`. -/
structure Booked (x : Machine × Account) (tid : Nat) (obuf buf : List Byte) (g' : Account)
    (k : Nat) : Prop where
  given : g'.given tid = obuf ++ buf
  entered : g'.entered tid = obuf ++ buf.take k
  other : ∀ u, u ≠ tid → g'.given u = x.2.given u ∧ g'.entered u = x.2.entered u
  last : g'.last = some tid

variable {e : Event}

theorem Kept.booked (h : Kept x) (hw : writes x.1 e = some (tid, obuf, buf))
    {m' : Machine} (hwrote : Wrote x.1 m' tid obuf buf k) :
    Booked x tid obuf buf (account x.1 e m' x.2) k := by
  have hnew : m'.accepted.drop x.1.accepted.length = buf.take k := by
    rw [hwrote.accepted, drop_left]
  cases e with
  | write t count b ver =>
      simp only [writes] at hw
      split at hw
      · cases hw
        refine ⟨if_pos rfl, ?_, fun u hu => ⟨if_neg hu, if_neg hu⟩, rfl⟩
        simp only [account, if_true, nil_append]
        exact hnew
      · cases hw
  | resume t =>
      simp only [writes] at hw
      split at hw
      · next ob b hframe =>
        split at hw
        · cases hw
          refine ⟨h.given _ _ _ hframe, ?_, fun u hu => ⟨rfl, if_neg hu⟩, rfl⟩
          simp only [account, if_true]
          rw [h.entered _ _ _ hframe, hnew]
        · cases hw
      · cases hw
  | _ => cases hw

/-- The history after an event that does not run `write`. -/
theorem account_quiet (hnew : NoNewWriter x.1 y.1) (hacc : y.1.accepted = x.1.accepted)
    (hout : ∀ t count b ver, e = .write t count b ver → x.1.frame t = .out)
    (hg : y.2 = account x.1 e y.1 x.2) :
    ∀ u obuf buf, y.1.frame u = .write obuf buf →
      y.2.given u = x.2.given u ∧ y.2.entered u = x.2.entered u := by
  intro u obuf buf hframe
  rw [hg]
  cases e with
  | write t count b ver =>
      have hne : u ≠ t := by
        rintro rfl
        have hold := hnew u obuf buf hframe
        rw [hout u count b ver rfl] at hold
        cases hold
      exact ⟨if_neg hne, if_neg hne⟩
  | resume t =>
      refine ⟨rfl, ?_⟩
      simp only [account, hacc, drop_length, append_nil, ite_self]
  | _ => exact ⟨rfl, rfl⟩

/-- **What a step does**: an event that leaves the writers alone, or a turn of one of
them. -/
theorem step_account (h : Kept x) (hstep : ghost step account x e = some y) :
    Inv y.1 ∧
      ((writes x.1 e = none ∧ NoNewWriter x.1 y.1 ∧ y.1.accepted = x.1.accepted ∧
          ∀ u obuf buf, y.1.frame u = .write obuf buf →
            y.2.given u = x.2.given u ∧ y.2.entered u = x.2.entered u) ∨
        ∃ tid obuf buf k, writes x.1 e = some (tid, obuf, buf) ∧
          Booked x tid obuf buf y.2 k ∧ Wrote x.1 y.1 tid obuf buf k ∧
          End x.1 y.1 tid obuf buf k ∧
          (x.1.nreader ≠ 0 → k = min buf.length x.1.fifo.space)) := by
  obtain ⟨hm, hg⟩ := ghost_eq_some.mp hstep
  refine ⟨(step_ok h.inv hm).1, ?_⟩
  unfold step at hm
  split at hm
  · have hforget : Inv { x.1 with ret := none } := ⟨h.inv.ok, h.inv.stream, h.inv.count⟩
    cases hw : writes x.1 e with
    | none =>
        obtain ⟨hnew, hacc⟩ := go_quiet (m := { x.1 with ret := none }) hw hm
        have hout : ∀ t count b ver, e = .write t count b ver → x.1.frame t = .out := by
          rintro t count b ver rfl
          exact go_write_out (m := { x.1 with ret := none }) hm
        exact .inl ⟨rfl, hnew, hacc, account_quiet hnew hacc hout hg⟩
    | some w =>
        obtain ⟨tid, obuf, buf⟩ := w
        rw [go_writes (m := { x.1 with ret := none }) hw] at hm
        obtain ⟨k, hwrote, hend, hk⟩ := write_end hforget rfl hm
        have hwrote' : Wrote x.1 y.1 tid obuf buf k :=
          ⟨hwrote.le, hwrote.accepted, hwrote.other, hwrote.self⟩
        have hend' : End x.1 y.1 tid obuf buf k := by
          cases hend with
          | done hk hreader frame ret => exact .done hk hreader frame ret
          | epipe hk hreader frame ret => exact .epipe hk hreader frame ret
          | eintr hlt hreader hsig frame ret => exact .eintr hlt hreader hsig frame ret
          | sleeps hlt hreader hsig frame ret => exact .sleeps hlt hreader hsig frame ret
        exact .inr ⟨tid, obuf, buf, k, rfl, hg ▸ h.booked hw hwrote', hwrote', hend', hk⟩
  · cases hm

theorem Kept.step (h : Kept x) (hstep : ghost step account x e = some y) : Kept y := by
  obtain ⟨hinv, ⟨-, hnew, -, hsame⟩ | ⟨tid, obuf, buf, k, -, hbook, hwrote, hend, -⟩⟩ :=
    step_account h hstep
  · refine ⟨hinv, ?_, ?_, ?_⟩
    · intro u ob b hframe
      rw [(hsame u ob b hframe).1, h.given u ob b (hnew u ob b hframe)]
    · intro u ob b hframe
      rw [(hsame u ob b hframe).2, h.entered u ob b (hnew u ob b hframe)]
    · exact fun u ob b hframe => h.left u ob b (hnew u ob b hframe)
  -- a writer of the new state is the one that has had its turn, or was one before
  have hwriter : ∀ u ob b, y.1.frame u = .write ob b →
      (u = tid ∧ ob = obuf ++ buf.take k ∧ b = buf.drop k ∧ k < buf.length) ∨
        (u ≠ tid ∧ x.1.frame u = .write ob b) := by
    intro u ob b hframe
    by_cases hu : u = tid
    · subst hu
      refine .inl ⟨rfl, ?_⟩
      cases hend with
      | done _ _ frame | epipe _ _ frame | eintr _ _ _ frame =>
          rw [frame] at hframe
          cases hframe
      | sleeps hlt _ _ frame =>
          rw [frame] at hframe
          cases hframe
          exact ⟨rfl, rfl, hlt⟩
    · exact .inr ⟨hu, by rwa [hwrote.other u hu] at hframe⟩
  refine ⟨hinv, ?_, ?_, ?_⟩
  · intro u ob b hframe
    obtain ⟨rfl, rfl, rfl, -⟩ | ⟨hu, hold⟩ := hwriter u ob b hframe
    · rw [hbook.given, append_assoc, take_append_drop]
    · rw [(hbook.other u hu).1, h.given u ob b hold]
  · intro u ob b hframe
    obtain ⟨rfl, rfl, rfl, -⟩ | ⟨hu, hold⟩ := hwriter u ob b hframe
    · exact hbook.entered
    · rw [(hbook.other u hu).2, h.entered u ob b hold]
  · intro u ob b hframe
    obtain ⟨rfl, rfl, rfl, hlt⟩ | ⟨hu, hold⟩ := hwriter u ob b hframe
    · rw [Ne, drop_eq_nil_iff]
      omega
    · exact h.left u ob b hold

theorem End.eq_zero (h : End x.1 y.1 tid obuf buf k) (hnone : x.1.nreader = 0) : k = 0 := by
  cases h with
  | done hk hreader =>
      rcases hreader with rfl | hreader
      · exact hk
      · exact absurd hnone hreader
  | epipe hk => exact hk
  | eintr _ hreader | sleeps _ hreader => exact absurd hnone hreader

/-- An error is right when nothing has entered. -/
theorem Booked.reported_error (hbook : Booked x tid obuf buf y.2 k) (hle : k ≤ buf.length)
    {r : Int} (hneg : r < 0) (hret : y.1.ret = some (.write r)) :
    Reported y ↔ obuf = [] ∧ k = 0 := by
  have hnil : obuf ++ buf.take k = [] ↔ obuf = [] ∧ k = 0 := by
    rw [append_eq_nil_iff, ← length_eq_zero_iff (l := buf.take k), length_take,
      Nat.min_eq_left hle]
  rw [← hnil, ← hbook.entered]
  constructor
  · intro hrep
    have := hrep tid r hbook.last hret
    rwa [if_neg (by omega)] at this
  · intro hentered tid' r' hlast hret'
    rw [hbook.last] at hlast
    rw [hret] at hret'
    cases hlast
    cases hret'
    rwa [if_neg (by omega)]

/-- The return from a turn is right unless it is an error after some bytes. -/
theorem Booked.reported (hbook : Booked x tid obuf buf y.2 k) (hle : k ≤ buf.length)
    (hend : End x.1 y.1 tid obuf buf k) (hfirst : obuf = [] ∨ buf ≠ []) :
    Reported y ↔
      (x.1.nreader = 0 ∨ (x.1.tasks tid).hassig = true ∧ k < buf.length →
        obuf = [] ∧ k = 0) := by
  cases hend with
  | done hk hreader frame ret =>
      constructor
      · rintro - (hnone | ⟨-, hlt⟩)
        · have hnil : buf = [] := hreader.resolve_right (not_not_intro hnone)
          exact ⟨hfirst.resolve_right (not_not_intro hnil), by simp [hk, hnil]⟩
        · omega
      · intro _ tid' r hlast hret
        rw [hbook.last] at hlast
        rw [ret] at hret
        cases hlast
        cases hret
        rw [if_pos (Int.natCast_nonneg _), hbook.entered, hbook.given, Int.toNat_natCast, hk,
          take_length, take_length]
        exact ⟨rfl, rfl⟩
  | epipe hk hreader frame ret =>
      rw [hbook.reported_error hle (show EPIPE < 0 by decide) ret]
      exact ⟨fun h _ => h, fun h => h (.inl hreader)⟩
  | eintr hlt hreader hsig frame ret =>
      rw [hbook.reported_error hle (show EINTR < 0 by decide) ret]
      exact ⟨fun h _ => h, fun h => h (.inr ⟨hsig, hlt⟩)⟩
  | sleeps hlt hreader hsig frame ret =>
      simp [Reported, ret, hreader, hsig]

/-- **The return of a turn is right** exactly when the event meets the condition. -/
theorem Booked.reported_iff (h : Kept x) (halive : x.1.alive = true)
    (hw : writes x.1 e = some (tid, obuf, buf)) (hbook : Booked x tid obuf buf y.2 k)
    (hle : k ≤ buf.length) (hend : End x.1 y.1 tid obuf buf k)
    (hk : x.1.nreader ≠ 0 → k = min buf.length x.1.fifo.space) : Reported y ↔ Told x.1 e := by
  have hzero := hend.eq_zero
  cases e with
  | write t count b ver =>
      simp only [writes] at hw
      split at hw
      · next hcall =>
        cases hw
        obtain ⟨hframe, hstate, hlen, hver⟩ := hcall
        rw [hbook.reported hle hend (.inl rfl)]
        constructor
        · intro hend' _ _ _ _ _ hsig hreader
          by_cases hlt : k < buf.length
          · have := (hend' (.inr ⟨hsig, hlt⟩)).2
            omega
          · omega
        · rintro htold (hnone | ⟨hsig, hlt⟩)
          · exact ⟨rfl, hzero hnone⟩
          · by_cases hreader : x.1.nreader = 0
            · exact ⟨rfl, hzero hreader⟩
            have := htold halive hframe hstate hlen hver hsig hreader
            exact ⟨rfl, by omega⟩
      · cases hw
  | resume t =>
      simp only [writes] at hw
      split at hw
      · next ob b hframe =>
        split at hw
        · next hcall =>
          cases hw
          obtain ⟨hstate, hsig⟩ := hcall
          rw [hbook.reported hle hend (.inr (h.left _ _ _ hframe))]
          constructor
          · intro hend' ob' b' _ hframe' _ hob
            rw [hframe] at hframe'
            cases hframe'
            exact ⟨hsig, fun hnone => hob (hend' (.inl hnone)).1⟩
          · rintro htold (hnone | ⟨hsig', -⟩)
            · refine ⟨?_, hzero hnone⟩
              by_contra hob
              exact (htold _ _ halive hframe hstate hob).2 hnone
            · rw [hsig] at hsig'
              cases hsig'
        · cases hw
      · cases hw
  | _ => cases hw

/-- A call that does not get to the loop is right when the condition is met. -/
theorem reported_iff_of_quiet (h : Kept x) (halive : x.1.alive = true)
    (hw : writes x.1 e = none) (hm : go { x.1 with ret := none } e = some y.1)
    (hacc : y.1.accepted = x.1.accepted) (hg : y.2 = account x.1 e y.1 x.2) :
    Reported y ↔ Told x.1 e := by
  have hother : y.2.last = none → Reported y := fun hnone tid r hlast => by
    rw [hnone] at hlast
    cases hlast
  cases e with
  | write t count b ver =>
      obtain ⟨hver, hret⟩ := go_refused (m := { x.1 with ret := none }) hw hm
      refine iff_of_true ?_ fun _ _ _ _ hver' => absurd hver' hver
      intro tid r hlast hret'
      rw [hret] at hret'
      rw [hg] at hlast ⊢
      cases hlast
      cases hret'
      rw [if_neg (by decide)]
      simp [account, hacc]
  | resume t =>
      obtain ⟨⟨count, hframe⟩, hret⟩ | ⟨ob, b, hframe, hstate, hsig, hret⟩ :=
        go_resumed (m := { x.1 with ret := none }) rfl hw hm
      · refine iff_of_true (fun _ r _ hr => absurd hr (hret r)) ?_
        intro ob b _ hframe'
        rw [show x.1.frame t = .read count from hframe] at hframe'
        cases hframe'
      · have hframe : x.1.frame t = .write ob b := hframe
        have hentered : y.2.entered t = ob := by
          rw [hg, account, hacc, drop_length, ← h.entered t ob b hframe]
          simp
        have hlast : y.2.last = some t := by rw [hg]; rfl
        constructor
        · intro hrep ob' b' _ hframe' _ hob
          rw [hframe] at hframe'
          cases hframe'
          have hnil := hrep t EINTR hlast hret
          rw [if_neg (by decide), hentered] at hnil
          exact absurd hnil hob
        · intro htold tid r hlast' hret'
          rw [hlast] at hlast'
          rw [hret] at hret'
          cases hlast'
          cases hret'
          rw [if_neg (by decide), hentered]
          by_contra hob
          have hnosig := (htold ob b halive hframe hstate hob).1
          rw [show (x.1.tasks t).hassig = true from hsig] at hnosig
          cases hnosig
  | _ =>
      refine iff_of_true (hother ?_) trivial
      rw [hg]
      rfl

/-- **The return of a step is right** exactly when the event meets the condition. -/
theorem reported_iff (h : Kept x) (hstep : ghost step account x e = some y) :
    Reported y ↔ Told x.1 e := by
  obtain ⟨hm, hg⟩ := ghost_eq_some.mp hstep
  have halive : x.1.alive = true := by
    unfold Pipe.step at hm
    split at hm
    · assumption
    · cases hm
  rw [Pipe.step, if_pos halive] at hm
  obtain ⟨-, ⟨hw, -, hacc, -⟩ | ⟨tid, obuf, buf, k, hw, hbook, hwrote, hend, hk⟩⟩ :=
    step_account h hstep
  · exact reported_iff_of_quiet h halive hw hm hacc hg
  · exact hbook.reported_iff h halive hw hwrote.le hend hk

/-- An event that does not meet the condition is one that can happen. -/
theorem told_of_reported (h : Kept x)
    (hnext : ∀ y, ghost step account x e = some y → Reported y) : Told x.1 e := by
  have hstep : (Pipe.step x.1 e).isSome = true → Told x.1 e := by
    intro hsome
    obtain ⟨m', hm⟩ := isSome_iff_exists.mp hsome
    have hstep : ghost Pipe.step account x e = some (m', account x.1 e m' x.2) :=
      ghost_eq_some.mpr ⟨hm, rfl⟩
    exact (reported_iff h hstep).mp (hnext _ hstep)
  have hforget : Inv { x.1 with ret := none } := ⟨h.inv.ok, h.inv.stream, h.inv.count⟩
  cases e with
  | write t count b ver =>
      intro halive hframe hstate hlen hver
      refine hstep ?_ halive hframe hstate hlen hver
      have hw : writes { x.1 with ret := none } (.write t count b ver) = some (t, [], b) := by
        simp [writes, hframe, hstate, hlen, hver]
      rw [Pipe.step, if_pos halive, go_writes hw]
      exact write_isSome hforget t (Nat.le_refl _)
  | resume t =>
      intro ob b halive hframe hstate
      refine hstep ?_ ob b halive hframe hstate
      rw [Pipe.step, if_pos halive]
      by_cases hsig : (x.1.tasks t).hassig = true
      · simp [go, hframe, hstate, hsig]
      · have hw : writes { x.1 with ret := none } (.resume t) = some (t, ob, b) := by
          simp [writes, hframe, hstate, hsig]
        rw [go_writes hw]
        exact write_isSome hforget t (Nat.le_refl _)
  | _ => trivial

end Step

/-! ## Runs -/

theorem kept_start (page : Nat → Byte) (tasks : Nat → Task) : Kept (.pipe page tasks, .start) :=
  ⟨.pipe page tasks, by simp [Machine.pipe], by simp [Machine.pipe], by simp [Machine.pipe]⟩

/-- **Every return of `write` tells what has entered** exactly in the runs in which no
call meets a signal or the end of the readers with part of its bytes in the pipe. -/
theorem report_iff (page : Nat → Byte) (tasks : Nat → Task) (es : List Event) :
    Always (ghost step account) Reported (.pipe page tasks, .start) es ↔
      Each step Told (.pipe page tasks) es := by
  have hghost : Each (ghost step account) (fun x e => Told x.1 e) (.pipe page tasks, .start) es ↔
      Each step Told (.pipe page tasks) es := each_ghost
  rw [← hghost]
  refine always_iff_each (I := fun x => Kept x ∧ Reported x) (fun _ h => h.2) ?_ ?_
    ⟨kept_start page tasks, fun _ _ hlast => by cases hlast⟩
  · exact fun x e y h hok hstep => ⟨h.1.step hstep, (reported_iff h.1 hstep).mpr hok⟩
  · exact fun x e h hnext => told_of_reported h.1 hnext

/-- A writer of 4097 bytes fills the pipe, sleeps with one byte in its hand and gets
`SIGINT`. -/
def interrupts : List Event :=
  [.write 1 4097 (List.replicate 4097 7) true, .post 1 2, .wakeup 1, .resume 1]

/-- It is told `EINTR`, and 4096 of its bytes are in the pipe. -/
theorem report_not :
    ¬ ∀ (page : Nat → Byte) (tasks : Nat → Task) (es : List Event),
      Always (ghost step account) Reported (.pipe page tasks, .start) es := by
  intro hall
  have hend : (exec (ghost step account) (quietpipe.1, .start) interrupts).map
      (fun x => (x.1.ret, x.2.last, (x.2.entered 1).length)) =
        some (some (.write EINTR), some 1, 4096) := by
    decide +kernel
  obtain ⟨x, hx, hend⟩ := Option.map_eq_some_iff.mp hend
  simp only [Prod.mk.injEq] at hend
  obtain ⟨hret, hlast, hlen⟩ := hend
  have hrep : Reported x :=
    (always_iff_exec _ _).mp (hall _ _ interrupts) interrupts [] x (by simp) hx
  have hnil := hrep 1 EINTR hlast hret
  rw [if_neg (by decide)] at hnil
  simp [hnil] at hlen

end Unixlite.Kern.Pipe
