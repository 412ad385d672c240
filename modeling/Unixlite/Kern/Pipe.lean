import Unixlite.Kern.WaitRun
import Unixlite.Lib.Fifoq

/-!
# Pipes

Port of `pipe_t` of `kern/pipe.cc`, with the tasks that read and write it.  A
task gives up the processor only in `waitq.wait()`, so what it does from there
to the next wait or to its return is one step.

The machine also keeps what the readers and the writers have seen.
`stream_always` says that the bytes returned and the bytes in the buffer are
the bytes accepted, in that order.
-/

namespace Unixlite.Kern.Pipe

open Unixlite.Verified.Run Unixlite.Lib List

/-! ## The pipe and its tasks -/

def PAGESIZE : Nat := 4096

/-- Where a task stands: outside the pipe, or in the `waitq.wait()` of `read`
or of `write`, where `obuf` is what it has written and `buf` what is left. -/
inductive Frame where
  | out
  | read (count : Int)
  | write (obuf buf : List Byte)
deriving DecidableEq

/-- A return from `read` or `write`. -/
inductive Ret where
  | read (n : Int)
  | write (n : Int)
deriving DecidableEq

structure Machine where
  fifo : Fifoq
  nreader : Nat
  nwriter : Nat
  /-- The pipe has not been deleted. -/
  alive : Bool
  tasks : Nat → Task
  frame : Nat → Frame
  /-- What `putc` has taken. -/
  accepted : List Byte
  /-- What reads have returned. -/
  returned : List Byte
  /-- The return of the last step. -/
  ret : Option Ret

namespace Machine

/-- `pipe_t::pipe_t`, by a task of a system that has those tasks. -/
def pipe (page : Nat → Byte) (tasks : Nat → Task) : Machine where
  fifo := Fifoq.init page PAGESIZE
  nreader := 1
  nwriter := 1
  alive := true
  tasks := tasks
  frame := fun _ => .out
  accepted := []
  returned := []
  ret := none

def setTask (m : Machine) (tid : Nat) (t : Task) : Machine :=
  { m with tasks := fun i => if i = tid then t else m.tasks i }

/-- Task `tid` stands at `f`. -/
def goto (m : Machine) (tid : Nat) (f : Frame) : Machine :=
  { m with frame := fun i => if i = tid then f else m.frame i }

/-- Task `tid` returns. -/
def leave (m : Machine) (tid : Nat) (r : Ret) : Machine :=
  { m.goto tid .out with ret := some r }

/-- `waitq.broadcast()`: the tasks in the queue are those that wait in the
pipe. -/
def broadcast (m : Machine) : Machine :=
  { m with tasks := fun i => if m.frame i = .out then m.tasks i else Wait.wakeup (m.tasks i) }

/-- `waitq.wait()` of a call that returns `eintr` when there is a signal and
otherwise goes on at `f`. -/
def wait (m : Machine) (tid : Nat) (f : Frame) (eintr : Ret) : Machine :=
  if (m.tasks tid).hassig then m.leave tid eintr
  else (m.setTask tid { m.tasks tid with state := .wait }).goto tid f

/-- `read`, from the test of its loop. -/
def read (m : Machine) (tid : Nat) (count : Int) : Option Machine :=
  if m.fifo.empty then
    if m.nwriter = 0 then some (m.leave tid (.read 0))
    else some (m.wait tid (.read count) (.read EINTR))
  else do
    let (bytes, fifo) ← m.fifo.getc count
    let m := { m with fifo := fifo, returned := m.returned ++ bytes }
    return m.broadcast.leave tid (.read bytes.length)

/-- `write`, from the test of its loop, for at most `fuel` rounds. -/
def write : Nat → Machine → Nat → List Byte → List Byte → Option Machine
  | fuel, m, tid, obuf, buf =>
    if buf.length = 0 then some (m.leave tid (.write obuf.length))
    else if m.nreader = 0 then
      some ((m.setTask tid ((m.tasks tid).post SIGPIPE)).leave tid (.write EPIPE))
    else if m.fifo.full then some (m.wait tid (.write obuf buf) (.write EINTR))
    else
      match fuel with
      | 0 => none
      | fuel + 1 => do
        let (n, fifo) ← m.fifo.putc buf
        let m := { m with fifo := fifo, accepted := m.accepted ++ buf.take n }
        write fuel m.broadcast tid (obuf ++ buf.take n) (buf.drop n)

def rlose (m : Machine) : Option Machine :=
  if m.nreader = 0 then none
  else
    let m := { m with nreader := m.nreader - 1 }
    if m.nreader ≠ 0 then some m
    else if m.nwriter = 0 then some { m.broadcast with alive := false }
    else some m.broadcast

def wlose (m : Machine) : Option Machine :=
  if m.nwriter = 0 then none
  else
    let m := { m with nwriter := m.nwriter - 1 }
    if m.nwriter ≠ 0 then some m
    else if m.nreader = 0 then some { m.broadcast with alive := false }
    else some m.broadcast

end Machine

inductive Event where
  /-- `sysread` of a descriptor of the pipe that is open for reading; `ver` is
  what `verw` finds of a buffer that is not empty. -/
  | read (tid : Nat) (count : Int) (ver : Bool)
  /-- `syswrite`, of `count` bytes. -/
  | write (tid : Nat) (count : Int) (buf : List Byte) (ver : Bool)
  /-- `sched()` switches to a task that waits in the pipe. -/
  | resume (tid : Nat)
  | rhold
  | whold
  | rlose
  | wlose
  | post (tid signo : Nat)
  /-- `wakeup`, by the kernel or by an interrupt. -/
  | wakeup (tid : Nat)
  /-- Whatever else a task does outside the pipe. -/
  | other (tid : Nat) (t : Task)

/-- `verw` and `verr`: an empty buffer is refused. -/
def verify (count : Int) (ver : Bool) : Int :=
  if count = 0 then EFAULT else if ver then 0 else EFAULT

/-- The event in a machine whose last step has been forgotten. -/
def go (m : Machine) : Event → Option Machine
  | .read tid count ver =>
      if m.frame tid ≠ .out ∨ (m.tasks tid).state ≠ .run then none
      else if verify count ver ≠ 0 then some (m.leave tid (.read (verify count ver)))
      else m.read tid count
  | .write tid count buf ver =>
      if m.frame tid ≠ .out ∨ (m.tasks tid).state ≠ .run ∨ buf.length ≠ count.toNat then none
      else if verify count ver ≠ 0 then some (m.leave tid (.write (verify count ver)))
      else Machine.write buf.length m tid [] buf
  | .resume tid =>
      if (m.tasks tid).state ≠ .run then none
      else
        match m.frame tid with
        | .out => none
        | .read count =>
            if (m.tasks tid).hassig then some (m.leave tid (.read EINTR)) else m.read tid count
        | .write obuf buf =>
            if (m.tasks tid).hassig then some (m.leave tid (.write EINTR))
            else Machine.write buf.length m tid obuf buf
  | .rhold => some { m with nreader := m.nreader + 1 }
  | .whold => some { m with nwriter := m.nwriter + 1 }
  | .rlose => m.rlose
  | .wlose => m.wlose
  | .post tid signo => some (m.setTask tid ((m.tasks tid).post signo))
  | .wakeup tid => some (m.setTask tid (Wait.wakeup (m.tasks tid)))
  | .other tid t => if m.frame tid = .out then some (m.setTask tid t) else none

/-- One event.  Nothing happens to a pipe that has been deleted. -/
def step (m : Machine) (e : Event) : Option Machine :=
  if m.alive then go { m with ret := none } e else none

/-! ## The stream -/

/-- The bytes accepted are the bytes returned and those in the buffer, and the
last return was right: end of file from a drained pipe without writers,
`EPIPE` from a pipe without readers. -/
structure StreamOk (m : Machine) : Prop where
  stream : m.accepted = m.returned ++ m.fifo.contents
  eof : m.ret = some (.read 0) → m.fifo.contents = [] ∧ m.nwriter = 0
  epipe : m.ret = some (.write EPIPE) → m.nreader = 0

/-- The invariant of the machine. -/
structure Inv (m : Machine) : Prop where
  ok : m.fifo.Ok
  stream : m.accepted = m.returned ++ m.fifo.contents
  /-- `verw` refuses a count of zero. -/
  count : ∀ tid count, m.frame tid = .read count → count ≠ 0

namespace Machine

variable (m : Machine) (tid : Nat)

@[simp] theorem leave_ret (r : Ret) : (m.leave tid r).ret = some r := rfl

end Machine

namespace Inv

variable {m : Machine} {tid : Nat}

theorem setTask (h : Inv m) (tid : Nat) (t : Task) : Inv (m.setTask tid t) :=
  ⟨h.ok, h.stream, h.count⟩

theorem broadcast (h : Inv m) : Inv m.broadcast :=
  ⟨h.ok, h.stream, h.count⟩

/-- A task comes to stand where a count is not zero. -/
theorem goto (h : Inv m) {f : Frame} (hf : ∀ count, f = .read count → count ≠ 0) :
    Inv (m.goto tid f) where
  ok := h.ok
  stream := h.stream
  count := by
    intro i count hi
    by_cases heq : i = tid
    · simp only [Machine.goto, heq, if_true] at hi
      exact hf count hi
    · simp only [Machine.goto, heq, if_false] at hi
      exact h.count i count hi

theorem leave (h : Inv m) (tid : Nat) (r : Ret) : Inv (m.leave tid r) :=
  let h' : Inv (m.goto tid .out) := h.goto (by simp)
  ⟨h'.ok, h'.stream, h'.count⟩

theorem wait (h : Inv m) {f : Frame} (hf : ∀ count, f = .read count → count ≠ 0) (r : Ret) :
    Inv (m.wait tid f r) := by
  unfold Machine.wait
  split
  · exact h.leave tid r
  · exact (h.setTask tid _).goto hf

end Inv
variable {m m' : Machine} {fuel tid : Nat} {buf obuf : List Byte}


/-- A return that is neither an end of file nor `EPIPE` says nothing. -/
theorem StreamOk.of_inv (h : Inv m) (hread : m.ret ≠ some (.read 0))
    (hwrite : m.ret ≠ some (.write EPIPE)) : StreamOk m :=
  ⟨h.stream, fun hret => absurd hret hread, fun hret => absurd hret hwrite⟩

theorem wait_ret (hret : m.ret = none) (tid : Nat) (f : Frame) (r : Ret) :
    (m.wait tid f r).ret = none ∨ (m.wait tid f r).ret = some r := by
  unfold Machine.wait
  split
  · exact .inr rfl
  · exact .inl hret

/-- A wait is not the return of anything, or that of `EINTR`. -/
theorem StreamOk.wait (h : Inv m) (hret : m.ret = none) {f : Frame}
    (hf : ∀ count, f = .read count → count ≠ 0) {r : Ret} (hr : r ≠ .read 0)
    (hr' : r ≠ .write EPIPE) : StreamOk (m.wait tid f r) := by
  refine .of_inv (h.wait hf r) ?_ ?_
  · rcases wait_ret hret tid f r with hnone | hsome
    · simp [hnone]
    · simpa [hsome] using hr
  · rcases wait_ret hret tid f r with hnone | hsome
    · simp [hnone]
    · simpa [hsome] using hr'

/-- A read of an open pipe keeps the stream. -/
theorem read_ok (h : Inv m) (hret : m.ret = none) {count : Int}
    (hcount : count ≠ 0) (hm : m.read tid count = some m') : Inv m' ∧ StreamOk m' := by
  have hf : ∀ c, Frame.read count = .read c → c ≠ 0 := by
    rintro c ⟨⟩
    exact hcount
  unfold Machine.read at hm
  split at hm
  · next hempty =>
    split at hm
    · next hnwriter =>
      cases hm
      exact ⟨h.leave tid _, h.stream, fun _ => ⟨Fifoq.empty_iff.mp hempty, hnwriter⟩, by simp⟩
    · cases hm
      exact ⟨h.wait hf _, .wait h hret hf (by decide) (by decide)⟩
  next hempty =>
  have hsome : m.fifo.nbyte ≠ 0 := by simpa [Fifoq.empty, Fifoq.nchar] using hempty
  rcases count with len | len
  · obtain ⟨fifo, hgetc, hok, -, hrest⟩ := Fifoq.getc_eq h.ok len
    simp only [Int.ofNat_eq_natCast, hgetc, Option.bind_eq_bind, Option.bind_some,
      Option.pure_def, Option.some.injEq] at hm
    subst hm
    have hinv : Inv { m with
        fifo := fifo, returned := m.returned ++ m.fifo.contents.take len } :=
      ⟨hok, by simp only [h.stream, hrest, append_assoc, take_append_drop], h.count⟩
    have hlen : len ≠ 0 := by simpa using hcount
    refine ⟨hinv.broadcast.leave tid _, .of_inv (hinv.broadcast.leave tid _) ?_ (by simp)⟩
    simp
    omega
  · simp [Fifoq.getc, Fifoq.nchar, hsome, Int.negSucc_lt_zero] at hm

/-- `putc` into the buffer: what it takes is accepted. -/
theorem Inv.putc (h : Inv m) (buf : List Byte) :
    ∃ n fifo, n = min buf.length (m.fifo.size - m.fifo.nbyte) ∧
      m.fifo.putc buf = some (n, fifo) ∧
      Inv { m with fifo := fifo, accepted := m.accepted ++ buf.take n } := by
  obtain ⟨fifo, hputc, hok, -, hrest⟩ := Fifoq.putc_eq h.ok buf
  refine ⟨_, fifo, rfl, hputc, hok, ?_, h.count⟩
  have htake : buf.take (min buf.length (m.fifo.size - m.fifo.nbyte)) =
      buf.take (m.fifo.size - m.fifo.nbyte) := by
    rw [take_eq_take_iff]
    omega
  simp only [h.stream, hrest, htake, append_assoc]

/-- One round of a write: it is the last, or some bytes go into the buffer. -/
theorem write_round (h : Inv m) (hret : m.ret = none)
    (hm : Machine.write fuel m tid obuf buf = some m') :
    (Inv m' ∧ StreamOk m') ∨ ∃ fuel' m₁ obuf' buf', fuel = fuel' + 1 ∧ Inv m₁ ∧
      m₁.ret = none ∧ Machine.write fuel' m₁ tid obuf' buf' = some m' := by
  unfold Machine.write at hm
  split at hm
  · cases hm
    exact .inl ⟨h.leave tid _, .of_inv (h.leave tid _) (by simp) (by simp [EPIPE])⟩
  split at hm
  · next hnreader =>
    cases hm
    exact .inl ⟨(h.setTask tid _).leave tid _, h.stream, by simp, fun _ => hnreader⟩
  split at hm
  · cases hm
    exact .inl ⟨h.wait (by simp) _, .wait h hret (by simp) (by decide) (by decide)⟩
  split at hm
  · cases hm
  next fuel =>
  obtain ⟨n, fifo, -, hputc, hinv⟩ := h.putc buf
  simp only [hputc, Option.bind_eq_bind, Option.bind_some] at hm
  exact .inr ⟨fuel, _, _, _, rfl, hinv.broadcast, hret, hm⟩

/-- A write keeps the stream. -/
theorem write_ok (h : Inv m) (hret : m.ret = none)
    (hm : Machine.write fuel m tid obuf buf = some m') :
    Inv m' ∧ StreamOk m' := by
  induction fuel generalizing m obuf buf with
  | zero =>
      rcases write_round h hret hm with hlast | ⟨fuel', -, -, -, hfuel, -⟩
      · exact hlast
      · omega
  | succ fuel ih =>
      rcases write_round h hret hm with hlast | ⟨fuel', m₁, obuf', buf', hfuel, h₁, hret₁, hm₁⟩
      · exact hlast
      · obtain rfl : fuel = fuel' := by omega
        exact ih h₁ hret₁ hm₁

theorem write_isSome (h : Inv m) (tid : Nat)
    (hfuel : buf.length ≤ fuel) : (Machine.write fuel m tid obuf buf).isSome := by
  induction fuel generalizing m obuf buf with
  | zero =>
      unfold Machine.write
      rw [if_pos (by omega)]
      rfl
  | succ fuel ih =>
      unfold Machine.write
      split_ifs with hdone hnreader hfull
      · rfl
      · rfl
      · rfl
      obtain ⟨n, fifo, hn, hputc, hinv⟩ := h.putc buf
      have hle := h.ok.nbyte_le
      rw [Fifoq.full_iff h.ok] at hfull
      simp only [hputc, Option.bind_eq_bind, Option.bind_some]
      refine ih hinv.broadcast ?_
      rw [length_drop]
      omega

theorem rlose_ok (h : Inv m) (hm : m.rlose = some m') : Inv m' ∧ m'.ret = m.ret := by
  unfold Machine.rlose at hm
  dsimp only at hm
  have hinv : ∀ n, Inv { m with nreader := n } := fun _ => ⟨h.ok, h.stream, h.count⟩
  have hdead : ∀ n, Inv { ({ m with nreader := n } : Machine).broadcast with alive := false } :=
    fun _ => ⟨h.ok, h.stream, h.count⟩
  split_ifs at hm <;> cases hm
  · exact ⟨hinv _, rfl⟩
  · exact ⟨hdead _, rfl⟩
  · exact ⟨(hinv _).broadcast, rfl⟩

theorem wlose_ok (h : Inv m) (hm : m.wlose = some m') : Inv m' ∧ m'.ret = m.ret := by
  unfold Machine.wlose at hm
  dsimp only at hm
  have hinv : ∀ n, Inv { m with nwriter := n } := fun _ => ⟨h.ok, h.stream, h.count⟩
  have hdead : ∀ n, Inv { ({ m with nwriter := n } : Machine).broadcast with alive := false } :=
    fun _ => ⟨h.ok, h.stream, h.count⟩
  split_ifs at hm <;> cases hm
  · exact ⟨hinv _, rfl⟩
  · exact ⟨hdead _, rfl⟩
  · exact ⟨(hinv _).broadcast, rfl⟩

/-- A step that returns from no call. -/
theorem StreamOk.quiet (h : Inv m) (hret : m.ret = none) : StreamOk m :=
  .of_inv h (by simp [hret]) (by simp [hret])

theorem verify_ne (count : Int) (ver : Bool) (h : verify count ver ≠ 0) :
    verify count ver = EFAULT := by
  unfold verify at h ⊢
  split_ifs at h ⊢
  · rfl
  · exact absurd rfl h
  · rfl

/-- What each event does to the stream. -/
theorem go_ok {e : Event} (h : Inv m) (hret : m.ret = none)
    (hm : go m e = some m') : Inv m' ∧ StreamOk m' := by
  cases e with
  | read tid count ver =>
      simp only [go] at hm
      split at hm
      · cases hm
      split at hm
      · next hver =>
        cases hm
        rw [verify_ne count ver hver]
        exact ⟨h.leave tid _, .of_inv (h.leave tid _) (by simp [EFAULT]) (by simp)⟩
      next hver =>
      have hcount : count ≠ 0 := by
        rintro rfl
        simp [verify, EFAULT] at hver
      exact read_ok h hret hcount hm
  | write tid count buf ver =>
      simp only [go] at hm
      split at hm
      · cases hm
      split at hm
      · next hver =>
        cases hm
        rw [verify_ne count ver hver]
        exact ⟨h.leave tid _, .of_inv (h.leave tid _) (by simp) (by simp [EFAULT, EPIPE])⟩
      · exact write_ok h hret hm
  | resume tid =>
      simp only [go] at hm
      split at hm
      · cases hm
      split at hm
      · cases hm
      · next count hframe =>
        split at hm
        · cases hm
          exact ⟨h.leave tid _, .of_inv (h.leave tid _) (by simp [EINTR]) (by simp)⟩
        · exact read_ok h hret (h.count tid count hframe) hm
      · split at hm
        · cases hm
          exact ⟨h.leave tid _, .of_inv (h.leave tid _) (by simp) (by simp [EINTR, EPIPE])⟩
        · exact write_ok h hret hm
  | rhold =>
      cases hm
      have h' : Inv { m with nreader := m.nreader + 1 } := ⟨h.ok, h.stream, h.count⟩
      exact ⟨h', .quiet h' hret⟩
  | whold =>
      cases hm
      have h' : Inv { m with nwriter := m.nwriter + 1 } := ⟨h.ok, h.stream, h.count⟩
      exact ⟨h', .quiet h' hret⟩
  | rlose =>
      obtain ⟨h', hret'⟩ := rlose_ok h hm
      exact ⟨h', .quiet h' (hret'.trans hret)⟩
  | wlose =>
      obtain ⟨h', hret'⟩ := wlose_ok h hm
      exact ⟨h', .quiet h' (hret'.trans hret)⟩
  | post tid signo =>
      cases hm
      exact ⟨h.setTask tid _, .quiet (h.setTask tid _) hret⟩
  | wakeup tid =>
      cases hm
      exact ⟨h.setTask tid _, .quiet (h.setTask tid _) hret⟩
  | other tid t =>
      simp only [go] at hm
      split at hm
      · cases hm
        exact ⟨h.setTask tid _, .quiet (h.setTask tid _) hret⟩
      · cases hm

theorem step_ok {e : Event} (h : Inv m) (hm : step m e = some m') : Inv m' ∧ StreamOk m' := by
  unfold step at hm
  split at hm
  · have hforget : Inv { m with ret := none } := ⟨h.ok, h.stream, h.count⟩
    exact go_ok hforget rfl hm
  · cases hm

theorem Inv.pipe (page : Nat → Byte) (tasks : Nat → Task) : Inv (.pipe page tasks) where
  ok := .init page (k := 12) rfl
  stream := rfl
  count := by simp [Machine.pipe]

/-- In every run of readers, writers and signals on a pipe the bytes come out
as they went in. -/
theorem stream_always (page : Nat → Byte) (tasks : Nat → Task) (es : List Event) :
    Always step StreamOk (.pipe page tasks) es := by
  have hstart : Inv (.pipe page tasks) ∧ StreamOk (.pipe page tasks) :=
    ⟨.pipe page tasks, .quiet (.pipe page tasks) rfl⟩
  have hrun : Always step (fun m => Inv m ∧ StreamOk m) (.pipe page tasks) es :=
    always_of_step (fun _ _ _ h hm => step_ok h.1 hm) es hstart
  exact hrun.mono fun _ h => h.2

/-- A reader waits for a writer, takes what there is, and the last descriptor
that is closed takes the pipe with it. -/
example :
    let user : Task := ⟨false, false, .run, .clear, .clear, fun _ => Sigact.zero, .none⟩
    (exec step (.pipe (fun _ => 0) fun _ => user) [.read 2 5 true, .write 1 3 [7, 8, 9] true,
      .resume 2, .wlose, .read 1 2 true, .rlose]).map (fun m => (m.returned, m.alive)) =
        some ([7, 8, 9], false) := by
  decide +kernel

end Unixlite.Kern.Pipe
