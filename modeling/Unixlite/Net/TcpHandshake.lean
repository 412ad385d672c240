import Unixlite.Net.TcpLifetime

/-!
# What the waiters find

`connect` and `fetchclient` both look for `SESTAB` and nothing else.  The segment that brings
a socket there wakes the waiter, and whatever comes before it runs may take the socket on to
another state: a FIN is enough.
-/

namespace Unixlite.Net.Tcpnet

open Unixlite.Verified Unixlite.Verified.Run Option List

/-! ## The property -/

/-- `fetchclient` on `l`, called as often as it takes, returns `c`. -/
inductive Fetches : Tcpnet → Nat → Nat → Prop where
  | here {s : Tcpnet} {l c : Nat} {u : Tcb} : s.obj l = some u → s.client u = some c →
      Fetches s l c
  | later {s s' : Tcpnet} {l c d : Nat} {u : Tcb} : s.obj l = some u → s.client u = some d →
      s.takeclient l d = some s' → Fetches s' l c → Fetches s l c

/-- A child that has come to `SESTAB` and was not reset has been returned by `accept` once, or
`fetchclient` can still return it; a `connect` whose socket has come there returns 0 when its
task next runs, and has always done so. -/
structure HandshakeOk (s : Tcpnet) : Prop where
  child : ∀ c ∈ s.done, c ∉ s.resets →
    s.accepted.count c = 1 ∨ s.accepted.count c = 0 ∧ ∃ l, Fetches s l c
  connect : ∀ tid i, s.tasks tid = .connect i true →
    ∃ s', s.connectLoop tid i true false = some s' ∧ s'.connlog.head? = some (true, some 0)
  connlog : ∀ e ∈ s.connlog, e.1 = true → e.2 = some 0

/-! ## The condition -/

/-- A task in `connect` has something to return. -/
def Owed (s : Tcpnet) (i : Nat) : Prop := ∃ tid, s.tasks tid = .connect i true

/-- The sequence numbers of the segment fit together. -/
def fits (seg : Segment) : Bool :=
  !Serial.gt (Sock.inpkt seg).startseq (Sock.inpkt seg).endseq

/-- A timer does not delete a socket that somebody owes an answer from, or that has a child in
`SESTAB` on its queue. -/
def Spares (s : Tcpnet) (i : Nat) (active : Tcb → Bool) : Prop :=
  ∀ t, s.tcb i = some t → active t = true → t.refcnt = 0 →
    ¬ s.Owed i ∧ ∀ c ∈ t.incomingq, s.stateOf c ≠ some .estab

/-- The condition on one event. -/
def Undisturbed (s : Tcpnet) : Netevent → Prop
  -- no FIN and no reset while a `connect` is owed, no FIN while a child waits on the queue,
  -- and no handshake is completed for a socket that is gone
  | .input i seg _ _ _ _ _ => ∀ t, s.obj i = some t →
      (t.sock.state = .estab → fits seg = true →
        (seg.hdr.has TCPFRST = true → ¬ s.Owed i) ∧
        (seg.hdr.has TCPFRST = false → t.sock.rcv.finrecved = true ∨ seg.hdr.has TCPFFIN = true →
          t.incoming = none ∧ ¬ s.Owed i)) ∧
      (t.sock.state = .synrecv → Sock.handles seg = true → seg.hdr.ackeq t.sock.snd.sndnxt = true →
        ∀ l, t.incoming = some l → s.obj l ≠ none)
  | .lose i _ => ∀ t, s.user i = some t → t.refcnt = 1 → t.sock.state = .estab → ¬ s.Owed i
  | .shutdown i _ => ∀ t, s.user i = some t → t.sock.state = .estab → ¬ s.Owed i
  -- `accept` finds a slot for the client it has
  | .accept tid l put => s.tasks tid = .idle → put = false →
      ∀ u, s.user l = some u → s.client u = none
  | .resume tid sig put =>
      (∀ l, s.tasks tid = .accept l → sig = false → put = false →
        ∀ u, s.obj l = some u → s.client u = none) ∧
      ∀ i, s.tasks tid = .connect i true → sig = false
  | .timewaitto i => s.Spares i Tcb.timewaittm
  | .destroyto i => s.Spares i Tcb.destroytm
  | _ => True

/-! ## The invariant -/

/-- A child in `SESTAB` is on the queue of a live socket. -/
def Queued (s : Tcpnet) (c : Nat) : Prop :=
  ∃ t l, s.tcb c = some t ∧ t.sock.state = .estab ∧ t.incoming = some l ∧ s.obj l ≠ none

/-- Who waits will be served. -/
structure Served (s : Tcpnet) : Prop where
  half : ∀ c t, s.tcb c = some t → t.sock.state = .synrecv → t.incoming ≠ none
  taken : ∀ c ∈ s.accepted, ∃ t, s.tcb c = some t ∧ t.incoming = none
  nodup : s.accepted.Nodup
  queued : ∀ c ∈ s.done, c ∉ s.resets → c ∈ s.accepted ∨ s.Queued c
  owed : ∀ i, s.Owed i → ∃ t, s.obj i = some t ∧ t.sock.state = .estab
  connlog : ∀ e ∈ s.connlog, e.1 = true → e.2 = some 0

variable {s s' : Tcpnet} {i l c tid : Nat} {t u v : Tcb}

/-- `fetchclient` comes to every child in `SESTAB` that is on the queue: those in front of it
go first. -/
theorem fetches (h : Linked False s) (hu : s.obj l = some u) (ht : s.tcb c = some t)
    (hestab : t.sock.state = .estab) (hinc : t.incoming = some l) : Fetches s l c := by
  induction hn : u.incomingq.length generalizing s u with
  | zero =>
      obtain ⟨-, -, -, w, hw, -, hmem⟩ := h.child c t l ht hinc
      rw [(obj_eq_some.mp hu).1] at hw
      cases hw
      rw [length_eq_zero_iff.mp hn] at hmem
      cases hmem
  | succ n ih =>
      obtain ⟨hutcb, hulive⟩ := obj_eq_some.mp hu
      obtain ⟨-, -, -, w, hw, -, hmem⟩ := h.child c t l ht hinc
      rw [hutcb] at hw
      cases hw
      have hstate : s.stateOf c = some .estab := by rw [stateOf, ht, map_some, hestab]
      obtain ⟨d, hd⟩ : ∃ d, s.client u = some d := by
        refine isSome_iff_exists.mp (List.find?_isSome.mpr ⟨c, hmem, ?_⟩)
        exact decide_eq_true hstate
      by_cases hdc : d = c
      · exact .here hu (hdc ▸ hd)
      -- another child is in front
      have hdmem : d ∈ u.incomingq := mem_of_find?_eq_some hd
      obtain ⟨-, v, hv, hvinc⟩ := h.queue l u d hutcb hdmem
      obtain ⟨htake, hlinked⟩ := h.takeclient hv hvinc hutcb
      refine .later hu hd htake (ih (u := { u with incomingq := u.incomingq.erase d }) hlinked
        (obj_eq_some.mpr ⟨?_, hulive⟩) ?_ ?_)
      · exact (set_ne (h.ne hv hvinc).symm).trans set_self
      · exact (set_ne (Ne.symm hdc)).trans ((set_ne (h.ne ht hinc)).trans ht)
      · show (u.incomingq.erase d).length = n
        rw [length_erase_of_mem hdmem, hn, Nat.add_sub_cancel]

theorem stateOf_set (ht : s.tcb i = some t) (hsock : v.sock = t.sock) :
    (s.set i v).stateOf c = s.stateOf c := by
  unfold stateOf
  by_cases hc : c = i
  · rw [hc, set_self, ht, map_some, map_some, hsock]
  · rw [set_ne hc]

/-- `fetchclient` changes no state. -/
theorem stateOf_takeclient {d : Nat} (ht : s.takeclient l d = some s') :
    s'.stateOf c = s.stateOf c := by
  obtain ⟨t, htcb, ht⟩ := bind_eq_some_iff.mp ht
  split at ht
  · cases ht
  cases ht
  have hunlink : ∀ j, (s.unlinkincoming d t.incoming).stateOf j = s.stateOf j := by
    intro j
    unfold unlinkincoming
    cases t.incoming with
    | none => rfl
    | some k =>
        dsimp only
        cases hk : s.tcb k with
        | none => rfl
        | some u => exact stateOf_set hk rfl
  rw [← hunlink c]
  -- the child has the same socket before its links are taken away
  have hd := hunlink d
  unfold stateOf at hd ⊢
  by_cases hc : c = d
  · rw [hc, set_self, hd, htcb]
    rfl
  · rw [set_ne hc]

/-- What `fetchclient` returns is in `SESTAB` now. -/
theorem Fetches.estab (h : Fetches s l c) : s.stateOf c = some .estab := by
  induction h with
  | here hu hclient => simpa using List.find?_some hclient
  | later hu hclient htake hfetch ih => exact (stateOf_takeclient htake).symm.trans ih

theorem Served.handshakeOk (h : Served s) (hlinked : Linked False s) : HandshakeOk s where
  child := by
    intro c hc hreset
    by_cases hacc : c ∈ s.accepted
    · exact .inl (count_eq_one_of_mem h.nodup hacc)
    · obtain ⟨t, l, ht, hestab, hinc, hl⟩ := (h.queued c hc hreset).resolve_left hacc
      obtain ⟨u, hu⟩ := ne_none_iff_exists'.mp hl
      exact .inr ⟨count_eq_zero.mpr hacc, l, fetches hlinked hu ht hestab hinc⟩
  connect := by
    intro tid i htask
    obtain ⟨t, ht, hestab⟩ := h.owed i ⟨tid, htask⟩
    unfold connectLoop
    rw [ht, map_some, if_neg Bool.false_ne_true, if_pos hestab]
    exact ⟨_, rfl, rfl⟩
  connlog := h.connlog

/-! ## Changes to one socket -/

/-- What does not touch a socket and makes no `connect` owed. -/
theorem Served.of_eq (h : Served s) (htcb : s'.tcb = s.tcb) (haccepted : s'.accepted = s.accepted)
    (hdone : s'.done = s.done) (hresets : s'.resets = s.resets)
    (howed : ∀ j, s'.Owed j → s.Owed j) (hlog : ∀ e ∈ s'.connlog, e.1 = true → e.2 = some 0) :
    Served s' where
  half := by rw [htcb]; exact h.half
  taken := by rw [htcb, haccepted]; exact h.taken
  nodup := by rw [haccepted]; exact h.nodup
  queued := by
    unfold Queued obj
    rw [htcb, haccepted, hdone, hresets]
    exact h.queued
  owed := by
    unfold obj
    rw [htcb]
    exact fun j hj => h.owed j (howed j hj)
  connlog := hlog

theorem obj_set (ht : s.tcb i = some t) (hlive : v.live = t.live) {j : Nat}
    (hj : s.obj j ≠ none) : (s.set i v).obj j ≠ none := by
  obtain ⟨w, hw⟩ := ne_none_iff_exists'.mp hj
  obtain ⟨hwtcb, hwlive⟩ := obj_eq_some.mp hw
  by_cases hji : j = i
  · rw [hji, ht] at hwtcb
    cases hwtcb
    rw [hji, obj_eq_some.mpr ⟨set_self, hlive.trans hwlive⟩]
    exact some_ne_none v
  · rw [obj_eq_some.mpr ⟨(set_ne hji).trans hwtcb, hwlive⟩]
    exact some_ne_none w

/-- Other contents of the socket, in the same place. -/
theorem Served.set (h : Served s) (ht : s.tcb i = some t) (hinc : v.incoming = t.incoming)
    (hlive : v.live = t.live) (hhalf : v.sock.state = .synrecv → t.sock.state = .synrecv)
    {resets : List Nat} (hresets : ∀ j ∈ s.resets, j ∈ resets)
    (hqueued : t.sock.state = .estab → t.incoming ≠ none → i ∉ resets → v.sock.state = .estab)
    (howed : t.sock.state = .estab → s.Owed i → v.sock.state = .estab) :
    Served { s.set i v with resets := resets } where
  half := by
    intro j w hw hstate
    by_cases hj : j = i
    · have hself : (s.set i v).tcb j = some v := hj ▸ set_self
      rw [hself] at hw
      cases hw
      rw [hinc]
      exact h.half i t ht (hhalf hstate)
    · exact h.half j w ((set_ne hj).symm.trans hw) hstate
  taken := by
    intro j hj
    obtain ⟨w, hw, hnone⟩ := h.taken j hj
    by_cases hji : j = i
    · rw [hji, ht] at hw
      cases hw
      exact ⟨v, hji ▸ set_self, hinc.trans hnone⟩
    · exact ⟨w, (set_ne hji).trans hw, hnone⟩
  nodup := h.nodup
  queued := by
    intro j hj hreset
    refine (h.queued j hj fun hmem => hreset (hresets j hmem)).imp_right ?_
    rintro ⟨w, l, hw, hestab, hwinc, hl⟩
    by_cases hji : j = i
    · rw [hji, ht] at hw
      cases hw
      have hne : t.incoming ≠ none := by rw [hwinc]; exact some_ne_none l
      exact ⟨v, l, hji ▸ set_self, hqueued hestab hne (hji ▸ hreset), hinc.trans hwinc,
        obj_set ht hlive hl⟩
    · exact ⟨w, l, (set_ne hji).trans hw, hestab, hwinc, obj_set ht hlive hl⟩
  owed := by
    intro j hj
    obtain ⟨w, hw, hestab⟩ := h.owed j hj
    obtain ⟨hwtcb, hwlive⟩ := obj_eq_some.mp hw
    by_cases hji : j = i
    · rw [hji, ht] at hwtcb
      cases hwtcb
      exact ⟨v, hji ▸ obj_eq_some.mpr ⟨set_self, hlive.trans hwlive⟩,
        howed hestab (hji ▸ hj)⟩
    · exact ⟨w, obj_eq_some.mpr ⟨(set_ne hji).trans hwtcb, hwlive⟩, hestab⟩
  connlog := h.connlog

/-- A socket that stays in its state. -/
theorem Served.same (h : Served s) (ht : s.tcb i = some t) (hinc : v.incoming = t.incoming)
    (hlive : v.live = t.live) (hstate : v.sock.state = t.sock.state) :
    Served (s.set i v) :=
  h.set ht hinc hlive (fun hhalf => hstate.symm.trans hhalf) (fun _ hj => hj)
    (fun hestab _ _ => hstate.trans hestab) fun hestab _ => hstate.trans hestab

/-- A socket that a descriptor refers to, and that no `connect` is owed for in `SESTAB`. -/
theorem Served.user (h : Served s) (ht : s.tcb i = some t) (hnone : t.incoming = none)
    (hinc : v.incoming = t.incoming) (hlive : v.live = t.live)
    (hhalf : v.sock.state = .synrecv → t.sock.state = .synrecv)
    (howed : t.sock.state = .estab → s.Owed i → v.sock.state = .estab) :
    Served (s.set i v) :=
  h.set ht hinc hlive hhalf (fun _ hj => hj) (fun _ hne _ => absurd hnone hne) howed

/-- The handshake of a child is over. -/
theorem Served.finish (h : Served s) (hqueued : s.Queued c) :
    Served { s with done := c :: s.done } where
  half := h.half
  taken := h.taken
  nodup := h.nodup
  queued := by
    intro j hj hreset
    rcases mem_cons.mp hj with rfl | hj
    · exact .inr hqueued
    · exact h.queued j hj hreset
  owed := h.owed
  connlog := h.connlog

theorem Served.new (h : Served s) (hfresh : s.tcb s.next = none)
    (hhalf : t.sock.state = .synrecv → t.incoming ≠ none) : Served (s.new t) := by
  have hold : ∀ {j w}, s.tcb j = some w → (s.new t).tcb j = some w := by
    intro j w hw
    refine (new_ne s t ?_).trans hw
    rintro rfl
    rw [hfresh] at hw
    cases hw
  have hobj : ∀ {j w}, s.obj j = some w → (s.new t).obj j = some w := by
    intro j w hw
    obtain ⟨hwtcb, hwlive⟩ := obj_eq_some.mp hw
    exact obj_eq_some.mpr ⟨hold hwtcb, hwlive⟩
  refine ⟨fun j w hw hstate => ?_, fun j hj => ?_, h.nodup, fun j hj hreset => ?_,
    fun j hj => ?_, h.connlog⟩
  · by_cases hj : j = s.next
    · rw [hj, new_next] at hw
      cases hw
      exact hhalf hstate
    · rw [new_ne s t hj] at hw
      exact h.half j w hw hstate
  · obtain ⟨w, hw, hnone⟩ := h.taken j hj
    exact ⟨w, hold hw, hnone⟩
  · refine (h.queued j hj hreset).imp_right ?_
    rintro ⟨w, l, hw, hestab, hinc, hl⟩
    obtain ⟨u, hu⟩ := ne_none_iff_exists'.mp hl
    refine ⟨w, l, hold hw, hestab, hinc, ?_⟩
    rw [hobj hu]
    exact some_ne_none u
  · obtain ⟨w, hw, hestab⟩ := h.owed j hj
    exact ⟨w, hobj hw, hestab⟩

/-- `accept` returns a child. -/
theorem Served.take (h : Served s) (ht : s.tcb c = some t) (hestab : t.sock.state = .estab)
    (hinc : t.incoming ≠ none) :
    Served { s.set c { t with listening := none, incoming := none } with
      accepted := c :: s.accepted } where
  half := by
    intro j w hw hstate
    by_cases hj : j = c
    · have hself : (s.set c { t with listening := none, incoming := none }).tcb j =
          some { t with listening := none, incoming := none } := hj ▸ set_self
      rw [hself] at hw
      cases hw
      rw [hestab] at hstate
      cases hstate
    · exact h.half j w ((set_ne hj).symm.trans hw) hstate
  taken := by
    intro j hj
    by_cases hjc : j = c
    · rw [hjc]
      exact ⟨_, set_self, rfl⟩
    · obtain ⟨w, hw, hnone⟩ := h.taken j ((mem_cons.mp hj).resolve_left hjc)
      exact ⟨w, (set_ne hjc).trans hw, hnone⟩
  nodup := by
    refine nodup_cons.mpr ⟨fun hmem => ?_, h.nodup⟩
    obtain ⟨w, hw, hnone⟩ := h.taken c hmem
    rw [ht] at hw
    cases hw
    exact hinc hnone
  queued := by
    intro j hj hreset
    by_cases hjc : j = c
    · exact .inl (mem_cons.mpr (.inl hjc))
    rcases h.queued j hj hreset with hmem | ⟨w, l, hw, hwestab, hwinc, hl⟩
    · exact .inl (mem_cons_of_mem c hmem)
    · exact .inr ⟨w, l, (set_ne hjc).trans hw, hwestab, hwinc,
        obj_set (v := { t with listening := none, incoming := none }) ht rfl hl⟩
  owed := by
    intro j hj
    obtain ⟨w, hw, hwestab⟩ := h.owed j hj
    obtain ⟨hwtcb, hwlive⟩ := obj_eq_some.mp hw
    by_cases hjc : j = c
    · rw [hjc, ht] at hwtcb
      cases hwtcb
      exact ⟨{ t with listening := none, incoming := none },
        hjc ▸ obj_eq_some.mpr ⟨set_self, hwlive⟩, hestab⟩
    · exact ⟨w, obj_eq_some.mpr ⟨(set_ne hjc).trans hwtcb, hwlive⟩, hwestab⟩
  connlog := h.connlog

/-- A socket is deleted that nobody waits for. -/
theorem Served.delete (h : Served s) (hlinked : Linked False s) (ht : s.tcb i = some t)
    (hnone : t.incoming = none) (howed : ¬ s.Owed i)
    (hq : ∀ c ∈ t.incomingq, s.stateOf c ≠ some .estab) : Served (s.delete i) := by
  have heq : s.delete i = { s.set i { t with
      incoming := none, timewaittm := false, destroytm := false, live := false }
        with destroyed := i :: s.destroyed } := by
    unfold Tcpnet.delete
    rw [ht, elim_some, hnone]
    rfl
  suffices hset : Served (s.set i { t with
      incoming := none, timewaittm := false, destroytm := false, live := false }) by
    rw [heq]
    exact hset.of_eq rfl rfl rfl rfl (fun _ hj => hj) h.connlog
  refine ⟨fun j w hw hstate => ?_, fun j hj => ?_, h.nodup, fun j hj hreset => ?_,
    fun j hj => ?_, h.connlog⟩
  · by_cases hj : j = i
    · rw [hj, set_self] at hw
      cases hw
      exact absurd hnone (h.half i t ht hstate)
    · rw [set_ne hj] at hw
      exact h.half j w hw hstate
  · obtain ⟨w, hw, hwnone⟩ := h.taken j hj
    by_cases hji : j = i
    · rw [hji]
      exact ⟨_, set_self, rfl⟩
    · exact ⟨w, (set_ne hji).trans hw, hwnone⟩
  · refine (h.queued j hj hreset).imp_right ?_
    rintro ⟨w, l, hw, hestab, hinc, hl⟩
    have hji : j ≠ i := by
      rintro rfl
      rw [ht] at hw
      cases hw
      rw [hnone] at hinc
      cases hinc
    -- the socket that listens is another one: it has a child in `SESTAB`
    have hli : l ≠ i := by
      rintro rfl
      obtain ⟨-, -, -, u, hu, -, hmem⟩ := hlinked.child j w l hw hinc
      rw [ht] at hu
      cases hu
      refine hq j hmem ?_
      rw [stateOf, hw, map_some, hestab]
    obtain ⟨u, hu⟩ := ne_none_iff_exists'.mp hl
    obtain ⟨hutcb, hulive⟩ := obj_eq_some.mp hu
    refine ⟨w, l, (set_ne hji).trans hw, hestab, hinc, ?_⟩
    rw [obj_eq_some.mpr ⟨(set_ne hli).trans hutcb, hulive⟩]
    exact some_ne_none u
  · obtain ⟨w, hw, hestab⟩ := h.owed j hj
    obtain ⟨hwtcb, hwlive⟩ := obj_eq_some.mp hw
    have hji : j ≠ i := by
      rintro rfl
      exact howed hj
    exact ⟨w, obj_eq_some.mpr ⟨(set_ne hji).trans hwtcb, hwlive⟩, hestab⟩

/-! ## Tasks -/

theorem Owed.of_setTask {w : Waiting} {j : Nat} (hw : w ≠ .connect j true)
    (hj : (s.setTask tid w).Owed j) : s.Owed j := by
  obtain ⟨tid', htask⟩ := hj
  unfold setTask at htask
  dsimp only at htask
  split at htask
  · exact absurd htask hw
  · exact ⟨tid', htask⟩

/-- Only the tasks that connect `i` hear of it. -/
theorem Owed.of_reach {j : Nat} (hj : (s.reach i).Owed j) : j = i ∨ s.Owed j := by
  obtain ⟨tid, htask⟩ := hj
  unfold reach at htask
  dsimp only at htask
  cases hw : s.tasks tid with
  | idle | accept l =>
      rw [hw] at htask
      cases htask
  | connect k reached =>
      rw [hw] at htask
      injection htask with hk hor
      rcases Bool.or_eq_true_iff.mp hor with hreached | hik
      · exact .inr ⟨tid, by rw [hw, hk, hreached]⟩
      · exact .inl (hk.symm.trans (beq_iff_eq.mp hik).symm)

theorem Served.reach (h : Served s) (ht : s.obj i = some t) (hestab : t.sock.state = .estab) :
    Served (s.reach i) where
  half := h.half
  taken := h.taken
  nodup := h.nodup
  queued := h.queued
  owed := by
    intro j hj
    rcases hj.of_reach with rfl | hj
    · exact ⟨t, ht, hestab⟩
    · exact h.owed j hj
  connlog := h.connlog

/-- A task that does not wait for a `connect` any more, or not yet. -/
theorem Served.setTask (h : Served s) (tid : Nat) (w : Waiting) (hw : ∀ j, w ≠ .connect j true) :
    Served (s.setTask tid w) :=
  h.of_eq rfl rfl rfl rfl (fun j hj => hj.of_setTask (hw j)) h.connlog

/-! ## One step -/

theorem Served.accept (h : Served s) (hlinked : Linked False s) {put : Bool}
    (hput : put = false → ∀ u, s.obj l = some u → s.client u = none)
    (ht : s.acceptLoop tid l put = some s') : Served s' := by
  obtain ⟨u, hu, ht⟩ := bind_eq_some_iff.mp ht
  obtain ⟨hutcb, -⟩ := obj_eq_some.mp hu
  cases hclient : s.client u with
  | none =>
      rw [hclient, elim_none] at ht
      cases ht
      exact h.setTask _ _ fun j hj => by cases hj
  | some c =>
      rw [hclient, elim_some] at ht
      have hmem : c ∈ u.incomingq := mem_of_find?_eq_some hclient
      have hestab : s.stateOf c = some .estab := by simpa using List.find?_some hclient
      obtain ⟨hlisten, t, htc, hinc⟩ := hlinked.queue l u c hutcb hmem
      have hcl : c ≠ l := hlinked.ne htc hinc
      rw [stateOf, htc, map_some, some_inj] at hestab
      obtain ⟨heq, -⟩ := hlinked.takeclient htc hinc hutcb
      rw [heq] at ht
      cases put with
      | false =>
          rw [hput rfl u hu] at hclient
          cases hclient
      | true =>
          cases ht
          have hne : t.incoming ≠ none := by rw [hinc]; exact some_ne_none l
          have hset : Served (s.set l { u with incomingq := u.incomingq.erase c }) :=
            h.same hutcb rfl rfl rfl
          have htake := hset.take ((set_ne hcl).trans htc) hestab hne
          exact htake.setTask tid .idle fun j hj => by cases hj

/-- A timer deletes a socket that nobody waits for. -/
theorem Served.expire (h : Served s) (hlinked : Linked False s) (active : Tcb → Bool)
    (stop : Tcb → Tcb) (hstop : ∀ t, s.tcb i = some t → active t = true → Tcb.Keeps t (stop t))
    (hsock : ∀ t, (stop t).sock = t.sock) (hfine : s.Spares i active)
    (ht : s.expire i active stop = some s') : Served s' := by
  obtain ⟨t, hfilter, ht⟩ := map_eq_some_iff.mp ht
  obtain ⟨htcb, hact⟩ := filter_eq_some_iff.mp hfilter
  have hkeeps := hstop t htcb hact
  have hset : Served (s.set i (stop t)) :=
    h.same htcb hkeeps.incoming hkeeps.live (congrArg Sock.state (hsock t))
  split at ht
  · next href =>
      cases ht
      obtain ⟨howed, hq⟩ := hfine t htcb hact href
      have hinc : t.incoming = none := by
        cases hinc : t.incoming with
        | none => rfl
        | some l =>
            have hone := (hlinked.child i t l htcb hinc).2.1
            rw [href] at hone
            cases hone
      refine hset.delete (hlinked.set htcb hkeeps) set_self (hkeeps.incoming.trans hinc) howed ?_
      intro c hc hestab
      rw [hkeeps.incomingq] at hc
      refine hq c hc ?_
      by_cases hci : c = i
      · rw [hci, stateOf, set_self, map_some, hsock] at hestab
        rw [hci, stateOf, htcb, map_some]
        exact hestab
      · rw [stateOf, set_ne hci] at hestab
        exact hestab
  · cases ht
    exact hset

end Unixlite.Net.Tcpnet

/-! ## A socket in `SESTAB` -/

namespace Unixlite.Net.Sock

open Unixlite.Verified

variable {s t : Sock} {passedtick : Nat} {d r : Answer}

theorem shutdown_synrecv (s : Sock) (passedtick : Nat) (ans : Answer) :
    (s.shutdown passedtick ans).2.state = .synrecv → s.state = .synrecv := by
  unfold shutdown shutdownState
  intro h
  cases hstate : s.state with
  | synrecv => rfl
  | estab | closewait =>
      rw [hstate] at h
      cases h
  | closed | listen | synsent | finwait1 | finwait2 | timewait | lastack | closing =>
      simp only [hstate] at h
      cases h

/-- A segment that takes the socket out of `SESTAB` is a reset, or there is a FIN. -/
theorem input_estab {seg : Segment} (hs : s.state = .estab)
    (ht : s.input passedtick seg d r = some t) :
    t.state = .estab ∨ Tcpnet.fits seg = true ∧
      (seg.hdr.has TCPFRST = true ∧ t.state = .closed ∨
        seg.hdr.has TCPFRST = false ∧
          (s.rcv.finrecved = true ∨ seg.hdr.has TCPFFIN = true)) := by
  unfold input at ht
  dsimp only at ht
  split at ht
  · cases ht
    exact .inl hs
  next hfits =>
  have hfits' : Tcpnet.fits seg = true := by
    unfold Tcpnet.fits
    rw [Bool.eq_false_of_not_eq_true hfits]
    rfl
  split at ht
  · next hrst =>
    cases ht
    refine .inr ⟨hfits', .inl ⟨hrst, ?_⟩⟩
    unfold abort
    rw [hs, if_neg (by decide)]
  next hrst =>
  have hstate := inputdata_state { s with snd := s.sndupdate passedtick seg.hdr } passedtick
    (inpkt seg) d
  have hfin := inputdata_fin { s with snd := s.sndupdate passedtick seg.hdr } passedtick
    (inpkt seg) d
  unfold inputstate at ht
  simp only [hs] at ht
  simp only [hs] at hstate hfin
  split at ht
  · next hrecved =>
    refine .inr ⟨hfits', .inr ⟨Bool.eq_false_of_not_eq_true hrst, ?_⟩⟩
    exact Bool.or_eq_true_iff.mp (hfin.symm.trans hrecved)
  · cases ht
    exact .inl hstate

end Unixlite.Net.Sock

/-! ## Runs -/

namespace Unixlite.Net.Tcpnet

open Unixlite.Verified Unixlite.Verified.Run Option List

variable {s s' : Tcpnet} {i l c tid : Nat} {t u v : Tcb}

theorem Served.input (h : Served s) (hlinked : Linked False s) {seg : Segment}
    {saddr daddr : BitVec 32} {tail : List Byte} {d r : Answer}
    (hfine : s.Undisturbed (.input i seg saddr daddr tail d r))
    (ht : s.input i seg saddr daddr tail d r = some s') : Served s' := by
  obtain ⟨t, htcb, hlive, hin⟩ := input_cases ht
  have hobj : s.obj i = some t := obj_eq_some.mpr ⟨htcb, hlive⟩
  obtain ⟨hestab, hsynrecv⟩ := hfine t hobj
  cases hin with
  | ignored => exact h
  | dropped sock hsame _ => exact h.same htcb rfl rfl hsame
  | child sock csock laddr faddr iss hlisten hsock hcsock =>
      have hset : Served (s.set i { t with sock := sock, incomingq := t.incomingq ++ [s.next] }) :=
        h.same htcb rfl rfl (hsock.trans hlisten.symm)
      have hfresh : s.tcb s.next = none := hlinked.fresh s.next (Nat.le_refl _)
      have hne : s.next ≠ i := by
        rintro rfl
        rw [htcb] at hfresh
        cases hfresh
      have hnew := hset.new (t := ⟨csock, laddr, faddr, 1, some i, some i, [], false, false,
        true⟩) ((set_ne hne).trans hfresh) fun _ => some_ne_none i
      exact hnew.of_eq rfl rfl rfl rfl (fun _ hj => hj) h.connlog
  | synsent sock hbefore hafter =>
      have hhalf : sock.state = .synrecv → t.sock.state = .synrecv := by
        rw [hafter]
        intro hhalf
        cases hhalf
      have hset : Served (s.set i { t with sock := sock }) :=
        h.set (v := { t with sock := sock }) htcb rfl rfl hhalf (fun _ hj => hj)
          (fun _ _ _ => hafter) fun _ _ => hafter
      exact hset.reach (obj_eq_some.mpr ⟨set_self, hlive⟩) hafter
  | synrecv sock hbefore hafter hhandles hack =>
      have hset : Served (s.set i { t with sock := sock }) :=
        h.set (v := { t with sock := sock }) htcb rfl rfl (fun _ => hbefore) (fun _ hj => hj)
          (fun _ _ _ => hafter) fun _ _ => hafter
      obtain ⟨l, hinc⟩ := ne_none_iff_exists'.mp (h.half i t htcb hbefore)
      exact hset.finish ⟨{ t with sock := sock }, l, set_self, hafter, hinc,
        obj_set (v := { t with sock := sock }) htcb rfl (hsynrecv hbefore hhandles hack l hinc)⟩
  | connected sock timewaittm _ _ _ hsock =>
      have hhalf : sock.state = .synrecv → t.sock.state = .synrecv := by
        intro hhalf
        exact (Sock.input_early hsock (by rw [hhalf]; rfl)).trans hhalf
      have hsub : ∀ j ∈ s.resets, j ∈ (if t.sock.state = .estab ∧ sock.state = .closed
          then i :: s.resets else s.resets) := by
        intro j hj
        split
        · exact mem_cons_of_mem i hj
        · exact hj
      refine h.set (v := { t with sock := sock, timewaittm := timewaittm }) htcb rfl rfl hhalf
        hsub (fun hbefore hne hreset => ?_) fun hbefore howed => ?_
      · rcases Sock.input_estab hbefore hsock with hafter | ⟨hfits, ⟨hrst, hclosed⟩ | ⟨hrst, hfin⟩⟩
        · exact hafter
        · rw [if_pos ⟨hbefore, hclosed⟩] at hreset
          exact absurd mem_cons_self hreset
        · exact absurd ((hestab hbefore hfits).2 hrst hfin).1 hne
      · rcases Sock.input_estab hbefore hsock with hafter | ⟨hfits, ⟨hrst, -⟩ | ⟨hrst, hfin⟩⟩
        · exact hafter
        · exact absurd howed ((hestab hbefore hfits).1 hrst)
        · exact absurd howed ((hestab hbefore hfits).2 hrst hfin).2

theorem step_served (h : Served s) (hlinked : Linked False s) {a : Netevent}
    (hfine : s.Undisturbed a) (ht : s.step a = some s') : Served s' := by
  cases a with
  | socket lport put =>
      cases ht
      unfold Tcpnet.socket
      have hfresh : s.tcb s.next = none := hlinked.fresh s.next (Nat.le_refl _)
      have hnew := h.new (t := ⟨Sock.fresh lport 0, 0, 0, 1, none, none, [], false, false, true⟩)
        hfresh fun hhalf => by cases hhalf
      split
      · exact hnew
      · refine hnew.delete (hlinked.new rfl rfl rfl rfl) set_self rfl (fun howed => ?_)
          fun c hc => by cases hc
        obtain ⟨t, ht, -⟩ := h.owed s.next howed
        rw [(obj_eq_some.mp ht).1] at hfresh
        cases hfresh
  | hold i =>
      obtain ⟨t, huser, ht⟩ := map_eq_some_iff.mp ht
      obtain ⟨htcb, -⟩ := user_eq_some.mp huser
      cases ht
      exact h.same (v := { t with refcnt := t.refcnt + 1 }) htcb rfl rfl rfl
  | lose i ans =>
      obtain ⟨t, huser, ht⟩ := map_eq_some_iff.mp ht
      obtain ⟨htcb, -, -, hinc⟩ := user_eq_some.mp huser
      split at ht
      · cases ht
        exact h.same (v := { t with refcnt := t.refcnt - 1 }) htcb rfl rfl rfl
      · next href =>
        cases ht
        exact h.user (v := { t with
            refcnt := 0, sock := (t.sock.shutdown s.passedtick ans).2, destroytm := true })
          htcb hinc rfl rfl (Sock.shutdown_synrecv t.sock s.passedtick ans)
          fun hestab howed => absurd howed (hfine t huser (not_not.mp href) hestab)
  | listen i =>
      obtain ⟨t, huser, ht⟩ := map_eq_some_iff.mp ht
      obtain ⟨htcb, -, -, hinc⟩ := user_eq_some.mp huser
      split at ht
      · cases ht
        exact h
      · next hclosed =>
        cases ht
        refine h.user (v := { t with sock := t.sock.change .listen }) htcb hinc rfl rfl
          (fun hhalf => by cases hhalf) fun hestab _ => ?_
        rw [not_not.mp hclosed] at hestab
        cases hestab
  | connect tid i route faddr fport ans =>
      obtain ⟨t, huser, ht⟩ := bind_eq_some_iff.mp ht
      obtain ⟨htcb, -, -, hinc⟩ := user_eq_some.mp huser
      split at ht
      · cases ht
      split at ht
      · cases ht
        exact h
      next hclosed =>
      cases route with
      | none =>
          cases ht
          exact h
      | some praddr =>
          cases ht
          push Not at hclosed
          have hset : Served (s.set i { t with
              sock := t.sock.startconnect s.passedtick s.iss fport ans, laddr := praddr
              faddr := faddr }) := by
            refine h.user htcb hinc rfl rfl (fun hhalf => by cases hhalf) fun hestab _ => ?_
            rw [hclosed.1] at hestab
            cases hestab
          have hiss : Served { s.set i { t with
              sock := t.sock.startconnect s.passedtick s.iss fport ans, laddr := praddr
              faddr := faddr } with iss := s.iss + BitVec.ofNat 32 s.passedtick } :=
            hset.of_eq rfl rfl rfl rfl (fun _ hj => hj) h.connlog
          exact hiss.setTask _ _ fun j hj => by cases hj
  | accept tid i put =>
      unfold step Tcpnet.accept at ht
      dsimp only at ht
      split at ht
      · cases ht
      · next hidle =>
        obtain ⟨u, hu, ht⟩ := bind_eq_some_iff.mp ht
        refine h.accept hlinked (fun hput w hw => ?_) ht
        obtain ⟨hutcb, hulive, -⟩ := user_eq_some.mp hu
        rw [obj_eq_some.mpr ⟨hutcb, hulive⟩] at hw
        cases hw
        exact hfine (not_not.mp hidle) hput u hu
  | resume tid sig put =>
      unfold step Tcpnet.resume at ht
      dsimp only at ht
      cases htask : s.tasks tid with
      | idle =>
          rw [htask] at ht
          cases ht
      | accept l =>
          rw [htask] at ht
          dsimp only at ht
          split at ht
          · cases ht
            exact h.setTask _ _ fun j hj => by cases hj
          · next hsig =>
            exact h.accept hlinked
              (fun hput => hfine.1 l htask (Bool.eq_false_of_not_eq_true hsig) hput) ht
      | connect i reached =>
          rw [htask] at ht
          obtain ⟨t, hobj, ht⟩ := map_eq_some_iff.mp ht
          have hestab : reached = true → t.sock.state = .estab := by
            intro hreached
            obtain ⟨w, hw, hestab⟩ := h.owed i ⟨tid, by rw [htask, hreached]⟩
            rw [hobj] at hw
            cases hw
            exact hestab
          have hlog : ∀ {x : Option Int}, (reached = true → x = some 0) →
              ∀ e ∈ (reached, x) :: s.connlog, e.1 = true → e.2 = some 0 := by
            intro x hx e he
            rcases mem_cons.mp he with rfl | he
            · exact hx
            · exact h.connlog e he
          have howed : ∀ j, (s.setTask tid .idle).Owed j → s.Owed j :=
            fun j hj => hj.of_setTask fun hw => by cases hw
          split at ht
          · next hsig =>
            cases ht
            refine h.of_eq rfl rfl rfl rfl howed (hlog fun hreached => ?_)
            rw [hfine.2 i (by rw [htask, hreached])] at hsig
            cases hsig
          split at ht
          · cases ht
            exact h.of_eq rfl rfl rfl rfl howed (hlog fun _ => rfl)
          · next hnot =>
            cases ht
            exact h.of_eq rfl rfl rfl rfl (fun _ hj => hj)
              (hlog fun hreached => absurd (hestab hreached) hnot)
  | input i seg saddr daddr tail d r => exact h.input hlinked hfine ht
  | shutdown i ans =>
      obtain ⟨t, huser, ht⟩ := map_eq_some_iff.mp ht
      obtain ⟨htcb, -, -, hinc⟩ := user_eq_some.mp huser
      cases ht
      exact h.user (v := { t with sock := (t.sock.shutdown s.passedtick ans).2 }) htcb hinc rfl
        rfl (Sock.shutdown_synrecv t.sock s.passedtick ans)
        fun hestab howed => absurd howed (hfine t huser hestab)
  | timewaitto i =>
      refine h.expire hlinked Tcb.timewaittm (fun t => { t with timewaittm := false })
        (fun t htcb hact => ?_) (fun _ => rfl) hfine ht
      exact ⟨rfl, rfl, rfl, rfl, fun _ => rfl, id, fun _ => id,
        fun _ => hlinked.timer i t htcb (.inl hact)⟩
  | destroyto i =>
      refine h.expire hlinked Tcb.destroytm (fun t => { t with destroytm := false })
        (fun t htcb hact => ?_) (fun _ => rfl) hfine ht
      exact ⟨rfl, rfl, rfl, rfl, fun _ => rfl, id, fun _ => id,
        fun _ => hlinked.timer i t htcb (.inr hact)⟩
  | other i sock =>
      obtain ⟨t, hobj, ht⟩ := map_eq_some_iff.mp ht
      obtain ⟨htcb, -⟩ := obj_eq_some.mp hobj
      cases ht
      exact h.same (v := { t with sock := { sock with state := t.sock.state } }) htcb rfl rfl rfl
  | tick =>
      cases ht
      exact h.of_eq rfl rfl rfl rfl (fun _ hj => hj) h.connlog

theorem boot_served (iss : Seq) (passedtick : Nat) : Served (boot iss passedtick) :=
  ⟨fun _ _ ht => (by cases ht), fun _ hj => (by cases hj), nodup_nil,
    fun _ hj => (by cases hj), fun _ ⟨_, htask⟩ => (by cases htask), fun _ he => (by cases he)⟩

/-- A segment of 40 bytes with `flags`. -/
def bareseg (sport dport : BitVec 16) (seq ack : Seq) (flags : BitVec 8) : Segment :=
  ⟨40, ⟨sport, dport, seq, ack, flags, 8192, 0, []⟩, [], 60⟩

/-- A client connects to port 80. -/
def handshake : List Netevent :=
  [.socket 80 true, .listen 0,
    .input 0 (bareseg 1024 80 7 0 TCPFSYN) 1 2 [] ⟨true, true, 0⟩ ⟨true, true, 0⟩,
    .input 1 (bareseg 1024 80 8 124 TCPFACK) 1 2 [] ⟨true, true, 0⟩ ⟨true, true, 0⟩]

end Unixlite.Net.Tcpnet
