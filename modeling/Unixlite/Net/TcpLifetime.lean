import Unixlite.Net.TcpListen

/-!
# How long a listening socket lives

A child has two pointers to the socket that listens for it, `listening` and the links of
`incomingq`; nothing takes them away when that socket is deleted.  Timers are stopped by
their destructor, so that no socket is deleted by a timer of its own twice.
-/

namespace Unixlite.Net.Tcpnet

open Unixlite.Verified.Run Option List

/-! ## The property and the condition -/

/-- No pointer of a socket refers to a deleted one, and none was deleted twice. -/
structure LifetimeOk (s : Tcpnet) : Prop where
  listening : ∀ i t l, s.obj i = some t → t.listening = some l → s.obj l ≠ none
  incoming : ∀ i t l, s.obj i = some t → t.incoming = some l → s.obj l ≠ none
  incomingq : ∀ i t c, s.obj i = some t → c ∈ t.incomingq → s.obj c ≠ none
  once : ∀ i, s.destroyed.count i ≤ 1

/-- The condition: a timer does not delete a socket that has children on its queue. -/
def Childless (s : Tcpnet) : Netevent → Prop
  | .timewaitto i =>
      ∀ t, s.tcb i = some t → t.timewaittm = true → t.refcnt = 0 → t.incomingq = []
  | .destroyto i =>
      ∀ t, s.tcb i = some t → t.destroytm = true → t.refcnt = 0 → t.incomingq = []
  | _ => True

/-! ## The invariant -/

/-- Both ends of a link know each other.  The child is live; if `strict`, so is the socket
that listens. -/
structure Linked (strict : Prop) (s : Tcpnet) : Prop where
  fresh : ∀ i, s.next ≤ i → s.tcb i = none
  child : ∀ i t l, s.tcb i = some t → t.incoming = some l →
    t.live = true ∧ t.refcnt = 1 ∧ t.sock.state ≠ .listen ∧
      ∃ u, s.tcb l = some u ∧ (strict → u.live = true) ∧ i ∈ u.incomingq
  same : ∀ i t, s.tcb i = some t → t.listening = t.incoming
  queue : ∀ l u c, s.tcb l = some u → c ∈ u.incomingq →
    u.sock.state = .listen ∧ ∃ t, s.tcb c = some t ∧ t.incoming = some l
  nodup : ∀ l u, s.tcb l = some u → u.incomingq.Nodup
  timer : ∀ i t, s.tcb i = some t → t.timewaittm = true ∨ t.destroytm = true → t.live = true
  dead : ∀ i, i ∈ s.destroyed → ∃ t, s.tcb i = some t ∧ t.live = false
  once : s.destroyed.Nodup

variable {strict : Prop} {s s' : Tcpnet} {i l c : Nat} {t t' u : Tcb}

/-- The tables agree: nothing else matters. -/
theorem Linked.of_eq (h : Linked strict s) (htcb : s'.tcb = s.tcb) (hnext : s'.next = s.next)
    (hdestroyed : s'.destroyed = s.destroyed) : Linked strict s' where
  fresh := by rw [htcb, hnext]; exact h.fresh
  child := by rw [htcb]; exact h.child
  same := by rw [htcb]; exact h.same
  queue := by rw [htcb]; exact h.queue
  nodup := by rw [htcb]; exact h.nodup
  timer := by rw [htcb]; exact h.timer
  dead := by rw [htcb, hdestroyed]; exact h.dead
  once := by rw [hdestroyed]; exact h.once

theorem Linked.lifetimeOk (h : Linked True s) : LifetimeOk s where
  listening := by
    intro i t l ht hl
    obtain ⟨htcb, -⟩ := obj_eq_some.mp ht
    obtain ⟨-, -, -, u, hu, hlive, -⟩ := h.child i t l htcb ((h.same i t htcb).symm.trans hl)
    rw [obj_eq_some.mpr ⟨hu, hlive trivial⟩]
    exact some_ne_none u
  incoming := by
    intro i t l ht hl
    obtain ⟨htcb, -⟩ := obj_eq_some.mp ht
    obtain ⟨-, -, -, u, hu, hlive, -⟩ := h.child i t l htcb hl
    rw [obj_eq_some.mpr ⟨hu, hlive trivial⟩]
    exact some_ne_none u
  incomingq := by
    intro l u c hu hc
    obtain ⟨htcb, -⟩ := obj_eq_some.mp hu
    obtain ⟨-, t, ht, hinc⟩ := h.queue l u c htcb hc
    rw [obj_eq_some.mpr ⟨ht, (h.child c t l ht hinc).1⟩]
    exact some_ne_none t
  once := fun i => nodup_iff_count_le_one.mp h.once i

/-! ## Changes to one socket -/

/-- `t'` is `t` with other contents, and the links of `t`. -/
structure Tcb.Keeps (t t' : Tcb) : Prop where
  listening : t'.listening = t.listening
  incoming : t'.incoming = t.incoming
  incomingq : t'.incomingq = t.incomingq
  live : t'.live = t.live
  refcnt : t.incoming ≠ none → t'.refcnt = t.refcnt
  state : t.sock.state = .listen → t'.sock.state = .listen
  child : t.incoming ≠ none → t'.sock.state = .listen → t.sock.state = .listen
  timer : t'.timewaittm = true ∨ t'.destroytm = true → t.live = true

/-- What `Linked` says about one socket. -/
structure Placed (strict : Prop) (s : Tcpnet) (i : Nat) (t : Tcb) : Prop where
  child : ∀ l, t.incoming = some l → t.live = true ∧ t.refcnt = 1 ∧ t.sock.state ≠ .listen ∧
    ∃ u, s.tcb l = some u ∧ (strict → u.live = true) ∧ i ∈ u.incomingq
  same : t.listening = t.incoming
  queue : ∀ c ∈ t.incomingq, t.sock.state = .listen ∧ ∃ u, s.tcb c = some u ∧ u.incoming = some i
  nodup : t.incomingq.Nodup
  timer : t.timewaittm = true ∨ t.destroytm = true → t.live = true

theorem Linked.placed (h : Linked strict s) (ht : s.tcb i = some t) : Placed strict s i t :=
  ⟨fun l => h.child i t l ht, h.same i t ht, fun c => h.queue i t c ht, h.nodup i t ht,
    h.timer i t ht⟩

/-- The step for several sockets.  Those that lose their place on a queue are `gone`; who is
not placed anew is as it was, and has no link to them. -/
theorem Linked.change (h : Linked strict s) (gone : Nat → Prop)
    (hfresh : ∀ i, s'.next ≤ i → s'.tcb i = none) (hdestroyed : s'.destroyed = s.destroyed)
    (hkeep : ∀ {j w}, s.tcb j = some w → ∃ w', s'.tcb j = some w' ∧ w'.live = w.live ∧
      (¬gone j → w'.incoming = w.incoming) ∧ ∀ d ∈ w.incomingq, ¬gone d → d ∈ w'.incomingq)
    (hown : ∀ {j w}, s'.tcb j = some w → Placed strict s' j w ∨
      s.tcb j = some w ∧ ¬gone j ∧ ∀ d ∈ w.incomingq, ¬gone d) : Linked strict s' := by
  have hplaced : ∀ j w, s'.tcb j = some w → Placed strict s' j w := by
    intro j w hw
    rcases hown hw with hp | ⟨hw, hj, hgone⟩
    · exact hp
    have hp := h.placed hw
    refine ⟨fun k hk => ?_, hp.same, fun d hd => ?_, hp.nodup, hp.timer⟩
    · obtain ⟨hlive, href, hstate, v, hv, hvlive, hmem⟩ := hp.child k hk
      obtain ⟨v', hv', hsame, -, hsub⟩ := hkeep hv
      exact ⟨hlive, href, hstate, v', hv', fun hs => hsame.trans (hvlive hs), hsub j hmem hj⟩
    · obtain ⟨hstate, v, hv, hinc⟩ := hp.queue d hd
      obtain ⟨v', hv', -, hsame, -⟩ := hkeep hv
      exact ⟨hstate, v', hv', (hsame (hgone d hd)).trans hinc⟩
  refine ⟨hfresh, fun j w l hw => (hplaced j w hw).child l, fun j w hw => (hplaced j w hw).same,
    fun j w c hw => (hplaced j w hw).queue c, fun j w hw => (hplaced j w hw).nodup,
    fun j w hw => (hplaced j w hw).timer, fun j hj => ?_, hdestroyed ▸ h.once⟩
  rw [hdestroyed] at hj
  obtain ⟨w, hw, hdead⟩ := h.dead j hj
  obtain ⟨w', hw', hsame, -⟩ := hkeep hw
  exact ⟨w', hw', hsame.trans hdead⟩

theorem Linked.set (h : Linked strict s) (ht : s.tcb i = some t) (hkeeps : Tcb.Keeps t t') :
    Linked strict (s.set i t') := by
  have hnew : ∀ {j u}, s.tcb j = some u → ∃ u', (s.set i t').tcb j = some u' ∧
      u'.live = u.live ∧ (¬False → u'.incoming = u.incoming) ∧
        ∀ d ∈ u.incomingq, ¬False → d ∈ u'.incomingq := by
    intro j u hu
    by_cases hj : j = i
    · rw [hj, ht] at hu
      cases hu
      exact ⟨t', hj ▸ set_self, hkeeps.live, fun _ => hkeeps.incoming,
        fun d hd _ => hkeeps.incomingq ▸ hd⟩
    · exact ⟨u, (set_ne hj).trans hu, rfl, fun _ => rfl, fun _ hd _ => hd⟩
  refine h.change (fun _ => False) (fun j hj => ?_) rfl hnew fun {j w} hw => ?_
  · by_cases hji : j = i
    · rw [hji] at hj
      rw [h.fresh i hj] at ht
      cases ht
    · exact (set_ne hji).trans (h.fresh j hj)
  by_cases hj : j = i
  · rw [hj, set_self] at hw
    cases hw
    have hp := h.placed ht
    rw [hj]
    refine .inl ⟨fun l hl => ?_, hkeeps.listening.trans (hp.same.trans hkeeps.incoming.symm),
      fun c hc => ?_, hkeeps.incomingq ▸ hp.nodup, fun htm => hkeeps.live.trans (hkeeps.timer htm)⟩
    · rw [hkeeps.incoming] at hl
      obtain ⟨hlive, href, hstate, u, hu, hulive, hmem⟩ := hp.child l hl
      obtain ⟨u', hu', hsame, -, hsub⟩ := hnew hu
      have hne : t.incoming ≠ none := by rw [hl]; exact some_ne_none l
      exact ⟨hkeeps.live.trans hlive, (hkeeps.refcnt hne).trans href,
        fun hlisten => hstate (hkeeps.child hne hlisten), u', hu',
        fun hs => hsame.trans (hulive hs), hsub i hmem id⟩
    · rw [hkeeps.incomingq] at hc
      obtain ⟨hstate, u, hu, hinc⟩ := hp.queue c hc
      obtain ⟨u', hu', -, hsame, -⟩ := hnew hu
      exact ⟨hkeeps.state hstate, u', hu', (hsame id).trans hinc⟩
  · rw [set_ne hj] at hw
    exact .inr ⟨hw, id, fun _ _ => id⟩

/-! ## Links that are made and undone -/

/-- A socket without links. -/
theorem Linked.new (h : Linked strict s) (hlist : t.listening = none) (hinc : t.incoming = none)
    (hq : t.incomingq = []) (hlive : t.live = true) : Linked strict (s.new t) := by
  refine h.change (fun _ => False) (fun j hj => ?_) rfl (fun {j u} hu => ?_) fun {j u} hu => ?_
  · have hlt : s.next + 1 ≤ j := hj
    exact (new_ne s t (by omega)).trans (h.fresh j (by omega))
  · have hne : j ≠ s.next := by
      rintro rfl
      rw [h.fresh s.next (Nat.le_refl _)] at hu
      cases hu
    exact ⟨u, (new_ne s t hne).trans hu, rfl, fun _ => rfl, fun _ hd _ => hd⟩
  · by_cases hj : j = s.next
    · rw [hj, new_next] at hu
      cases hu
      refine .inl ⟨fun l hl => ?_, hlist.trans hinc.symm, fun c hc => ?_, ?_, fun _ => hlive⟩
      · rw [hinc] at hl
        cases hl
      · rw [hq] at hc
        cases hc
      · rw [hq]
        exact nodup_nil
    · rw [new_ne s t hj] at hu
      exact .inr ⟨hu, id, fun _ _ => id⟩

/-- A socket that listens gets the new child `t` on its queue. -/
theorem Linked.newchild (h : Linked strict s) (hu : s.tcb l = some u) (hulive : u.live = true)
    (hlisten : u.sock.state = .listen) (hlist : t.listening = some l)
    (hinc : t.incoming = some l) (hq : t.incomingq = []) (hlive : t.live = true)
    (href : t.refcnt = 1) (hstate : t.sock.state ≠ .listen) :
    Linked strict ((s.set l { u with incomingq := u.incomingq ++ [s.next] }).new t) := by
  have hnext : s.tcb s.next = none := h.fresh s.next (Nat.le_refl _)
  have hlnext : l ≠ s.next := by
    rintro rfl
    rw [hnext] at hu
    cases hu
  -- a table with `u` and `t` in place
  have hl : ((s.set l { u with incomingq := u.incomingq ++ [s.next] }).new t).tcb l =
      some { u with incomingq := u.incomingq ++ [s.next] } :=
    (new_ne (s.set l _) t hlnext).trans set_self
  have hself : ((s.set l { u with incomingq := u.incomingq ++ [s.next] }).new t).tcb s.next =
      some t := new_next (s.set l _) t
  have hother : ∀ {j}, j ≠ l → j ≠ s.next →
      ((s.set l { u with incomingq := u.incomingq ++ [s.next] }).new t).tcb j = s.tcb j :=
    fun hjl hjn => (new_ne (s.set l _) t hjn).trans (set_ne hjl)
  -- a socket that was there is there, with at least its queue
  have hkeep : ∀ {j w}, s.tcb j = some w → ∃ w',
      ((s.set l { u with incomingq := u.incomingq ++ [s.next] }).new t).tcb j = some w' ∧
        w'.live = w.live ∧ (¬False → w'.incoming = w.incoming) ∧
          ∀ c ∈ w.incomingq, ¬False → c ∈ w'.incomingq := by
    intro j w hw
    have hjn : j ≠ s.next := by
      rintro rfl
      rw [hnext] at hw
      cases hw
    by_cases hjl : j = l
    · rw [hjl, hu] at hw
      cases hw
      rw [hjl]
      exact ⟨_, hl, rfl, fun _ => rfl, fun c hc _ => mem_append_left _ hc⟩
    · exact ⟨w, (hother hjl hjn).trans hw, rfl, fun _ => rfl, fun _ hc _ => hc⟩
  have hp := h.placed hu
  refine h.change (fun _ => False) (fun j hj => ?_) rfl hkeep fun {j w} hw => ?_
  · have hlt : s.next + 1 ≤ j := hj
    have hjl : j ≠ l := by
      rintro rfl
      rw [h.fresh j (by omega)] at hu
      cases hu
    exact (hother hjl (by omega)).trans (h.fresh j (by omega))
  by_cases hjn : j = s.next
  · rw [hjn, hself] at hw
    cases hw
    rw [hjn]
    refine .inl ⟨fun k hk => ?_, hlist.trans hinc.symm, fun c hc => ?_, ?_, fun _ => hlive⟩
    · rw [hinc] at hk
      cases hk
      exact ⟨hlive, href, hstate, _, hl, fun _ => hulive,
        mem_append_right _ mem_cons_self⟩
    · rw [hq] at hc
      cases hc
    · rw [hq]
      exact nodup_nil
  by_cases hjl : j = l
  · rw [hjl, hl] at hw
    cases hw
    rw [hjl]
    refine .inl ⟨fun k hk => absurd hlisten (hp.child k hk).2.2.1, hp.same,
      fun c hc => ⟨hlisten, ?_⟩, ?_, hp.timer⟩
    · rcases mem_append.mp hc with hc | hc
      · obtain ⟨-, v, hv, hvinc⟩ := hp.queue c hc
        obtain ⟨v', hv', -, hsame, -⟩ := hkeep hv
        exact ⟨v', hv', (hsame id).trans hvinc⟩
      · rw [mem_singleton.mp hc]
        exact ⟨t, hself, hinc⟩
    · -- nobody has the number of the new socket yet
      refine nodup_append.mpr ⟨hp.nodup, nodup_singleton _, fun a ha b hb hab => ?_⟩
      rw [hab, mem_singleton.mp hb] at ha
      obtain ⟨-, v, hv, -⟩ := hp.queue s.next ha
      rw [hnext] at hv
      cases hv
  · rw [hother hjl hjn] at hw
    exact .inr ⟨hw, id, fun _ _ => id⟩

/-- Two sockets at the ends of a link are two. -/
theorem Linked.ne (h : Linked strict s) (ht : s.tcb c = some t) (hinc : t.incoming = some l) :
    c ≠ l := by
  rintro rfl
  obtain ⟨-, -, hstate, u, hu, -, hmem⟩ := h.child c t c ht hinc
  rw [ht] at hu
  cases hu
  exact hstate (h.queue c t c ht hmem).1

/-- `fetchclient` takes a child from the queue: its assertion holds, and both ends of the link
go. -/
theorem Linked.takeclient (h : Linked strict s) (ht : s.tcb c = some t) (hinc : t.incoming = some l)
    (hu : s.tcb l = some u) :
    s.takeclient l c = some ((s.set l { u with incomingq := u.incomingq.erase c }).set c
        { t with listening := none, incoming := none }) ∧
      Linked strict ((s.set l { u with incomingq := u.incomingq.erase c }).set c
        { t with listening := none, incoming := none }) := by
  have hcl : c ≠ l := h.ne ht hinc
  constructor
  · unfold Tcpnet.takeclient
    rw [ht, bind_some, h.same c t ht, hinc, if_neg (by simp)]
    simp only [unlinkincoming, hu, elim_some]
  have hc : ((s.set l { u with incomingq := u.incomingq.erase c }).set c
      { t with listening := none, incoming := none }).tcb c =
        some { t with listening := none, incoming := none } := set_self
  have hl : ((s.set l { u with incomingq := u.incomingq.erase c }).set c
      { t with listening := none, incoming := none }).tcb l =
        some { u with incomingq := u.incomingq.erase c } := (set_ne hcl.symm).trans set_self
  have hother : ∀ {j}, j ≠ c → j ≠ l →
      ((s.set l { u with incomingq := u.incomingq.erase c }).set c
        { t with listening := none, incoming := none }).tcb j = s.tcb j :=
    fun hjc hjl => (set_ne hjc).trans (set_ne hjl)
  -- what was there is there, with the same contents and no new links
  have hkeep : ∀ {j w}, s.tcb j = some w → ∃ w',
      ((s.set l { u with incomingq := u.incomingq.erase c }).set c
        { t with listening := none, incoming := none }).tcb j = some w' ∧ w'.live = w.live ∧
          (j ≠ c → w'.incoming = w.incoming) ∧
          ∀ d ∈ w.incomingq, d ≠ c → d ∈ w'.incomingq := by
    intro j w hw
    by_cases hjc : j = c
    · rw [hjc, ht] at hw
      cases hw
      rw [hjc]
      exact ⟨_, hc, rfl, fun hne => absurd rfl hne, fun d hd _ => hd⟩
    by_cases hjl : j = l
    · rw [hjl, hu] at hw
      cases hw
      rw [hjl]
      exact ⟨_, hl, rfl, fun _ => rfl, fun d hd hdc => (mem_erase_of_ne hdc).mpr hd⟩
    · exact ⟨w, (hother hjc hjl).trans hw, rfl, fun _ => rfl, fun d hd _ => hd⟩
  have hpt := h.placed ht
  have hpu := h.placed hu
  obtain ⟨-, -, hstate, u', hu', -, hmem⟩ := hpt.child l hinc
  rw [hu] at hu'
  cases hu'
  refine h.change (· = c) (fun j hj => ?_) rfl hkeep fun {j w} hw => ?_
  · have hjc : j ≠ c := by
      rintro rfl
      rw [h.fresh j hj] at ht
      cases ht
    have hjl : j ≠ l := by
      rintro rfl
      rw [h.fresh j hj] at hu
      cases hu
    exact (hother hjc hjl).trans (h.fresh j hj)
  by_cases hjc : j = c
  · rw [hjc, hc] at hw
    cases hw
    exact .inl ⟨fun k hk => (by cases hk), rfl, fun d hd => absurd (hpt.queue d hd).1 hstate,
      hpt.nodup, hpt.timer⟩
  by_cases hjl : j = l
  · rw [hjl, hl] at hw
    cases hw
    rw [hjl]
    refine .inl ⟨fun k hk => absurd (hpu.queue c hmem).1 (hpu.child k hk).2.2.1, hpu.same,
      fun d hd => ?_, hpu.nodup.erase c, hpu.timer⟩
    have hdc : d ≠ c := by
      rintro rfl
      exact hpu.nodup.not_mem_erase hd
    obtain ⟨hlisten, v, hv, hvinc⟩ := hpu.queue d (mem_of_mem_erase hd)
    obtain ⟨v', hv', -, hsame, -⟩ := hkeep hv
    exact ⟨hlisten, v', hv', (hsame hdc).trans hvinc⟩
  · rw [hother hjc hjl] at hw
    refine .inr ⟨hw, hjc, fun d hd hdc => ?_⟩
    obtain ⟨-, v, hv, hvinc⟩ := h.queue j w d hw hd
    rw [hdc, ht] at hv
    cases hv
    rw [hinc] at hvinc
    cases hvinc
    exact hjl rfl

/-- A socket that is nobody's child is deleted; in the strict sense it has no children. -/
theorem Linked.delete (h : Linked strict s) (ht : s.tcb i = some t) (hlive : t.live = true)
    (hinc : t.incoming = none) (hq : strict → t.incomingq = []) : Linked strict (s.delete i) := by
  have heq : s.delete i = { s.set i { t with
      incoming := none, timewaittm := false, destroytm := false, live := false }
        with destroyed := i :: s.destroyed } := by
    unfold Tcpnet.delete
    rw [ht, elim_some, hinc]
    rfl
  rw [heq]
  have hnot : i ∉ s.destroyed := by
    intro hmem
    obtain ⟨w, hw, hdead⟩ := h.dead i hmem
    rw [ht] at hw
    cases hw
    rw [hlive] at hdead
    cases hdead
  have hcases : ∀ {j w}, (s.set i { t with
      incoming := none, timewaittm := false, destroytm := false, live := false }).tcb j = some w →
        j = i ∧ w = { t with
          incoming := none, timewaittm := false, destroytm := false, live := false } ∨
        j ≠ i ∧ s.tcb j = some w := by
    intro j w hw
    by_cases hj : j = i
    · rw [hj, set_self] at hw
      cases hw
      exact .inl ⟨hj, rfl⟩
    · rw [set_ne hj] at hw
      exact .inr ⟨hj, hw⟩
  refine ⟨fun j hj => ?_, fun j w k hw hk => ?_, fun j w hw => ?_, fun j w d hw hd => ?_,
    fun j w hw => ?_, fun j w hw htm => ?_, fun j hj => ?_, nodup_cons.mpr ⟨hnot, h.once⟩⟩
  · have hji : j ≠ i := by
      rintro rfl
      rw [h.fresh j hj] at ht
      cases ht
    exact (set_ne hji).trans (h.fresh j hj)
  · rcases hcases hw with ⟨rfl, rfl⟩ | ⟨-, hw⟩
    · cases hk
    · obtain ⟨hwlive, hwref, hwstate, v, hv, hvlive, hmem⟩ := h.child j w k hw hk
      refine ⟨hwlive, hwref, hwstate, ?_⟩
      by_cases hki : k = i
      · rw [hki, ht] at hv
        cases hv
        have hgone : strict → False := fun hs => by
          rw [hq hs] at hmem
          cases hmem
        rw [hki]
        exact ⟨{ t with incoming := none, timewaittm := false, destroytm := false, live := false },
          set_self, fun hs => (hgone hs).elim, hmem⟩
      · exact ⟨v, (set_ne hki).trans hv, hvlive, hmem⟩
  · rcases hcases hw with ⟨rfl, rfl⟩ | ⟨-, hw⟩
    · exact (h.same _ t ht).trans hinc
    · exact h.same j w hw
  · have hsame : ∃ w', s.tcb j = some w' ∧ w'.sock = w.sock ∧ d ∈ w'.incomingq := by
      rcases hcases hw with ⟨rfl, rfl⟩ | ⟨-, hw⟩
      · exact ⟨t, ht, rfl, hd⟩
      · exact ⟨w, hw, rfl, hd⟩
    obtain ⟨w', hw', hsock, hd'⟩ := hsame
    obtain ⟨hstate, v, hv, hvinc⟩ := h.queue j w' d hw' hd'
    have hdi : d ≠ i := by
      rintro rfl
      rw [ht] at hv
      cases hv
      rw [hinc] at hvinc
      cases hvinc
    exact ⟨hsock ▸ hstate, v, (set_ne hdi).trans hv, hvinc⟩
  · rcases hcases hw with ⟨rfl, rfl⟩ | ⟨-, hw⟩
    · exact h.nodup _ t ht
    · exact h.nodup j w hw
  · rcases hcases hw with ⟨rfl, rfl⟩ | ⟨-, hw⟩
    · rcases htm with htm | htm <;> cases htm
    · exact h.timer j w hw htm
  · rcases mem_cons.mp hj with rfl | hj
    · exact ⟨_, set_self, rfl⟩
    · obtain ⟨w, hw, hdead⟩ := h.dead j hj
      have hji : j ≠ i := fun hji => hnot (hji ▸ hj)
      exact ⟨w, (set_ne hji).trans hw, hdead⟩

end Unixlite.Net.Tcpnet

/-! ## The state of a socket -/

namespace Unixlite.Net.Sock

variable {s t : Sock} {passedtick : Nat} {d r : Answer}

theorem inputdata_state (s : Sock) (passedtick : Nat) (pkt : Pkt) (ans : Answer) :
    (s.inputdata passedtick pkt ans).state = s.state := by
  unfold inputdata
  dsimp only
  split
  · exact (sendflags_rcv { s with ndelack := s.ndelack + 1 } passedtick TCPFACK ans).2
  · rfl

theorem shutdown_listen (s : Sock) (passedtick : Nat) (ans : Answer) :
    (s.shutdown passedtick ans).2.state = .listen ↔ s.state = .listen := by
  unfold shutdown shutdownState
  cases hstate : s.state with
  | estab | closewait => exact iff_of_false (fun h => by cases h) fun h => by cases h
  | closed | listen | synsent | synrecv | finwait1 | finwait2 | timewait | lastack | closing =>
      simp only [hstate]

/-- The states that `input` brings no socket into: a connected socket that is found in one of
them was in it before. -/
def early : Tcpstate → Bool
  | .listen | .synsent | .synrecv | .estab => true
  | _ => false

theorem input_early {seg : Segment} (ht : s.input passedtick seg d r = some t)
    (hearly : early t.state = true) : s.state = t.state := by
  have hdata := inputdata_state { s with snd := s.sndupdate passedtick seg.hdr } passedtick
    (inpkt seg) d
  have hack := (sendflags_rcv (inputdata { s with snd := s.sndupdate passedtick seg.hdr }
    passedtick (inpkt seg) d) passedtick TCPFACK r).2.trans hdata
  unfold input at ht
  dsimp only at ht
  split at ht
  · cases ht
    rfl
  split at ht
  · cases ht
    unfold abort at hearly ⊢
    split at hearly
    · next hne => rw [if_pos hne]
    · cases hearly
  unfold inputstate at ht
  dsimp only at ht
  split at ht
  case h_1 => cases ht; rfl
  case h_2 | h_3 | h_4 => cases ht
  case h_5 =>
    split_ifs at ht <;> cases ht
    · cases hearly
    · exact hdata.symm
  case h_6 =>
    split_ifs at ht <;> cases ht
    · cases hearly
    · cases hearly
    · cases hearly
    · exact hdata.symm
  case h_7 =>
    split_ifs at ht <;> cases ht
    · cases hearly
    · exact hdata.symm
  case h_8 => cases ht; rfl
  case h_9 =>
    split_ifs at ht <;> cases ht
    · exact hack.symm
    · exact hdata.symm
  case h_10 =>
    split_ifs at ht <;> cases ht
    · cases hearly
    · rfl
  case h_11 =>
    split_ifs at ht <;> cases ht
    · cases hearly
    · exact hdata.symm

end Unixlite.Net.Sock

/-! ## One step -/

namespace Unixlite.Net.Tcpnet

open Unixlite.Verified.Run Option List

variable {strict : Prop} {s s' : Tcpnet} {i l c tid : Nat} {t t' u : Tcb}

/-- Other contents of the socket, in the same place. -/
theorem Tcb.Keeps.sock (h : Linked strict s) (ht : s.tcb i = some t) {sock : Sock}
    (hsock : sock.state = .listen ↔ t.sock.state = .listen) :
    Tcb.Keeps t { t with sock := sock } :=
  ⟨rfl, rfl, rfl, rfl, fun _ => rfl, hsock.mpr, fun _ => hsock.mp, h.timer i t ht⟩

theorem Linked.accept (h : Linked strict s) {put : Bool} (ht : s.acceptLoop tid l put = some s') :
    Linked strict s' := by
  obtain ⟨u, hu, ht⟩ := bind_eq_some_iff.mp ht
  obtain ⟨hutcb, -⟩ := obj_eq_some.mp hu
  cases hclient : s.client u with
  | none =>
      rw [hclient, elim_none] at ht
      cases ht
      exact h.of_eq rfl rfl rfl
  | some c =>
      rw [hclient, elim_some] at ht
      have hmem : c ∈ u.incomingq := mem_of_find?_eq_some hclient
      have hestab : s.stateOf c = some .estab := by
        simpa using List.find?_some hclient
      obtain ⟨-, t, htc, hinc⟩ := h.queue l u c hutcb hmem
      obtain ⟨htlive, -, -⟩ := h.child c t l htc hinc
      obtain ⟨heq, hlinked⟩ := h.takeclient htc hinc hutcb
      rw [heq] at ht
      cases ht
      cases put with
      | true => exact hlinked.of_eq rfl rfl rfl
      | false =>
          have hnil : t.incomingq = [] := by
            rcases eq_nil_or_concat t.incomingq with hnil | ⟨q, d, hq⟩
            · exact hnil
            · have hd : d ∈ t.incomingq := by simp [hq]
              have hstate := (h.queue c t d htc hd).1
              rw [stateOf, htc, map_some, hstate] at hestab
              cases hestab
          exact (hlinked.delete set_self htlive rfl fun _ => hnil).of_eq rfl rfl rfl

theorem Linked.input (h : Linked strict s) {seg : Segment} {saddr daddr : BitVec 32}
    {tail : List Byte} {d r : Answer} (ht : s.input i seg saddr daddr tail d r = some s') :
    Linked strict s' := by
  obtain ⟨t, htcb, hlive, hin⟩ := input_cases ht
  cases hin with
  | ignored => exact h
  | dropped sock hsame hbefore => exact h.set htcb (Tcb.Keeps.sock h htcb (by rw [hsame]))
  | child sock csock laddr faddr iss hlisten hsock hcsock =>
      have hset := h.set htcb (Tcb.Keeps.sock h htcb (iff_of_true hsock hlisten))
      have hnew := hset.newchild (t := ⟨csock, laddr, faddr, 1, some i, some i, [], false, false,
        true⟩) set_self hlive hsock rfl rfl rfl rfl rfl (by simp [hcsock])
      rw [set_set] at hnew
      exact hnew.of_eq rfl rfl rfl
  | synsent sock hbefore hafter =>
      refine (h.set htcb (Tcb.Keeps.sock h htcb ?_)).of_eq rfl rfl rfl
      simp [hbefore, hafter]
  | synrecv sock hbefore hafter _ _ =>
      refine (h.set htcb (Tcb.Keeps.sock h htcb ?_)).of_eq rfl rfl rfl
      simp [hbefore, hafter]
  | connected sock timewaittm hlisten hsynsent hsynrecv hsock =>
      have hkeeps : Tcb.Keeps t { t with sock := sock, timewaittm := timewaittm } :=
        ⟨rfl, rfl, rfl, rfl, fun _ => rfl, fun hl => absurd hl hlisten,
          fun _ hl => (Sock.input_early hsock (by rw [hl]; rfl)).trans hl, fun _ => hlive⟩
      exact (h.set htcb hkeeps).of_eq rfl rfl rfl

/-- A timer that deletes its socket finds it without children. -/
theorem Linked.expire (h : Linked strict s) (active : Tcb → Bool) (stop : Tcb → Tcb)
    (hactive : ∀ t, s.tcb i = some t → active t = true → t.live = true)
    (hstop : ∀ t, s.tcb i = some t → t.live = true → Tcb.Keeps t (stop t))
    (hfine : strict → ∀ t, s.tcb i = some t → active t = true → t.refcnt = 0 → t.incomingq = [])
    (ht : s.expire i active stop = some s') : Linked strict s' := by
  obtain ⟨t, hfilter, ht⟩ := map_eq_some_iff.mp ht
  obtain ⟨htcb, hact⟩ := filter_eq_some_iff.mp hfilter
  have hlive := hactive t htcb hact
  have hkeeps := hstop t htcb hlive
  have hset := h.set htcb hkeeps
  split at ht
  · next href =>
      cases ht
      have hinc : t.incoming = none := by
        cases hinc : t.incoming with
        | none => rfl
        | some l =>
            have hone := (h.child i t l htcb hinc).2.1
            rw [href] at hone
            cases hone
      exact hset.delete set_self (hkeeps.live.trans hlive) (hkeeps.incoming.trans hinc)
        fun hs => hkeeps.incomingq.trans (hfine hs t htcb hact href)
  · cases ht
    exact hset

/-- A timer that deletes a socket with a child leaves the links of the child behind. -/
theorem Linked.expire_orphan (h : Linked True s) (active : Tcb → Bool) (stop : Tcb → Tcb)
    (hinc : ∀ t, (stop t).incoming = t.incoming) (ht : s.tcb i = some t)
    (hact : active t = true) (href : t.refcnt = 0) (hq : t.incomingq ≠ []) :
    ∃ s', s.expire i active stop = some s' ∧ ¬ LifetimeOk s' := by
  obtain ⟨c, hc⟩ := exists_mem_of_ne_nil _ hq
  obtain ⟨hstate, u, hu, hup⟩ := h.queue i t c ht hc
  obtain ⟨hulive, -⟩ := h.child c u i hu hup
  have hci : c ≠ i := h.ne hu hup
  have hnone : t.incoming = none := by
    cases hinc : t.incoming with
    | none => rfl
    | some l => exact absurd hstate (h.child i t l ht hinc).2.2.1
  refine ⟨(s.set i (stop t)).delete i, ?_, fun hok => ?_⟩
  · unfold Tcpnet.expire
    rw [ht, filter_some, if_pos hact, map_some, if_pos href]
  · have hdelete : (s.set i (stop t)).delete i = { (s.set i (stop t)).set i { stop t with
        incoming := none, timewaittm := false, destroytm := false, live := false }
          with destroyed := i :: s.destroyed } := by
      unfold Tcpnet.delete
      rw [set_self, elim_some, hinc, hnone]
      rfl
    rw [hdelete] at hok
    refine hok.incoming c u i (obj_eq_some.mpr ⟨?_, hulive⟩) hup ?_
    · exact (set_ne hci).trans ((set_ne hci).trans hu)
    · unfold obj
      rw [show Tcpnet.tcb _ i = some _ from set_self]
      rfl

theorem step_linked (h : Linked strict s) {a : Netevent} (hfine : strict → s.Childless a)
    (ht : s.step a = some s') : Linked strict s' := by
  cases a with
  | socket lport put =>
      cases ht
      unfold Tcpnet.socket
      have hnew := h.new (t := ⟨Sock.fresh lport 0, 0, 0, 1, none, none, [], false, false, true⟩)
        rfl rfl rfl rfl
      split
      · exact hnew
      · exact hnew.delete set_self rfl rfl fun _ => rfl
  | hold i =>
      obtain ⟨t, huser, ht⟩ := map_eq_some_iff.mp ht
      obtain ⟨htcb, -, -, hinc⟩ := user_eq_some.mp huser
      cases ht
      have hkeeps : Tcb.Keeps t { t with refcnt := t.refcnt + 1 } :=
        ⟨rfl, rfl, rfl, rfl, fun hne => absurd hinc hne, id, fun _ => id, h.timer i t htcb⟩
      exact h.set htcb hkeeps
  | lose i ans =>
      obtain ⟨t, huser, ht⟩ := map_eq_some_iff.mp ht
      obtain ⟨htcb, hlive, -, hinc⟩ := user_eq_some.mp huser
      split at ht
      · cases ht
        have hkeeps : Tcb.Keeps t { t with refcnt := t.refcnt - 1 } :=
          ⟨rfl, rfl, rfl, rfl, fun hne => absurd hinc hne, id, fun _ => id, h.timer i t htcb⟩
        exact h.set htcb hkeeps
      · cases ht
        have hlisten := Sock.shutdown_listen t.sock s.passedtick ans
        have hkeeps : Tcb.Keeps t { t with
            refcnt := 0, sock := (t.sock.shutdown s.passedtick ans).2, destroytm := true } :=
          ⟨rfl, rfl, rfl, rfl, fun hne => absurd hinc hne, hlisten.mpr, fun _ => hlisten.mp,
            fun _ => hlive⟩
        exact h.set htcb hkeeps
  | listen i =>
      obtain ⟨t, huser, ht⟩ := map_eq_some_iff.mp ht
      obtain ⟨htcb, -, -, hinc⟩ := user_eq_some.mp huser
      split at ht
      · cases ht
        exact h
      · cases ht
        have hkeeps : Tcb.Keeps t { t with sock := t.sock.change .listen } :=
          ⟨rfl, rfl, rfl, rfl, fun _ => rfl, fun _ => rfl, fun hne => absurd hinc hne,
            h.timer i t htcb⟩
        exact h.set htcb hkeeps
  | connect tid i route faddr fport ans =>
      obtain ⟨t, huser, ht⟩ := bind_eq_some_iff.mp ht
      obtain ⟨htcb, -, -, hinc⟩ := user_eq_some.mp huser
      split at ht
      · cases ht
      split at ht
      · cases ht
        exact h
      next hclosed =>
      cases route with
      | none =>
          cases ht
          exact h
      | some praddr =>
          cases ht
          push Not at hclosed
          have hkeeps : Tcb.Keeps t { t with
              sock := t.sock.startconnect s.passedtick s.iss fport ans, laddr := praddr
              faddr := faddr } :=
            ⟨rfl, rfl, rfl, rfl, fun _ => rfl, fun hl => (by rw [hclosed.1] at hl; cases hl),
              fun hne => absurd hinc hne, h.timer i t htcb⟩
          exact (h.set htcb hkeeps).of_eq rfl rfl rfl
  | accept tid i put =>
      unfold step Tcpnet.accept at ht
      dsimp only at ht
      split at ht
      · cases ht
      · obtain ⟨-, -, ht⟩ := bind_eq_some_iff.mp ht
        exact h.accept ht
  | resume tid sig put =>
      unfold step Tcpnet.resume at ht
      dsimp only at ht
      split at ht
      case h_1 => cases ht
      case h_2 l htask =>
        split at ht
        · cases ht
          exact h.of_eq rfl rfl rfl
        · exact h.accept ht
      case h_3 i reached htask =>
        obtain ⟨t, -, ht⟩ := map_eq_some_iff.mp ht
        split_ifs at ht <;> cases ht <;> exact h.of_eq rfl rfl rfl
  | input i seg saddr daddr tail d r => exact h.input ht
  | shutdown i ans =>
      obtain ⟨t, huser, ht⟩ := map_eq_some_iff.mp ht
      obtain ⟨htcb, -⟩ := user_eq_some.mp huser
      cases ht
      exact h.set htcb (Tcb.Keeps.sock h htcb (Sock.shutdown_listen t.sock s.passedtick ans))
  | timewaitto i =>
      exact h.expire Tcb.timewaittm (fun t => { t with timewaittm := false })
        (fun t htcb hact => h.timer i t htcb (.inl hact))
        (fun t _ hlive => ⟨rfl, rfl, rfl, rfl, fun _ => rfl, id, fun _ => id, fun _ => hlive⟩)
        hfine ht
  | destroyto i =>
      exact h.expire Tcb.destroytm (fun t => { t with destroytm := false })
        (fun t htcb hact => h.timer i t htcb (.inr hact))
        (fun t _ hlive => ⟨rfl, rfl, rfl, rfl, fun _ => rfl, id, fun _ => id, fun _ => hlive⟩)
        hfine ht
  | other i sock =>
      obtain ⟨t, hobj, ht⟩ := map_eq_some_iff.mp ht
      obtain ⟨htcb, -⟩ := obj_eq_some.mp hobj
      cases ht
      exact h.set htcb (Tcb.Keeps.sock h htcb Iff.rfl)
  | tick =>
      cases ht
      exact h.of_eq rfl rfl rfl

/-! ## Runs -/

theorem boot_linked (iss : Seq) (passedtick : Nat) : Linked strict (boot iss passedtick) :=
  ⟨fun _ _ => rfl, fun _ _ _ ht => (by cases ht), fun _ _ ht => (by cases ht),
    fun _ _ _ ht => (by cases ht), fun _ _ ht => (by cases ht), fun _ _ ht => (by cases ht),
    fun _ hi => (by cases hi), nodup_nil⟩

/-- A SYN comes to a listening socket, which is closed before the handshake is over. -/
def halfOpen : List Netevent :=
  [.socket 80 true, .listen 0,
    .input 0 ⟨40, ⟨1024, 80, 7, 0, TCPFSYN, 8192, 0, []⟩, [], 60⟩ 1 2 [] ⟨true, true, 0⟩
      ⟨true, true, 0⟩,
    .lose 0 ⟨true, true, 0⟩, .destroyto 0]

end Unixlite.Net.Tcpnet
