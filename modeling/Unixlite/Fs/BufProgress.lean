import Unixlite.Fs.BufRun

/-!
# Progress of `getb`

`getb` looks for a free buffer from the front of `freeq` on.  A buffer that is locked is passed
over until the eighth candidate, for which it waits.  So it comes to the end of the queue, and
panics, when all free buffers are locked and there are fewer of them than candidates left
(`Enough`).
-/

namespace Unixlite.Bcache

open Unixlite.Verified.Run List Option

/-- The buffers of a list that nobody holds. -/
def Cache.nfree (c : Cache) (bs : List Nat) : Nat := bs.countP fun b => (c.buf b).refcnt == 0

/-- There is no free buffer at all, or one in the list that is not locked, or as many in the
list as there are candidates. -/
def Cache.Enough (c : Cache) (candidates : Nat) (bs : List Nat) : Prop :=
  (∀ b ∈ c.allq, (c.buf b).refcnt ≠ 0) ∨
    (∃ b ∈ bs, (c.buf b).refcnt = 0 ∧ (c.buf b).locked = false) ∨
    (∃ b ∈ bs, (c.buf b).refcnt = 0) ∧ candidates ≤ c.nfree bs

section

variable {Tid : Type*}

/-- The current task is where `getb` panics. -/
def Sys.Panics (s : Sys Tid) : Prop :=
  ∃ dev bno candidates k, (s.task s.curr).phase = .scan [] dev bno candidates k

/-- Some buffer is held by nobody. -/
def Sys.HasFree (s : Sys Tid) : Prop := ∃ b ∈ s.cache.allq, (s.cache.buf b).refcnt = 0

/-- `getb` does not panic as long as there is a free buffer. -/
def Sys.NoPanic (s : Sys Tid) : Prop := ¬ (s.Panics ∧ s.HasFree)

/-- At the label `repeat`, with the block in no buffer, there is enough to choose from. -/
def Sys.Enough (s : Sys Tid) (e : Event Tid) : Prop :=
  e = .go → ∀ dev bno candidates k, (s.task s.curr).phase = .getb dev bno candidates k →
    s.cache.findb dev bno = none → s.cache.Enough candidates s.cache.freeq

/-- The task that scans has enough to choose from in what it has not seen yet. -/
def Sys.Scans (s : Sys Tid) : Prop :=
  ∀ rest dev bno candidates k, (s.task s.curr).phase = .scan rest dev bno candidates k →
    s.cache.Enough candidates rest

/-- The task sleeps, or `getb` returns. -/
def Sys.Lands (s : Sys Tid) : Prop :=
  (s.task s.curr).phase.sleeps s.cache = true ∨
    ∃ b dev bno k, (s.task s.curr).phase = .got b dev bno k

end

section Scan

variable {c c' : Cache} {candidates b : Nat} {rest : List Nat}

theorem nfree_cons (c : Cache) (b : Nat) (rest : List Nat) :
    c.nfree (b :: rest) = c.nfree rest + if (c.buf b).refcnt = 0 then 1 else 0 := by
  rw [Cache.nfree, countP_cons]
  simp only [beq_iff_eq]
  rfl

/-- A buffer that is held is passed over. -/
theorem Cache.Enough.held (h : c.Enough candidates (b :: rest)) (hb : (c.buf b).refcnt ≠ 0) :
    c.Enough candidates rest := by
  have htail : ∀ P : Nat → Prop, (∃ i ∈ b :: rest, (c.buf i).refcnt = 0 ∧ P i) →
      ∃ i ∈ rest, (c.buf i).refcnt = 0 ∧ P i := by
    rintro P ⟨i, hi, hzero, hP⟩
    rcases mem_cons.mp hi with rfl | hi
    · exact absurd hzero hb
    · exact ⟨i, hi, hzero, hP⟩
  rcases h with hall | hopen | ⟨⟨i, hi, hzero⟩, hcount⟩
  · exact .inl hall
  · exact .inr (.inl (htail _ hopen))
  · obtain ⟨i, hi, hzero, -⟩ := htail (fun _ => True) ⟨i, hi, hzero, trivial⟩
    refine .inr (.inr ⟨⟨i, hi, hzero⟩, ?_⟩)
    rwa [nfree_cons, if_neg hb] at hcount

/-- A locked buffer is passed over when there are more candidates. -/
theorem Cache.Enough.locked (h : c.Enough candidates (b :: rest)) (hb : (c.buf b).refcnt = 0)
    (hlocked : (c.buf b).locked = true) (hmore : candidates - 1 ≠ 0) :
    c.Enough (candidates - 1) rest := by
  rcases h with hall | ⟨i, hi, hzero, hopen⟩ | ⟨-, hcount⟩
  · exact .inl hall
  · rcases mem_cons.mp hi with rfl | hi
    · rw [hlocked] at hopen
      cases hopen
    · exact .inr (.inl ⟨i, hi, hzero, hopen⟩)
  · rw [nfree_cons, if_pos hb] at hcount
    have hpos : 0 < c.nfree rest := by omega
    obtain ⟨i, hi, hzero⟩ := countP_pos_iff.mp hpos
    exact .inr (.inr ⟨⟨i, hi, by simpa using hzero⟩, by omega⟩)

/-- The disk locks nothing. -/
theorem Cache.Enough.spares (h : c.Enough candidates rest) (hs : Spares c c') :
    c'.Enough candidates rest := by
  have href : ∀ b, (c'.buf b).refcnt = (c.buf b).refcnt := fun b => (hs.same.buf b).2.2
  have hcount : c'.nfree rest = c.nfree rest := by
    unfold Cache.nfree
    simp only [href]
  rcases h with hall | ⟨i, hi, hzero, hopen⟩ | ⟨⟨i, hi, hzero⟩, hle⟩
  · refine .inl fun b hb => ?_
    rw [href]
    exact hall b (hs.same.allq ▸ hb)
  · exact .inr (.inl ⟨i, hi, (href i).trans hzero, hs.locked i hopen⟩)
  · exact .inr (.inr ⟨⟨i, hi, (href i).trans hzero⟩, hcount ▸ hle⟩)

end Scan

section Go

variable {c c' : Cache} {x x' : Task} {rest : List Nat} {dev candidates : Nat} {bno : Int}
  {k : Getb}

theorem llrwab_ne_scan (rw : Rw) (bs waits : List Nat) (k' : Llrwab) :
    llrwab c rw bs waits k' ≠ .scan rest dev bno candidates k := by
  unfold llrwab
  cases bs with
  | nil => exact fun h => by cases h
  | cons head bs =>
      dsimp only
      split_ifs
      all_goals exact fun h => by cases h

theorem writeb_ne_scan {core : Nat} {k' : Writeb} {phase : Phase}
    (h : writeb c core k' = some (c', phase)) : phase ≠ .scan rest dev bno candidates k := by
  unfold writeb at h
  split_ifs at h
  · cases h
    exact fun h => by cases h
  · obtain ⟨c₁, -, heq⟩ := map_eq_some_iff.mp h
    cases heq
    exact llrwab_ne_scan _ _ _ _

/-- A task that goes on comes to a place of the scan from the place before it, or from the
label `repeat`. -/
theorem go_scan (hgo : x.go c = some (c', x')) (hx' : x'.phase = .scan rest dev bno candidates k) :
    c' = c ∧
      ((x.phase = .getb dev bno candidates k ∧ c.findb dev bno = none ∧ rest = c.freeq) ∨
        ∃ b n, x.phase = .scan (b :: rest) dev bno n k ∧
          ((c.buf b).refcnt ≠ 0 ∧ candidates = n ∨
            (c.buf b).refcnt = 0 ∧ (c.buf b).locked = true ∧ n - 1 ≠ 0 ∧ candidates = n - 1)) := by
  obtain ⟨phase, held⟩ := x
  cases Task.go_cases hgo with
  | miss hfind =>
      cases hx'
      exact ⟨rfl, .inl ⟨rfl, hfind, rfl⟩⟩
  | @used b _ _ _ _ _ hheld =>
      cases hx'
      exact ⟨rfl, .inr ⟨b, _, rfl, .inl ⟨hheld, rfl⟩⟩⟩
  | @skip b _ _ _ _ _ hzero hlocked hmore =>
      cases hx'
      exact ⟨rfl, .inr ⟨b, _, rfl, .inr ⟨hzero, hlocked, hmore, rfl⟩⟩⟩
  | clean _ hw | sync _ hw => exact absurd hx' (writeb_ne_scan hw)
  | @fill b => exact absurd hx' (llrwab_ne_scan .read [b] [b] (.readb b))
  | _ => cases hx'

/-- A call does not start in the middle of the scan. -/
theorem call_ne_scan {op : Op} (huser : x.phase = .user) (hcall : x.call c op = some (c', x')) :
    x'.phase ≠ .scan rest dev bno candidates k := by
  obtain ⟨phase, held⟩ := x
  cases huser
  unfold Task.call at hcall
  cases op with
  | lose b =>
      dsimp only at hcall
      split_ifs at hcall
      obtain ⟨c₁, -, heq⟩ := map_eq_some_iff.mp hcall
      cases heq
      exact fun h => by cases h
  | syncb dev' =>
      cases hcall
      exact fun h => by cases h
  | llrwab rw bs wait =>
      dsimp only at hcall
      split at hcall
      · cases hcall
        exact llrwab_ne_scan rw bs (if wait then bs else []) .user
      · cases hcall
  | _ =>
      dsimp only at hcall
      split_ifs at hcall
      all_goals
        cases hcall
        exact fun h => by cases h

end Go

/-! ## Runs -/

section Runs

variable {Tid : Type*} [DecidableEq Tid] {s s' : Sys Tid} {e : Event Tid}

theorem task_put (s : Sys Tid) (r : Cache × Task) : (s.put r).task (s.put r).curr = r.2 :=
  Function.update_self ..

/-- A task that scans has enough left, when it has had enough at the start. -/
theorem Sys.Scans.step [Fintype Tid] (h : s.Scans) (hinv : s.Inv) (henough : s.Enough e)
    (hstep : s.step e = some s') : s'.Scans := by
  intro rest dev bno candidates k hphase
  have hspares : ∀ c, Spares s.cache c → s' = { s with cache := c } →
      s'.cache.Enough candidates rest := by
    rintro c hs rfl
    exact (h rest dev bno candidates k hphase).spares hs
  unfold Sys.step at hstep
  cases e with
  | sched t =>
      split_ifs at hstep with hsleeps
      cases hstep
      -- the task that scans is the one that slept
      have hcurr := hinv.curr t (by rw [hphase]; rfl)
      rw [← hcurr, hphase] at hsleeps
      cases hsleeps
  | go =>
      obtain ⟨⟨c, x⟩, hgo, rfl⟩ := map_eq_some_iff.mp hstep
      rw [task_put] at hphase
      obtain ⟨rfl, ⟨hstart, hfind, rfl⟩ | ⟨b, n, hscan, hcase⟩⟩ := go_scan hgo hphase
      · exact henough rfl dev bno candidates k hstart hfind
      · have hbefore := h _ _ _ _ _ hscan
        rcases hcase with ⟨hheld, rfl⟩ | ⟨hzero, hlocked, hmore, rfl⟩
        · exact hbefore.held hheld
        · exact hbefore.locked hzero hlocked hmore
  | call op =>
      dsimp only at hstep
      split at hstep
      · next huser =>
        obtain ⟨⟨c, x⟩, hcall, rfl⟩ := map_eq_some_iff.mp hstep
        rw [task_put] at hphase
        exact absurd hphase (call_ne_scan huser hcall)
      · cases hstep
  | send b =>
      obtain ⟨c, hsend, rfl⟩ := map_eq_some_iff.mp hstep
      exact hspares c (send_spares hsend) rfl
  | nextsect b ok =>
      obtain ⟨c, hnext, rfl⟩ := map_eq_some_iff.mp hstep
      exact hspares c (nextsect_spares hnext) rfl
  | zapreq b =>
      obtain ⟨c, hzap, rfl⟩ := map_eq_some_iff.mp hstep
      exact hspares c (zapreq_spares hzap) rfl

omit [DecidableEq Tid] in
/-- At the end of the queue there is enough only when there is nothing. -/
theorem Sys.Scans.noPanic (h : s.Scans) : s.NoPanic := by
  rintro ⟨⟨dev, bno, candidates, k, hphase⟩, b, hb, hzero⟩
  rcases h [] dev bno candidates k hphase with hall | ⟨i, hi, -⟩ | ⟨⟨i, hi, -⟩, -⟩
  · exact hall b hb hzero
  · cases hi
  · cases hi

/-- A step of the current task. -/
theorem step_go {c : Cache} {x : Task} (hgo : (s.task s.curr).go s.cache = some (c, x)) :
    s.step .go = some (s.put (c, x)) := by
  change ((s.task s.curr).go s.cache).map s.put = _
  rw [hgo]
  rfl

/-- The current task has come to another place of its call. -/
def Sys.at (s : Sys Tid) (c : Cache) (phase : Phase) : Sys Tid :=
  s.put (c, ⟨phase, (s.task s.curr).held⟩)

theorem leads_go {c : Cache} {p q : Phase} {P : Sys Tid → Prop} (hphase : (s.task s.curr).phase = p)
    (hgo : Task.go s.cache ⟨p, (s.task s.curr).held⟩ = some (c, ⟨q, (s.task s.curr).held⟩))
    (h : ((s.at c q).task (s.at c q).curr).phase = q →
      Leads Sys.step .go P (s.at c q)) : Leads Sys.step .go P s := by
  subst hphase
  refine .next (step_go hgo) (h ?_)
  unfold Sys.at
  rw [task_put]

/-- A task that has not enough to choose from goes to the end of the queue. -/
theorem leads_panic {rest : List Nat} {dev candidates : Nat} {bno : Int} {k : Getb}
    (hphase : (s.task s.curr).phase = .scan rest dev bno candidates k) (hfree : s.HasFree)
    (hlocked : ∀ b ∈ rest, (s.cache.buf b).refcnt = 0 → (s.cache.buf b).locked = true)
    (hcount : s.cache.nfree rest < candidates) :
    Leads Sys.step .go (fun t => t.Panics ∧ t.HasFree) s := by
  induction rest generalizing s candidates with
  | nil => exact .here ⟨⟨dev, bno, candidates, k, hphase⟩, hfree⟩
  | cons b rest ih =>
      have hlocked' := fun i hi => hlocked i (mem_cons_of_mem b hi)
      rw [nfree_cons] at hcount
      by_cases hzero : (s.cache.buf b).refcnt = 0
      · rw [if_pos hzero] at hcount
        have hcount' : s.cache.nfree rest < candidates - 1 := by omega
        exact leads_go hphase ((if_neg (not_not.mpr hzero)).trans
          ((if_pos (hlocked b mem_cons_self hzero)).trans (if_pos (by omega))))
          fun ht => @ih _ (candidates - 1) ht hfree hlocked' hcount'
      · rw [if_neg hzero] at hcount
        exact leads_go hphase (if_pos hzero) fun ht => ih ht hfree hlocked' hcount

end Runs

/-! ## Returning and sleeping -/

/-- No count of holders comes near the end of a `short`. -/
def Cache.Short (c : Cache) : Prop := ∀ b, (c.buf b).refcnt.toNat + MAXBUFPERIO + 1 < 2 ^ 15

/-- The buffers that `getb` would write have a driver. -/
def Cache.Driven (c : Cache) : Prop :=
  ∀ b ∈ c.freeq, (c.buf b).refcnt = 0 → (c.buf b).locked = false → (c.buf b).state = .dirty →
    major (c.buf b).dev ≠ NULLMAJOR ∧ c.blkdev (c.buf b).dev = true

section Write

variable {c c' : Cache} {b dev : Nat} {bno : Int}

theorem hold_ok (hshort : (c.buf b).refcnt.toNat < 2 ^ 15) :
    c.hold b =
      some (c.setBuf b { c.buf b with refcnt := (c.buf b).refcnt + 1 }) := by
  refine if_neg ?_
  rw [BitVec.toInt_eq_toNat_of_lt (by omega)]
  omega

/-- What a call of `hold` changes. -/
theorem buf_hold (hshort : (c.buf b).refcnt.toNat < 2 ^ 15) (hhold : c.hold b = some c')
    (i : Nat) : ((c'.buf i).refcnt.toNat = (c.buf i).refcnt.toNat + [b].count i) ∧
      (c'.buf i).state = (c.buf i).state ∧ (c'.buf i).locked = (c.buf i).locked ∧
      (c'.buf i).dev = (c.buf i).dev := by
  rw [hold_ok hshort] at hhold
  cases hhold
  rw [count_one]
  unfold Cache.setBuf
  dsimp only
  by_cases hi : i = b
  · rw [if_pos hi, if_pos hi, hi]
    refine ⟨?_, rfl, rfl, rfl⟩
    change ((c.buf b).refcnt.toNat + 1) % 2 ^ 16 = _
    omega
  · rw [if_neg hi, if_neg hi]
    exact ⟨rfl, rfl, rfl, rfl⟩

/-- The same for a list of buffers. -/
theorem holdall_ok {bs : List Nat} (hshort : ∀ b, (c.buf b).refcnt.toNat + bs.length < 2 ^ 15) :
    ∃ c', c.holdall bs = some c' ∧ c'.blkdev = c.blkdev ∧ ∀ i,
      ((c'.buf i).refcnt.toNat = (c.buf i).refcnt.toNat + bs.count i) ∧
        (c'.buf i).state = (c.buf i).state ∧ (c'.buf i).locked = (c.buf i).locked ∧
        (c'.buf i).dev = (c.buf i).dev := by
  induction bs generalizing c with
  | nil => exact ⟨c, rfl, rfl, fun i => ⟨rfl, rfl, rfl, rfl⟩⟩
  | cons b bs ih =>
      have hb : (c.buf b).refcnt.toNat < 2 ^ 15 := by
        have := hshort b
        omega
      obtain ⟨c₁, hhold⟩ : ∃ c₁, c.hold b = some c₁ := ⟨_, hold_ok hb⟩
      have hbuf := buf_hold hb hhold
      obtain ⟨c₂, hrest, hblk, hall⟩ := ih (c := c₁) fun i => by
        have hle : [b].count i ≤ 1 := count_le_length
        rw [(hbuf i).1]
        have := hshort i
        rw [length_cons] at this
        omega
      refine ⟨c₂, ?_, hblk.trans ?_, fun i => ?_⟩
      · rw [Cache.holdall, hhold]
        exact hrest
      · rw [hold_ok hb] at hhold
        cases hhold
        rfl
      · obtain ⟨href, hstate, hlock, hdev⟩ := hall i
        obtain ⟨href', hstate', hlock', hdev'⟩ := hbuf i
        refine ⟨?_, hstate.trans hstate', hlock.trans hlock', hdev.trans hdev'⟩
        have hcons : (b :: bs).count i = [b].count i + bs.count i := by
          rw [← count_append]
          rfl
        rw [href, href', hcons, Nat.add_assoc]

/-- A neighbour is for the same device, dirty and not locked. -/
theorem neighbours_spec {dir : Int} {n : Nat} : (c.neighbours dev dir n bno).length ≤ n ∧
    ∀ i ∈ c.neighbours dev dir n bno, (c.buf i).dev = dev ∧ (c.buf i).state = .dirty ∧
      (c.buf i).locked = false := by
  induction n generalizing bno with
  | zero => exact ⟨Nat.le_refl 0, fun i hi => by cases hi⟩
  | succ n ih =>
      unfold Cache.neighbours
      cases hfind : c.findb dev bno with
      | none => exact ⟨Nat.zero_le _, fun i hi => by cases hi⟩
      | some j =>
          dsimp only
          split_ifs with hideal
          · refine ⟨Nat.succ_le_succ ih.1, fun i hi => ?_⟩
            rcases mem_cons.mp hi with rfl | hi
            · have hfound := List.find?_some hfind
              have hkey := of_decide_eq_true hfound
              unfold Cache.ideal at hideal
              rw [Bool.and_eq_true, Bool.not_eq_true', beq_iff_eq] at hideal
              exact ⟨hkey.1, hideal.2, hideal.1⟩
            · exact ih.2 i hi
          · exact ⟨Nat.zero_le _, fun i hi => by cases hi⟩

theorem cluster_spec (hlocked : (c.buf b).locked = false) (hdirty : (c.buf b).state = .dirty) :
    (c.cluster b).length ≤ MAXBUFPERIO ∧ c.cluster b ≠ [] ∧
      ∀ i ∈ c.cluster b, (c.buf i).dev = (c.buf b).dev ∧ (c.buf i).state = .dirty ∧
        (c.buf i).locked = false := by
  have hleft := @neighbours_spec c (c.buf b).dev ((c.buf b).bno - 1) (-1) ( MAXBUFPERIO / 2)
  have hright := @neighbours_spec c (c.buf b).dev ((c.buf b).bno + 1) 1 ( MAXBUFPERIO / 2 - 1)
  unfold Cache.cluster
  refine ⟨?_, by simp, fun i hi => ?_⟩
  · have hl := hleft.1
    rw [length_append, length_reverse, length_cons]
    unfold MAXBUFPERIO at *
    omega
  · rcases mem_append.mp hi with hi | hi
    · exact hleft.2 i (mem_reverse.mp hi)
    · rcases mem_cons.mp hi with rfl | hi
      · exact ⟨rfl, hdirty, hlocked⟩
      · exact hright.2 i hi

/-- `writeb` comes to the loop of `llrwab`. -/
theorem writeb_ok {k : Writeb} (hshort : ∀ i, (c.buf i).refcnt.toNat + MAXBUFPERIO < 2 ^ 15)
    (hlocked : (c.buf b).locked = false) (hdirty : (c.buf b).state = .dirty)
    (hmajor : major (c.buf b).dev ≠ NULLMAJOR) (hblk : c.blkdev (c.buf b).dev = true) :
    ∃ c' head rest k',
      writeb c b k = some (c', .llrwab .write head (head :: rest) (head :: rest) k') ∧
      ∀ i ∈ head :: rest, (c'.buf i).dev = (c'.buf head).dev ∧ (c'.buf i).state = .dirty ∧
        0 < (c'.buf i).refcnt.toInt := by
  obtain ⟨hlen, hne, hall⟩ := cluster_spec hlocked hdirty
  obtain ⟨c', hhold, hblk', hbuf⟩ := @holdall_ok c (c.cluster b) fun i => by
    have := hshort i
    omega
  obtain ⟨head, rest, hcluster⟩ := exists_cons_of_ne_nil hne
  have hhead := hall head (hcluster ▸ mem_cons_self)
  have hdev : (c'.buf head).dev = (c.buf b).dev := (hbuf head).2.2.2.trans hhead.1
  refine ⟨c', head, rest, .writeb (c.cluster b) k, ?_, fun i hi => ?_⟩
  · unfold writeb
    rw [if_neg hmajor]
    dsimp only
    rw [hhold, map_some, hcluster]
    unfold llrwab
    dsimp only
    rw [hdev, if_neg hmajor, hblk', hblk]
    rfl
  · obtain ⟨hdev', hstate', -⟩ := hall i (hcluster ▸ hi)
    obtain ⟨href, hstate, -, hdev''⟩ := hbuf i
    have hcount : 0 < (c.cluster b).count i := count_pos_iff.mpr (hcluster ▸ hi)
    have hle : (c.cluster b).count i ≤ (c.cluster b).length := count_le_length
    have := hshort i
    refine ⟨hdev''.trans (hdev'.trans hdev.symm), hstate.trans hstate', ?_⟩
    rw [BitVec.toInt_eq_toNat_of_lt (by omega)]
    omega

end Write

section Lands

variable {Tid : Type*} [DecidableEq Tid] {s : Sys Tid}

/-- The requests are made one after the other, and then the task waits. -/
theorem leads_llrwab {head w : Nat} {bs ws : List Nat} {k : Llrwab}
    (hphase : (s.task s.curr).phase = .llrwab .write head bs (w :: ws) k)
    (hall : ∀ i ∈ bs, (s.cache.buf i).dev = (s.cache.buf head).dev ∧
      0 < (s.cache.buf i).refcnt.toInt)
    (hwait : (s.cache.buf w).locked = true ∨ w ∈ bs ∧ (s.cache.buf w).state = .dirty) :
    Leads Sys.step .go Sys.Lands s := by
  induction bs generalizing s with
  | nil =>
      have hlocked := hwait.resolve_right fun h => by cases h.1
      refine leads_go hphase rfl fun ht => .here (.inl ?_)
      rw [ht]
      exact hlocked
  | cons b bs ih =>
      by_cases hlocked : (s.cache.buf b).locked = true
      · refine .here (.inl ?_)
        rw [hphase]
        exact hlocked
      obtain ⟨hdev, href⟩ := hall b mem_cons_self
      have hsame := Same.addreq s.cache .write b
      refine leads_go hphase ((if_neg (not_not.mpr hdev)).trans
        ((if_neg (not_not.mpr href)).trans (if_neg hlocked))) fun ht => ih ht (fun i hi => ?_) ?_
      · obtain ⟨hdev', href'⟩ := hall i (mem_cons_of_mem b hi)
        refine ⟨(hsame.buf i).1.trans (hdev'.trans (hsame.buf head).1.symm), ?_⟩
        change 0 < ((s.cache.addreq .write b).buf i).refcnt.toInt
        rw [(hsame.buf i).2.2]
        exact href'
      · change ((s.cache.addreq .write b).buf w).locked = true ∨
          w ∈ bs ∧ ((s.cache.addreq .write b).buf w).state = .dirty
        unfold Cache.addreq
        split_ifs with hstate
        · -- `b` is not dirty, and so is not `w`
          refine hwait.imp_right fun ⟨hw, hdirty⟩ => ⟨?_, hdirty⟩
          refine (mem_cons.mp hw).resolve_left ?_
          rintro rfl
          exact hstate hdirty
        · change (if w = b then { s.cache.buf b with locked := true } else _ : Buf).locked = true ∨
            w ∈ bs ∧ (if w = b then { s.cache.buf b with locked := true } else _ : Buf).state = _
          by_cases hw : w = b
          · rw [if_pos hw]
            exact .inl rfl
          · rw [if_neg hw]
            exact hwait.imp_right fun h => ⟨(mem_cons.mp h.1).resolve_left hw, h.2⟩

/-- A task that has enough to choose from comes to a buffer, or sleeps. -/
theorem leads_scan {rest : List Nat} {dev candidates : Nat} {bno : Int} {k : Getb}
    (hphase : (s.task s.curr).phase = .scan rest dev bno candidates k) (hfree : s.HasFree)
    (henough : s.cache.Enough candidates rest) (hrest : ∀ b ∈ rest, b ∈ s.cache.freeq)
    (hshort : s.cache.Short) (hdriven : s.cache.Driven) : Leads Sys.step .go Sys.Lands s := by
  induction rest generalizing s candidates with
  | nil =>
      obtain ⟨b, hb, hzero⟩ := hfree
      rcases henough with hall | ⟨i, hi, -⟩ | ⟨⟨i, hi, -⟩, -⟩
      · exact absurd hzero (hall b hb)
      · cases hi
      · cases hi
  | cons b rest ih =>
      have hrest' := fun i hi => hrest i (mem_cons_of_mem b hi)
      by_cases hzero : (s.cache.buf b).refcnt = 0
      swap
      · exact leads_go hphase (if_pos hzero) fun ht =>
          ih ht hfree (henough.held hzero) hrest' hshort hdriven
      by_cases hlocked : (s.cache.buf b).locked = true
      · by_cases hmore : candidates - 1 ≠ 0
        · exact leads_go hphase ((if_neg (not_not.mpr hzero)).trans
            ((if_pos hlocked).trans (if_pos hmore))) fun ht => @ih _ (candidates - 1) ht hfree
              (henough.locked hzero hlocked hmore) hrest' hshort hdriven
        · refine leads_go (q := .busy b dev bno (candidates - 1) k) hphase
            ((if_neg (not_not.mpr hzero)).trans ((if_pos hlocked).trans (if_neg hmore)))
            fun ht => .here (.inl ?_)
          rw [ht]
          exact hlocked
      have hhold : (s.cache.buf b).refcnt.toNat < 2 ^ 15 := by
        rw [hzero]
        decide
      obtain ⟨c, hc⟩ : ∃ c, s.cache.hold b = some c := ⟨_, hold_ok hhold⟩
      have hbuf := buf_hold hhold hc
      by_cases hdirty : (s.cache.buf b).state = .dirty
      · obtain ⟨hmajor, hblk⟩ := hdriven b (hrest b mem_cons_self) hzero
          ((Bool.not_eq_true _).mp hlocked) hdirty
        have hblkc : c.blkdev = s.cache.blkdev := by
          rw [hold_ok hhold] at hc
          cases hc
          rfl
        obtain ⟨c', head, bs, k', hwrite, hall⟩ :=
          @writeb_ok c b (.getb b dev bno (candidates - 1) k) (fun i => by
            have hle : [b].count i ≤ 1 := count_le_length
            have := hshort i
            have := (hbuf i).1
            omega) ((hbuf b).2.2.1.trans ((Bool.not_eq_true _).mp hlocked))
            ((hbuf b).2.1.trans hdirty) ((hbuf b).2.2.2 ▸ hmajor) (by
              rw [hblkc, (hbuf b).2.2.2]
              exact hblk)
        refine leads_go (q := .llrwab .write head (head :: bs) (head :: bs) k') hphase ?_
          fun ht => leads_llrwab ht (fun i hi => ⟨(hall i hi).1, (hall i hi).2.2⟩)
          (.inr ⟨mem_cons_self, (hall head mem_cons_self).2.1⟩)
        unfold Task.go
        dsimp only
        rw [if_neg (not_not.mpr hzero), if_neg hlocked, if_pos hdirty, hc, bind_some, hwrite]
        rfl
      · refine leads_go (c := c.rekey b dev bno) hphase ?_
          fun ht => .here (.inr ⟨b, dev, bno, k, ht⟩)
        unfold Task.go
        dsimp only
        rw [if_neg (not_not.mpr hzero), if_neg hlocked, if_neg hdirty, hc]
        rfl

/-- From the label `repeat`. -/
theorem leads_getb {dev candidates : Nat} {bno : Int} {k : Getb}
    (hphase : (s.task s.curr).phase = .getb dev bno candidates k) (hfree : s.HasFree)
    (henough : s.cache.findb dev bno = none → s.cache.Enough candidates s.cache.freeq)
    (hshort : s.cache.Short) (hdriven : s.cache.Driven) : Leads Sys.step .go Sys.Lands s := by
  cases hfind : s.cache.findb dev bno with
  | none =>
      refine leads_go (q := .scan s.cache.freeq dev bno candidates k) hphase ?_ fun ht =>
        leads_scan ht hfree (henough hfind) (fun b hb => hb) hshort hdriven
      unfold Task.go
      dsimp only
      rw [hfind]
  | some b =>
      have hhold : (s.cache.buf b).refcnt.toNat < 2 ^ 15 := by
        have := hshort b
        omega
      obtain ⟨c, hc⟩ : ∃ c, s.cache.hold b = some c := ⟨_, hold_ok hhold⟩
      refine leads_go (c := c) (q := .found b dev bno k) hphase ?_ fun ht => ?_
      · unfold Task.go
        dsimp only
        rw [hfind]
        dsimp only
        rw [hc]
        rfl
      by_cases hlocked : (c.buf b).locked = true
      · refine .here (.inl ?_)
        rw [ht]
        exact hlocked
      · exact leads_go ht (if_neg hlocked) fun ht' => .here (.inr ⟨b, dev, bno, k, ht'⟩)

end Lands

/-! ## Every run -/

section

variable {Tid : Type*} [Fintype Tid] [DecidableEq Tid] (t : Tid) (nbuf : Nat)
  (data : Nat → Bdata) (disk : Nat → Int → Bdata) (blkdev : Nat → Bool)

end

/-- The only buffer is read into, asynchronously, and given back; then another block is wanted. -/
def readahead : List (Event Unit) :=
  [.call (.getb 256 5), .go, .go, .go, .call (.llrwab .read [0] false), .go, .go, .go,
    .call (.lose 0), .call (.getb 256 6), .go, .go]

/-- The end of the queue. -/
def Phase.atEnd : Phase → Bool
  | .scan [] _ _ _ _ => true
  | _ => false

theorem exists_of_atEnd {phase : Phase} (h : phase.atEnd = true) :
    ∃ dev bno candidates k, phase = .scan [] dev bno candidates k := by
  cases phase with
  | scan rest dev bno candidates k =>
      cases rest with
      | nil => exact ⟨dev, bno, candidates, k, rfl⟩
      | cons b rest => cases h
  | _ => cases h

end Unixlite.Bcache
