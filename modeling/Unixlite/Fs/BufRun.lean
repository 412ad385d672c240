import Unixlite.Fs.BufInv
import Mathlib.Data.Fintype.BigOperators
import Mathlib.Algebra.Order.BigOperators.Group.Finset

/-!
# Runs of the buffer cache

The invariant over all tasks (`Sys.Inv`) and what it says of every run: `run_cached`.
-/

namespace Unixlite.Bcache

open Unixlite.Verified.Run List

section Step

variable {c c' : Cache} {n : Nat → Nat} {x x' : Task} {b : Nat} {ok : Bool}

theorem Same.refl (c : Cache) : Same c c := ⟨rfl, rfl, rfl, rfl, fun _ => ⟨rfl, rfl, rfl⟩⟩

theorem Same.trans {c'' : Cache} (h : Same c c') (h' : Same c' c'') : Same c c'' where
  allq := h'.allq.trans h.allq
  freeq := h'.freeq.trans h.freeq
  hashtab := h'.hashtab.trans h.hashtab
  hsize := h'.hsize.trans h.hsize
  buf := fun b => ⟨(h'.buf b).1.trans (h.buf b).1, (h'.buf b).2.1.trans (h.buf b).2.1,
    (h'.buf b).2.2.trans (h.buf b).2.2⟩

theorem Same.store (c : Cache) (b : Nat) (bytes : Nat → Option (BitVec 8)) :
    Same c (c.store b bytes) := .setBuf c b _ rfl rfl rfl

theorem Goes.same (h : Cached c n) (hs : Same c c') (hok : x.phase.Ok c') : Goes c n x c' x :=
  .of_cached (h.congr hs) (fun _ => rfl) hok hs.allq hs.rekeys

/-- A call of a task. -/
theorem Task.call_goes {op : Op} (h : Cached c n) (huser : x.phase = .user)
    (hcall : x.call c op = some (c', x')) : Goes c n x c' x' := by
  obtain ⟨phase, held⟩ := x
  cases huser
  unfold Task.call at hcall
  cases op with
  | getb dev bno =>
      dsimp only at hcall
      split at hcall
      · cases hcall
      · cases hcall
        exact .stay h (.refl _) trivial
  | readb dev bno =>
      dsimp only at hcall
      split at hcall
      · cases hcall
        exact .stay h (.refl _) trivial
      split at hcall
      · cases hcall
      · cases hcall
        exact .stay h (.refl _) trivial
  | lose b =>
      dsimp only at hcall
      split at hcall
      · next hb =>
          obtain ⟨c₁, hlose, heq⟩ := Option.map_eq_some_iff.mp hcall
          cases heq
          have hperm := (perm_cons_erase hb).append_right (Phase.holds .user)
          exact .lose h hlose hperm fun _ _ => trivial
      · cases hcall
  | syncb dev =>
      cases hcall
      exact .stay h (.refl _) fun b hb => hb
  | llrwab rw bs wait =>
      dsimp only at hcall
      split at hcall
      · cases hcall
        have hok : (llrwab c rw bs (if wait then bs else []) .user).Ok c :=
          llrwab_ok (k := .user) trivial
        refine .stay h ?_ hok
        unfold Task.holds
        rw [llrwab_holds]
        exact .refl _
      · cases hcall
  | modify b bytes =>
      dsimp only at hcall
      split at hcall
      · cases hcall
        exact .same h ((Same.store c b bytes).trans (.setBuf _ b _ rfl rfl rfl)) trivial
      · cases hcall
  | store b bytes =>
      dsimp only at hcall
      split at hcall
      · cases hcall
        exact .same h (Same.store c b bytes) trivial
      · cases hcall

/-! ## The disk -/

/-- The disk leaves the lists, the keys and the counts alone, locks nothing, and makes no
request. -/
structure Spares (c c' : Cache) : Prop where
  same : Same c c'
  locked : ∀ b, (c.buf b).locked = false → (c'.buf b).locked = false
  req : ∀ b, c'.req b ≠ none → c.req b ≠ none

theorem Spares.setBuf (c : Cache) (b : Nat) (x : Buf) (hdev : x.dev = (c.buf b).dev)
    (hbno : x.bno = (c.buf b).bno) (href : x.refcnt = (c.buf b).refcnt)
    (hlocked : (c.buf b).locked = false → x.locked = false) : Spares c (c.setBuf b x) := by
  refine ⟨.setBuf c b x hdev hbno href, fun i hi => ?_, fun _ h => h⟩
  show (if i = b then x else _ : Buf).locked = false
  split
  · next hib => exact hlocked (hib ▸ hi)
  · exact hi

theorem Spares.refl (c : Cache) : Spares c c := ⟨.refl c, fun _ h => h, fun _ h => h⟩

/-- A request goes on, or is taken away. -/
theorem Spares.setReq {r : Option Req} (h : Spares c c') (hb : c.req b ≠ none)
    (disk : Nat → Int → Bdata) :
    Spares c { c' with req := fun i => if i = b then r else c.req i, disk := disk } := by
  refine ⟨⟨h.same.allq, h.same.freeq, h.same.hashtab, h.same.hsize, h.same.buf⟩, h.locked,
    fun i hi => ?_⟩
  by_cases hib : i = b
  · rw [hib]
    exact hb
  · dsimp only at hi
    rw [if_neg hib] at hi
    exact hi

theorem send_spares (h : c.send b = some c') : Spares c c' := by
  unfold Cache.send at h
  split at h
  · cases h
  next r hr =>
  have hb : c.req b ≠ none := fun hnone => nomatch hr.symm.trans hnone
  split at h
  · cases h
    exact (Spares.refl c).setReq hb _
  · cases h

theorem nextsect_spares (h : c.nextsect b ok = some c') : Spares c c' := by
  unfold Cache.nextsect at h
  split at h
  · cases h
  next r hr =>
  have hb : c.req b ≠ none := fun hnone => nomatch hr.symm.trans hnone
  split at h
  · cases h
  split at h
  · cases h
    have hs : Spares c (c.setState b .error) := .setBuf c b _ rfl rfl rfl id
    exact hs.setReq hb _
  split at h
  · cases h
    have hs : Spares c (c.setBuf b { c.buf b with
        data := Cache.sector r.done (c.disk (c.buf b).dev (c.buf b).bno) (c.buf b).data }) :=
      .setBuf c b _ rfl rfl rfl id
    exact hs.setReq hb _
  split at h
  · cases h
  · cases h
    exact (Spares.refl c).setReq hb _

theorem zapreq_spares (h : c.zapreq b = some c') : Spares c c' := by
  unfold Cache.zapreq at h
  split at h
  · cases h
  next r hr =>
  have hb : c.req b ≠ none := fun hnone => nomatch hr.symm.trans hnone
  split at h
  · cases h
  cases h
  have hs : Spares c (c.setBuf b { c.buf b with
      state := if (c.buf b).state = .error then .inval else .clean, locked := false }) :=
    .setBuf c b _ rfl rfl rfl fun _ => rfl
  exact hs.setReq hb _

/-- What a task knows is not touched by the disk. -/
theorem Phase.Ok.spares {phase : Phase} (h : phase.Ok c) (hs : Spares c c') : phase.Ok c' := by
  have hallq := hs.same.allq
  have hkey := hs.same.buf
  cases phase with
  | found b dev bno k => exact ⟨(hkey b).1.trans h.1, (hkey b).2.1.trans h.2⟩
  | scan rest dev bno candidates k =>
      refine ⟨fun b hb => ?_, fun b hb => ?_⟩
      · rw [(hkey b).1, (hkey b).2.1]
        exact h.1 b (hallq ▸ hb)
      · rw [hs.same.freeq]
        exact h.2 b hb
  | got b dev bno k =>
      exact ⟨(hkey b).1.trans h.1, (hkey b).2.1.trans h.2.1, hs.locked b h.2.2⟩
  | llrwab rw head rest waits k => exact Llrwab.Ok.congr h hallq
  | wait waits k => exact Llrwab.Ok.congr h hallq
  | lose rest k => exact Llrwab.Ok.congr (k := .writeb [] k) h hallq
  | syncb dev rest => exact fun b hb => hallq ▸ h b hb
  | prempt dev rest => exact fun b hb => hallq ▸ h b hb
  | _ => trivial

/-- What a task knows that sleeps is not touched by the other tasks. -/
theorem Phase.Ok.goes {phase : Phase} (h : phase.Ok c) (hruns : phase.runs = false)
    (hheld : ∀ b ∈ phase.holds, (c.buf b).refcnt ≠ 0) (hallq : c'.allq = c.allq)
    (hkeys : Rekeys c c') : phase.Ok c' := by
  cases phase with
  | found b dev bno k =>
      rcases hkeys b with hkey | hfree
      · exact ⟨hkey.1.trans h.1, hkey.2.trans h.2⟩
      · exact absurd hfree.1 (hheld b (mem_singleton_self b))
  | scan rest dev bno candidates k => cases hruns
  | got b dev bno k => cases hruns
  | llrwab rw head rest waits k => exact Llrwab.Ok.congr h hallq
  | wait waits k => exact Llrwab.Ok.congr h hallq
  | lose rest k => exact Llrwab.Ok.congr (k := .writeb [] k) h hallq
  | syncb dev rest => exact fun b hb => hallq ▸ h b hb
  | prempt dev rest => exact fun b hb => hallq ▸ h b hb
  | _ => trivial

end Step

/-! ## All tasks -/

section Tasks

variable {Tid : Type*} [Fintype Tid] {s s' : Sys Tid} {b : Nat}

/-- How often a buffer is held. -/
def Sys.holders (s : Sys Tid) (b : Nat) : Nat := ∑ t, (s.task t).holds.count b

structure Sys.Inv (s : Sys Tid) : Prop where
  cached : Cached s.cache s.holders
  ok : ∀ t, (s.task t).phase.Ok s.cache
  curr : ∀ t, (s.task t).phase.runs = true → t = s.curr

theorem count_le_holders (s : Sys Tid) (t : Tid) (b : Nat) :
    (s.task t).holds.count b ≤ s.holders b :=
  Finset.single_le_sum (f := fun t => (s.task t).holds.count b) (fun _ _ => Nat.zero_le _)
    (Finset.mem_univ t)

variable [DecidableEq Tid]

theorem holders_put (s : Sys Tid) (r : Cache × Task) (b : Nat) :
    (s.put r).holders b + (s.task s.curr).holds.count b = s.holders b + r.2.holds.count b := by
  have hmem := Finset.mem_univ s.curr
  have hrest : ∑ t ∈ Finset.univ.erase s.curr, ((s.put r).task t).holds.count b =
      ∑ t ∈ Finset.univ.erase s.curr, (s.task t).holds.count b := by
    refine Finset.sum_congr rfl fun t ht => ?_
    show (Function.update s.task s.curr r.2 t).holds.count b = _
    rw [Function.update_of_ne (Finset.ne_of_mem_erase ht)]
  have hnew := Finset.add_sum_erase _ (fun t => ((s.put r).task t).holds.count b) hmem
  have hold := Finset.add_sum_erase _ (fun t => (s.task t).holds.count b) hmem
  have hcurr : (s.put r).task s.curr = r.2 := by
    show Function.update s.task s.curr r.2 s.curr = r.2
    rw [Function.update_self]
  rw [hcurr, hrest] at hnew
  unfold Sys.holders
  omega

/-- The current task makes a step. -/
theorem Sys.Inv.put {r : Cache × Task} (h : s.Inv)
    (hgoes : Goes s.cache s.holders (s.task s.curr) r.1 r.2) : (s.put r).Inv where
  cached := hgoes.cached _ (holders_put s r)
  ok := by
    intro t
    show (Function.update s.task s.curr r.2 t).phase.Ok r.1
    by_cases ht : t = s.curr
    · rw [ht, Function.update_self]
      exact hgoes.ok
    · rw [Function.update_of_ne ht]
      refine (h.ok t).goes ?_ (fun b hb => ?_) hgoes.allq hgoes.rekeys
      · exact Bool.eq_false_iff.mpr fun hruns => ht (h.curr t hruns)
      · rw [ne_eq, h.cached.refcnt_eq_zero_iff b]
        have hpos := count_pos_iff.mpr (mem_append_right (s.task t).held hb)
        exact Nat.ne_of_gt (Nat.lt_of_lt_of_le hpos (count_le_holders s t b))
  curr := by
    intro t hruns
    by_contra ht
    have htask : (s.put r).task t = s.task t := Function.update_of_ne ht _ _
    rw [htask] at hruns
    exact ht (h.curr t hruns)

omit [DecidableEq Tid] in
/-- The disk interrupts. -/
theorem Sys.Inv.spares {c : Cache} (h : s.Inv) (hs : Spares s.cache c) :
    ({ s with cache := c } : Sys Tid).Inv :=
  ⟨h.cached.congr hs.same, fun t => (h.ok t).spares hs, h.curr⟩

/-- Whoever runs does not sleep. -/
theorem not_sleeps {phase : Phase} (c : Cache) (h : phase.runs = true) :
    phase.sleeps c = false := by
  cases phase with
  | scan => rfl
  | got => rfl
  | _ => cases h

theorem Sys.Inv.step {e : Event Tid} (h : s.Inv) (hstep : s.step e = some s') :
    s'.Inv ∧ s'.cache.allq = s.cache.allq ∧ Rekeys s.cache s'.cache := by
  have hle : ∀ b, (s.task s.curr).holds.count b ≤ s.holders b := count_le_holders s s.curr
  unfold Sys.step at hstep
  cases e with
  | sched t =>
      dsimp only at hstep
      split at hstep
      · next hsleeps =>
          cases hstep
          refine ⟨⟨h.cached, h.ok, fun t' ht' => ?_⟩, rfl, .of_same fun _ => ⟨rfl, rfl⟩⟩
          rw [h.curr t' ht'] at ht'
          exact absurd hsleeps (Bool.eq_false_iff.mp (not_sleeps s.cache ht'))
      · cases hstep
  | go =>
      obtain ⟨⟨c, x⟩, hgo, rfl⟩ := Option.map_eq_some_iff.mp hstep
      have hgoes := Task.go_goes h.cached hle (h.ok s.curr) hgo
      exact ⟨h.put hgoes, hgoes.allq, hgoes.rekeys⟩
  | call op =>
      dsimp only at hstep
      split at hstep
      · next huser =>
          obtain ⟨⟨c, x⟩, hcall, rfl⟩ := Option.map_eq_some_iff.mp hstep
          have hgoes := Task.call_goes h.cached huser hcall
          exact ⟨h.put hgoes, hgoes.allq, hgoes.rekeys⟩
      · cases hstep
  | send b =>
      obtain ⟨c, hsend, rfl⟩ := Option.map_eq_some_iff.mp hstep
      have hs := send_spares hsend
      exact ⟨h.spares hs, hs.same.allq, hs.same.rekeys⟩
  | nextsect b ok =>
      obtain ⟨c, hnext, rfl⟩ := Option.map_eq_some_iff.mp hstep
      have hs := nextsect_spares hnext
      exact ⟨h.spares hs, hs.same.allq, hs.same.rekeys⟩
  | zapreq b =>
      obtain ⟨c, hzap, rfl⟩ := Option.map_eq_some_iff.mp hstep
      have hs := zapreq_spares hzap
      exact ⟨h.spares hs, hs.same.allq, hs.same.rekeys⟩

/-! ## Boot -/

variable (t : Tid) (nbuf : Nat) (data : Nat → Bdata) (disk : Nat → Int → Bdata)
  (blkdev : Nat → Bool)

omit [Fintype Tid] [DecidableEq Tid] in
theorem cached_buffercache : Cached (buffercache nbuf data disk blkdev) fun _ => 0 where
  keys := fun b _ b' _ _ hbno => Int.ofNat.inj hbno
  hash := by
    intro b i
    show b ∈ (List.range nbuf).filter _ ↔ _
    rw [mem_filter, decide_eq_true_iff, eq_comm]
    exact Iff.rfl
  chain := fun i => nodup_range.filter _
  free := fun b hb => hb
  freeq := nodup_range
  refcnt := fun _ => rfl
  short := fun _ => Nat.zero_le _
  mem := fun b hb => absurd rfl hb
  unheld := fun b hb _ => hb

omit [DecidableEq Tid] in
theorem inv_boot : (Sys.boot t nbuf data disk blkdev).Inv where
  cached := by
    have hzero : (Sys.boot t nbuf data disk blkdev).holders = fun _ => 0 :=
      funext fun b => Finset.sum_eq_zero fun _ _ => rfl
    rw [hzero]
    exact cached_buffercache nbuf data disk blkdev
  ok := fun _ => trivial
  curr := fun _ h => nomatch h

/-! ## What holds of every run -/

/-- No two buffers are for the same block, every buffer is on the hash chain of its own
block, and free if nobody holds it; `getb` returns a buffer for the block it was called
for, which is held and not locked. -/
structure Sys.Sound (nbuf : Nat) (s : Sys Tid) : Prop where
  all : s.cache.allq = List.range nbuf
  keys : ∀ b ∈ s.cache.allq, ∀ b' ∈ s.cache.allq, (s.cache.buf b).dev = (s.cache.buf b').dev →
    (s.cache.buf b).bno = (s.cache.buf b').bno → b = b'
  hash : ∀ b ∈ s.cache.allq,
    b ∈ s.cache.hashtab (s.cache.hashfunc (s.cache.buf b).dev (s.cache.buf b).bno)
  free : ∀ b ∈ s.cache.allq, (s.cache.buf b).refcnt = 0 → b ∈ s.cache.freeq
  got : ∀ t b dev bno k, (s.task t).phase = .got b dev bno k →
    b ∈ s.cache.allq ∧ (s.cache.buf b).refcnt ≠ 0 ∧ (s.cache.buf b).locked = false ∧
      (s.cache.buf b).dev = dev ∧ (s.cache.buf b).bno = bno

omit [DecidableEq Tid] in
theorem Sys.Inv.sound (h : s.Inv) (hall : s.cache.allq = List.range nbuf) : s.Sound nbuf where
  all := hall
  keys := h.cached.keys
  hash := fun b hb => (h.cached.hash b _).mpr ⟨hb, rfl⟩
  free := fun b hb hzero => h.cached.unheld b hb ((h.cached.refcnt_eq_zero_iff b).mp hzero)
  got := by
    intro t b dev bno k hphase
    have hmem : b ∈ (s.task t).holds := by
      unfold Task.holds
      rw [hphase]
      exact mem_append_right _ (mem_singleton_self b)
    have hpos := count_pos_iff.mpr hmem
    have hheld : s.holders b ≠ 0 :=
      Nat.ne_of_gt (Nat.lt_of_lt_of_le hpos (count_le_holders s t b))
    have hok := h.ok t
    rw [hphase] at hok
    refine ⟨h.cached.mem b hheld, ?_, hok.2.2, hok.1, hok.2.1⟩
    exact mt (h.cached.refcnt_eq_zero_iff b).mp hheld

end Tasks

end Unixlite.Bcache
