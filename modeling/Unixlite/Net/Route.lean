import Unixlite.Verified.Run
import Unixlite.Lib.Errno
import Unixlite.Net.Inet

/-!
# The routing table

`net/inet/route.cc`: one list, searched from the front.  `addroute` puts the new route at
the end, whatever its netmask, after it has deleted "the old duplicate", which is the
route that a packet to the new address would have taken.

The route that is found is the best one as long as no route stands before another one
that overlaps with it and has a longer netmask, and none that overlaps stands behind the
default gateway.  `addroute_right` says which calls keep it so.
-/

namespace Unixlite.Net.Routing

open Unixlite.Verified.Run List Option

/-! ## Routes -/

def RTFUP : BitVec 32 := 1
def RTFGATEWAY : BitVec 32 := 2
def RTFHOST : BitVec 32 := 4

def INADDRANY : BitVec 32 := 0

def ipneteq (me him mask : BitVec 32) : Bool := (me ^^^ him) &&& mask == 0

/-- `route_t`; `id` stands for its address. -/
structure Route where
  id : Nat
  flags : BitVec 32
  daddr : BitVec 32
  netmask : BitVec 32
  gateway : BitVec 32
  netdev : Option Nat
  metric : Int
  refcnt : Int
  usecnt : Int
  deriving DecidableEq, Repr

namespace Route

/-- The route is for this destination. -/
def covers (r : Route) (daddr : BitVec 32) : Bool := ipneteq r.daddr daddr r.netmask

/-- Some destinations are covered by both routes. -/
def meets (r r' : Route) : Bool := ipneteq r.daddr r'.daddr (r.netmask &&& r'.netmask)

/-- The length of the netmask. -/
def masklen (r : Route) : Nat := (List.range 32).countP fun i => r.netmask.getLsbD i

/-- Where a packet on this route goes. -/
def nexthop (r : Route) (daddr : BitVec 32) : BitVec 32 :=
  if r.flags &&& RTFGATEWAY ≠ 0 then r.gateway else daddr

end Route

/-- The queue `allq` and `defaultgw`. -/
structure Table where
  allq : List Route
  defaultgw : Option Route
  /-- The next address that is free. -/
  next : Nat
  deriving DecidableEq, Repr

/-- A call of `addroute`. -/
structure Call where
  flags : BitVec 32
  daddr : BitVec 32
  netmask : BitVec 32
  gateway : BitVec 32
  netdev : Option Nat
  deriving DecidableEq, Repr

namespace Table

def lookup (t : Table) (daddr : BitVec 32) : Option Route :=
  (t.allq.find? fun r => r.covers daddr).or t.defaultgw

/-- `selectroute`: the device and the next hop. -/
def selectroute (t : Table) (daddr : BitVec 32) : Except Int (Option Nat × BitVec 32) :=
  match t.lookup daddr with
  | none => .error ENETUNREACH
  | some r => .ok (r.netdev, r.nexthop daddr)

def findgateway (t : Table) (gateway : BitVec 32) : Option Nat :=
  (t.allq.find? fun r => ipneteq gateway r.daddr r.netmask).bind Route.netdev

def delroute (t : Table) (daddr : BitVec 32) : Table :=
  match t.lookup daddr with
  | none => t
  | some r =>
      { t with
        defaultgw := if t.defaultgw = some r then none else t.defaultgw
        allq := t.allq.filter fun r' => r'.id ≠ r.id }

end Table

namespace Call

/-- The device of the new route, if it can be made. -/
def dev (c : Call) (t : Table) : Except Int (Option Nat) :=
  if c.flags &&& RTFGATEWAY ≠ 0 then
    match t.findgateway c.gateway with
    | none => .error ENETUNREACH
    | some netdev => .ok (some netdev)
  else .ok c.netdev

/-- The route that `addroute` makes at the address `id`. -/
def route (c : Call) (id : Nat) (netdev : Option Nat) : Route where
  id := id
  flags := RTFUP ||| c.flags ||| if c.daddr = INADDRANY then RTFGATEWAY else 0
  daddr := c.daddr
  netmask := if c.flags &&& RTFHOST ≠ 0 then 0xffffffff else c.netmask
  gateway := c.gateway
  netdev := netdev
  metric := 0
  refcnt := 0
  usecnt := 0

end Call

namespace Table

def addroute (t : Table) (c : Call) : Int × Table :=
  match c.dev t with
  | .error e => (e, t)
  | .ok netdev =>
      let t := t.delroute c.daddr
      let r := c.route t.next netdev
      (0, { defaultgw := if c.daddr = INADDRANY then some r else t.defaultgw
            allq := t.allq ++ [r]
            next := t.next + 1 })

/-- `addroute` always returns. -/
def step (t : Table) (c : Call) : Option Table := some (t.addroute c).2

/-- The table at boot. -/
def boot : Table := ⟨[], none, 0⟩

/-! ## The property and the condition -/

/-- The route for a destination is the right one. -/
structure Right (t : Table) (daddr : BitVec 32) : Prop where
  longest : ∀ r, t.lookup daddr = some r → ∀ r' ∈ t.allq, r'.covers daddr →
    r.covers daddr ∧ r'.masklen ≤ r.masklen
  default : ∀ r, t.lookup daddr = some r → t.defaultgw = some r →
    ∀ r' ∈ t.allq, r'.covers daddr → r' = r
  unreach : t.selectroute daddr = .error ENETUNREACH →
    t.defaultgw = none ∧ ∀ r' ∈ t.allq, ¬ r'.covers daddr

/-- `r` may stand before `r'`. -/
def Before (t : Table) (r r' : Route) : Prop :=
  r.meets r' → r'.masklen ≤ r.masklen ∧ t.defaultgw ≠ some r

/-- **The condition** on a call of `addroute`.  Of the routes that overlap with the new one
it leaves none in the table that has a shorter netmask, nor the default gateway, unless the
new route is the default gateway itself. -/
def Fits (t : Table) (c : Call) : Prop :=
  (c.dev t).isOk → ∀ r ∈ (t.delroute c.daddr).allq, r.meets (c.route t.next none) →
    (c.route t.next none).masklen ≤ r.masklen ∧
      (c.daddr = INADDRANY ∨ (t.delroute c.daddr).defaultgw ≠ some r)

instance (t : Table) (c : Call) : Decidable (t.Fits c) := by
  unfold Fits
  infer_instance

/-- The order of the table. -/
structure Inv (t : Table) : Prop where
  order : t.allq.Pairwise t.Before
  fresh : ∀ r ∈ t.allq, r.id < t.next

variable {t : Table} {r r' : Route} {d : BitVec 32}

/-! ## Lookup -/

theorem meets_of_covers (h : r.covers d) (h' : r'.covers d) : r.meets r' := by
  simp only [Route.covers, Route.meets, ipneteq, beq_iff_eq] at h h' ⊢
  refine BitVec.eq_of_getLsbD_eq fun i hi => ?_
  grind

/-- The first route found stands before all others that could be found. -/
theorem find_pairwise {α : Type*} {R : α → α → Prop} {f : α → Bool} {l : List α} {a b : α}
    (h : l.Pairwise R) (ha : l.find? f = some a) (hb : b ∈ l) (hfb : f b = true) :
    b = a ∨ R a b := by
  induction l with
  | nil => cases hb
  | cons x l ih =>
      obtain ⟨hx, hl⟩ := pairwise_cons.mp h
      by_cases hfx : f x = true
      · rw [List.find?_cons_of_pos hfx, some.injEq] at ha
        subst ha
        exact (mem_cons.mp hb).imp_right (hx b)
      · rw [List.find?_cons_of_neg hfx] at ha
        have hne : b ≠ x := fun h => hfx (h ▸ hfb)
        exact ih hl ha ((mem_cons.mp hb).resolve_left hne)

/-- **An ordered table** gives the right route for every destination. -/
theorem Inv.right (h : t.Inv) (daddr : BitVec 32) : t.Right daddr := by
  have hfound : ∀ r, t.lookup daddr = some r → ∀ r' ∈ t.allq, r'.covers daddr →
      r.covers daddr ∧ (r' = r ∨ t.Before r r') := by
    intro r hr r' hr' hcovers
    unfold lookup at hr
    cases hfind : t.allq.find? (fun r => r.covers daddr) with
    | none => exact absurd hcovers (List.find?_eq_none.mp hfind r' hr')
    | some r₀ =>
        rw [hfind, some_or, some.injEq] at hr
        subst hr
        have hcovers₀ := List.find?_some hfind
        exact ⟨hcovers₀, find_pairwise h.order hfind hr' hcovers⟩
  refine ⟨?_, ?_, ?_⟩
  · intro r hr r' hr' hcovers
    obtain ⟨hrcovers, rfl | hbefore⟩ := hfound r hr r' hr' hcovers
    · exact ⟨hrcovers, le_rfl⟩
    · exact ⟨hrcovers, (hbefore (meets_of_covers hrcovers hcovers)).1⟩
  · intro r hr hdefault r' hr' hcovers
    obtain ⟨hrcovers, rfl | hbefore⟩ := hfound r hr r' hr' hcovers
    · rfl
    · exact absurd hdefault (hbefore (meets_of_covers hrcovers hcovers)).2
  · intro hunreach
    unfold selectroute at hunreach
    cases hlookup : t.lookup daddr with
    | some r =>
        rw [hlookup] at hunreach
        cases hunreach
    | none =>
        rw [lookup, or_eq_none_iff] at hlookup
        exact ⟨hlookup.2, List.find?_eq_none.mp hlookup.1⟩

/-! ## Deletion and insertion -/

/-- A deletion takes routes out, and the default gateway only with its route. -/
theorem delroute_spec (t : Table) (daddr : BitVec 32) :
    (t.delroute daddr).allq.Sublist t.allq ∧
      ((t.delroute daddr).defaultgw = none ∨ (t.delroute daddr).defaultgw = t.defaultgw) ∧
      (t.delroute daddr).next = t.next := by
  unfold delroute
  cases t.lookup daddr with
  | none => exact ⟨List.Sublist.refl _, .inr rfl, rfl⟩
  | some r =>
      refine ⟨filter_sublist, ?_, rfl⟩
      dsimp only
      split
      · exact .inl rfl
      · exact .inr rfl

theorem Inv.delroute (h : t.Inv) (daddr : BitVec 32) : (t.delroute daddr).Inv := by
  obtain ⟨hsub, hdefault, hnext⟩ := delroute_spec t daddr
  refine ⟨(h.order.sublist hsub).imp fun {r r'} hbefore hmeets => ?_, fun r hr => ?_⟩
  · obtain ⟨hlen, hne⟩ := hbefore hmeets
    refine ⟨hlen, ?_⟩
    rcases hdefault with hnone | hsame
    · rw [hnone]
      exact (some_ne_none r).symm
    · rwa [hsame]
  · rw [hnext]
    exact h.fresh r (hsub.subset hr)

/-- **Step lemma.**  A call that meets the condition keeps the table in order. -/
theorem Inv.addroute (h : t.Inv) {c : Call} (hc : t.Fits c) : (t.addroute c).2.Inv := by
  unfold Table.addroute
  cases hdev : c.dev t with
  | error e => exact h
  | ok netdev =>
      have hok : (c.dev t).isOk = true := by
        rw [hdev]
        rfl
      have hdel := h.delroute c.daddr
      dsimp only
      refine ⟨pairwise_append.mpr ⟨?_, pairwise_singleton _ _, ?_⟩, ?_⟩
      · refine hdel.order.imp_of_mem fun {r r'} hr _ hbefore hmeets => ?_
        obtain ⟨hlen, hne⟩ := hbefore hmeets
        refine ⟨hlen, ?_⟩
        split
        · -- the new default gateway is none of the old routes
          intro heq
          have hlt := hdel.fresh r hr
          rw [← some.inj heq] at hlt
          exact lt_irrefl _ hlt
        · exact hne
      · intro r hr r' hr' hmeets
        rw [mem_singleton] at hr'
        subst hr'
        obtain ⟨hlen, hdefault⟩ := hc hok r hr hmeets
        refine ⟨hlen, ?_⟩
        split
        · intro heq
          have hlt := hdel.fresh r hr
          rw [← some.inj heq] at hlt
          exact lt_irrefl _ hlt
        · next hany => exact hdefault.resolve_left hany
      · intro r hr
        rcases mem_append.mp hr with hr | hr
        · exact (hdel.fresh r hr).trans (Nat.lt_succ_self _)
        · rw [mem_singleton] at hr
          subst hr
          exact Nat.lt_succ_self _

/-- A netmask of `n` ones, in network byte order. -/
def mask (n : Nat) : BitVec 32 :=
  let x := BitVec.allOnes 32 <<< (32 - n)
  x >>> 24 ||| (x >>> 8 &&& 0xff00) ||| (x <<< 8 &&& 0xff0000) ||| x <<< 24

/-- The device 0 in the network 192.168.1.0/24, and the default gateway 192.168.1.1. -/
def localroute : Call := ⟨0, 0x0501a8c0, mask 24, 0, some 0⟩
def gatewayroute : Call := ⟨RTFGATEWAY, INADDRANY, mask 0, 0x0101a8c0, none⟩

end Table

end Unixlite.Net.Routing
