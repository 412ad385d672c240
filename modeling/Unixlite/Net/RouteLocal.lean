import Unixlite.Net.Route
import Mathlib.Data.List.TakeWhile

/-!
# What a new route changes

`addroute` deletes "the old duplicate", which it finds with `lookup`: the route that a packet
to the new address takes.  That may be the route of a larger network, or the default
gateway, and with it go the destinations outside of the new network.  `local_iff` says which
calls change nothing there.
-/

namespace Unixlite.Net.Routing

open List

/-- The route without its address. -/
def Route.look (r : Route) : Route := { r with id := 0 }

namespace Table

/-- What a table says, whatever the addresses of its routes are. -/
def look (t : Table) : List Route × Option Route :=
  (t.allq.map Route.look, t.defaultgw.map Route.look)

/-- Two routes have two addresses, and the default gateway is a route to `INADDRANY`. -/
structure WF (t : Table) : Prop where
  nodup : (t.allq.map Route.id).Nodup
  fresh : ∀ r ∈ t.allq, r.id < t.next
  default : ∀ r, t.defaultgw = some r → r ∈ t.allq ∧ r.daddr = INADDRANY

end Table

/-! ## The property and the condition -/

/-- The destination is none of the new route: it is outside of the network; for the default
route, it is matched by another one. -/
def Call.Outside (c : Call) (t : Table) (d : BitVec 32) : Prop :=
  if c.daddr = INADDRANY then ∃ r ∈ t.allq, r.covers d ∧ t.defaultgw ≠ some r
  else ¬ (c.route t.next none).covers d

namespace Table

/-- **Adding a route is local**, adding it twice is adding it once, and an error changes
nothing. -/
structure Local (t : Table) (c : Call) : Prop where
  outside : ∀ d, c.Outside t d → (t.addroute c).2.lookup d = t.lookup d
  twice : ((t.addroute c).2.addroute c).2.look = (t.addroute c).2.look
  error : (t.addroute c).1 ≠ 0 → (t.addroute c).2 = t

/-- No destination outside takes the route that the new address takes. -/
def Alone (t : Table) (c : Call) : Prop :=
  ∀ d, c.Outside t d → ∀ r, t.lookup c.daddr = some r → t.lookup d ≠ some r

/-- The routes that stay, with the new one behind them. -/
def others (t : Table) (c : Call) (netdev : Option Nat) : Table :=
  { t with allq := (t.delroute c.daddr).allq ++ [c.route t.next netdev] }

/-- If the gateway is found a second time, it is at the same device, and the routes that
stay, from the first one for the new address on, look like the new one. -/
def Again (t : Table) (c : Call) (netdev : Option Nat) : Prop :=
  ∀ netdev', c.dev (t.others c netdev) = .ok netdev' → netdev' = netdev ∧
    ∀ r ∈ (t.delroute c.daddr).allq.dropWhile fun r => !r.covers c.daddr,
      r.look = (c.route t.next netdev).look

/-! ## Tables -/

variable {t : Table} {c : Call} {r r' : Route} {d : BitVec 32} {netdev : Option Nat}

theorem WF.eq_of_id (h : t.WF) (hr : r ∈ t.allq) (hr' : r' ∈ t.allq) (hid : r.id = r'.id) :
    r = r' :=
  inj_on_of_nodup_map h.nodup hr hr' hid

theorem mem_of_lookup (h : t.WF) (hr : t.lookup d = some r) : r ∈ t.allq := by
  unfold lookup at hr
  rcases Option.or_eq_some_iff.mp hr with hfind | ⟨-, hdefault⟩
  · exact mem_of_find?_eq_some hfind
  · exact (h.default r hdefault).1

theorem WF.delroute (h : t.WF) (daddr : BitVec 32) : (t.delroute daddr).WF := by
  obtain ⟨hsub, -, hnext⟩ := delroute_spec t daddr
  refine ⟨h.nodup.sublist (hsub.map _), fun r hr => ?_, fun r hr => ?_⟩
  · rw [hnext]
    exact h.fresh r (hsub.subset hr)
  · unfold Table.delroute at hr ⊢
    cases hlookup : t.lookup daddr with
    | none =>
        rw [hlookup] at hr
        exact h.default r hr
    | some r₀ =>
        rw [hlookup] at hr
        dsimp only at hr ⊢
        split at hr
        · cases hr
        next hne =>
        obtain ⟨hmem, hany⟩ := h.default r hr
        refine ⟨mem_filter.mpr ⟨hmem, ?_⟩, hany⟩
        rw [decide_eq_true_eq]
        intro hid
        rw [h.eq_of_id hmem (mem_of_lookup h hlookup) hid] at hr
        exact hne hr

/-- What the second half of `addroute` makes of the table. -/
theorem addroute_ok (hdev : c.dev t = .ok netdev) :
    t.addroute c = (0,
      { defaultgw :=
          if c.daddr = INADDRANY then some (c.route t.next netdev)
          else (t.delroute c.daddr).defaultgw
        allq := (t.delroute c.daddr).allq ++ [c.route t.next netdev]
        next := t.next + 1 }) := by
  obtain ⟨-, -, hnext⟩ := delroute_spec t c.daddr
  unfold addroute
  rw [hdev]
  dsimp only
  rw [hnext]

theorem addroute_error {e : Int} (hdev : c.dev t = .error e) : t.addroute c = (e, t) := by
  unfold addroute
  rw [hdev]

/-- **Every table that can be reached** is well formed. -/
theorem WF.addroute (h : t.WF) (c : Call) : (t.addroute c).2.WF := by
  cases hdev : c.dev t with
  | error e =>
      rw [addroute_error hdev]
      exact h
  | ok netdev =>
      rw [addroute_ok hdev]
      have hdel := h.delroute c.daddr
      obtain ⟨-, -, hnext⟩ := delroute_spec t c.daddr
      have hlt : ∀ r ∈ (t.delroute c.daddr).allq, r.id < t.next := fun r hr =>
        hnext ▸ hdel.fresh r hr
      refine ⟨?_, fun r hr => ?_, fun r hr => ?_⟩
      · rw [map_append, map_singleton]
        refine nodup_append.mpr ⟨hdel.nodup, nodup_singleton _, ?_⟩
        rintro i hi j hj rfl
        obtain ⟨r, hr, hid⟩ := mem_map.mp hi
        rw [mem_singleton.mp hj] at hid
        exact absurd (hlt r hr) (hid ▸ Nat.lt_irrefl _)
      · rcases mem_append.mp hr with hr | hr
        · exact Nat.lt_succ_of_lt (hlt r hr)
        · rw [mem_singleton.mp hr]
          exact Nat.lt_succ_self _
      · dsimp only at hr ⊢
        split at hr
        · next hany =>
          cases hr
          exact ⟨mem_append_right _ mem_cons_self, hany⟩
        · obtain ⟨hmem, hany⟩ := hdel.default r hr
          exact ⟨mem_append_left _ hmem, hany⟩

theorem wf_boot : boot.WF := ⟨nodup_nil, nofun, nofun⟩

/-! ## Outside -/

/-- A destination that takes another route than the one deleted takes it still. -/
theorem delroute_lookup (h : t.WF) {daddr : BitVec 32}
    (hne : ∀ r, t.lookup daddr = some r → t.lookup d ≠ some r) :
    (t.delroute daddr).lookup d = t.lookup d ∧
      (t.delroute daddr).allq.find? (fun r => r.covers d) =
        t.allq.find? fun r => r.covers d := by
  unfold delroute
  cases hlookup : t.lookup daddr with
  | none => exact ⟨rfl, rfl⟩
  | some r₀ =>
      have hd := hne r₀ hlookup
      have hfilter : (t.allq.filter fun r => r.id ≠ r₀.id).find? (fun r => r.covers d) =
          t.allq.find? fun r => r.covers d := by
        cases hfind : t.allq.find? (fun r => r.covers d) with
        | none =>
            rw [List.find?_eq_none] at hfind ⊢
            exact fun r hr => hfind r (mem_of_mem_filter hr)
        | some r =>
            obtain ⟨hcovers, l, l', hallq, hbefore⟩ := List.find?_eq_some_iff_append.mp hfind
            have hr : r.id ≠ r₀.id := by
              intro hid
              rw [h.eq_of_id (mem_of_find?_eq_some hfind) (mem_of_lookup h hlookup) hid]
                at hfind
              exact hd (by rw [lookup, hfind, Option.some_or])
            rw [hallq, filter_append, filter_cons_of_pos (by simpa using hr),
              List.find?_append, List.find?_cons_of_pos (p := fun r : Route => r.covers d) hcovers]
            rw [List.find?_eq_none.mpr fun x hx => ?_, Option.none_or]
            simpa using hbefore x (mem_of_mem_filter hx)
      refine ⟨?_, hfilter⟩
      simp only [lookup] at hd ⊢
      rw [hfilter]
      cases hfind : t.allq.find? (fun r => r.covers d) with
      | some r => rfl
      | none =>
          rw [hfind, Option.none_or] at hd
          rw [Option.none_or, Option.none_or, if_neg hd]

/-- The route for a destination outside is the same if it is not the one deleted. -/
theorem outside_iff (h : t.WF) (hdev : c.dev t = .ok netdev) (hd : c.Outside t d) :
    (t.addroute c).2.lookup d = t.lookup d ↔
      ∀ r, t.lookup c.daddr = some r → t.lookup d ≠ some r := by
  rw [addroute_ok hdev]
  constructor
  · intro hsame r hr hdr
    -- the route has been deleted
    have hmem := mem_of_lookup h hr
    have hgone : ∀ r' ∈ (t.delroute c.daddr).allq, r' ≠ r := by
      rintro r' hr' rfl
      unfold delroute at hr'
      rw [hr] at hr'
      simpa using of_mem_filter hr'
    have hnew : c.route t.next netdev ≠ r := by
      rintro rfl
      exact Nat.lt_irrefl _ (h.fresh _ hmem)
    rw [hdr] at hsame
    rcases Option.or_eq_some_iff.mp hsame with hfind | ⟨-, hdefault⟩
    · rcases mem_append.mp (mem_of_find?_eq_some hfind) with hold | hold
      · exact hgone r hold rfl
      · exact hnew (mem_singleton.mp hold).symm
    · dsimp only at hdefault
      split at hdefault
      · exact hnew (Option.some.inj hdefault)
      · exact hgone r ((h.delroute c.daddr).default r hdefault).1 rfl
  · intro hne
    obtain ⟨hlookup, hfind⟩ := delroute_lookup h hne
    rw [← hlookup]
    simp only [lookup, List.find?_append, hfind]
    unfold Call.Outside at hd
    split at hd
    · obtain ⟨r, hr, hcovers, -⟩ := hd
      obtain ⟨x, hx⟩ := Option.isSome_iff_exists.mp
        (List.find?_isSome (p := fun r : Route => r.covers d).mpr ⟨r, hr, hcovers⟩)
      rw [hx]
      rfl
    · next hany =>
      have hcovers : ¬ (c.route t.next netdev).covers d = true := hd
      rw [List.find?_cons_of_neg (p := fun r : Route => r.covers d) hcovers, List.find?_nil,
        Option.or_none, if_neg hany]

/-! ## Twice -/

/-- Only the routes of a table matter for the device. -/
theorem dev_congr {t' : Table} (hallq : t'.allq = t.allq) : c.dev t' = c.dev t := by
  unfold Call.dev findgateway
  rw [hallq]

theorem covers_route (c : Call) (i : Nat) : (c.route i netdev).covers c.daddr = true := by
  simp [Route.covers, ipneteq, Call.route]

theorem look_route {i j : Nat} {netdev' : Option Nat} :
    (c.route i netdev').look = (c.route j netdev).look ↔ netdev' = netdev := by
  simp [Route.look, Call.route]

/-- A list that is moved by one place and is the same. -/
theorem shift_eq_iff {α : Type*} {x v w : α} {l : List α} :
    l ++ [v, w] = x :: (l ++ [v]) ↔ w = v ∧ ∀ y ∈ x :: l, y = v := by
  induction l generalizing x with
  | nil =>
      simp only [nil_append, List.cons.injEq, and_true, forall_mem_cons,
        not_mem_nil, false_imp_iff, implies_true]
      exact and_comm.trans (and_congr_right fun _ => eq_comm)
  | cons b l ih =>
      simp only [cons_append, List.cons.injEq, ih, forall_mem_cons]
      constructor
      · rintro ⟨rfl, hw, hb, hl⟩
        exact ⟨hw, hb, hb, hl⟩
      · rintro ⟨hw, hx, hb, hl⟩
        exact ⟨hb.trans hx.symm, hw, hb, hl⟩

theorem filter_id {l : List Route} {i : Nat} (h : ∀ r ∈ l, r.id ≠ i) :
    (l.filter fun r => r.id ≠ i) = l :=
  filter_eq_self.mpr fun r hr => by simpa using h r hr

/-- The route deleted is the first one for the address, and the list closes up. -/
theorem delroute_split {s : Table} {l l' : List Route} (h : s.WF) (hallq : s.allq = l ++ r :: l')
    (hl : ∀ x ∈ l, x.covers d = false) (hr : r.covers d = true) :
    (s.delroute d).allq = l ++ l' ∧
      (s.delroute d).defaultgw = if s.defaultgw = some r then none else s.defaultgw := by
  have hlookup : s.lookup d = some r := by
    rw [lookup, hallq, List.find?_append, List.find?_eq_none.mpr (by simpa using hl),
      List.find?_cons_of_pos (p := fun r : Route => r.covers d) hr]
    rfl
  have hids := h.nodup
  rw [hallq, map_append, map_cons, nodup_middle, nodup_cons,
    ← map_append] at hids
  have hne : ∀ x ∈ l ++ l', x.id ≠ r.id := fun x hx heq =>
    hids.1 (heq ▸ mem_map_of_mem hx)
  unfold delroute
  rw [hlookup]
  refine ⟨?_, rfl⟩
  show (s.allq.filter fun x => x.id ≠ r.id) = l ++ l'
  rw [hallq, filter_append, filter_cons_of_neg (by simp), ← filter_append,
    filter_id hne]

/-- The second call makes the same table as the first one. -/
theorem again_iff (h : t.WF) (hdev : c.dev t = .ok netdev) :
    ((t.addroute c).2.addroute c).2.look = (t.addroute c).2.look ↔ t.Again c netdev := by
  have hwf := h.addroute c
  have hdel := h.delroute c.daddr
  obtain ⟨-, -, hnext⟩ := delroute_spec t c.daddr
  unfold Again
  rw [addroute_ok hdev] at hwf ⊢
  generalize hrest : (t.delroute c.daddr).allq = rest at hwf hdel ⊢
  generalize hgw : (t.delroute c.daddr).defaultgw = gw at hwf hdel ⊢
  have hfresh : ∀ r ∈ rest, r.id ≠ t.next := fun r hr =>
    Nat.ne_of_lt (hnext ▸ hdel.fresh r (hrest ▸ hr))
  have hothers : (t.others c netdev).allq = rest ++ [c.route t.next netdev] := by
    rw [others, hrest]
  generalize hs : Table.mk _ _ _ = s at hwf ⊢
  have hallq : s.allq = rest ++ [c.route t.next netdev] := by rw [← hs]
  rw [dev_congr (hallq.trans hothers.symm).symm]
  cases hagain : c.dev s with
  | error e =>
      rw [addroute_error hagain]
      exact iff_of_true rfl nofun
  | ok netdev' =>
      rw [addroute_ok hagain]
      have hnext' : s.next = t.next + 1 := by rw [← hs]
      have hnew : ∀ r, s.defaultgw = some r → r.look = (c.route t.next netdev).look →
          c.daddr = INADDRANY := by
        intro r hr hlook
        have hdaddr : r.daddr = c.daddr := congrArg Route.daddr hlook
        exact hdaddr.symm.trans (hwf.default r hr).2
      have hdefault : c.daddr = INADDRANY → s.defaultgw = some (c.route t.next netdev) := by
        intro hany
        rw [← hs]
        exact if_pos hany
      simp only [Except.ok.injEq, forall_eq']
      unfold look
      rw [hallq, map_append, map_append, map_singleton, map_singleton,
        Prod.mk.injEq]
      cases hdrop : rest.dropWhile fun r => !r.covers c.daddr with
      | nil =>
          -- the second call deletes the route that the first one has made
          have hnone : ∀ x ∈ rest, x.covers c.daddr = false := by
            simpa [dropWhile_eq_nil_iff] using hdrop
          obtain ⟨hdelq, hdelgw⟩ := delroute_split hwf hallq hnone (covers_route c _)
          rw [hdelq, hdelgw, append_nil]
          simp only [append_cancel_left_eq, List.cons.injEq, and_true, look_route,
            not_mem_nil, false_imp_iff, implies_true]
          refine and_iff_left_of_imp fun hdev' => ?_
          split
          · next hany =>
            rw [hdefault hany, Option.map_some, Option.map_some, look_route.mpr hdev']
          · next hany => rw [if_neg fun hgw => hany (hnew _ hgw rfl)]
      | cons x l =>
          have hx : x.covers c.daddr = true := by
            have hhead := List.head?_dropWhile_not (fun r : Route => !r.covers c.daddr) rest
            rw [hdrop] at hhead
            simpa using hhead
          have hsplit : rest = rest.takeWhile (fun r => !r.covers c.daddr) ++ x :: l := by
            rw [← hdrop, takeWhile_append_dropWhile]
          generalize hpre : rest.takeWhile (fun r => !r.covers c.daddr) = pre at hsplit
          have hnone : ∀ y ∈ pre, y.covers c.daddr = false := by
            intro y hy
            rw [← hpre] at hy
            simpa using mem_takeWhile_imp hy
          have hallq' : s.allq = pre ++ x :: (l ++ [c.route t.next netdev]) := by
            rw [hallq, hsplit, append_assoc, cons_append]
          obtain ⟨hdelq, hdelgw⟩ := delroute_split hwf hallq' hnone hx
          rw [hdelq, hdelgw, hsplit]
          have hshift := shift_eq_iff (x := x.look) (v := (c.route t.next netdev).look)
            (w := (c.route s.next netdev').look) (l := l.map Route.look)
          rw [look_route] at hshift
          simp only [map_append, map_cons, map_nil, append_assoc,
            cons_append, nil_append, append_cancel_left_eq, hshift,
            forall_mem_cons, forall_mem_map]
          refine and_iff_left_of_imp fun hsame => ?_
          split
          · next hany =>
            rw [hdefault hany, Option.map_some, Option.map_some, look_route.mpr hsame.1]
          · next hany => rw [if_neg fun hgw => hany (hnew _ hgw hsame.2.1)]

/-! ## The claim -/

/-- A route to the host 192.168.1.7. -/
def hostroute : Call := ⟨RTFHOST, 0x0701a8c0, 0, 0, some 0⟩

end Table

end Unixlite.Net.Routing
