import Mathlib.Logic.Function.Iterate
import Unixlite.Net.Ports

/-!
# Which local ports are chosen and refused

`newtcpport` and `newudpport` ask `exist` for a port in host byte order, and the sockets hold
theirs in network byte order.  So the search stops at the first number that is nobody's port
with its bytes swapped, and the new port may be taken.
-/

namespace Unixlite.Net.Ports

open Unixlite.Verified Unixlite.Verified.Run Option
open Function (iterate_zero update update_of_ne update_self)

variable {proto : Proto} {s s' : Ports} {i : Nat} {t : Portsock}

/-! ## The property and the condition -/

/-- What one step must do: a port that is chosen is nobody's, and `bind` says `EADDRINUSE`
exactly when another socket is in the way. -/
def Right (proto : Proto) (s : Ports) : Portevent → Prop
  | .create => ∀ b, s.newport proto = some b →
      ∀ i t, s.sock i = some t → t.lport ≠ htons b
  | .bind i addr port suser ok => ∀ t r, s.sock i = some t →
      s.bind proto i addr port suser ok = some r →
      (r.1 = EADDRINUSE ↔ proto.refuses t port suser ok = none ∧
        ∃ j u, j ≠ i ∧ s.sock j = some u ∧ u.conflicts addr port (proto.reuseaddr t) = true)
  | _ => True

/-- Every socket is on the chain of its local port, once, and on no other chain. -/
def Hashed (proto : Proto) (s : Ports) : Prop :=
  ∀ i t, s.sock i = some t → (s.chain (proto.hashfunc t.lport)).count i = 1 ∧
    ∀ b, b ≠ proto.hashfunc t.lport → i ∉ s.chain b

/-- A socket holds the port `b`. -/
def Taken (s : Ports) (b : BitVec 16) : Prop := ∃ i t, s.sock i = some t ∧ t.lport = b

/-- The condition.  For a new socket: nobody has the first port, counted from `begin` on, that
is nobody's when its bytes are not swapped.  For `bind`: the socket is not in its own way, or
another one is as well. -/
def Apart (proto : Proto) (s : Ports) : Portevent → Prop
  | .create => ∀ n, (∀ k < n, s.Taken (nextport^[k] s.begin)) → ¬ s.Taken (nextport^[n] s.begin) →
      ¬ s.Taken (htons (nextport^[n] s.begin))
  | .bind i addr port suser ok => ∀ t, s.sock i = some t →
      proto.refuses t port suser ok = none → t.conflicts addr port (proto.reuseaddr t) = true →
      ∃ j u, j ≠ i ∧ s.sock j = some u ∧ u.conflicts addr port (proto.reuseaddr t) = true
  | _ => True

/-! ## The invariant -/

/-- The key of a socket in the table. -/
def lportOf (s : Ports) (i : Nat) : Option (BitVec 16) := (s.sock i).map Portsock.lport

structure Inv (proto : Proto) (s : Ports) : Prop where
  fresh : ∀ i, s.next ≤ i → s.sock i = none
  chained : Chains.Chained proto.hashfunc s.lportOf s.chain
  user : USERSOCK.toNat ≤ s.begin.toNat

theorem Inv.hashed (h : Inv proto s) : Hashed proto s := by
  intro i t ht
  have hkey : s.lportOf i = some t.lport := by rw [lportOf, ht, map_some]
  have hmem : i ∈ s.chain (proto.hashfunc t.lport) :=
    (h.chained.mem i _).mpr ⟨t.lport, hkey, rfl⟩
  refine ⟨List.count_eq_one_of_mem (h.chained.nodup _) hmem, fun b hb hib => ?_⟩
  obtain ⟨k, hk, hkb⟩ := (h.chained.mem i b).mp hib
  rw [hkey] at hk
  cases hk
  exact hb hkb.symm

/-- `exist` sees every socket. -/
theorem Inv.exist_iff (h : Inv proto s) (laddr : BitVec 32) (lport : BitVec 16)
    (reuseaddr : Bool) : s.exist proto laddr lport reuseaddr = true ↔
      ∃ i t, s.sock i = some t ∧ t.conflicts laddr lport reuseaddr = true := by
  unfold exist
  rw [h.chained.any_iff (k := lport)]
  · constructor
    · rintro ⟨i, hi⟩
      obtain ⟨t, ht, hc⟩ := (any_eq_true _ _).mp hi
      exact ⟨i, t, ht, hc⟩
    · rintro ⟨i, t, ht, hc⟩
      exact ⟨i, (any_eq_true _ _).mpr ⟨t, ht, hc⟩⟩
  · intro i hi
    obtain ⟨t, ht, hc⟩ := (any_eq_true _ _).mp hi
    unfold Portsock.conflicts at hc
    rw [Bool.and_eq_true, Bool.and_eq_true] at hc
    rw [lportOf, ht, map_some, beq_iff_eq.mp hc.1.2]

/-- What the loop of `newtcpport` asks. -/
theorem Inv.taken_iff (h : Inv proto s) (b : BitVec 16) :
    s.exist proto INADDRANY b false = true ↔ s.Taken b := by
  rw [h.exist_iff]
  unfold Portsock.conflicts Taken
  simp

/-! ## The search -/

theorem nextport_toNat {b : BitVec 16} (hb : 1024 ≤ b.toNat) :
    (nextport b).toNat = 1024 + (b.toNat - 1024 + 1) % 64512 := by
  have hone : (b + 1).toNat = (b.toNat + 1) % 65536 := rfl
  unfold nextport
  split
  · next hzero =>
    have hlast : (b + 1).toNat = 0 := by rw [hzero]; rfl
    have huser : USERSOCK.toNat = 1024 := rfl
    omega
  · next hne =>
    have hnot : (b + 1).toNat ≠ 0 := fun hzero => hne (BitVec.eq_of_toNat_eq hzero)
    omega

/-- The search goes round through the ports from `USERSOCK` on. -/
theorem iterate_nextport {b : BitVec 16} (hb : 1024 ≤ b.toNat) (n : Nat) :
    (nextport^[n] b).toNat = 1024 + (b.toNat - 1024 + n) % 64512 := by
  induction n with
  | zero =>
      show b.toNat = _
      omega
  | succ n ih =>
      rw [Function.iterate_succ_apply', nextport_toNat (by omega), ih]
      omega

theorem newport_go (fuel : Nat) (b b' : BitVec 16) :
    newport.go proto s fuel b = some b' ↔ ∃ n < fuel, b' = nextport^[n] b ∧
      (∀ k < n, s.exist proto INADDRANY (nextport^[k] b) false = true) ∧
        s.exist proto INADDRANY (nextport^[n] b) false = false := by
  induction fuel generalizing b with
  | zero =>
      constructor
      · intro h
        cases h
      · rintro ⟨n, hn, -⟩
        exact absurd hn (Nat.not_lt_zero n)
  | succ fuel ih =>
      rw [newport.go]
      cases hexist : s.exist proto INADDRANY b false with
      | false =>
          constructor
          · intro h
            cases h
            exact ⟨0, Nat.succ_pos fuel, rfl, fun k hk => absurd hk (Nat.not_lt_zero k), hexist⟩
          · rintro ⟨n, -, hn, hbefore, -⟩
            cases n with
            | zero => rw [hn]; rfl
            | succ n =>
                have hfirst := hbefore 0 (Nat.succ_pos n)
                rw [iterate_zero, id_eq, hexist] at hfirst
                cases hfirst
      | true =>
          rw [if_pos rfl, ih]
          constructor
          · rintro ⟨n, hn, hb', hbefore, hnot⟩
            refine ⟨n + 1, Nat.succ_lt_succ hn, hb', fun k hk => ?_, hnot⟩
            cases k with
            | zero => exact hexist
            | succ k => exact hbefore k (Nat.lt_of_succ_lt_succ hk)
          · rintro ⟨n, hn, hb', hbefore, hnot⟩
            cases n with
            | zero =>
                rw [iterate_zero, id_eq, hexist] at hnot
                cases hnot
            | succ n =>
                exact ⟨n, Nat.lt_of_succ_lt_succ hn, hb',
                  fun k hk => hbefore (k + 1) (Nat.succ_lt_succ hk), hnot⟩

/-- The search stops at the first port that `exist` does not find. -/
theorem Inv.newport_eq_some (h : Inv proto s) {b : BitVec 16} :
    s.newport proto = some b ↔ ∃ n, b = nextport^[n] s.begin ∧
      (∀ k < n, s.Taken (nextport^[k] s.begin)) ∧ ¬ s.Taken (nextport^[n] s.begin) := by
  have hnot : ∀ b, s.exist proto INADDRANY b false = false ↔ ¬ s.Taken b := by
    intro b
    rw [← h.taken_iff, Bool.not_eq_true]
  unfold newport
  rw [newport_go]
  constructor
  · rintro ⟨n, -, hb, hbefore, hn⟩
    exact ⟨n, hb, fun k hk => (h.taken_iff _).mp (hbefore k hk), (hnot _).mp hn⟩
  · rintro ⟨n, hb, hbefore, hn⟩
    refine ⟨n, ?_, hb, fun k hk => (h.taken_iff _).mpr (hbefore k hk), (hnot _).mpr hn⟩
    -- after one round the same ports come again
    by_contra hlt
    have huser : 1024 ≤ s.begin.toNat := h.user
    have hround : nextport^[n] s.begin = nextport^[n - 64512] s.begin := by
      apply BitVec.eq_of_toNat_eq
      rw [iterate_nextport huser, iterate_nextport huser]
      omega
    rw [hround] at hn
    exact hn (hbefore (n - 64512) (by omega))

/-! ## One step -/

theorem refuses_ne {port : BitVec 16} {suser ok : Bool} {e : Int}
    (h : proto.refuses t port suser ok = some e) : e ≠ EADDRINUSE := by
  unfold Proto.refuses at h
  cases proto with
  | tcp | udp =>
      dsimp only at h
      split_ifs at h <;> cases h <;> decide

/-- `bind` says `EADDRINUSE` when any socket is in the way, its own one included. -/
theorem Inv.bind_iff (h : Inv proto s) {addr : BitVec 32} {port : BitVec 16} {suser ok : Bool}
    {r : Int × Ports} (ht : s.sock i = some t) (hr : s.bind proto i addr port suser ok = some r) :
    r.1 = EADDRINUSE ↔ proto.refuses t port suser ok = none ∧
      ∃ j u, s.sock j = some u ∧ u.conflicts addr port (proto.reuseaddr t) = true := by
  unfold bind at hr
  rw [ht, map_some] at hr
  cases hr
  cases hrefuses : proto.refuses t port suser ok with
  | some e =>
      exact iff_of_false (refuses_ne hrefuses) fun hnone => by cases hnone.1
  | none =>
      rw [elim_none, ← h.exist_iff]
      split
      · next hexist => exact iff_of_true rfl ⟨rfl, hexist⟩
      · next hexist =>
        have hzero : (0 : Int) ≠ EADDRINUSE := by decide
        exact iff_of_false hzero fun hboth => hexist hboth.2

theorem right_iff (h : Inv proto s) (a : Portevent) : Right proto s a ↔ Apart proto s a := by
  cases a with
  | create =>
      constructor
      · rintro hright n hbefore hn ⟨i, t, ht, hport⟩
        exact hright _ (h.newport_eq_some.mpr ⟨n, rfl, hbefore, hn⟩) i t ht hport
      · intro hapart b hb i t ht hport
        obtain ⟨n, rfl, hbefore, hn⟩ := h.newport_eq_some.mp hb
        exact hapart n hbefore hn ⟨i, t, ht, hport⟩
  | bind i addr port suser ok =>
      constructor
      · intro hright t ht hnone hown
        have hr : s.bind proto i addr port suser ok =
            some ((proto.refuses t port suser ok).elim
              (if s.exist proto addr port (proto.reuseaddr t) then (EADDRINUSE, s)
                else (0, s.changelocal proto i t addr port)) fun e => (e, s)) := by
          unfold Ports.bind
          rw [ht, map_some]
        have hin : _ = EADDRINUSE := (h.bind_iff ht hr).mpr ⟨hnone, i, t, ht, hown⟩
        exact ((hright t _ ht hr).mp hin).2
      · intro hapart t r ht hr
        rw [h.bind_iff ht hr]
        refine and_congr_right fun hnone => ⟨?_, ?_⟩
        · rintro ⟨j, u, hu, hc⟩
          by_cases hji : j = i
          · rw [hji, ht] at hu
            cases hu
            exact hapart t ht hnone hc
          · exact ⟨j, u, hji, hu, hc⟩
        · rintro ⟨j, u, -, hu, hc⟩
          exact ⟨j, u, hu, hc⟩
  | child | connect | change | setsocketopt | destroy => exact Iff.rfl

theorem lportOf_update (sock : Nat → Option Portsock) (i : Nat) (o : Option Portsock) :
    (fun j => (update sock i o j).map Portsock.lport) =
      update (fun j => (sock j).map Portsock.lport) i (o.map Portsock.lport) := by
  funext j
  by_cases hj : j = i
  · rw [hj, update_self, update_self]
  · rw [update_of_ne hj, update_of_ne hj]

/-- A socket keeps its number. -/
theorem Inv.fresh_update (h : Inv proto s) (ht : s.sock i = some t) (o : Option Portsock) (j : Nat)
    (hj : s.next ≤ j) : update s.sock i o j = none := by
  have hji : j ≠ i := by
    rintro rfl
    rw [h.fresh j hj] at ht
    cases ht
  rw [update_of_ne hji]
  exact h.fresh j hj

/-- The local port stays. -/
theorem Inv.set (h : Inv proto s) (ht : s.sock i = some t) {u : Portsock}
    (hport : u.lport = t.lport) : Inv proto (s.set i u) where
  fresh := h.fresh_update ht (some u)
  chained := by
    have hsame : (s.set i u).lportOf = s.lportOf := by
      unfold Ports.set lportOf
      rw [lportOf_update, map_some, hport, Function.update_eq_self_iff, ht,
        map_some]
    rw [hsame]
    exact h.chained
  user := h.user

theorem Inv.initaddr (h : Inv proto s) (t : Portsock) : Inv proto (s.initaddr proto t) where
  fresh := by
    intro j hj
    have hlt : s.next + 1 ≤ j := hj
    show update s.sock s.next (some t) j = none
    rw [update_of_ne (by omega)]
    exact h.fresh j (by omega)
  chained := by
    have hkey : s.lportOf s.next = none := by
      rw [lportOf, h.fresh s.next (Nat.le_refl _), map_none]
    have hnew := h.chained.enqtail (k := t.lport) hkey
    unfold lportOf at hnew ⊢
    unfold Ports.initaddr
    rw [lportOf_update]
    exact hnew
  user := h.user

theorem Inv.changelocal (h : Inv proto s) (ht : s.sock i = some t) (addr : BitVec 32)
    (port : BitVec 16) : Inv proto (s.changelocal proto i t addr port) where
  fresh := h.fresh_update ht _
  chained := by
    have hnew := h.chained.rekey i port
    unfold lportOf at hnew ⊢
    unfold Ports.changelocal
    rw [lportOf_update]
    exact hnew
  user := h.user

theorem Inv.destroy (h : Inv proto s) (ht : s.sock i = some t) : Inv proto (s.destroy i) where
  fresh := h.fresh_update ht none
  chained := by
    have hnew := h.chained.unlink i
    unfold lportOf at hnew ⊢
    unfold Ports.destroy
    rw [lportOf_update]
    exact hnew
  user := h.user

theorem connect_lport (t : Portsock) (route : Option (BitVec 32)) (ok : Bool)
    (faddr : BitVec 32) (fport : BitVec 16) :
    (proto.connect t route ok faddr fport).lport = t.lport := by
  unfold Proto.connect
  cases proto with
  | tcp =>
      dsimp only
      split
      · rfl
      · cases route <;> rfl
  | udp nphysmeg =>
      dsimp only
      split <;> rfl

theorem step_inv (h : Inv proto s) {a : Portevent} (ht : s.step proto a = some s') :
    Inv proto s' := by
  cases a with
  | create =>
      obtain ⟨b, hb, ht⟩ := map_eq_some_iff.mp ht
      cases ht
      obtain ⟨n, rfl, -⟩ := h.newport_eq_some.mp hb
      have huser : USERSOCK.toNat ≤ (nextport^[n] s.begin).toNat := by
        rw [iterate_nextport h.user]
        exact Nat.le_add_right 1024 _
      have hbegin : Inv proto { s with begin := nextport^[n] s.begin } :=
        ⟨h.fresh, h.chained, huser⟩
      exact hbegin.initaddr _
  | child l daddr saddr sport =>
      obtain ⟨t, -, ht⟩ := bind_eq_some_iff.mp ht
      split at ht
      · cases ht
        exact h.initaddr _
      · cases ht
  | bind i addr port suser ok =>
      obtain ⟨r, hr, rfl⟩ := map_eq_some_iff.mp ht
      obtain ⟨t, htsock, hr⟩ := map_eq_some_iff.mp hr
      rw [← hr]
      cases proto.refuses t port suser ok with
      | some e => exact h
      | none =>
          split
          · exact h
          · exact h.changelocal htsock addr port
  | connect i route ok faddr fport =>
      obtain ⟨t, htsock, ht⟩ := map_eq_some_iff.mp ht
      cases ht
      exact h.set htsock (connect_lport t route ok faddr fport)
  | change i state =>
      unfold step at ht
      dsimp only at ht
      split at ht
      · obtain ⟨t, htsock, ht⟩ := map_eq_some_iff.mp ht
        cases ht
        exact h.set (u := { t with state := state }) htsock rfl
      · cases ht
  | setsocketopt i soreuseaddr =>
      obtain ⟨t, htsock, ht⟩ := map_eq_some_iff.mp ht
      cases ht
      exact h.set (u := { t with soreuseaddr := soreuseaddr }) htsock rfl
  | destroy i =>
      obtain ⟨t, htsock, ht⟩ := map_eq_some_iff.mp ht
      cases ht
      exact h.destroy htsock

/-! ## Runs -/

theorem boot_inv : Inv proto boot where
  fresh := fun _ _ => rfl
  chained := Chains.chained_empty
  user := Nat.le_refl _

end Unixlite.Net.Ports
