import Unixlite.Fs.Remount

/-!
# The inode cache across mounts: the slots

What the references, the slots and the disks have to do with each other between two steps
(`Inv`), and what the operations of the cache keep of it.  Every rule about one of them
says which file systems, references and slots it leaves alone.
-/

namespace Unixlite.Fs.Remount

open Icache (Key Istate Dinode Slot Cache)
open List
open Option (bind_eq_some_iff map_eq_some_iff some)

namespace Sys

/-! ## The invariant -/

/-- The references; the slot `x` need not be valid. -/
structure Refs (s : Sys) (x : Option Nat) : Prop where
  refcnt : ∀ i, (s.slot i).refcnt = (s.refs.map Ref.slot).count i
  key : ∀ g ∈ s.refs, (s.slot g.slot).key = g.key
  used : ∀ g ∈ s.refs, some g.slot ≠ x → (s.slot g.slot).state ≠ .inval
  allq : ∀ g ∈ s.refs, g.slot ∈ s.allq

/-- What is in the slots and on the disks. -/
structure Data (s : Sys) : Prop where
  hashq : ∀ i, i ∈ s.hashq ↔ i ∈ s.allq
  freeq : ∀ i ∈ s.freeq, i ∈ s.allq
  unique : ∀ i ∈ s.allq, ∀ j ∈ s.allq, (s.slot i).key = (s.slot j).key → i = j
  valid : ∀ i, (s.slot i).state ≠ .inval → i ∈ s.allq ∧ ∃ d, s.mem (s.slot i).fs = some d ∧
    (s.slot i).dev = d ∧ (s.slot i).di = s.truth d (s.slot i).ino
  disk : ∀ d ino, (∀ i, (s.slot i).state = .dirty → s.mem (s.slot i).fs = some d →
    (s.slot i).ino ≠ ino) → s.disk d ino = s.truth d ino
  inj : ∀ a b d, s.mem a = some d → s.mem b = some d → a = b

structure Inv (s : Sys) (x : Option Nat) : Prop extends Refs s x, Data s

variable {s t u : Sys} {x y : Option Nat} {i : Nat} {key : Key} {g : Ref} {read ok : Bool}

theorem Inv.safe (h : Inv s none) : Safe s := by
  refine ⟨fun g hg => ⟨h.key g hg, ?_⟩, h.unique⟩
  obtain ⟨-, d, hmem, hdev, hdi⟩ := h.valid g.slot (h.used g hg nofun)
  have hkey := h.key g hg
  rw [← hkey]
  exact ⟨d, hmem, hdev, hdi⟩

/-! ## References -/

theorem Refs.mono (h : Refs s x) (hx : ∀ g ∈ s.refs, some g.slot ≠ y → some g.slot = x →
    (s.slot g.slot).state ≠ .inval) : Refs s y := by
  refine ⟨h.refcnt, h.key, fun g hg hy => ?_, h.allq⟩
  by_cases hgx : some g.slot = x
  · exact hx g hg hy hgx
  · exact h.used g hg hgx

/-- Nobody has a slot of which there are no references. -/
theorem Refs.unused (h : Refs s x) (hrefcnt : (s.slot i).refcnt = 0) (hg : g ∈ s.refs) :
    g.slot ≠ i := by
  intro heq
  have hcount := h.refcnt i
  rw [hrefcnt, eq_comm, List.count_eq_zero] at hcount
  exact hcount (mem_map.mpr ⟨g, hg, heq⟩)

theorem Refs.of_valid (h : Refs s (some i)) (hvalid : (s.slot i).state ≠ .inval) : Refs s none := by
  refine h.mono fun g _ _ hgx => ?_
  rw [some.inj hgx]
  exact hvalid

theorem Refs.congr (h : Refs s x) (hrefcnt : ∀ i, (t.slot i).refcnt = (s.slot i).refcnt)
    (hkey : ∀ i, (t.slot i).key = (s.slot i).key)
    (hstate : ∀ i, (s.slot i).state ≠ .inval → some i ≠ x → (t.slot i).state ≠ .inval)
    (hrefs : (t.refs.map fun g => (g.slot, g.key)).Perm (s.refs.map fun g => (g.slot, g.key)))
    (hallq : t.allq = s.allq) : Refs t x := by
  have hmem : ∀ g ∈ t.refs, ∃ g' ∈ s.refs, g'.slot = g.slot ∧ g'.key = g.key := by
    intro g hg
    have hpair := hrefs.mem_iff.mp (mem_map.mpr ⟨g, hg, rfl⟩)
    obtain ⟨g', hg', heq⟩ := mem_map.mp hpair
    rw [Prod.mk.injEq] at heq
    exact ⟨g', hg', heq⟩
  refine ⟨fun i => ?_, fun g hg => ?_, fun g hg hx => ?_, fun g hg => ?_⟩
  · have hslots : (t.refs.map Ref.slot).Perm (s.refs.map Ref.slot) := by
      have hfst := hrefs.map Prod.fst
      rwa [map_map, map_map] at hfst
    rw [hrefcnt, h.refcnt, hslots.count_eq]
  · obtain ⟨g', hg', hslot, hgkey⟩ := hmem g hg
    rw [hkey, ← hslot, ← hgkey]
    exact h.key g' hg'
  · obtain ⟨g', hg', hslot, -⟩ := hmem g hg
    rw [← hslot] at hx ⊢
    exact hstate _ (h.used g' hg' hx) hx
  · obtain ⟨g', hg', hslot, -⟩ := hmem g hg
    rw [hallq, ← hslot]
    exact h.allq g' hg'

theorem upd_slot (s : Sys) (i : Nat) (f : Slot → Slot) (j : Nat) :
    (s.upd i f).slot j = if j = i then f (s.slot j) else s.slot j := rfl

variable {β : Type*} {a d : Nat} {di : Dinode}

theorem upd_same (p : Slot → β) {f : Slot → Slot} (hf : ∀ z, p (f z) = p z)
    (s : Sys) (i j : Nat) : p ((s.upd i f).slot j) = p (s.slot j) :=
  Cache.upd_same p hf s.toCache i j

theorem hold_slot (s : Sys) (g : Ref) (j : Nat) : (s.hold g).slot j =
    if j = g.slot then { s.slot j with refcnt := (s.slot j).refcnt + 1 } else s.slot j := rfl

theorem hold_same (p : Slot → β) (hp : ∀ z n, p { z with refcnt := n } = p z)
    (s : Sys) (g : Ref) (j : Nat) : p ((s.hold g).slot j) = p (s.slot j) :=
  upd_same p (fun z => hp z (z.refcnt + 1)) s g.slot j

theorem Refs.hold (h : Refs s x) (hkey : (s.slot g.slot).key = g.key) (hg : g.slot ∈ s.allq)
    (hused : some g.slot ≠ x → (s.slot g.slot).state ≠ .inval) : Refs (s.hold g) x := by
  have hrefs : (s.hold g).refs = g :: s.refs := rfl
  refine ⟨fun j => ?_, fun g' hg' => ?_, fun g' hg' hx => ?_, fun g' hg' => ?_⟩
  · rw [hold_slot, hrefs, map_cons]
    split
    · next hj =>
      rw [hj, count_cons_self]
      exact congrArg (· + 1) (h.refcnt g.slot)
    · next hj =>
      rw [count_cons_of_ne (Ne.symm hj)]
      exact h.refcnt j
  · rw [hold_same Slot.key fun _ _ => rfl]
    rcases mem_cons.mp hg' with rfl | hg'
    · exact hkey
    · exact h.key g' hg'
  · rw [hold_same Slot.state fun _ _ => rfl]
    rcases mem_cons.mp hg' with rfl | hg'
    · exact hused hx
    · exact h.used g' hg' hx
  · rcases mem_cons.mp hg' with rfl | hg'
    · exact hg
    · exact h.allq g' hg'

theorem Refs.own (h : Refs s x) (hg : g ∈ s.refs) (o : Owner) : Refs (s.own g o) x := by
  refine h.congr (fun _ => rfl) (fun _ => rfl) (fun _ hs _ => hs) ?_ rfl
  have hperm := (perm_cons_erase hg).map fun g : Ref => (g.slot, g.key)
  exact hperm.symm

theorem drop_slot (s : Sys) (g : Ref) (j : Nat) : (s.drop g).slot j =
    if j = g.slot then { s.slot j with refcnt := (s.slot j).refcnt - 1 } else s.slot j := rfl

theorem drop_same (p : Slot → β) (hp : ∀ z n, p { z with refcnt := n } = p z)
    (s : Sys) (g : Ref) (j : Nat) : p ((s.drop g).slot j) = p (s.slot j) :=
  upd_same p (fun z => hp z (z.refcnt - 1)) s g.slot j

theorem Refs.drop (h : Refs s x) (hg : g ∈ s.refs) : Refs (s.drop g) x := by
  have hmem : ∀ g' ∈ (s.drop g).refs, g' ∈ s.refs := fun _ hg' => mem_of_mem_erase hg'
  refine ⟨fun j => ?_, fun g' hg' => ?_, fun g' hg' hx => ?_, fun g' hg' => ?_⟩
  · have hperm := ((perm_cons_erase hg).map Ref.slot).count_eq j
    have hcount := h.refcnt j
    rw [hperm, map_cons] at hcount
    rw [drop_slot]
    split
    · next hj =>
      rw [hj, count_cons_self] at hcount
      rw [hj]
      exact congrArg (· - 1) hcount
    · next hj =>
      rw [count_cons_of_ne (Ne.symm hj)] at hcount
      exact hcount
  · rw [drop_same Slot.key fun _ _ => rfl]
    exact h.key g' (hmem g' hg')
  · rw [drop_same Slot.state fun _ _ => rfl]
    exact h.used g' (hmem g' hg') hx
  · exact h.allq g' (hmem g' hg')

/-! ## Data -/

/-- The fields that `Data` is about. -/
def core (x : Slot) : Istate × Nat × Nat × Nat × Dinode := (x.state, x.fs, x.dev, x.ino, x.di)

theorem core_eq {z w : Slot} (h : core z = core w) :
    z.state = w.state ∧ z.key = w.key ∧ z.dev = w.dev := by
  simp only [core, Prod.mk.injEq] at h
  exact ⟨h.1, Prod.ext h.2.1 h.2.2.2.1, h.2.2.1⟩

theorem Data.congr (h : Data s) (hcore : ∀ i, core (t.slot i) = core (s.slot i))
    (hhash : t.hashq = s.hashq) (hfree : ∀ i ∈ t.freeq, i ∈ s.allq) (hallq : t.allq = s.allq)
    (hmem : t.mem = s.mem) (hdisk : t.disk = s.disk) (htruth : t.truth = s.truth) : Data t := by
  have hslot : ∀ i, (t.slot i).state = (s.slot i).state ∧ (t.slot i).fs = (s.slot i).fs ∧
      (t.slot i).dev = (s.slot i).dev ∧ (t.slot i).ino = (s.slot i).ino ∧
      (t.slot i).di = (s.slot i).di := by
    intro i
    have heq := hcore i
    simp only [core, Prod.mk.injEq] at heq
    exact heq
  have hkey : ∀ i, (t.slot i).key = (s.slot i).key := fun i =>
    Prod.ext (hslot i).2.1 (hslot i).2.2.2.1
  refine ⟨fun i => ?_, fun i hi => ?_, fun i hi j hj heq => ?_, fun i hi => ?_,
    fun d ino hd => ?_, fun a b d => ?_⟩
  · rw [hhash, hallq]
    exact h.hashq i
  · rw [hallq]
    exact hfree i hi
  · rw [hallq] at hi hj
    rw [hkey, hkey] at heq
    exact h.unique i hi j hj heq
  · rw [(hslot i).1] at hi
    rw [(hslot i).2.1, (hslot i).2.2.1, (hslot i).2.2.2.1, (hslot i).2.2.2.2, hallq, hmem, htruth]
    exact h.valid i hi
  · rw [hdisk, htruth]
    refine h.disk d ino fun i hi hdev => ?_
    have hne := hd i
    rw [(hslot i).1, (hslot i).2.1, (hslot i).2.2.2.1, hmem] at hne
    exact hne hi hdev
  · rw [hmem]
    exact h.inj a b d

theorem put_self (tr : Nat → Nat → Dinode) (d ino : Nat) (di : Dinode) :
    put tr d ino di d ino = di := if_pos ⟨rfl, rfl⟩

theorem put_other {tr : Nat → Nat → Dinode} {ino d' ino' : Nat}
    (h : ¬ (d' = d ∧ ino' = ino)) : put tr d ino di d' ino' = tr d' ino' := if_neg h

/-- One slot for each inode of a device. -/
theorem Data.only (h : Data s) {j : Nat} (hi : (s.slot i).state ≠ .inval)
    (hj : (s.slot j).state ≠ .inval) (hdi : s.mem (s.slot i).fs = some d)
    (hdj : s.mem (s.slot j).fs = some d) (hino : (s.slot j).ino = (s.slot i).ino) : j = i :=
  h.unique j (h.valid j hj).1 i (h.valid i hi).1 (Prod.ext (h.inj _ _ d hdj hdi) hino)

theorem Data.unique_congr (h : Data s) (hkey : ∀ j, (t.slot j).key = (s.slot j).key)
    (hallq : t.allq = s.allq) :
    ∀ j ∈ t.allq, ∀ k ∈ t.allq, (t.slot j).key = (t.slot k).key → j = k := by
  intro j hj k hk heq
  rw [hallq] at hj hk
  rw [hkey, hkey] at heq
  exact h.unique j hj k hk heq

theorem Data.write (h : Data s) (hw : s.write i = some t) : Data t := by
  unfold Sys.write at hw
  split at hw
  · cases hw
    exact h
  next hdirty =>
  have hdirty := not_not.mp hdirty
  obtain ⟨d, hd, rfl⟩ := map_eq_some_iff.mp hw
  have hi : (s.slot i).state ≠ .inval := by rw [hdirty]; nofun
  obtain ⟨-, d', hd', -, hdi⟩ := h.valid i hi
  rw [hd] at hd'
  cases hd'
  refine ⟨h.hashq, h.freeq, ?_, ?_, ?_, h.inj⟩
  · refine h.unique_congr (fun j => ?_) rfl
    dsimp only
    exact upd_same Slot.key (fun _ => by rfl) s i j
  · intro j hj
    rw [upd_slot] at hj ⊢
    split
    · next hji =>
      rw [hji]
      exact h.valid i hi
    · next hji =>
      rw [if_neg hji] at hj
      exact h.valid j hj
  · intro d' ino' hclean
    dsimp only at hclean ⊢
    by_cases hself : d' = d ∧ ino' = (s.slot i).ino
    · rw [hself.1, hself.2, put_self]
      exact hdi
    · rw [put_other hself]
      refine h.disk d' ino' fun j hj hdj hino => ?_
      by_cases hji : j = i
      · rw [hji] at hdj hino
        rw [hd] at hdj
        exact hself ⟨(some.inj hdj).symm, hino.symm⟩
      · have hne := hclean j
        rw [upd_slot, if_neg hji] at hne
        exact hne hj hdj hino

/-- The slot is given up, and what its inode is is what the disk has. -/
theorem Data.release (h : Data s) (hi : (s.slot i).state ≠ .inval)
    (hr : s.release i = some t) : Data t := by
  obtain ⟨d, hd, rfl⟩ := map_eq_some_iff.mp hr
  refine ⟨h.hashq, h.freeq, ?_, ?_, ?_, h.inj⟩
  · refine h.unique_congr (fun j => ?_) rfl
    dsimp only
    exact upd_same Slot.key (fun _ => by rfl) s i j
  · intro j hj
    dsimp only at hj ⊢
    rw [upd_slot] at hj ⊢
    by_cases hji : j = i
    · rw [if_pos hji] at hj
      exact absurd rfl hj
    · rw [if_neg hji] at hj ⊢
      obtain ⟨hmem, d', hd', hdev, hdi⟩ := h.valid j hj
      refine ⟨hmem, d', hd', hdev, ?_⟩
      rw [put_other]
      · exact hdi
      · rintro ⟨rfl, hino⟩
        exact hji (h.only hi hj hd hd' hino)
  · intro d' ino' hclean
    dsimp only at hclean ⊢
    by_cases hself : d' = d ∧ ino' = (s.slot i).ino
    · rw [hself.1, hself.2, put_self]
      rfl
    · rw [put_other hself]
      refine h.disk d' ino' fun j hj hdj hino => ?_
      by_cases hji : j = i
      · rw [hji] at hdj hino
        rw [hd] at hdj
        exact hself ⟨(some.inj hdj).symm, hino.symm⟩
      · have hne := hclean j
        rw [upd_slot, if_neg hji] at hne
        exact hne hj hdj hino

/-- A task gives an inode another `Dinode`. -/
theorem Data.setdirty (h : Data s) (hi : (s.slot i).state ≠ .inval)
    (hd : s.mem (s.slot i).fs = some d) :
    Data { s.upd i (fun x => { x with state := .dirty, di := di }) with
      truth := put s.truth d (s.slot i).ino di } := by
  refine ⟨h.hashq, h.freeq, ?_, ?_, ?_, h.inj⟩
  · refine h.unique_congr (fun j => ?_) rfl
    dsimp only
    exact upd_same Slot.key (fun _ => by rfl) s i j
  · intro j hj
    dsimp only at hj ⊢
    rw [upd_slot] at hj ⊢
    by_cases hji : j = i
    · rw [if_pos hji, hji]
      obtain ⟨hmem, d', hd', hdev, -⟩ := h.valid i hi
      rw [hd] at hd'
      cases hd'
      exact ⟨hmem, d, hd, hdev, (put_self ..).symm⟩
    · rw [if_neg hji] at hj ⊢
      obtain ⟨hmem, d', hd', hdev, hdi⟩ := h.valid j hj
      refine ⟨hmem, d', hd', hdev, ?_⟩
      rw [put_other]
      · exact hdi
      · rintro ⟨rfl, hino⟩
        exact hji (h.only hi hj hd hd' hino)
  · intro d' ino' hclean
    dsimp only at hclean ⊢
    have hself : ¬ (d' = d ∧ ino' = (s.slot i).ino) := by
      rintro ⟨rfl, rfl⟩
      have hne := hclean i
      rw [upd_slot, if_pos rfl] at hne
      exact hne rfl hd rfl
    rw [put_other hself]
    refine h.disk d' ino' fun j hj hdj hino => ?_
    have hne := hclean j
    rw [upd_slot] at hne
    split at hne
    · exact hne rfl hdj hino
    · exact hne hj hdj hino

/-- `mkcommon` writes an inode that the cache does not have. -/
theorem Data.mkcommon (h : Data s) {ino : Nat} (hd : s.mem a = some d)
    (hfind : ∀ i, s.findi (a, ino) = some i → (s.slot i).state = .inval) :
    Data { s with disk := put s.disk d ino di, truth := put s.truth d ino di } := by
  refine ⟨h.hashq, h.freeq, h.unique, fun j hj => ?_, fun d' ino' hclean => ?_, h.inj⟩
  · obtain ⟨hmem, d', hd', hdev, hdi⟩ := h.valid j hj
    refine ⟨hmem, d', hd', hdev, ?_⟩
    dsimp only
    rw [put_other]
    · exact hdi
    · rintro ⟨rfl, hino⟩
      have hkey : (s.slot j).key = (a, ino) := Prod.ext (h.inj _ _ d' hd' hd) hino
      cases hf : s.findi (a, ino) with
      | none => exact Cache.findi_none hf ((h.hashq j).mpr hmem) hkey
      | some i =>
          obtain ⟨hi, hikey⟩ := Cache.findi_some hf
          have hij : j = i := h.unique j hmem i ((h.hashq i).mp hi) (hkey.trans hikey.symm)
          exact hj (hij ▸ hfind i hf)
  · by_cases hself : d' = d ∧ ino' = ino
    · dsimp only
      rw [hself.1, hself.2, put_self, put_self]
    · dsimp only
      rw [put_other hself, put_other hself]
      exact h.disk d' ino' hclean

/-- The inode that a slot without contents is for. -/
theorem Data.fill (h : Data s) (hi : i ∈ s.allq) (hinval : (s.slot i).state = .inval)
    (hkey : (s.slot i).key = key) (hdev : s.mem key.1 = some (s.slot i).dev)
    (hf : s.fill i key = some t) : Data t := by
  obtain ⟨d, hd, rfl⟩ := map_eq_some_iff.mp hf
  have hdi : (s.slot i).dev = d := some.inj (hdev.symm.trans hd)
  have hfs : (s.slot i).fs = key.1 := congrArg Prod.fst hkey
  have hino : (s.slot i).ino = key.2 := congrArg Prod.snd hkey
  refine ⟨h.hashq, h.freeq, ?_, ?_, ?_, h.inj⟩
  · exact h.unique_congr (fun j => upd_same Slot.key (fun _ => by rfl) s i j) rfl
  · intro j hj
    rw [upd_slot] at hj ⊢
    by_cases hji : j = i
    · rw [if_pos hji, hji]
      refine ⟨hi, d, hfs ▸ hd, hdi, ?_⟩
      have hclean := h.disk d key.2 fun k hk hdk hkino => by
        have hki : k = i := by
          refine h.unique k (h.valid k ?_).1 i hi ?_
          · rw [hk]
            nofun
          · rw [hkey]
            exact Prod.ext (h.inj _ _ d hdk hd) hkino
        rw [hki, hinval] at hk
        cases hk
      exact hino ▸ hclean
    · rw [if_neg hji] at hj ⊢
      exact h.valid j hj
  · intro d' ino' hclean
    refine h.disk d' ino' fun j hj hdj hjino => ?_
    by_cases hji : j = i
    · rw [hji, hinval] at hj
      cases hj
    · have hne := hclean j
      rw [upd_slot, if_neg hji] at hne
      exact hne hj hdj hjino

theorem take_slot {j : Nat} : (s.toCache.take i key d).slot j =
    if j = i then
      { s.slot j with
        state := .inval
        refcnt := (s.slot j).refcnt + 1
        fs := key.1
        dev := d
        ino := key.2 }
    else s.slot j := rfl

theorem Data.take (h : Data s) (hi : i ∈ s.allq) (hne : ∀ j ∈ s.allq, (s.slot j).key ≠ key)
    (hclean : (s.slot i).state ≠ .dirty) (ht : s.take i key = some t) : Data t := by
  obtain ⟨d, hd, rfl⟩ := map_eq_some_iff.mp ht
  refine ⟨fun j => ?_, fun j hj => h.freeq j (mem_of_mem_erase hj), ?_, ?_, ?_, h.inj⟩
  · have hiff : j ∈ i :: s.hashq.erase i ↔ j ∈ s.hashq := by
      rw [mem_cons]
      by_cases hji : j = i
      · rw [hji]
        exact ⟨fun _ => (h.hashq i).mpr hi, fun _ => .inl rfl⟩
      · rw [mem_erase_of_ne hji]
        exact ⟨fun hj => hj.resolve_left hji, .inr⟩
    exact hiff.trans (h.hashq j)
  · intro j hj k hk heq
    have hkey : ∀ j, ((s.toCache.take i key d).slot j).key =
        if j = i then key else (s.slot j).key := by
      intro j
      rw [take_slot]
      split
      · rfl
      · rfl
    have heq := (hkey j).symm.trans (Eq.trans heq (hkey k))
    split at heq
    · next hji =>
      split at heq
      · next hki => rw [hji, hki]
      · exact absurd heq.symm (hne k hk)
    · split at heq
      · exact absurd heq (hne j hj)
      · exact h.unique j hj k hk heq
  · intro j hj
    rw [take_slot] at hj ⊢
    by_cases hji : j = i
    · rw [if_pos hji] at hj
      exact absurd rfl hj
    · rw [if_neg hji] at hj ⊢
      exact h.valid j hj
  · intro d' ino' hdirty
    refine h.disk d' ino' fun j hj hdj hjino => ?_
    by_cases hji : j = i
    · exact hclean (hji ▸ hj)
    · have hne := hdirty j
      rw [take_slot, if_neg hji] at hne
      exact hne hj hdj hjino

/-- An address without valid slots. -/
theorem Data.unmap (h : Data s) (hinval : ∀ i, (s.slot i).fs = a →
    (s.slot i).state = .inval) :
    Data { s with mem := fun b => if b = a then none else s.mem b } := by
  have hmem : ∀ i, (s.slot i).state ≠ .inval →
      (if (s.slot i).fs = a then none else s.mem (s.slot i).fs) = s.mem (s.slot i).fs :=
    fun i hi => if_neg fun hfs => hi (hinval i hfs)
  refine ⟨h.hashq, h.freeq, h.unique, fun i hi => ?_, fun d ino hdirty => ?_, ?_⟩
  · dsimp only
    rw [hmem i hi]
    exact h.valid i hi
  · refine h.disk d ino fun i hi hdi => ?_
    have hne := hdirty i hi
    dsimp only at hne
    rw [hmem i (by rw [hi]; nofun)] at hne
    exact hne hdi
  · intro b c d hb hc
    dsimp only at hb hc
    split at hb
    · cases hb
    split at hc
    · cases hc
    exact h.inj b c d hb hc

theorem Data.invali (h : Data s) (hclean : ∀ i, (s.slot i).fs = a →
    (s.slot i).state ≠ .dirty) : Data (s.invali a) := by
  have hslot : ∀ i, (s.invali a).slot i =
      if (s.slot i).fs = a then { s.slot i with state := .inval } else s.slot i := fun _ => rfl
  have hkey : ∀ i, ((s.invali a).slot i).key = (s.slot i).key := by
    intro i
    rw [hslot]
    split
    · rfl
    · rfl
  refine ⟨h.hashq, h.freeq, fun i hi j hj heq => ?_, fun i hi => ?_, fun d ino hdirty => ?_, h.inj⟩
  · rw [hkey, hkey] at heq
    exact h.unique i hi j hj heq
  · rw [hslot] at hi ⊢
    split at hi
    · exact absurd rfl hi
    · next hfs =>
      rw [if_neg hfs]
      exact h.valid i hi
  · refine h.disk d ino fun i hi hdi => ?_
    have hne := hdirty i
    rw [hslot, if_neg fun hfs => hclean i hfs hi] at hne
    exact hne hi hdi

/-- A new `fs_t`, for a device that has none. -/
theorem Data.map (h : Data s) (ha : s.mem a = none) (hd : ∀ b, s.mem b ≠ some d) :
    Data { s with mem := fun b => if b = a then some d else s.mem b } := by
  have hmem : ∀ i, (s.slot i).state ≠ .inval →
      (if (s.slot i).fs = a then some d else s.mem (s.slot i).fs) = s.mem (s.slot i).fs := by
    intro i hi
    obtain ⟨-, d', hd', -⟩ := h.valid i hi
    refine if_neg fun hfs => ?_
    rw [hfs, ha] at hd'
    cases hd'
  refine ⟨h.hashq, h.freeq, h.unique, fun i hi => ?_, fun d' ino hdirty => ?_, ?_⟩
  · dsimp only
    rw [hmem i hi]
    exact h.valid i hi
  · refine h.disk d' ino fun i hi hdi => ?_
    have hne := hdirty i hi
    dsimp only at hne
    rw [hmem i (by rw [hi]; nofun)] at hne
    exact hne hdi
  · intro b c d' hb hc
    dsimp only at hb hc
    split at hb
    · next hba =>
      split at hc
      · next hca => rw [hba, hca]
      · cases hb
        exact absurd hc (hd c)
    · split at hc
      · cases hc
        exact absurd hb (hd b)
      · exact h.inj b c d' hb hc

/-! ## What the operations leave alone -/

/-- The file systems and their references. -/
structure Frame (s t : Sys) : Prop where
  allq : t.allq = s.allq
  fsq : t.fsq = s.fsq
  mem : t.mem = s.mem
  refs : ∀ g ∈ s.refs, g.owner ≠ .task → g ∈ t.refs

theorem Frame.refl (s : Sys) : Frame s s := ⟨rfl, rfl, rfl, fun _ hg _ => hg⟩

theorem Frame.trans (h : Frame s t) (h' : Frame t u) : Frame s u :=
  ⟨h'.allq.trans h.allq, h'.fsq.trans h.fsq, h'.mem.trans h.mem,
    fun g hg ho => h'.refs g (h.refs g hg ho) ho⟩

theorem write_frame (hw : s.write i = some t) : Frame s t ∧ t.refs = s.refs := by
  unfold Sys.write at hw
  split at hw
  · cases hw
    exact ⟨.refl s, rfl⟩
  · obtain ⟨d, -, rfl⟩ := map_eq_some_iff.mp hw
    exact ⟨⟨rfl, rfl, rfl, fun _ hg _ => hg⟩, rfl⟩

/-- What `write` does to the slots. -/
theorem write_slot (hw : s.write i = some t) (j : Nat) :
    (t.slot j).refcnt = (s.slot j).refcnt ∧ (t.slot j).key = (s.slot j).key ∧
      (t.slot j).dev = (s.slot j).dev ∧
      ((t.slot j).state = .inval ↔ (s.slot j).state = .inval) ∧
      ((t.slot j).state = .dirty → (s.slot j).state = .dirty ∧ j ≠ i) := by
  unfold Sys.write at hw
  split at hw
  · next hclean =>
    cases hw
    refine ⟨rfl, rfl, rfl, Iff.rfl, fun hj => ⟨hj, fun hji => hclean (hji ▸ hj)⟩⟩
  · next hdirty =>
    have hdirty := not_not.mp hdirty
    obtain ⟨d, -, rfl⟩ := map_eq_some_iff.mp hw
    rw [upd_slot]
    split
    · next hji =>
      rw [hji, hdirty]
      exact ⟨rfl, rfl, rfl, ⟨nofun, nofun⟩, nofun⟩
    · next hji => exact ⟨rfl, rfl, rfl, Iff.rfl, fun hj => ⟨hj, hji⟩⟩

theorem release_frame (hr : s.release i = some t) : Frame s t ∧ t.refs = s.refs := by
  obtain ⟨d, -, rfl⟩ := map_eq_some_iff.mp hr
  exact ⟨⟨rfl, rfl, rfl, fun _ hg _ => hg⟩, rfl⟩

theorem release_slot (hr : s.release i = some t) (j : Nat) :
    t.slot j = if j = i then { s.slot j with state := .inval } else s.slot j := by
  obtain ⟨d, -, rfl⟩ := map_eq_some_iff.mp hr
  rfl

theorem Inv.write (h : Inv s x) (hw : s.write i = some t) : Inv t x := by
  refine ⟨h.toRefs.congr (fun j => (write_slot hw j).1) (fun j => (write_slot hw j).2.1)
    (fun j hj _ hinval => hj ((write_slot hw j).2.2.2.1.mp hinval)) ?_ (write_frame hw).1.allq,
    h.toData.write hw⟩
  rw [(write_frame hw).2]

/-! ## `lose` -/

theorem Data.drop (h : Data s) : Data (s.drop g) :=
  h.congr (fun j => drop_same core (fun _ _ => rfl) s g j) rfl h.freeq rfl rfl rfl rfl

theorem tofree_slot (s : Sys) (i : Nat) : (s.tofree i).slot = s.slot ∧
    (s.tofree i).refs = s.refs ∧ Frame s (s.tofree i) := by
  unfold Sys.tofree
  split
  · exact ⟨rfl, rfl, .refl s⟩
  · exact ⟨rfl, rfl, rfl, rfl, rfl, fun _ hg _ => hg⟩

theorem Inv.tofree (h : Inv s x) (hi : i ∈ s.allq) : Inv (s.tofree i) x := by
  unfold Sys.tofree
  split
  · exact h
  · refine ⟨h.toRefs.congr (fun _ => rfl) (fun _ => rfl) (fun _ hj _ => hj) (.refl _) rfl,
      h.toData.congr (fun _ => rfl) rfl (fun j hj => ?_) rfl rfl rfl rfl⟩
    rcases mem_append.mp hj with hj | hj
    · exact h.freeq j hj
    · rw [mem_singleton.mp hj]
      exact hi

/-- What `lose` does to the slots and the references. -/
structure Loses (s t : Sys) (g : Ref) : Prop where
  refcnt : ∀ j, (t.slot j).refcnt = (s.slot j).refcnt - if j = g.slot then 1 else 0
  key : ∀ j, (t.slot j).key = (s.slot j).key
  dev : ∀ j, (t.slot j).dev = (s.slot j).dev
  state : ∀ j, (t.slot j).state = (s.slot j).state ∨ (t.slot j).state = .inval
  refs : t.refs = s.refs.erase g
  allq : t.allq = s.allq
  fsq : t.fsq = s.fsq
  mem : t.mem = s.mem

theorem Loses.frame (h : Loses s t g) (ho : g.owner = .task) : Frame s t := by
  refine ⟨h.allq, h.fsq, h.mem, fun g' hg' ho' => ?_⟩
  rw [h.refs]
  refine (mem_erase_of_ne fun heq => ho' ?_).mpr hg'
  rw [heq]
  exact ho

theorem drop_loses (s : Sys) (g : Ref) : Loses s (s.drop g) g := by
  refine ⟨fun j => ?_, fun j => drop_same Slot.key (fun _ _ => rfl) s g j,
    fun j => drop_same Slot.dev (fun _ _ => rfl) s g j,
    fun j => .inl (drop_same Slot.state (fun _ _ => rfl) s g j), rfl, rfl, rfl, rfl⟩
  rw [drop_slot]
  split
  · rfl
  · rfl

/-- **`lose`.** -/
theorem Inv.lose (h : Inv s x) (hg : g ∈ s.refs) (hl : s.lose g = some t) :
    Inv t x ∧ Loses s t g := by
  have hdrop : Inv (s.drop g) x := ⟨h.toRefs.drop hg, h.toData.drop⟩
  unfold Sys.lose at hl
  dsimp only at hl
  split at hl
  · cases hl
    exact ⟨hdrop, drop_loses s g⟩
  next hzero =>
  have hzero := not_not.mp hzero
  have hfree : Inv ((s.drop g).tofree g.slot) x := hdrop.tofree (h.allq g hg)
  obtain ⟨hslot, hrefs, hframe⟩ := tofree_slot (s.drop g) g.slot
  have hloses : Loses s ((s.drop g).tofree g.slot) g := by
    have hd := drop_loses s g
    refine ⟨?_, ?_, ?_, ?_, hrefs.trans hd.refs, hframe.allq.trans hd.allq,
      hframe.fsq.trans hd.fsq, hframe.mem.trans hd.mem⟩
    all_goals rw [hslot]
    · exact hd.refcnt
    · exact hd.key
    · exact hd.dev
    · exact hd.state
  split at hl
  · cases hl
    exact ⟨hfree, hloses⟩
  next hlast =>
  rw [not_or, not_not] at hlast
  have hkeep := release_slot hl
  obtain ⟨hlframe, hlrefs⟩ := release_frame hl
  have hsame : ∀ j, (t.slot j).refcnt = (((s.drop g).tofree g.slot).slot j).refcnt ∧
      (t.slot j).key = (((s.drop g).tofree g.slot).slot j).key ∧
      (t.slot j).dev = (((s.drop g).tofree g.slot).slot j).dev := by
    intro j
    rw [hkeep]
    split
    · exact ⟨rfl, rfl, rfl⟩
    · exact ⟨rfl, rfl, rfl⟩
  refine ⟨⟨⟨fun j => ?_, fun g' hg' => ?_, fun g' hg' hx => ?_, fun g' hg' => ?_⟩,
    hfree.toData.release hlast.1 hl⟩, fun j => (hsame j).1.trans (hloses.refcnt j),
    fun j => (hsame j).2.1.trans (hloses.key j), fun j => (hsame j).2.2.trans (hloses.dev j),
    fun j => ?_, hlrefs.trans hloses.refs, hlframe.allq.trans hloses.allq,
    hlframe.fsq.trans hloses.fsq, hlframe.mem.trans hloses.mem⟩
  · rw [hlrefs]
    exact (hsame j).1.trans (hfree.refcnt j)
  · rw [hlrefs] at hg'
    exact (hsame _).2.1.trans (hfree.key g' hg')
  · -- nobody has the slot that is given up
    rw [hlrefs] at hg'
    rw [hkeep, if_neg (hfree.toRefs.unused (hslot ▸ hzero) hg')]
    exact hfree.used g' hg' hx
  · rw [hlrefs] at hg'
    rw [hlframe.allq]
    exact hfree.allq g' hg'
  · rw [hkeep]
    split
    · exact .inr rfl
    · exact hloses.state j

/-! ## `readi` -/

/-- `t` is `s` with a slot for the inode, held. -/
structure Gets (s t : Sys) (key : Key) (i : Nat) : Prop where
  frame : Frame s t
  refs : t.refs = ⟨i, key, .task⟩ :: s.refs
  keyed : (t.slot i).key = key
  fresh : (t.slot i).state = .inval → ∀ g ∈ s.refs, g.slot ≠ i
  dev : t.mem key.1 = some (t.slot i).dev ∨
    s.findi key = some i ∧ (t.slot i).dev = (s.slot i).dev
  valid : ∀ j, (t.slot j).state ≠ .inval →
    (s.slot j).state ≠ .inval ∧ (t.slot j).key = (s.slot j).key

theorem Inv.take (h : Inv s none) (hrefcnt : (s.slot i).refcnt = 0) (hi : i ∈ s.allq)
    (hne : ∀ j ∈ s.allq, (s.slot j).key ≠ key) (hclean : (s.slot i).state ≠ .dirty)
    (ht : s.take i key = some t) : Inv t (some i) ∧ Gets s t key i := by
  have hdata := h.toData.take hi hne hclean ht
  obtain ⟨d, hd, rfl⟩ := map_eq_some_iff.mp ht
  have hfree : ∀ g ∈ s.refs, g.slot ≠ i := fun g hg => h.toRefs.unused hrefcnt hg
  have hself : (s.toCache.take i key d).slot i =
      { s.slot i with
        state := .inval
        refcnt := (s.slot i).refcnt + 1
        fs := key.1
        dev := d
        ino := key.2 } := if_pos rfl
  refine ⟨⟨⟨fun j => ?_, fun g hg => ?_, fun g hg hx => ?_, fun g hg => ?_⟩, hdata⟩,
    ⟨rfl, rfl, rfl, fun g hg _ => mem_cons_of_mem _ hg⟩, rfl, ?_, fun _ => hfree, .inl ?_,
    fun j hj => ?_⟩
  · dsimp only
    rw [take_slot, map_cons]
    split
    · next hj =>
      rw [hj, count_cons_self]
      exact congrArg (· + 1) (h.refcnt i)
    · next hj =>
      rw [count_cons_of_ne (Ne.symm hj)]
      exact h.refcnt j
  · dsimp only
    rcases mem_cons.mp hg with rfl | hg
    · rw [hself]
      rfl
    · rw [take_slot, if_neg (hfree g hg)]
      exact h.key g hg
  · rcases mem_cons.mp hg with rfl | hg
    · exact absurd rfl hx
    · dsimp only
      rw [take_slot, if_neg (hfree g hg)]
      exact h.used g hg nofun
  · rcases mem_cons.mp hg with rfl | hg
    · exact hi
    · exact h.allq g hg
  · dsimp only
    rw [hself]
    rfl
  · dsimp only
    rw [hself]
    exact hd
  · dsimp only at hj ⊢
    rw [take_slot] at hj ⊢
    by_cases hji : j = i
    · rw [if_pos hji] at hj
      exact absurd rfl hj
    · rw [if_neg hji] at hj ⊢
      exact ⟨hj, rfl⟩

theorem Inv.geti (h : Inv s none) (hget : s.geti key = some (some i, t)) :
    Inv t (some i) ∧ Gets s t key i := by
  unfold Sys.geti at hget
  split at hget
  · next j hfind =>
    cases hget
    obtain ⟨hhash, hkey⟩ := Cache.findi_some hfind
    have hi : i ∈ s.allq := (h.hashq i).mp hhash
    have hcore : ∀ j, core ((s.hold ⟨i, key, .task⟩).slot j) = core (s.slot j) :=
      fun j => hold_same core (fun _ _ => rfl) s _ j
    have hsame := fun j => core_eq (hcore j)
    have hrefs : Refs (s.hold ⟨i, key, .task⟩) (some i) :=
      (h.toRefs.mono fun _ _ _ hx => absurd hx nofun).hold hkey hi fun hx => absurd rfl hx
    refine ⟨⟨hrefs.congr (fun _ => rfl) (fun _ => rfl) (fun _ hj _ => hj) (.refl _) rfl,
      h.toData.congr hcore rfl (fun j hj => h.freeq j (mem_of_mem_erase hj)) rfl
        rfl rfl rfl⟩, ⟨rfl, rfl, rfl, fun g hg _ => mem_cons_of_mem _ hg⟩, rfl,
      (hsame i).2.1.trans hkey, fun hinval g hg heq => ?_, .inr ⟨hfind, (hsame i).2.2⟩,
      fun j hj => ⟨fun hinval => hj ((hsame j).1.trans hinval), (hsame j).2.1⟩⟩
    have hvalid := h.used g hg nofun
    rw [heq] at hvalid
    exact hvalid ((hsame i).1.symm.trans hinval)
  next hfind =>
  have hne : ∀ j ∈ s.allq, (s.slot j).key ≠ key := fun j hj =>
    Cache.findi_none hfind ((h.hashq j).mpr hj)
  split at hget
  · cases hget
  · cases hget
  · next j n hscan =>
    obtain ⟨hfree, hrefcnt⟩ := Icache.scan_write_mem _ _ hscan
    obtain ⟨v, hv, hi⟩ := map_eq_some_iff.mp hget
    cases hi
    obtain ⟨w, hw, ht⟩ := bind_eq_some_iff.mp hv
    have hslot := write_slot hw
    obtain ⟨hframe, hrefs⟩ := write_frame hw
    obtain ⟨hinv, hgets⟩ := (h.write hw).take ((hslot i).1.trans hrefcnt)
      (hframe.allq ▸ h.freeq i hfree)
      (fun k hk => by rw [(hslot k).2.1]; exact hne k (hframe.allq ▸ hk))
      (fun hdirty => ((hslot i).2.2.2.2 hdirty).2 rfl) ht
    refine ⟨hinv, hframe.trans hgets.frame, hgets.refs.trans (hrefs ▸ rfl), hgets.keyed,
      hrefs ▸ hgets.fresh, .inl ?_, fun j hj => ?_⟩
    · rcases hgets.dev with hdev | ⟨hfound, -⟩
      · exact hdev
      · obtain ⟨hmem, hkey⟩ := Cache.findi_some hfound
        rw [(hslot i).2.1] at hkey
        exact absurd hkey (hne i (h.freeq i hfree))
    · obtain ⟨hvalid, hkey⟩ := hgets.valid j hj
      exact ⟨fun hinval => hvalid ((hslot j).2.2.2.1.mpr hinval), hkey.trans (hslot j).2.1⟩
  · next j hscan =>
    obtain ⟨htake, hreached⟩ := (Icache.scan_take _ _).mp hscan
    obtain ⟨v, hv, hi⟩ := map_eq_some_iff.mp hget
    cases hi
    exact h.take htake.refcnt (h.freeq i hreached.mem) hne htake.state hv

theorem geti_none (hget : s.geti key = some (none, t)) : t = s := by
  unfold Sys.geti at hget
  split at hget
  · cases hget
  split at hget
  · cases hget
    rfl
  · cases hget
  · obtain ⟨v, -, hv⟩ := map_eq_some_iff.mp hget
    cases hv
  · obtain ⟨v, -, hv⟩ := map_eq_some_iff.mp hget
    cases hv

/-- A slot with contents. -/
theorem Inv.fill (h : Inv s (some i)) (hi : i ∈ s.allq) (hinval : (s.slot i).state = .inval)
    (hkey : (s.slot i).key = key) (hdev : s.mem key.1 = some (s.slot i).dev)
    (hf : s.fill i key = some t) : Inv t none ∧ Frame s t ∧ t.refs = s.refs := by
  have hdata := h.toData.fill hi hinval hkey hdev hf
  obtain ⟨d, -, rfl⟩ := map_eq_some_iff.mp hf
  have hslot : ∀ j, (s.upd i fun x => { x with state := .clean, di := s.disk d key.2 }).slot j =
      if j = i then { s.slot j with state := .clean, di := s.disk d key.2 } else s.slot j :=
    fun _ => rfl
  have hrefs : Refs (s.upd i fun x => { x with state := .clean, di := s.disk d key.2 })
      (some i) := by
    refine h.toRefs.congr (fun j => upd_same Slot.refcnt (fun _ => by rfl) s i j)
      (fun j => upd_same Slot.key (fun _ => by rfl) s i j) (fun j hj _ => ?_) (.refl _) rfl
    rw [hslot]
    split
    · nofun
    · exact hj
  refine ⟨⟨hrefs.of_valid ?_, hdata⟩, ⟨rfl, rfl, rfl, fun _ hg _ => hg⟩, rfl⟩
  rw [hslot, if_pos rfl]
  nofun

/-- **`readi`.**  Where it finds a slot of another device it must not be able to read. -/
theorem Inv.readi {r : Option Nat} (h : Inv s none)
    (hfine : ok = true → ∀ i, s.findi key = some i → s.mem key.1 = some (s.slot i).dev)
    (hread : s.readi key ok = some (r, t)) :
    Inv t none ∧ Frame s t ∧ (∀ i, r = some i → t.refs = ⟨i, key, .task⟩ :: s.refs) ∧
      (r = none → ∀ j, (t.slot j).state ≠ .inval →
        (s.slot j).state ≠ .inval ∧ (t.slot j).key = (s.slot j).key) := by
  unfold Sys.readi at hread
  split at hread
  · cases hread
  · next hget =>
    cases hread
    rw [geti_none hget]
    exact ⟨h, .refl s, nofun, fun _ j hj => ⟨hj, rfl⟩⟩
  next i u hget =>
  obtain ⟨hu, hgets⟩ := h.geti hget
  have hmem : (⟨i, key, .task⟩ : Ref) ∈ u.refs := by
    rw [hgets.refs]
    exact mem_cons_self
  split at hread
  · next hvalid =>
    cases hread
    exact ⟨⟨hu.toRefs.of_valid hvalid, hu.toData⟩, hgets.frame,
      fun j hj => by cases hj; exact hgets.refs, nofun⟩
  next hinval =>
  have hinval := not_not.mp hinval
  split at hread
  · next hok =>
    obtain ⟨v, hv, hi⟩ := map_eq_some_iff.mp hread
    cases hi
    have hdev : u.mem key.1 = some (u.slot i).dev := by
      rcases hgets.dev with hdev | ⟨hfind, hdev⟩
      · exact hdev
      · rw [hgets.frame.mem, hdev]
        exact hfine hok i hfind
    obtain ⟨hinv, hframe, hrefs⟩ := hu.fill (hu.allq _ hmem) hinval hgets.keyed hdev hv
    exact ⟨hinv, hgets.frame.trans hframe,
      fun j hj => by cases hj; exact hrefs.trans hgets.refs, nofun⟩
  · obtain ⟨v, hv, hi⟩ := map_eq_some_iff.mp hread
    cases hi
    obtain ⟨hinv, hloses⟩ := hu.lose hmem hv
    refine ⟨⟨hinv.toRefs.mono fun g hg _ hgx => ?_, hinv.toData⟩,
      hgets.frame.trans (hloses.frame rfl), nofun, fun _ j hj => ?_⟩
    · rw [hloses.refs, hgets.refs, erase_cons_head] at hg
      exact absurd (some.inj hgx) (hgets.fresh hinval g hg)
    · rw [hloses.key]
      refine hgets.valid j fun hno => ?_
      rcases hloses.state j with hsame | hgone
      · exact hj (hsame.trans hno)
      · exact hj hgone

/-! ## `synci` -/

theorem Inv.hold (h : Inv s x) (hkey : (s.slot g.slot).key = g.key) (hg : g.slot ∈ s.allq)
    (hused : some g.slot ≠ x → (s.slot g.slot).state ≠ .inval) : Inv (s.hold g) x :=
  ⟨h.toRefs.hold hkey hg hused, h.toData.congr (fun j => hold_same core (fun _ _ => rfl) s g j)
    rfl h.freeq rfl rfl rfl rfl⟩

/-- `t` is `s` with some slots written. -/
structure Syncs (s t : Sys) (q : List Nat) : Prop where
  allq : t.allq = s.allq
  fsq : t.fsq = s.fsq
  mem : t.mem = s.mem
  refs : t.refs = s.refs
  slot : ∀ j, (t.slot j).refcnt = (s.slot j).refcnt ∧ (t.slot j).key = (s.slot j).key
  dirty : ∀ j, (t.slot j).state = .dirty → (s.slot j).state = .dirty ∧ j ∉ q

theorem Syncs.frame {q : List Nat} (h : Syncs s t q) : Frame s t :=
  ⟨h.allq, h.fsq, h.mem, fun _ hg _ => h.refs ▸ hg⟩

/-- One slot is held, written and lost. -/
theorem Inv.sync (h : Inv s none) (hi : i ∈ s.allq)
    (hs : (((s.hold ⟨i, (s.slot i).key, .task⟩).write i).bind fun s' =>
      s'.lose ⟨i, (s.slot i).key, .task⟩) = some t) : Inv t none ∧ Syncs s t [i] := by
  obtain ⟨u, hw, hl⟩ := bind_eq_some_iff.mp hs
  generalize hg : (⟨i, (s.slot i).key, .task⟩ : Ref) = g at hw hl
  have hslot : g.slot = i := by rw [← hg]
  have hkey : (s.slot g.slot).key = g.key := by rw [← hg]
  have hwslot := write_slot hw
  obtain ⟨hwframe, hwrefs⟩ := write_frame hw
  have hmem : g ∈ u.refs := by
    rw [hwrefs]
    exact mem_cons_self
  have hhold : ∀ j, ((s.hold g).slot j).refcnt =
      (s.slot j).refcnt + if j = g.slot then 1 else 0 := by
    intro j
    rw [hold_slot]
    split
    · rfl
    · rfl
  have hloses : Loses u t g ∧ Inv t none := by
    by_cases hinval : (s.slot i).state = .inval
    · -- nobody has the slot, before and after
      have hex : Inv s (some i) :=
        ⟨h.toRefs.mono fun _ _ _ hx => absurd hx nofun, h.toData⟩
      have hheld : Inv (s.hold g) (some i) :=
        hex.hold hkey (hslot ▸ hi) fun hx => absurd (congrArg some hslot) hx
      obtain ⟨hinv, hloses⟩ := (hheld.write hw).lose hmem hl
      refine ⟨hloses, hinv.toRefs.mono fun g' hg' _ hx => ?_, hinv.toData⟩
      rw [hloses.refs, hwrefs] at hg'
      have hold : g' ∈ s.refs := by
        have herase : (g :: s.refs).erase g = s.refs := erase_cons_head ..
        rw [← herase]
        exact hg'
      have hused := h.used g' hold nofun
      rw [some.inj hx] at hused
      exact absurd hinval hused
    · have hheld : Inv (s.hold g) none := h.hold hkey (hslot ▸ hi) fun _ => hslot ▸ hinval
      obtain ⟨hinv, hloses⟩ := (hheld.write hw).lose hmem hl
      exact ⟨hloses, hinv⟩
  obtain ⟨hloses, hinv⟩ := hloses
  refine ⟨hinv, hloses.allq.trans hwframe.allq, hloses.fsq.trans hwframe.fsq,
    hloses.mem.trans hwframe.mem, ?_, fun j => ⟨?_, ?_⟩, fun j hj => ?_⟩
  · rw [hloses.refs, hwrefs]
    exact erase_cons_head ..
  · rw [hloses.refcnt, (hwslot j).1, hhold j, Nat.add_sub_cancel]
  · rw [hloses.key, (hwslot j).2.1, hold_same Slot.key fun _ _ => rfl]
  · rcases hloses.state j with hsame | hinval
    · obtain ⟨hdirty, hne⟩ := (hwslot j).2.2.2.2 (hsame.symm.trans hj)
      have hstate := hold_same Slot.state (fun _ _ => rfl) s g j
      exact ⟨hstate.symm.trans hdirty, fun hmem => hne (mem_singleton.mp hmem)⟩
    · rw [hj] at hinval
      cases hinval

theorem Inv.synci {q : List Nat} (h : Inv s none) (hq : ∀ i ∈ q, i ∈ s.allq)
    (hs : Sys.synci q s = some t) : Inv t none ∧ Syncs s t q := by
  induction q generalizing s with
  | nil =>
      cases hs
      exact ⟨h, rfl, rfl, rfl, rfl, fun _ => ⟨rfl, rfl⟩, fun _ hj => ⟨hj, not_mem_nil⟩⟩
  | cons i q ih =>
      obtain ⟨u, hu, hrest⟩ := bind_eq_some_iff.mp hs
      obtain ⟨hinv, hone⟩ := h.sync (hq i mem_cons_self) hu
      obtain ⟨hinv', hmany⟩ := ih hinv
        (fun j hj => hone.allq ▸ hq j (mem_cons_of_mem _ hj)) hrest
      refine ⟨hinv', hmany.allq.trans hone.allq, hmany.fsq.trans hone.fsq,
        hmany.mem.trans hone.mem, hmany.refs.trans hone.refs, fun j =>
        ⟨(hmany.slot j).1.trans (hone.slot j).1, (hmany.slot j).2.trans (hone.slot j).2⟩,
        fun j hj => ?_⟩
      obtain ⟨hdirty, hnot⟩ := hmany.dirty j hj
      obtain ⟨hdirty', hnot'⟩ := hone.dirty j hdirty
      refine ⟨hdirty', fun hmem => ?_⟩
      rcases mem_cons.mp hmem with heq | hmem
      · exact hnot' (mem_singleton.mpr heq)
      · exact hnot hmem

end Sys

end Unixlite.Fs.Remount
