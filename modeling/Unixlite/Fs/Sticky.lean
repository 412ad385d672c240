import Unixlite.Fs.Permission
import Unixlite.Fs.Rename

/-!
# Sticky directories

Who may take an entry out of a directory.  `denyunlink` asks for write permission only when the
directory is sticky, and for the owners only when it is not; `rename2` asks for all rights on both
directories, and never for an owner (`sticky_iff`).
-/

namespace Unixlite.Fs

open Verified.Run
open Filesys
open Option

/-- Who may take the entry of `child` out of the directory. -/
structure Inode.Mayremove (i : Inode) (c : Cred) (child : Inode) : Prop where
  write : i.deny c IW = 0
  sticky : i.mode &&& SISVTX ≠ 0 → c.euid = 0 ∨ c.euid = i.uid ∨ c.euid = child.uid

/-! ## Entries that go -/

section

variable {l : List De} {k m : Nat} {old new de : De}

theorem count_slot (hold : l[k]? = some old) :
    (l.set k new).count de =
      l.count de - (if old = de then 1 else 0) + if new = de then 1 else 0 := by
  obtain ⟨hlt, hget⟩ := List.getElem?_eq_some_iff.mp hold
  simp [List.count_set hlt, hget]

theorem count_pos (hold : l[k]? = some old) : 0 < l.count old :=
  List.count_pos_iff.mpr (List.mem_of_getElem? hold)

theorem count_entries {fs : Filesys} {dir : Nat} (hlive : de.ino ≠ MINIXFREEINO) :
    (fs.entries dir).count de = (fs.slots dir).count de :=
  List.count_filter (bne_iff_ne.mpr hlive)

theorem live_of_count {fs : Filesys} {dir n : Nat} (h : n < (fs.entries dir).count de) :
    de.ino ≠ MINIXFREEINO := by
  have hmem : de ∈ fs.entries dir := List.count_pos_iff.mp (Nat.zero_lt_of_lt h)
  exact bne_iff_ne.mp (List.mem_filter.mp hmem).2

end

/-- The directory has one entry less of this kind. -/
def Filesys.Lost (fs fs' : Filesys) (dir : Nat) (de : De) : Prop :=
  (fs'.entries dir).count de < (fs.entries dir).count de

instance (fs fs' : Filesys) (dir : Nat) (de : De) : Decidable (fs.Lost fs' dir de) :=
  inferInstanceAs (Decidable (_ < _))

theorem Filesys.Lost.of_eq {fs fs' : Filesys} {dir : Nat} {de : De}
    (h : fs'.entries dir = fs.entries dir) : ¬ fs.Lost fs' dir de := by
  unfold Lost
  rw [h]
  exact Nat.lt_irrefl _

/-- One entry has been cleared, and no other is gone. -/
theorem lost_clear_iff {fs fs' : Filesys} {dir k : Nat} {old new de : De}
    (hold : (fs.slots dir)[k]? = some old) (hlive : old.ino ≠ MINIXFREEINO)
    (hfree : new.ino = MINIXFREEINO) (h : fs'.slots dir = (fs.slots dir).set k new) :
    fs.Lost fs' dir de ↔ de = old := by
  constructor
  · intro hlost
    have hde := live_of_count hlost
    unfold Lost at hlost
    rw [count_entries hde, count_entries hde, h, count_slot hold] at hlost
    by_contra hne
    rw [if_neg (Ne.symm hne)] at hlost
    omega
  · rintro rfl
    unfold Lost
    have hne : new ≠ de := fun heq => hlive (heq ▸ hfree)
    have hpos := count_pos hold
    rw [count_entries hlive, count_entries hlive, h, count_slot hold, if_pos rfl, if_neg hne]
    omega

namespace Vol

open Filesys

variable {v v' v2 : Vol} {c : Cred} {dir d k m p i olddir newdir oldi ino : Nat}
  {name oldname newname : Name} {e : Int}

/-! ## What a directory that is held goes through -/

/-- The entries are as before, and no handle on the directory is lost. -/
structure Steady (d : Nat) (v v' : Vol) : Prop where
  slots : v'.fs.slots d = v.fs.slots d
  held : (v.fs.inode d).refcnt ≤ (v'.fs.inode d).refcnt

theorem Steady.refl (d : Nat) (v : Vol) : Steady d v v := ⟨rfl, Nat.le_refl _⟩

theorem Steady.trans {v'' : Vol} (h : Steady d v v') (h' : Steady d v' v'') : Steady d v v'' :=
  ⟨h'.slots.trans h.slots, h.held.trans h'.held⟩

theorem steady_readi (h : v.readi i = .ok v') : Steady d v v' := by
  refine ⟨slots_readi h, ?_⟩
  rw [refcnt_readi h]
  exact Nat.le_add_right _ _

theorem steady_upd {f : Inode → Inode} (hslots : ∀ x : Inode, (f x).slots = x.slots)
    (hheld : ∀ x : Inode, (f x).refcnt = x.refcnt) : Steady d v (v.upd i f) := by
  constructor
  · rw [upd_fs, slots, upd_inode]
    split
    · next hd => rw [hslots, hd, slots]
    · rfl
  · rw [upd_fs, upd_inode]
    split
    · next hd => rw [hheld, hd]
    · exact Nat.le_refl _

/-- A handle of its own is given back, and the directory has another one. -/
theorem lose_slots (hd : (if d = i then 1 else 0) < (v.fs.inode d).refcnt) :
    (v.lose i).fs.slots d = v.fs.slots d := by
  refine slots_lose ?_
  by_cases hi : d = i
  · subst hi
    rw [if_pos rfl] at hd
    exact .inr hd
  · exact .inl hi

theorem climb_slots {fuel : Nat} {b : Bool} (hd : (if d = i then 1 else 0) < (v.fs.inode d).refcnt)
    (h : climb p fuel i v = some (b, v')) :
    v'.fs.slots d = v.fs.slots d ∧
      (v'.fs.inode d).refcnt = (v.fs.inode d).refcnt - if d = i then 1 else 0 := by
  induction fuel generalizing v i with
  | zero => cases h
  | succ fuel ih =>
      have hlose := lose_slots hd
      unfold climb at h
      split at h
      · cases h
        exact ⟨hlose, refcnt_lose v i d⟩
      split at h
      · cases h
        exact ⟨hlose, refcnt_lose v i d⟩
      split at h
      · cases h
        exact ⟨hlose, refcnt_lose v i d⟩
      next sub v1 hlook =>
      have hreadi : v.readi sub = .ok v1 := by
        unfold lookup2 at hlook
        split at hlook
        · cases hlook
        next k hk =>
        dsimp only at hlook
        cases hr : v.readi (v.fs.de i k).ino with
        | error e =>
            rw [hr] at hlook
            cases hlook
        | ok w =>
            rw [hr] at hlook
            cases hlook
            exact hr
      have hcount := refcnt_readi hreadi d
      have hcount' := refcnt_lose v1 i d
      have hd1 : (if d = i then 1 else 0) < (v1.fs.inode d).refcnt := by omega
      have hslots : (v1.lose i).fs.slots d = v.fs.slots d :=
        (lose_slots hd1).trans (slots_readi hreadi)
      obtain ⟨hslots', hcount''⟩ := ih (v := v1.lose i) (i := sub) (by omega) h
      refine ⟨hslots'.trans hslots, ?_⟩
      omega

theorem parentchild_steady {b : Bool} (hd : (v.fs.inode d).refcnt ≠ 0)
    (h : v.parentchild p i = some (b, v')) : Steady d v v' := by
  have hhold : ((v.hold i).fs.inode d).refcnt =
      (v.fs.inode d).refcnt + if d = i then 1 else 0 := by
    rw [hold, upd_fs, upd_inode]
    split
    · next hi => rw [hi]
    · rfl
  have hslots : (v.hold i).fs.slots d = v.fs.slots d := by
    rw [hold, upd_fs, slots, upd_inode]
    split
    · next hi => rw [hi, slots]
    · rfl
  obtain ⟨hslots', hcount⟩ := climb_slots (v := v.hold i) (d := d) (by omega) h
  exact ⟨hslots'.trans hslots, by omega⟩

/-! ## `rename2` -/

/-- `newdir` with the link that a directory is to give it. -/
def incnlink (v : Vol) (newdir oldi : Nat) : Vol :=
  if (v.fs.inode oldi).isdir then v.upd newdir fun i => { i with nlink := i.nlink + 1 } else v

/-- `rename2` moves the entry in slot `k`: both names have been looked up in `v2`, and nothing
stands in the way. -/
structure Renames (v : Vol) (olddir : Nat) (oldname : Name) (newdir : Nat) (newname : Name)
    (k : Nat) (v2 : Vol) : Prop where
  differ : ¬ (olddir = newdir ∧ oldname = newname)
  oldname_ok : ¬ (oldname = [] ∨ oldname = dot ∨ oldname = dotdot)
  newname_ok : ¬ (newname = [] ∨ newname = dot ∨ newname = dotdot)
  found : v.fs.findde olddir oldname = some k
  lookups : ∃ v1, v.readi (v.fs.de olddir k).ino = .ok v1 ∧
    (if (v1.fs.inode (v.fs.de olddir k).ino).isdir then
        v1.parentchild (v.fs.de olddir k).ino newdir
      else some (false, v1)) = some (false, v2)
  occupied : ∀ m, v2.fs.findde newdir newname = some m →
    ∃ v3, v2.readi (v2.fs.de newdir m).ino = .ok v3 ∧
      (v3.fs.inode (v.fs.de olddir k).ino).isdir =
        (v3.fs.inode (v2.fs.de newdir m).ino).isdir ∧
      ((v3.fs.inode (v2.fs.de newdir m).ino).isdir = true →
        v3.fs.emptydir (v2.fs.de newdir m).ino = true ∧
          (v3.fs.inode (v2.fs.de newdir m).ino).refcnt ≤ 1)
  vacant : v2.fs.findde newdir newname = none →
    ((v2.fs.inode (v.fs.de olddir k).ino).isdir = true →
      (v2.fs.inode newdir).nlink < LINKMAX) ∧
      (v2.incnlink newdir (v.fs.de olddir k).ino).addcheck newdir newname = 0 ∧
      ((v2.incnlink newdir (v.fs.de olddir k).ino).freede newdir).isSome = true

theorem incnlink_steady : Steady d v (v.incnlink newdir oldi) := by
  unfold incnlink
  split
  · exact steady_upd (fun _ => rfl) fun _ => rfl
  · exact Steady.refl d v

/-- Another handle than the one on `oldi` keeps the directory. -/
def Kept (d oldi : Nat) (v : Vol) : Prop := (if d = oldi then 1 else 0) < (v.fs.inode d).refcnt

theorem Kept.steady (h : Kept d oldi v) (hs : Steady d v v') : Kept d oldi v' :=
  Nat.lt_of_lt_of_le h hs.held

theorem Kept.lose (h : Kept d oldi v) : (v.lose oldi).fs.slots d = v.fs.slots d := lose_slots h

theorem Kept.readi (h : (v.fs.inode d).refcnt ≠ 0) (hr : v.readi oldi = .ok v') :
    Kept d oldi v' := by
  have hcount := refcnt_readi hr d
  unfold Kept
  omega

theorem setde_slots (fs : Filesys) (dir k : Nat) (de : De) (d : Nat) :
    (fs.setde dir k de).slots d = if d = dir then (fs.slots d).set k de else fs.slots d := by
  rw [setde, slots, upd_inode]
  split
  · next hd =>
    rfl
  · rfl

theorem setde_refcnt (fs : Filesys) (dir k : Nat) (de : De) (d : Nat) :
    ((fs.setde dir k de).inode d).refcnt = (fs.inode d).refcnt := by
  rw [setde, upd_inode]
  split
  · next hd => rw [hd]
  · rfl

/-- The two slots that change. -/
theorem movede_slots (h : Kept d oldi v) :
    (v.movede olddir k newdir m newname oldi).fs.slots d =
      let s := if d = olddir then (v.fs.slots d).set k De.free else v.fs.slots d
      if d = newdir then s.set m ⟨(v.fs.de olddir k).ino, newname⟩ else s := by
  have hdec : Steady d v
      (if (v.fs.inode oldi).isdir then v.upd olddir Inode.decnlink else v) := by
    split
    · exact steady_upd (fun _ => rfl) fun _ => rfl
    · exact Steady.refl d v
  have hde : (if (v.fs.inode oldi).isdir then v.upd olddir Inode.decnlink else v).fs.de olddir k =
      v.fs.de olddir k := by
    have hold : Steady olddir v
        (if (v.fs.inode oldi).isdir then v.upd olddir Inode.decnlink else v) := by
      split
      · exact steady_upd (fun _ => rfl) fun _ => rfl
      · exact Steady.refl olddir v
    rw [de, de, hold.slots]
  unfold movede
  dsimp only
  rw [hde]
  generalize (if (v.fs.inode oldi).isdir then v.upd olddir Inode.decnlink else v) = w at hdec
  have hkept : Kept d oldi ⟨(w.fs.setde olddir k De.free).setde newdir m
      ⟨(v.fs.de olddir k).ino, newname⟩, w.nfree⟩ := by
    unfold Kept
    rw [setde_refcnt, setde_refcnt]
    exact Nat.lt_of_lt_of_le h hdec.held
  change (Vol.lose ⟨(w.fs.setde olddir k De.free).setde newdir m
    ⟨(v.fs.de olddir k).ino, newname⟩, w.nfree⟩ oldi).fs.slots d = _
  rw [hkept.lose]
  rw [setde_slots, setde_slots, hdec.slots]

/-- What both lookups leave. -/
theorem lookups_steady {v1 : Vol} (hd : (v.fs.inode d).refcnt ≠ 0) (hr : v.readi oldi = .ok v1)
    {b : Bool} (h : (if (v1.fs.inode oldi).isdir then v1.parentchild oldi newdir
      else some (false, v1)) = some (b, v2)) : Steady d v v2 ∧ Kept d oldi v2 := by
  have hkept := Kept.readi hd hr
  have hsteady : Steady d v1 v2 := by
    split at h
    · exact parentchild_steady (Nat.ne_zero_of_lt hkept) h
    · cases h
      exact Steady.refl d _
  exact ⟨(steady_readi hr).trans hsteady, hkept.steady hsteady⟩

/-- Unless `rename2` moves the entry, no directory that is held changes. -/
theorem rename2_stays (hno : ∀ k v2, ¬ v.Renames olddir oldname newdir newname k v2)
    (h : v.rename2 olddir oldname newdir newname = some (e, v'))
    (hd : (v.fs.inode d).refcnt ≠ 0) : v'.fs.slots d = v.fs.slots d := by
  unfold rename2 at h
  split at h
  · cases h
    rfl
  next hdiffer =>
  split at h
  · cases h
    rfl
  next holdname =>
  split at h
  · cases h
    rfl
  next hnewname =>
  split at h
  · cases h
    rfl
  next k hk =>
  dsimp only at h
  split at h
  · cases h
    rfl
  next v1 hv1 =>
  obtain ⟨⟨child, v2⟩, hclimb, h⟩ := bind_eq_some_iff.mp h
  obtain ⟨hsteady, hkept⟩ := lookups_steady hd hv1 hclimb
  have hlost : (v2.lose (v.fs.de olddir k).ino).fs.slots d = v.fs.slots d :=
    hkept.lose.trans hsteady.slots
  dsimp only at h
  split at h
  · cases h
    exact hlost
  next hchild =>
  have hclimb : _ = some (false, v2) := (Bool.not_eq_true _ ▸ hchild) ▸ hclimb
  have hgo := fun hover hnew => hno k v2
    ⟨hdiffer, holdname, hnewname, hk, ⟨v1, hv1, hclimb⟩, hover, hnew⟩
  split at h
  · next m hm =>
    unfold renameOver at h
    dsimp only at h
    split at h
    · cases h
      exact hlost
    next v3 hv3 =>
    have hlost3 : (v3.lose (v.fs.de olddir k).ino).fs.slots d = v.fs.slots d :=
      (hkept.steady (steady_readi hv3)).lose.trans ((steady_readi hv3).slots.trans hsteady.slots)
    split at h
    · cases h
      exact hlost3
    next htype =>
    split at h
    · cases h
      exact hlost3
    next hempty =>
    split at h
    · cases h
      exact hlost3
    next hbusy =>
    refine absurd (hgo (fun m' hm' => ?_) fun hnone => ?_) id
    · cases hm.symm.trans hm'
      refine ⟨v3, hv3, by simpa using htype, fun hisdir => ?_⟩
      rw [hisdir] at hempty hbusy
      exact ⟨by simpa using hempty, by simpa using hbusy⟩
    · cases hm.symm.trans hnone
  · next hm =>
    unfold renameNew at h
    split at h
    · cases h
      exact hlost
    next hlink =>
    have hinc : Steady d v2 (v2.incnlink newdir (v.fs.de olddir k).ino) := incnlink_steady
    change (if (v2.incnlink newdir (v.fs.de olddir k).ino).addcheck newdir newname ≠ 0 then
        some ((v2.incnlink newdir (v.fs.de olddir k).ino).addcheck newdir newname,
          ((v2.incnlink newdir (v.fs.de olddir k).ino).upd newdir Inode.decnlink).lose
            (v.fs.de olddir k).ino)
      else _) = _ at h
    split at h
    · cases h
      have hdec : Steady d (v2.incnlink newdir (v.fs.de olddir k).ino)
          ((v2.incnlink newdir (v.fs.de olddir k).ino).upd newdir Inode.decnlink) :=
        steady_upd (fun _ => rfl) fun _ => rfl
      exact (hkept.steady (hinc.trans hdec)).lose.trans
        ((hinc.trans hdec).slots.trans hsteady.slots)
    next hcheck =>
    obtain ⟨p, hp, -⟩ := map_eq_some_iff.mp h
    refine absurd (hgo (fun m hm' => ?_) fun _ => ⟨fun hisdir => ?_, not_not.mp hcheck, ?_⟩) id
    · cases hm.symm.trans hm'
    · rw [hisdir] at hlink
      simpa using hlink
    · exact isSome_iff_exists.mpr ⟨p, hp⟩

/-- What a rename makes of the two directories; slot `m` of `l` is that of the new name. -/
structure Moved (v v' : Vol) (olddir k newdir : Nat) (newname : Name) (l : List De) (m : Nat)
    (old : De) : Prop where
  base : l = v.fs.slots newdir ∨ l = v.fs.slots newdir ++ [De.free]
  slot : l[m]? = some old
  old : v.fs.findde newdir newname = some m ∧ old = v.fs.de newdir m ∨
    v.fs.findde newdir newname = none ∧ old.ino = MINIXFREEINO
  source : olddir ≠ newdir → v'.fs.slots olddir = (v.fs.slots olddir).set k De.free
  target : v'.fs.slots newdir =
    (if newdir = olddir then l.set k De.free else l).set m ⟨(v.fs.de olddir k).ino, newname⟩

theorem findde_of_slots {fs fs' : Filesys} (h : fs'.slots p = fs.slots p) (name : Name) :
    fs'.findde p name = fs.findde p name := by
  unfold findde
  rw [h]

theorem freede_refcnt (h : v.freede dir = some (k, v')) (d : Nat) :
    (v'.fs.inode d).refcnt = (v.fs.inode d).refcnt := by
  obtain ⟨l, z, -, -, -, -, -, hinode⟩ := freede_cases h
  rw [hinode, upd_inode]
  split
  · next hd => rw [hd]
  · rfl

/-- When both names have been looked up, what is left depends on whether the new one is there. -/
theorem Renames.rename2_eq (h : v.Renames olddir oldname newdir newname k v2) :
    v.rename2 olddir oldname newdir newname =
      match v2.fs.findde newdir newname with
      | some m => some (v2.renameOver olddir k newdir m newname (v.fs.de olddir k).ino)
      | none => v2.renameNew olddir k newdir newname (v.fs.de olddir k).ino := by
  obtain ⟨v1, hv1, hclimb⟩ := h.lookups
  rw [rename2, if_neg h.differ, if_neg h.oldname_ok, if_neg h.newname_ok, h.found]
  dsimp only
  rw [hv1]
  dsimp only
  rw [hclimb, bind_some]
  rfl

/-- The new name is taken. -/
theorem Renames.replaces (h : v.Renames olddir oldname newdir newname k v2)
    (hold : (v.fs.inode olddir).refcnt ≠ 0) (hnew : (v.fs.inode newdir).refcnt ≠ 0)
    (hm : v2.fs.findde newdir newname = some m) :
    ∃ v' l m old, v.rename2 olddir oldname newdir newname = some (0, v') ∧
      Moved v v' olddir k newdir newname l m old := by
  rw [h.rename2_eq, hm]
  obtain ⟨v1, hv1, hclimb⟩ := h.lookups
  obtain ⟨hsteady, hkept⟩ := lookups_steady hold hv1 hclimb
  obtain ⟨hsteady', hkept'⟩ := lookups_steady hnew hv1 hclimb
  have hfind : v2.fs.findde newdir newname = v.fs.findde newdir newname :=
    findde_of_slots hsteady'.slots newname
  obtain ⟨v3, hv3, htype, hgoes⟩ := h.occupied m hm
  let w := (v3.upd (v2.fs.de newdir m).ino fun i => { i with nlink := 0 }).lose
    (v2.fs.de newdir m).ino
  have hw : ∀ d, Steady d v v2 → Kept d (v.fs.de olddir k).ino v2 →
      w.fs.slots d = v.fs.slots d ∧ Kept d (v.fs.de olddir k).ino w := by
    intro d hs hkd
    have hupd : Steady d v3
        (v3.upd (v2.fs.de newdir m).ino fun i => { i with nlink := 0 }) :=
      steady_upd (fun _ => rfl) fun _ => rfl
    have hcount := refcnt_readi hv3 d
    have hcount' := refcnt_lose
      (v3.upd (v2.fs.de newdir m).ino fun i => { i with nlink := 0 }) (v2.fs.de newdir m).ino d
    have hheld := hupd.held
    unfold Kept at hkd
    have hslots := lose_slots (d := d) (i := (v2.fs.de newdir m).ino)
      (v := v3.upd (v2.fs.de newdir m).ino fun i => { i with nlink := 0 }) (by omega)
    refine ⟨hslots.trans (hupd.slots.trans ((steady_readi hv3).slots.trans hs.slots)), ?_⟩
    change _ < (Inode.refcnt ((v3.upd _ _).lose _ |>.fs.inode d))
    omega
  obtain ⟨hwo, hko⟩ := hw olddir hsteady hkept
  obtain ⟨hwn, hkn⟩ := hw newdir hsteady' hkept'
  refine ⟨w.movede olddir k newdir m newname (v.fs.de olddir k).ino, v.fs.slots newdir, m,
    v.fs.de newdir m, ?_, .inl rfl, ?_, .inl ⟨hfind.symm.trans hm, rfl⟩, fun hne => ?_, ?_⟩
  · refine congrArg some ?_
    unfold renameOver
    dsimp only
    rw [hv3]
    dsimp only
    rw [if_neg (by simp [htype]), if_neg, if_neg]
    · rw [Bool.and_eq_true, decide_eq_true_eq, not_and, Nat.not_lt]
      exact fun hisdir => (hgoes hisdir).2
    · rw [Bool.and_eq_true, Bool.not_eq_true', not_and, Bool.not_eq_false]
      exact fun hisdir => (hgoes hisdir).1
  · exact (findde_eq_some (hfind.symm.trans hm)).1
  · rw [movede_slots hko, hwo]
    rw [if_neg hne, if_pos rfl]
  · rw [movede_slots hkn, hwn, de_of_slots hwo]
    rw [if_pos rfl]

/-- The new name is free. -/
theorem Renames.adds (h : v.Renames olddir oldname newdir newname k v2)
    (hold : (v.fs.inode olddir).refcnt ≠ 0) (hnew : (v.fs.inode newdir).refcnt ≠ 0)
    (hm : v2.fs.findde newdir newname = none) :
    ∃ v' l m old, v.rename2 olddir oldname newdir newname = some (0, v') ∧
      Moved v v' olddir k newdir newname l m old := by
  rw [h.rename2_eq, hm]
  obtain ⟨v1, hv1, hclimb⟩ := h.lookups
  obtain ⟨hsteady, hkept⟩ := lookups_steady hold hv1 hclimb
  obtain ⟨hsteady', hkept'⟩ := lookups_steady hnew hv1 hclimb
  have hfind : v2.fs.findde newdir newname = v.fs.findde newdir newname :=
    findde_of_slots hsteady'.slots newname
  obtain ⟨hlink, hcheck, hroom⟩ := h.vacant hm
  obtain ⟨⟨m, w⟩, hw⟩ := isSome_iff_exists.mp hroom
  obtain ⟨l, z, hl, ⟨old, hslot, hfree⟩, -, -, -, hinode⟩ := freede_cases hw
  have hinc : ∀ d, Steady d v2 (v2.incnlink newdir (v.fs.de olddir k).ino) :=
    fun d => incnlink_steady
  have hkw : ∀ d, Kept d (v.fs.de olddir k).ino v2 → Kept d (v.fs.de olddir k).ino w := by
    intro d hkd
    unfold Kept
    rw [freede_refcnt hw]
    exact hkd.steady (hinc d)
  have hwn : w.fs.slots newdir = l := by
    rw [slots, hinode, upd_inode_self]
  have hwo : olddir ≠ newdir → w.fs.slots olddir = v.fs.slots olddir := by
    intro hne
    rw [slots, hinode, upd_inode_ne hne]
    exact (hinc olddir).slots.trans hsteady.slots
  have hl : l = v.fs.slots newdir ∨ l = v.fs.slots newdir ++ [De.free] := by
    rw [← hsteady'.slots, ← (hinc newdir).slots]
    exact hl
  have hino : w.fs.de olddir k = v.fs.de olddir k := by
    by_cases hne : olddir = newdir
    · subst hne
      obtain ⟨hlt, -⟩ := List.getElem?_eq_some_iff.mp (findde_eq_some h.found).1
      have hlt : k < (v.fs.slots olddir).length := hlt
      rw [de, de, hwn]
      rcases hl with rfl | rfl
      · rfl
      · rw [List.getD_eq_getElem?_getD, List.getD_eq_getElem?_getD,
          List.getElem?_append_left hlt]
    · exact de_of_slots (hwo hne)
  refine ⟨w.movede olddir k newdir m newname (v.fs.de olddir k).ino, l, m, old, ?_, hl, hslot,
    .inr ⟨hfind.symm.trans hm, hfree⟩, fun hne => ?_, ?_⟩
  · unfold renameNew
    rw [if_neg]
    · dsimp only
      change (if (v2.incnlink newdir (v.fs.de olddir k).ino).addcheck newdir newname ≠ 0 then _
        else ((v2.incnlink newdir (v.fs.de olddir k).ino).freede newdir).map _) = _
      rw [if_neg (not_not.mpr hcheck), hw]
      rfl
    · rw [Bool.and_eq_true, decide_eq_true_eq, not_and, Nat.not_le]
      exact hlink
  · rw [movede_slots (hkw olddir hkept), hwo hne]
    rw [if_neg hne, if_pos rfl]
  · rw [movede_slots (hkw newdir hkept'), hwn, hino]
    rw [if_pos rfl]

theorem rename2_renames (h : v.Renames olddir oldname newdir newname k v2)
    (hold : (v.fs.inode olddir).refcnt ≠ 0) (hnew : (v.fs.inode newdir).refcnt ≠ 0) :
    ∃ v' l m old, v.rename2 olddir oldname newdir newname = some (0, v') ∧
      Moved v v' olddir k newdir newname l m old := by
  cases hm : v2.fs.findde newdir newname with
  | some m => exact h.replaces hold hnew hm
  | none => exact h.adds hold hnew hm

/-! ## Which entries go -/

/-- The entries with the new name, and in the same directory those with the old one. -/
theorem Moved.count_target {l : List De} {old de : De}
    (h : Moved v v' olddir k newdir newname l m old)
    (hdiffer : ¬ (olddir = newdir ∧ oldname = newname))
    (hk : v.fs.findde olddir oldname = some k) (hde : de.ino ≠ MINIXFREEINO) :
    (v'.fs.slots newdir).count de + (if newdir = olddir ∧ v.fs.de olddir k = de then 1 else 0) +
        (if old = de then 1 else 0) =
      (v.fs.slots newdir).count de +
        if (⟨(v.fs.de olddir k).ino, newname⟩ : De) = de then 1 else 0 := by
  obtain ⟨hslot, hlive, hname⟩ := findde_eq_some hk
  have hfree : De.free ≠ de := fun heq => hde (heq ▸ rfl)
  have hcount : l.count de = (v.fs.slots newdir).count de := by
    rcases h.base with rfl | rfl
    · rfl
    · rw [List.count_append, List.count_singleton, if_neg (by simpa using hfree), Nat.add_zero]
  have hmem : old = de → 0 < l.count de := fun heq => heq ▸ count_pos h.slot
  rw [h.target]
  by_cases hsame : newdir = olddir
  · subst hsame
    have hlk : l[k]? = some (v.fs.de newdir k) := by
      obtain ⟨hlt, -⟩ := List.getElem?_eq_some_iff.mp hslot
      rcases h.base with rfl | rfl
      · exact hslot
      · exact (List.getElem?_append_left hlt).trans hslot
    have holdk : old ≠ v.fs.de newdir k := by
      rintro rfl
      rcases h.old with ⟨hm, heq⟩ | ⟨-, hzero⟩
      · refine hdiffer ⟨rfl, ?_⟩
        rw [← hname, heq]
        exact (findde_eq_some hm).2.2
      · exact hlive hzero
    have hkm : k ≠ m := by
      rintro rfl
      exact holdk (some.inj (h.slot.symm.trans hlk))
    have hset : (l.set k De.free)[m]? = some old := by
      rw [List.getElem?_set_ne hkm]
      exact h.slot
    have hpos : v.fs.de newdir k = de → 0 < l.count de := fun heq => heq ▸ count_pos hlk
    rw [if_pos rfl, count_slot hset, count_slot hlk, if_neg hfree, ← hcount]
    simp only [true_and]
    by_cases hde' : old = de
    · have hne : v.fs.de newdir k ≠ de := fun heq => holdk (hde'.trans heq.symm)
      have hpos' := hmem hde'
      simp only [if_pos hde', if_neg hne]
      omega
    · by_cases hdk : v.fs.de newdir k = de
      · have hpos' := hpos hdk
        simp only [if_neg hde', if_pos hdk]
        omega
      · simp only [if_neg hde', if_neg hdk]
        omega
  · have hother : ¬ (newdir = olddir ∧ v.fs.de olddir k = de) := fun hboth => hsame hboth.1
    rw [if_neg hsame, count_slot h.slot, if_neg hother, ← hcount]
    by_cases hde' : old = de
    · have hpos' := hmem hde'
      rw [if_pos hde']
      omega
    · rw [if_neg hde']
      omega

/-- In the directory of the new name: the entry that had it, if it is of another inode. -/
theorem Moved.lost_target {l : List De} {old de : De}
    (h : Moved v v' olddir k newdir newname l m old)
    (hdiffer : ¬ (olddir = newdir ∧ oldname = newname)) (hk : v.fs.findde olddir oldname = some k) :
    v.fs.Lost v'.fs newdir de ↔ newdir = olddir ∧ de = v.fs.de olddir k ∨
      v.fs.findde newdir newname = some m ∧ de = v.fs.de newdir m ∧
        de.ino ≠ (v.fs.de olddir k).ino := by
  obtain ⟨hslot, hlive, hname⟩ := findde_eq_some hk
  unfold Lost
  constructor
  · intro hlost
    have hde := live_of_count hlost
    rw [count_entries hde, count_entries hde] at hlost
    have hcount := h.count_target hdiffer hk hde
    by_cases hsame : newdir = olddir ∧ v.fs.de olddir k = de
    · exact .inl ⟨hsame.1, hsame.2.symm⟩
    · rw [if_neg hsame] at hcount
      by_cases hold : old = de
      · right
        rcases h.old with ⟨hm, heq⟩ | ⟨-, hzero⟩
        · refine ⟨hm, hold.symm.trans heq, fun hino => ?_⟩
          have hnew : (⟨(v.fs.de olddir k).ino, newname⟩ : De) = de := by
            have hn : de.name = newname := by
              rw [← hold, heq]
              exact (findde_eq_some hm).2.2
            rw [← hino, ← hn]
          rw [if_pos hold, if_pos hnew] at hcount
          omega
        · exact absurd (hold ▸ hzero) hde
      · rw [if_neg hold] at hcount
        omega
  · rintro (⟨hsame, rfl⟩ | ⟨hm, rfl, hino⟩)
    · have hcount := h.count_target hdiffer hk hlive
      have hne : (⟨(v.fs.de olddir k).ino, newname⟩ : De) ≠ v.fs.de olddir k := fun heq =>
        hdiffer ⟨hsame.symm, hname.symm.trans (congrArg De.name heq).symm⟩
      rw [if_pos ⟨hsame, rfl⟩, if_neg hne] at hcount
      rw [count_entries hlive, count_entries hlive]
      omega
    · have hlive' := (findde_eq_some hm).2.1
      have hcount := h.count_target hdiffer hk hlive'
      have hold : old = v.fs.de newdir m := by
        rcases h.old with ⟨-, heq⟩ | ⟨hnone, -⟩
        · exact heq
        · cases hm.symm.trans hnone
      have hne : (⟨(v.fs.de olddir k).ino, newname⟩ : De) ≠ v.fs.de newdir m :=
        fun heq => hino (congrArg De.ino heq).symm
      rw [if_pos hold, if_neg hne] at hcount
      rw [count_entries hlive', count_entries hlive']
      omega

end Vol

/-! ## The rule -/

namespace World

/-- An entry goes only if the caller may take it out. -/
def Sticky (w : World) (a : Call) : Prop :=
  ∀ e w', w.call a = some (e, w') → ∀ p ∈ a.dirs, ∀ de,
    (w.fs p.2.1).Lost (w'.fs p.2.1) p.2.2 de →
      (w.inode p.2.1 p.2.2).Mayremove p.1 (w.inode p.2.1 de.ino)

/-- The caller may take out the entry that is about to go. -/
def StickyFine (w : World) : Call → Prop
  | .unlink c dev dir name =>
      w.held dev dir = true → (w.vol dev).UnlinkGoes c dir name →
        ∀ k, (w.fs dev).findde dir name = some k →
          (w.inode dev dir).Mayremove c (w.inode dev ((w.fs dev).de dir k).ino)
  | .rmdir c dev dir name =>
      w.held dev dir = true → (w.vol dev).RmdirGoes c dir name →
        ∀ k, (w.fs dev).findde dir name = some k →
          (w.inode dev dir).Mayremove c (w.inode dev ((w.fs dev).de dir k).ino)
  | .rename c dev olddir oldname ndev newdir newname =>
      w.held dev olddir = true → w.held ndev newdir = true →
        (w.inode dev olddir).mounted = false → (w.inode ndev newdir).mounted = false →
        w.RenamePasses c dev olddir ndev newdir →
        ∀ k v2, (w.vol dev).Renames olddir oldname newdir newname k v2 →
          (w.inode dev olddir).Mayremove c (w.inode dev ((w.fs dev).de olddir k).ino) ∧
            ∀ m, (w.fs dev).findde newdir newname = some m →
              ((w.fs dev).de newdir m).ino ≠ ((w.fs dev).de olddir k).ino →
                (w.inode dev newdir).Mayremove c (w.inode dev ((w.fs dev).de newdir m).ino)
  | _ => True

variable {w w' : World} {c : Cred} {dev dir ndev olddir newdir : Nat}
  {name oldname newname : Name} {e : Int}

theorem unlink_sticky_iff :
    w.Sticky (.unlink c dev dir name) ↔ w.StickyFine (.unlink c dev dir name) := by
  constructor
  · intro hsticky hheld hgo k hk
    have hrun : some ((w.vol dev).unlink2 c dir name) = some (((w.vol dev).unlink2 c dir name).1,
      ((w.vol dev).unlink2 c dir name).2) := rfl
    obtain ⟨w', hw, hfs⟩ := on_of_some (f := fun v => some (v.unlink2 c dir name)) hrun
    have hcall : w.call (.unlink c dev dir name) =
        some (((w.vol dev).unlink2 c dir name).1, w') := (if_pos hheld).trans hw
    obtain ⟨hisdir, k', v', hk', hv', hdeny, hfile⟩ := hgo
    cases hk.symm.trans hk'
    obtain ⟨hslot, hlive, -⟩ := findde_eq_some hk
    refine hsticky _ w' hcall (c, dev, dir) (List.mem_singleton_self _) _ ?_
    rw [hfs]
    exact (lost_clear_iff hslot hlive rfl (Vol.unlink2_slots hisdir hk hv' hdeny hfile)).mpr rfl
  · intro hfine e w' h p hp de hlost
    obtain rfl := List.mem_singleton.mp hp
    obtain ⟨hheld, h⟩ := ite_none_right_eq_some.mp h
    obtain ⟨v, hv, hfs⟩ := on_some h
    have hv : (w.vol dev).unlink2 c dir name = (e, v) := some.inj hv
    rw [hfs] at hlost
    by_cases hgo : (w.vol dev).UnlinkGoes c dir name
    · have hfine := hfine hheld hgo
      obtain ⟨hisdir, k, v', hk, hv', hdeny, hfile⟩ := hgo
      obtain ⟨hslot, hlive, -⟩ := findde_eq_some hk
      have hslots := Vol.unlink2_slots hisdir hk hv' hdeny hfile
      rw [hv] at hslots
      rw [(lost_clear_iff hslot hlive rfl hslots).mp hlost]
      exact hfine k hk
    · have hstays := Vol.unlink2_stays (refcnt_of_held hheld) hgo
      rw [hv] at hstays
      exact absurd hlost (Lost.of_eq hstays)

theorem rmdir_sticky_iff :
    w.Sticky (.rmdir c dev dir name) ↔ w.StickyFine (.rmdir c dev dir name) := by
  constructor
  · intro hsticky hheld hgo k hk
    obtain ⟨hmounted, hisdir, k', v', hk', hv', hdeny, hchild, href, hempty⟩ := hgo
    obtain ⟨v, hv, hslots⟩ := Vol.rmdir2_slots (refcnt_of_held hheld) hmounted hisdir hk' hv'
      hdeny hchild href hempty
    cases hk.symm.trans hk'
    obtain ⟨w', hw, hfs⟩ := on_of_some (f := fun v => v.rmdir2 c dir name) hv
    obtain ⟨hslot, hlive, -⟩ := findde_eq_some hk
    refine hsticky 0 w' ((if_pos hheld).trans hw) (c, dev, dir) (List.mem_singleton_self _) _ ?_
    rw [hfs]
    exact (lost_clear_iff hslot hlive rfl hslots).mpr rfl
  · intro hfine e w' h p hp de hlost
    obtain rfl := List.mem_singleton.mp hp
    obtain ⟨hheld, h⟩ := ite_none_right_eq_some.mp h
    obtain ⟨v, hv, hfs⟩ := on_some h
    rw [hfs] at hlost
    by_cases hgo : (w.vol dev).RmdirGoes c dir name
    · have hfine := hfine hheld hgo
      obtain ⟨hmounted, hisdir, k, v', hk, hv', hdeny, hchild, href, hempty⟩ := hgo
      obtain ⟨u, hu, hslots⟩ := Vol.rmdir2_slots (refcnt_of_held hheld) hmounted hisdir hk hv'
        hdeny hchild href hempty
      cases hv.symm.trans hu
      obtain ⟨hslot, hlive, -⟩ := findde_eq_some hk
      rw [(lost_clear_iff hslot hlive rfl hslots).mp hlost]
      exact hfine k hk
    · exact absurd hlost (Lost.of_eq (Vol.rmdir2_stays (refcnt_of_held hheld) hgo hv))

theorem rename_call (hold : w.held dev olddir = true) (hnew : w.held dev newdir = true)
    (hmold : (w.inode dev olddir).mounted = false) (hmnew : (w.inode dev newdir).mounted = false)
    (hpass : w.RenamePasses c dev olddir dev newdir) :
    w.call (.rename c dev olddir oldname dev newdir newname) =
      w.on dev fun v => v.rename2 olddir oldname newdir newname := by
  refine (if_pos (by rw [hold, hnew]; rfl)).trans ?_
  rw [rename2, if_neg (by simp [hmold, hmnew]), if_neg (by simp [hpass.isdir]),
    if_neg (by simp [hpass.deny]), if_neg (by simp)]

/-- What of a rename that is called comes to the volume. -/
theorem rename_some (h : w.call (.rename c dev olddir oldname ndev newdir newname) = some (e, w'))
    {d : Nat} {de : De} (hlost : (w.fs d).Lost (w'.fs d) dir de) :
    w.held dev olddir = true ∧ w.held ndev newdir = true ∧
      (w.inode dev olddir).mounted = false ∧ (w.inode ndev newdir).mounted = false ∧
      w.RenamePasses c dev olddir ndev newdir ∧
      (w.on dev fun v => v.rename2 olddir oldname newdir newname) = some (e, w') := by
  obtain ⟨hheld, h⟩ := ite_none_right_eq_some.mp h
  rw [Bool.and_eq_true] at hheld
  unfold rename2 at h
  split at h
  · cases h
  next hmounted =>
  rw [Bool.or_eq_true, not_or, Bool.not_eq_true, Bool.not_eq_true] at hmounted
  split at h
  · cases h
    exact absurd hlost (Lost.of_eq rfl)
  next hisdir =>
  split at h
  · cases h
    exact absurd hlost (Lost.of_eq rfl)
  next hdeny =>
  split at h
  · cases h
    exact absurd hlost (Lost.of_eq rfl)
  next hdev =>
  rw [not_or, not_not, not_not] at hdeny
  refine ⟨hheld.1, hheld.2, hmounted.1, hmounted.2, ⟨by simpa using hisdir, hdeny, ?_⟩, h⟩
  exact not_not.mp hdev

theorem rename_sticky_iff :
    w.Sticky (.rename c dev olddir oldname ndev newdir newname) ↔
      w.StickyFine (.rename c dev olddir oldname ndev newdir newname) := by
  constructor
  · intro hsticky hold hnew hmold hmnew hpass k v2 hren
    obtain rfl := hpass.dev
    obtain ⟨v', l, m, old, hv', hmoved⟩ :=
      Vol.rename2_renames hren (refcnt_of_held hold) (refcnt_of_held hnew)
    obtain ⟨w', hw, hfs⟩ := on_of_some (f := fun v => v.rename2 olddir oldname newdir newname) hv'
    have hcall := (rename_call hold hnew hmold hmnew hpass).trans hw
    obtain ⟨hslot, hlive, -⟩ := findde_eq_some hren.found
    constructor
    · refine hsticky 0 w' hcall (c, dev, olddir) List.mem_cons_self _ ?_
      rw [hfs]
      by_cases hsame : newdir = olddir
      · subst hsame
        exact (hmoved.lost_target hren.differ hren.found).mpr (.inl ⟨rfl, rfl⟩)
      · exact (lost_clear_iff hslot hlive rfl (hmoved.source (Ne.symm hsame))).mpr rfl
    · intro m' hm' hino
      refine hsticky 0 w' hcall (c, dev, newdir)
        (List.mem_cons_of_mem _ (List.mem_singleton_self _)) _ ?_
      rw [hfs]
      refine (hmoved.lost_target hren.differ hren.found).mpr (.inr ?_)
      rcases hmoved.old with ⟨hm, -⟩ | ⟨hnone, -⟩
      · cases hm'.symm.trans hm
        exact ⟨hm, rfl, hino⟩
      · cases hm'.symm.trans hnone
  · intro hfine e w' h p hp de hlost
    obtain ⟨hold, hnew, hmold, hmnew, hpass, hon⟩ := rename_some h hlost
    obtain rfl := hpass.dev
    have hfine := hfine hold hnew hmold hmnew hpass
    obtain ⟨v, hv, hfs⟩ := on_some hon
    have hp' : p.2.1 = dev := by
      rcases List.mem_pair.mp hp with rfl | rfl
      · rfl
      · rfl
    rw [hp', hfs] at hlost
    by_cases hren : ∃ k v2, (w.vol dev).Renames olddir oldname newdir newname k v2
    · obtain ⟨k, v2, hren⟩ := hren
      obtain ⟨v', l, m, old, hv', hmoved⟩ :=
        Vol.rename2_renames hren (refcnt_of_held hold) (refcnt_of_held hnew)
      cases hv.symm.trans hv'
      obtain ⟨hfold, hfnew⟩ := hfine k v2 hren
      obtain ⟨hslot, hlive, -⟩ := findde_eq_some hren.found
      have htarget : (w.vol dev).fs.Lost v.fs newdir de →
          (w.inode dev newdir).Mayremove c (w.inode dev de.ino) := by
        intro hlost
        rcases (hmoved.lost_target hren.differ hren.found).mp hlost with
          ⟨rfl, rfl⟩ | ⟨hm, rfl, hino⟩
        · exact hfold
        · exact hfnew m hm hino
      rcases List.mem_pair.mp hp with rfl | rfl
      · by_cases hsame : olddir = newdir
        · subst hsame
          exact htarget hlost
        · have hde := (lost_clear_iff hslot hlive rfl (hmoved.source hsame)).mp hlost
          rw [hde]
          exact hfold
      · exact htarget hlost
    · have hstays : ∀ d, ((w.vol dev).fs.inode d).refcnt ≠ 0 → v.fs.slots d = (w.fs dev).slots d :=
        fun d hd => Vol.rename2_stays (fun k v2 hk => hren ⟨k, v2, hk⟩) hv hd
      have hslots : v.fs.slots p.2.2 = (w.fs dev).slots p.2.2 := by
        rcases List.mem_pair.mp hp with rfl | rfl
        · exact hstays olddir (refcnt_of_held hold)
        · exact hstays newdir (refcnt_of_held hnew)
      refine absurd hlost (Lost.of_eq ?_)
      rw [entries, entries, hslots]

end World

/-! ## A directory that everybody may write -/

/-- The superuser has a sticky directory `t` that everybody may write, with a file `a` in it. -/
def stickyWorld : World :=
  (exec World.step mkfsWorld [.mkdir { superuser with umask := 0 } 0 1 [0x74] 0o1777, .lookup 0 1 [0x74],
    .mkreg superuser 0 2 [0x61] 0o644 false]).getD mkfsWorld

end Unixlite.Fs
