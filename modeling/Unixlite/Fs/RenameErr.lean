import Unixlite.Fs.Bufvol

/-!
# `rename2` and its errors

Port of `rename2` of `fs/dir.cc` with the buffers that it holds and with I/O errors.

When `rename2` fails, it has given back what it held, and the entries and link counts are as
before, except that it keeps the inode of a new name that may not be replaced, and takes a link
from the new directory when `addde` turns down the new name of a file (`rename2_error_iff`).
-/

namespace Unixlite.Fs

open Verified Counter List Option

namespace Bufvol

/-! ## The source -/

/-- The label `error`. -/
def error (s : Bufvol) (e : Int) (oldb newb : Option Nat) (oldi : Nat) : Int × Bufvol :=
  let s := oldb.elim s s.losebuf
  let s := newb.elim s s.losebuf
  (e, s.lose oldi)

/-- The end of `rename2`: the entry moves. -/
def movede (s : Bufvol) (olddir k oldb newdir m newb : Nat) (newname : Name) (oldi : Nat) :
    Int × Bufvol :=
  let s := if (s.inode oldi).isdir then s.upd olddir Inode.decnlink else s
  let oldino := s.ino olddir k
  let fs := s.vol.fs.setde olddir k ⟨MINIXFREEINO, []⟩
  let s := { s with vol := { s.vol with fs := fs.setde newdir m ⟨oldino, newname⟩ } }
  s.error 0 (some oldb) (some newb) oldi

/-- `rename2` with an existing `newname`.  After `readi` nothing gives `newi` back on an
error. -/
def renameOver (d : Dirdisk) (s : Bufvol) (olddir k oldb newdir m newb : Nat) (newname : Name)
    (oldi : Nat) : Int × Bufvol :=
  let newi := s.ino newdir m
  match s.readi d newi with
  | .error e => s.error e (some oldb) (some newb) oldi
  | .ok s =>
      if (s.inode oldi).isdir != (s.inode newi).isdir then
        s.error ENOTDIR (some oldb) (some newb) oldi
      else
        let x := if (s.inode newi).isdir then s.emptydir d newi else (true, s)
        let s := x.2
        if !x.1 then s.error ENOTEMPTY (some oldb) (some newb) oldi
        else if (s.inode newi).isdir && decide (1 < (s.inode newi).refcnt) then
          s.error EBUSY (some oldb) (some newb) oldi
        else
          let s := (s.upd newi fun i => { i with nlink := 0 }).lose newi
          s.movede olddir k oldb newdir m newb newname oldi

/-- `rename2` without an existing `newname`.  When `addde` fails, `newdir` loses a link whether
it has been given one or not. -/
def renameNew (d : Dirdisk) (s : Bufvol) (olddir k oldb newdir : Nat) (newname : Name)
    (oldi : Nat) : Option (Int × Bufvol) :=
  if (s.inode oldi).isdir && decide (LINKMAX ≤ (s.inode newdir).nlink) then
    some (s.error EMLINK (some oldb) none oldi)
  else
    let s := if (s.inode oldi).isdir then
      s.upd newdir fun i => { i with nlink := i.nlink + 1 } else s
    let x := s.addcheck d newdir newname
    if x.1 ≠ 0 then some ((x.2.upd newdir Inode.decnlink).error x.1 (some oldb) none oldi)
    else (x.2.freede d newdir).map fun (m, newb, s) =>
      s.movede olddir k oldb newdir m newb newname oldi

/-- `rename2` behind the lookup of `oldname`. -/
def renameFound (d : Dirdisk) (s : Bufvol) (olddir k oldb newdir : Nat) (newname : Name)
    (oldi : Nat) : Option (Int × Bufvol) :=
  let climbed :=
    if (s.inode oldi).isdir then s.parentchild d oldi newdir else some (false, s)
  climbed.bind fun (child, s) =>
    if child then some (s.error EINVAL (some oldb) none oldi)
    else
      let x := s.findde d newdir newname
      match x.1 with
      | some (m, newb) => some (x.2.renameOver d olddir k oldb newdir m newb newname oldi)
      | none => x.2.renameNew d olddir k oldb newdir newname oldi

/-- `rename2` of two directories on the same device. -/
def rename2 (d : Dirdisk) (s : Bufvol) (olddir : Nat) (oldname : Name) (newdir : Nat)
    (newname : Name) : Option (Int × Bufvol) :=
  if olddir = newdir ∧ oldname = newname then some (EINVAL, s)
  else if oldname = [] ∨ oldname = dot ∨ oldname = dotdot then some (EPERM, s)
  else if newname = [] ∨ newname = dot ∨ newname = dotdot then some (EPERM, s)
  else
    let x := s.findde d olddir oldname
    match x.1 with
    | none => some (ENOENT, x.2)
    | some (k, oldb) =>
        match x.2.readi d (s.ino olddir k) with
        | .error e => some (e, x.2.losebuf oldb)
        | .ok t => t.renameFound d olddir k oldb newdir newname (s.ino olddir k)

/-! ## Where it fails -/

/-- `newi` may not be replaced by `oldi`. -/
def refused (d : Dirdisk) (s : Bufvol) (oldi newi : Nat) : Bool :=
  (s.inode oldi).isdir != (s.inode newi).isdir ||
    (s.inode newi).isdir && (!(s.emptydir d newi).1 || (s.inode newi).refcnt != 0 || newi == oldi)

/-- Behind the lookup of `oldname`: the inode of an existing new name may not be replaced, or
`addde` turns down the new name of a file. -/
def astrayFound (d : Dirdisk) (s : Bufvol) (newdir : Nat) (newname : Name) (oldi : Nat) : Bool :=
  if (s.inode oldi).isdir && s.above d oldi (s.vol.fs.ninode + 1) newdir == some true then false
  else
    match s.place d newdir newname with
    | some m => s.loads d [oldi] (s.ino newdir m) && s.refused d oldi (s.ino newdir m)
    | none =>
        !(s.inode oldi).isdir && d.addcode newdir newname (s.slots newdir) != 0 &&
          (s.inode newdir).nlink != 0

/-- `rename2` fails where it does not undo what it has done. -/
def astray (d : Dirdisk) (s : Bufvol) (olddir : Nat) (oldname : Name) (newdir : Nat)
    (newname : Name) : Bool :=
  if olddir = newdir ∧ oldname = newname then false
  else if oldname = [] ∨ oldname = dot ∨ oldname = dotdot then false
  else if newname = [] ∨ newname = dot ∨ newname = dotdot then false
  else
    match s.place d olddir oldname with
    | none => false
    | some k =>
        s.loads d [] (s.ino olddir k) && s.astrayFound d newdir newname (s.ino olddir k)

variable {d : Dirdisk} {s t u : Bufvol} {is bs : List Nat} {i b c dir k : Nat} {name : Name}

/-! ## What is given back -/

variable {k newdir oldb olddir oldi : Nat} {newname : Name} {r : Int × Bufvol}

/-- The label `error` gives back the buffers and the inode. -/
theorem Out.error {is : List Nat} (newb : Option Nat)
    (h : Out s t is (newb.toList ++ [oldb])) (hsafe : s.Safe oldi) (hi : oldi ∈ is) (e : Int) :
    Out s (t.error e (some oldb) newb oldi).2 (is.erase oldi) [] := by
  cases newb with
  | none =>
      have hold := h.losebuf mem_cons_self
      rw [toList_none, nil_append, erase_cons_head] at hold
      exact hold.lose hsafe hi
  | some b =>
      have hold := h.losebuf (b := oldb) (mem_cons_of_mem b mem_cons_self)
      rw [toList_some, singleton_append, erase_second] at hold
      have hnew := hold.losebuf mem_cons_self
      rw [erase_cons_head] at hnew
      exact hnew.lose hsafe hi

theorem error_fst (t : Bufvol) (e : Int) (oldb newb : Option Nat) (oldi : Nat) :
    (t.error e oldb newb oldi).1 = e := rfl

/-- An inode that the call has taken twice, or that somebody else holds. -/
theorem Out.busy {newi : Nat} (h : Out s t [newi, oldi] bs) :
    decide (1 < (t.inode newi).refcnt) =
      ((s.inode newi).refcnt != 0 || newi == oldi) := by
  have hcount := h.inodes newi
  dsimp only at hcount
  rw [count_cons_self, count_singleton] at hcount
  rw [Bool.eq_iff_iff, Bool.or_eq_true, bne_iff_ne, beq_iff_eq, decide_eq_true_eq]
  by_cases heq : newi = oldi
  · rw [if_pos (by simpa using heq.symm)] at hcount
    omega
  · rw [if_neg (by simpa using Ne.symm heq)] at hcount
    omega

/-- On an existing new name: what is held is given back, or `newi` is kept. -/
theorem Out.renameOver {m newb : Nat} (h : Out s t [oldi] [newb, oldb]) (hsafe : s.Safe oldi)
    (hr : t.renameOver d olddir k oldb newdir m newb newname oldi = r) :
    if s.loads d [oldi] (s.ino newdir m) && s.refused d oldi (s.ino newdir m) then
      r.1 ≠ 0 ∧ Out s r.2 [s.ino newdir m] []
    else r.1 ≠ 0 → Out s r.2 [] [] := by
  unfold Bufvol.renameOver at hr
  rw [h.ino] at hr
  dsimp only at hr
  generalize s.ino newdir m = newi at hr ⊢
  cases hload : s.loads d [oldi] newi with
  | false =>
      obtain ⟨e, herr, -⟩ := h.readi_error hload
      rw [herr] at hr
      rw [Bool.false_and, if_neg Bool.false_ne_true, ← hr]
      intro _
      have hout := Out.error (some newb) h hsafe mem_cons_self e
      rwa [erase_cons_head] at hout
  | true =>
      obtain ⟨u, hu, hout⟩ := h.readi_ok hload
      have hkeep : ∀ e : Int, Out s (u.error e (some oldb) (some newb) oldi).2 [newi] [] := by
        intro e
        have hleft := Out.error (some newb) hout hsafe
          (mem_cons_of_mem _ mem_cons_self) e
        rwa [erase_second] at hleft
      rw [hu] at hr
      dsimp only at hr
      unfold refused
      obtain ⟨hempty, hsame⟩ := hout.emptydir (d := d) newi
      have hlook : (if (u.inode newi).isdir = true then u.emptydir d newi else (true, u)) =
          (!(s.inode newi).isdir || (s.emptydir d newi).1, u) := by
        rw [hout.isdir]
        cases (s.inode newi).isdir with
        | true => exact Prod.ext hempty hsame
        | false => rfl
      rw [hlook] at hr
      rw [hout.isdir, hout.isdir, hout.busy] at hr
      rw [Bool.true_and]
      cases hkind : (s.inode oldi).isdir != (s.inode newi).isdir with
      | true =>
          rw [hkind, if_pos rfl] at hr
          rw [Bool.true_or, if_pos rfl, ← hr]
          exact ⟨by rw [error_fst]; decide, hkeep _⟩
      | false =>
          rw [hkind, if_neg Bool.false_ne_true] at hr
          rw [Bool.false_or]
          cases hdir : (s.inode newi).isdir with
          | false =>
              rw [hdir, Bool.not_false, Bool.true_or, Bool.not_true,
                if_neg Bool.false_ne_true, Bool.false_and, if_neg Bool.false_ne_true] at hr
              rw [Bool.false_and, if_neg Bool.false_ne_true, ← hr]
              exact fun hne => absurd rfl hne
          | true =>
              rw [hdir, Bool.not_true, Bool.false_or, Bool.true_and] at hr
              rw [Bool.true_and]
              cases hfull : (s.emptydir d newi).1 with
              | false =>
                  rw [hfull, Bool.not_false, if_pos rfl] at hr
                  rw [Bool.not_false, Bool.true_or, Bool.true_or, if_pos rfl, ← hr]
                  exact ⟨by rw [error_fst]; decide, hkeep _⟩
              | true =>
                  rw [hfull, Bool.not_true, if_neg Bool.false_ne_true] at hr
                  rw [Bool.not_true, Bool.false_or]
                  cases hbusy : (s.inode newi).refcnt != 0 || newi == oldi with
                  | true =>
                      rw [hbusy, if_pos rfl] at hr
                      rw [if_pos rfl, ← hr]
                      exact ⟨by rw [error_fst]; decide, hkeep _⟩
                  | false =>
                      rw [hbusy, if_neg Bool.false_ne_true] at hr
                      rw [if_neg Bool.false_ne_true, ← hr]
                      exact fun hne => absurd rfl hne

/-- Without the new name: what is held is given back, or `newdir` loses a link. -/
theorem Out.renameNew
    (h : Out s t [oldi] [oldb]) (hsafe : s.Safe oldi)
    (hr : t.renameNew d olddir k oldb newdir newname oldi = some r) :
    if !(s.inode oldi).isdir && d.addcode newdir newname (s.slots newdir) != 0 &&
        (s.inode newdir).nlink != 0 then
      r.1 ≠ 0 ∧ (r.2.inode newdir).nlink ≠ (s.inode newdir).nlink
    else r.1 ≠ 0 → Out s r.2 [] [] := by
  have hback : ∀ e : Int, Out s (t.error e (some oldb) none oldi).2 [] [] := by
    intro e
    have hout := Out.error none h hsafe mem_cons_self e
    rwa [erase_cons_head] at hout
  have hslots : (t.upd newdir fun i => { i with nlink := i.nlink + 1 }).slots newdir =
      s.slots newdir := by
    rw [← h.slots]
    unfold Bufvol.slots Filesys.slots Bufvol.upd
    rw [Vol.upd_fs, Filesys.upd_inode_self]
  unfold Bufvol.renameNew at hr
  rw [h.isdir, h.nlink] at hr
  cases hdir : (s.inode oldi).isdir with
  | true =>
      rw [hdir, Bool.true_and] at hr
      dsimp only at hr
      rw [if_pos rfl] at hr
      intro hne
      by_cases hmax : LINKMAX ≤ (s.inode newdir).nlink
      · rw [if_pos (decide_eq_true hmax)] at hr
        cases hr
        exact hback EMLINK
      · rw [if_neg fun hle => hmax (of_decide_eq_true hle)] at hr
        unfold Bufvol.addcheck at hr
        rw [Dirdisk.addcheck_eq, hslots] at hr
        by_cases hcode : d.addcode newdir newname (s.slots newdir) ≠ 0
        · rw [if_pos hcode] at hr
          cases hr
          -- the link that has been added is taken away again
          have hsame : (t.upd newdir fun i => { i with nlink := i.nlink + 1 }).upd newdir
              Inode.decnlink = t := upd_upd_eq rfl
          have hdone := hback (d.addcode newdir newname (s.slots newdir))
          rw [← hsame] at hdone
          exact hdone
        · rw [if_neg hcode] at hr
          obtain ⟨x, -, rfl⟩ := map_eq_some_iff.mp hr
          exact absurd rfl hne
  | false =>
      rw [hdir, Bool.false_and, if_neg Bool.false_ne_true] at hr
      dsimp only at hr
      rw [if_neg Bool.false_ne_true, h.addcheck] at hr
      rw [Bool.not_false, Bool.true_and]
      by_cases hcode : d.addcode newdir newname (s.slots newdir) ≠ 0
      · rw [if_pos hcode] at hr
        cases hr
        rw [bne_iff_ne.mpr hcode, Bool.true_and]
        by_cases hzero : (s.inode newdir).nlink = 0
        · rw [hzero, if_neg (by decide)]
          intro hne
          have hsame : t.upd newdir Inode.decnlink = t := by
            apply upd_eq
            unfold Inode.decnlink
            rw [show (t.inode newdir).nlink - 1 = (t.inode newdir).nlink by
              rw [h.nlink, hzero]]
          rw [hsame]
          exact hback _
        · rw [if_pos (bne_iff_ne.mpr hzero)]
          refine ⟨hcode, ?_⟩
          have hlink : (((t.upd newdir Inode.decnlink).error
              (d.addcode newdir newname (s.slots newdir)) (some oldb) none oldi).2.inode
                newdir).nlink = (t.inode newdir).nlink - 1 := by
            refine (nlink_lose _ oldi newdir).trans ?_
            exact congrArg Inode.nlink Filesys.upd_inode_self
          rw [hlink, h.nlink]
          omega
      · rw [if_neg hcode] at hr
        obtain ⟨x, -, rfl⟩ := map_eq_some_iff.mp hr
        rw [not_not.mp hcode, if_neg (by simp)]
        exact fun hne => absurd rfl hne

theorem Out.renameFound
    (h : Out s t [oldi] [oldb]) (hl : s.Linked) (hheld : (s.inode newdir).refcnt ≠ 0)
    (hsafe : s.Safe oldi) (hr : t.renameFound d olddir k oldb newdir newname oldi = some r) :
    (r.1 ≠ 0 → Asbefore s r.2) ↔ s.astrayFound d newdir newname oldi = false := by
  unfold astrayFound
  obtain ⟨⟨child, u⟩, hclimb, hr⟩ := bind_eq_some_iff.mp hr
  dsimp only at hr
  -- the walk up leaves what is held as it was
  have hwalk : ((s.inode oldi).isdir && s.above d oldi (s.vol.fs.ninode + 1) newdir == some true) =
      child ∧ Out s u [oldi] [oldb] := by
    rw [h.isdir] at hclimb
    cases hdir : (s.inode oldi).isdir with
    | true =>
        obtain ⟨habove, hout⟩ := h.parentchild (d := d) hl hheld
        rw [hdir, if_pos rfl] at hclimb
        rw [hclimb] at habove
        rw [← habove]
        exact ⟨by cases child <;> rfl, hout _ hclimb⟩
    | false =>
        rw [hdir, if_neg Bool.false_ne_true] at hclimb
        cases hclimb
        exact ⟨rfl, h⟩
  obtain ⟨hchild, hout⟩ := hwalk
  rw [hchild]
  cases child with
  | true =>
      cases hr
      have hback := Out.error none hout hsafe mem_cons_self EINVAL
      rw [erase_cons_head] at hback
      exact iff_of_true (fun _ => hback.asbefore) rfl
  | false =>
      obtain ⟨hfind, hnew⟩ := hout.findde (d := d) newdir newname
      rw [hfind] at hr
      cases hplace : s.place d newdir newname with
      | some m =>
          rw [hplace] at hr hnew
          dsimp only [map_some] at hr ⊢
          have hover := Out.renameOver hnew hsafe (some.inj hr)
          split_ifs at hover with hlapse
          · rw [hlapse]
            exact iff_of_false (fun hsame => hover.2.not_asbefore (hsame hover.1)) (by decide)
          · rw [Bool.not_eq_true] at hlapse
            exact iff_of_true (fun hne => (hover hne).asbefore) hlapse
      | none =>
          rw [hplace] at hr hnew
          dsimp only [map_none] at hr ⊢
          have hover := Out.renameNew hnew hsafe hr
          split_ifs at hover with hlapse
          · rw [hlapse]
            exact iff_of_false (fun hsame => hover.2 ((hsame hover.1).nlink newdir)) (by decide)
          · rw [Bool.not_eq_true] at hlapse
            exact iff_of_true (fun hne => (hover hne).asbefore) hlapse

theorem rename2_iff {oldname : Name} (hl : s.Linked) (hheld : (s.inode newdir).refcnt ≠ 0)
    (hr : s.rename2 d olddir oldname newdir newname = some r) :
    (r.1 ≠ 0 → Asbefore s r.2) ↔ s.astray d olddir oldname newdir newname = false := by
  unfold Bufvol.rename2 at hr
  unfold astray
  by_cases hsame : olddir = newdir ∧ oldname = newname
  · rw [if_pos hsame] at hr
    cases hr
    exact iff_of_true (fun _ => Asbefore.refl s) (if_pos hsame)
  rw [if_neg hsame] at hr ⊢
  by_cases hold : oldname = [] ∨ oldname = dot ∨ oldname = dotdot
  · rw [if_pos hold] at hr
    cases hr
    exact iff_of_true (fun _ => Asbefore.refl s) (if_pos hold)
  rw [if_neg hold] at hr ⊢
  by_cases hnew : newname = [] ∨ newname = dot ∨ newname = dotdot
  · rw [if_pos hnew] at hr
    cases hr
    exact iff_of_true (fun _ => Asbefore.refl s) (if_pos hnew)
  rw [if_neg hnew] at hr ⊢
  obtain ⟨hfind, hout⟩ := (Out.refl s).findde (d := d) olddir oldname
  dsimp only at hr
  rw [hfind] at hr
  cases hplace : s.place d olddir oldname with
  | none =>
      rw [hplace] at hr hout
      cases hr
      exact iff_of_true (fun _ => hout.asbefore) rfl
  | some k =>
      rw [hplace] at hr hout
      dsimp only [map_some] at hr ⊢
      have hsafe := hl.safe hplace
      cases hload : s.loads d [] (s.ino olddir k) with
      | false =>
          obtain ⟨e, herr, -⟩ := hout.readi_error hload
          rw [herr] at hr
          cases hr
          have hback := hout.losebuf mem_cons_self
          rw [elim_some, erase_cons_head] at hback
          exact iff_of_true (fun _ => hback.asbefore) rfl
      | true =>
          obtain ⟨t, ht, hread⟩ := hout.readi_ok hload
          rw [ht] at hr
          exact hread.renameFound hl hheld hsafe hr

end Bufvol

/-! ## Several devices -/

/-- All mounted file systems, and the reference counts of all buffers. -/
structure Bufworld where
  world : World
  pins : Nat → Nat → Nat

namespace Bufworld

def bufvol (w : Bufworld) (dev : Nat) : Bufvol := ⟨w.world.vol dev, w.pins dev⟩

def setBufvol (w : Bufworld) (dev : Nat) (s : Bufvol) : Bufworld where
  world := w.world.setVol dev s.vol
  pins := Function.update w.pins dev s.pins

def rename2 (w : Bufworld) (c : Cred) (d : Nat → Dirdisk) (dev olddir : Nat) (oldname : Name)
    (ndev newdir : Nat) (newname : Name) : Option (Int × Bufworld) :=
  let oldi := w.world.inode dev olddir
  let newi := w.world.inode ndev newdir
  if oldi.mounted || newi.mounted then none
  else if !oldi.isdir || !newi.isdir then some (ENOTDIR, w)
  else if oldi.deny c (IR ||| IW ||| IX) ≠ 0 ∨ newi.deny c (IR ||| IW ||| IX) ≠ 0 then
    some (EACCES, w)
  else if dev ≠ ndev then some (EXDEV, w)
  else
    ((w.bufvol dev).rename2 (d dev) olddir oldname newdir newname).map fun (e, s) =>
      (e, w.setBufvol dev s)

/-- The call comes to where it does not undo what it has done. -/
def astray (w : Bufworld) (c : Cred) (d : Nat → Dirdisk) (dev olddir : Nat) (oldname : Name)
    (ndev newdir : Nat) (newname : Name) : Bool :=
  let oldi := w.world.inode dev olddir
  let newi := w.world.inode ndev newdir
  oldi.isdir && newi.isdir && oldi.deny c (IR ||| IW ||| IX) == 0 &&
    newi.deny c (IR ||| IW ||| IX) == 0 && dev == ndev &&
      (w.bufvol dev).astray (d dev) olddir oldname newdir newname

/-- The entries, link counts and reference counts of all devices are as before. -/
def Asbefore (w w' : Bufworld) : Prop := ∀ dev, (w.bufvol dev).Asbefore (w'.bufvol dev)

variable {w w' : Bufworld} {c : Cred} {d : Nat → Dirdisk} {dev olddir ndev newdir : Nat}
  {oldname newname : Name} {e : Int} {s : Bufvol}

theorem asbefore_setBufvol : w.Asbefore (w.setBufvol dev s) ↔ (w.bufvol dev).Asbefore s := by
  have hself : (w.setBufvol dev s).bufvol dev = s := by
    unfold bufvol setBufvol World.vol World.setVol
    dsimp only
    rw [if_pos rfl, Function.update_self]
  constructor
  · intro h
    rw [← hself]
    exact h dev
  · intro h dev'
    by_cases hdev : dev' = dev
    · rw [hdev, hself]
      exact h
    · have hfs : ((w.setBufvol dev s).bufvol dev').vol.fs = (w.bufvol dev').vol.fs := if_neg hdev
      have hpins : ((w.setBufvol dev s).bufvol dev').pins = (w.bufvol dev').pins :=
        Function.update_of_ne hdev _ _
      refine ⟨fun dir => ?_, fun i => ?_, fun i => ?_, fun b => ?_⟩
      · unfold Bufvol.live Bufvol.slots
        rw [hfs]
      · unfold Bufvol.inode
        rw [hfs]
      · unfold Bufvol.inode
        rw [hfs]
      · rw [hpins]

/-- A root with a file `a` and an empty directory `b`, on every device. -/
def smallfs : Filesys where
  ninode := 16
  nimap := 16
  imap i := decide (i ≤ 3)
  inode i :=
    { mode := if i = 2 then 0x81FF else 0x41FF
      nlink := if i = 1 then 3 else if i = 2 then 1 else 2
      uid := 0
      gid := 0
      size := 0
      rdev := 0
      slots :=
        if i = 1 then [⟨1, dot⟩, ⟨1, dotdot⟩, ⟨2, [0x61]⟩, ⟨3, [0x62]⟩]
        else if i = 3 then [⟨3, dot⟩, ⟨1, dotdot⟩] else []
      zones := if i = 2 then 0 else 1
      refcnt := if i = 1 then 1 else 0
      cached := decide (i = 1)
      mounted := false }
  zfree := 64

def small : Bufworld := ⟨⟨fun _ => smallfs, 8⟩, fun _ _ => 0⟩

/-- Everything can be read. -/
def readable : Dirdisk where
  block dir _ := dir
  itab _ := 100
  bad _ := false
  lost _ := false
  ragged _ := false

def root : Cred := ⟨0, 0, 0, 0, 0⟩

theorem small_linked (dev : Nat) : (small.bufvol dev).Linked := by
  intro dir de _ _
  show (if de.ino = 1 then 3 else if de.ino = 2 then 1 else 2) ≠ 0
  split_ifs <;> decide

end Bufworld

end Unixlite.Fs
