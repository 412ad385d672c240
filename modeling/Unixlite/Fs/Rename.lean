import Unixlite.Fs.Links

/-!
# `rename2` and the tree

`rename2` keeps the tree well formed as long as a directory stays in its
directory, a file that is replaced had one link, and `addde` does not turn the
name down (`rename2_wf`).  The `..` entry of a directory is never rewritten,
`newi->nlink` becomes 0 whatever it was, and after a failed `addde` the new
directory loses a link it was given for directories only.
-/

namespace Unixlite.Fs.Vol

open Filesys Option

variable {v v' : Vol} {i j p k m olddir newdir oldi : Nat} {oldname newname : Name} {e : Int}

/-! ## Walking up -/

theorem tree_lose_dir (hwf : v.fs.WF) (hd : i ∈ v.fs.tree.dirs) :
    (v.lose i).fs.tree = v.fs.tree := by
  have hpos := hwf.tree.nlink_pos hd
  apply tree_lose_keep
  rintro ⟨-, -, hzero⟩
  exact hpos.ne' hzero

/-- `climb` only takes back the hold on its directory. -/
theorem climb_spec {fuel c : Nat} {b : Bool} (hwf : v.fs.WF) (hc : c ∈ v.fs.tree.dirs)
    (hhold : (v.fs.inode c).refcnt ≠ 0) (h : climb p fuel c v = some (b, v')) :
    v'.fs.tree = v.fs.tree ∧ v'.fs.Held ∧
      ∀ j, (v'.fs.inode j).refcnt = (v.fs.inode j).refcnt - if j = c then 1 else 0 := by
  induction fuel generalizing v c with
  | zero => cases h
  | succ fuel ih =>
      have hlose : (v.lose c).fs.tree = v.fs.tree ∧ (v.lose c).fs.Held ∧
          ∀ j, ((v.lose c).fs.inode j).refcnt =
            (v.fs.inode j).refcnt - if j = c then 1 else 0 :=
        ⟨tree_lose_dir hwf hc, held_lose hwf.held, refcnt_lose v c⟩
      rw [climb] at h
      split at h
      · cases h
        exact hlose
      split at h
      · cases h
        exact hlose
      split at h
      · cases h
        exact hlose
      next sub w hlook =>
      simp only [lookup2, hwf.findde_dotdot hc, hwf.de_one hc] at hlook
      -- the directory above, held
      obtain ⟨u, hu, hsub⟩ : ∃ u, v.readi (v.fs.tree.up c) = .ok u ∧
          (v.fs.tree.up c, u) = (sub, w) := by
        cases hr : v.readi (v.fs.tree.up c) with
        | error err =>
            rw [hr] at hlook
            cases hlook
        | ok u =>
            rw [hr] at hlook
            exact ⟨u, rfl, Except.ok.inj hlook⟩
      cases hsub
      have hup := hwf.tree.tree.up_mem c hc
      have htree := tree_readi hu
      have hwfu := wf_readi hwf hup.1 hu
      have htree' : (w.lose c).fs.tree = v.fs.tree := by
        rw [tree_lose_dir hwfu (htree ▸ hc), htree]
      have hrefcnt : ∀ j, ((w.lose c).fs.inode j).refcnt =
          (v.fs.inode j).refcnt + (if j = v.fs.tree.up c then 1 else 0) -
            if j = c then 1 else 0 := by
        intro j
        rw [refcnt_lose, refcnt_readi hu]
      have hnext := ih (v := w.lose c) (c := v.fs.tree.up c) (wf_lose hwfu) (htree' ▸ hup) (by
        rw [hrefcnt, if_pos rfl]
        split
        · next heq =>
            rw [heq]
            omega
        · omega) h
      refine ⟨hnext.1.trans htree', hnext.2.1, fun j => ?_⟩
      rw [hnext.2.2 j, hrefcnt j]
      by_cases hjc : j = c
      · subst hjc
        split
        · omega
        · omega
      · rw [if_neg hjc]
        split
        · omega
        · omega

theorem parentchild_spec {c : Nat} {b : Bool} (hwf : v.fs.WF) (hc : c ∈ v.fs.tree.dirs)
    (h : v.parentchild p c = some (b, v')) :
    v'.fs.tree = v.fs.tree ∧ v'.fs.Held ∧
      ∀ j, (v'.fs.inode j).refcnt = (v.fs.inode j).refcnt := by
  have htree : (v.hold c).fs.tree = v.fs.tree := by
    exact tree_upd rfl rfl rfl
  have hheld : (v.hold c).fs.Held := by
    rw [hold, upd_fs]
    exact hwf.held.upd (fun _ => hc.1) fun hcached => hwf.held.cached c hcached
  have hrefcnt : ∀ j, ((v.hold c).fs.inode j).refcnt =
      (v.fs.inode j).refcnt + if j = c then 1 else 0 := by
    intro j
    rw [hold, upd_fs, upd_inode]
    split
    · rfl
    · rfl
  have hspec := climb_spec ⟨htree ▸ hwf.tree, hheld⟩ (htree ▸ hc) (by
    rw [hrefcnt, if_pos rfl]
    omega) h
  refine ⟨hspec.1.trans htree, hspec.2.1, fun j => ?_⟩
  rw [hspec.2.2, hrefcnt, Nat.add_sub_cancel]

/-! ## Moving the entry -/

/-- The tree when the entry has been moved. -/
def movedTree (v : Vol) (olddir k newdir m : Nat) (newname : Name) (oldi : Nat) : Tree :=
  ((if (v.fs.inode oldi).isdir then
      v.fs.tree.setNlink olddir (v.fs.tree.nlink olddir - 1) else v.fs.tree).setSlot
    olddir k De.free).setSlot newdir m ⟨(v.fs.de olddir k).ino, newname⟩

theorem movede_wf (hheld : v.fs.Held) (hwf : (v.movedTree olddir k newdir m newname oldi).WF) :
    (v.movede olddir k newdir m newname oldi).fs.WF := by
  rw [movedTree] at hwf
  apply wf_lose
  by_cases hisdir : (v.fs.inode oldi).isdir = true
  · rw [if_pos hisdir] at hwf
    have hdec : (v.upd olddir Inode.decnlink).fs.Held := hheld.upd_of_eq rfl rfl
    have hde : (v.upd olddir Inode.decnlink).fs.de olddir k = v.fs.de olddir k := by
      rw [de, de, slots, upd_fs, upd_inode_self]
      rfl
    simp only [if_pos hisdir]
    refine ⟨?_, (hdec.setde (p := olddir) (k := k)).setde⟩
    rw [tree_setde, tree_setde, upd_fs, tree_decnlink, ← upd_fs, hde]
    exact hwf
  · rw [if_neg hisdir] at hwf
    simp only [if_neg hisdir]
    refine ⟨?_, (hheld.setde (p := olddir) (k := k)).setde⟩
    rw [tree_setde, tree_setde]
    exact hwf

theorem de_of_slots {fs fs' : Filesys} (h : fs'.tree.slots p = fs.tree.slots p) :
    fs'.de p k = fs.de p k := by
  have h : fs'.slots p = fs.slots p := h
  rw [de, de, h]

theorem isdir_of_dir {fs fs' : Filesys} (h : fs'.tree.dir i ↔ fs.tree.dir i) :
    (fs'.inode i).isdir = (fs.inode i).isdir := by
  rw [Bool.eq_iff_iff]
  exact h

/-- Two names, or the same name in two directories, are in two slots. -/
theorem slot_ne (hk : v.fs.findde olddir oldname = some k)
    (hm : v.fs.findde newdir newname = some m)
    (hdiff : ¬ (olddir = newdir ∧ oldname = newname)) : ¬ (olddir = newdir ∧ k = m) := by
  rintro ⟨rfl, rfl⟩
  exact hdiff ⟨rfl, (findde_eq_some hk).2.2.symm.trans (findde_eq_some hm).2.2⟩

/-- A directory replaces an empty one in the same directory. -/
theorem replaceDir_wf {ni : Nat} (hwf : v.fs.WF) (hk : v.fs.tree.At p k oldi)
    (hm : v.fs.tree.At p m ni) (hkm : k ≠ m) (hdir : oldi ∈ v.fs.tree.dirs)
    (hndir : ni ∈ v.fs.tree.dirs) (hempty : v.fs.tree.Empty ni)
    (hbusy : (v.fs.inode ni).refcnt ≤ 1) (hcached : (v.fs.inode ni).cached = true)
    (hname : newname ≠ dot ∧ newname ≠ dotdot) :
    (((v.upd ni fun i => { i with nlink := 0 }).lose ni).movede p k p m newname oldi).fs.WF := by
  generalize hx : (v.upd ni fun i => { i with nlink := 0 }).lose ni = x
  have hlast : (v.upd ni fun i => { i with nlink := 0 }).Last ni := by
    rw [Last, upd_fs, upd_inode_self]
    exact ⟨hbusy, hcached, rfl⟩
  have hxtree : x.fs.tree = (v.fs.tree.setNlink ni 0).release ni := by
    rw [← hx, tree_lose_free hlast, upd_fs, tree_upd_nlink]
    left
    rw [upd_fs, upd_inode_self]
    exact hndir.2
  have hxheld : x.fs.Held := by
    rw [← hx]
    apply held_lose
    rw [upd_fs]
    exact hwf.held.upd_of_eq rfl rfl
  have hpn := hwf.tree.parent_ne hndir hm
  have hde : x.fs.de p k = v.fs.de p k := by
    apply de_of_slots
    rw [hxtree]
    exact if_neg hpn
  have hisdir : (x.fs.inode oldi).isdir = (v.fs.inode oldi).isdir := by
    apply isdir_of_dir
    rw [hxtree]
    exact Iff.rfl
  -- the target goes, then the entry moves into its slot
  have herase := hwf.tree.eraseDir (e := De.free) hndir hm hempty rfl
  have hne : oldi ≠ ni := by
    rintro rfl
    obtain ⟨-, -, huniq⟩ := hwf.tree.unique oldi hndir p k hk
    exact hkm (huniq m hm).symm
  obtain ⟨hk2, old, hold, hoi⟩ := hk
  have hat : (v.fs.tree.eraseDir p m De.free ni).At p k oldi := by
    refine ⟨hk2, old, ?_, hoi⟩
    show (if p = ni then [] else if p = p then (v.fs.tree.slots p).set m De.free
      else v.fs.tree.slots p)[k]? = some old
    rw [if_neg hpn, if_pos rfl, List.getElem?_set_ne hkm.symm, hold]
  obtain ⟨-, nde, hnde, -⟩ := hm
  have hfree : ((v.fs.tree.eraseDir p m De.free ni).slots p)[m]? = some De.free := by
    show (if p = ni then [] else if p = p then (v.fs.tree.slots p).set m De.free
      else v.fs.tree.slots p)[m]? = some De.free
    rw [if_neg hpn, if_pos rfl, List.getElem?_set_self (List.getElem?_eq_some_iff.mp hnde).1]
  have hmove := herase.moveDir (e := De.free) ⟨⟨hdir.1, hne⟩, hdir.2⟩ hat hfree rfl rfl hname
  have holdino : (v.fs.de p k).ino = oldi := by
    show ((v.fs.tree.slots p)[k]?.getD _).ino = oldi
    rw [hold]
    exact hoi
  have hdirmode : (v.fs.inode oldi).isdir = true := hdir.2
  apply movede_wf hxheld
  rw [movedTree, hisdir, if_pos hdirmode, hxtree, hde, holdino]
  rw [← Tree.eraseDir_eq, ← Tree.setSlot_release hpn,
    Tree.setSlot_overwrite _ _ _ _ fun h => hkm h.2, Tree.setNlink_comm _ hpn] at hmove
  have hnlink : ((v.fs.tree.setNlink ni 0).release ni).nlink p = v.fs.tree.nlink p := if_neg hpn
  rw [hnlink]
  exact hmove

/-- A file replaces a file with one link. -/
theorem replaceFile_wf {ni : Nat} {nde : De} (hwf : v.fs.WF)
    (hk : (v.fs.tree.slots olddir)[k]? = some (v.fs.de olddir k))
    (hm : (v.fs.tree.slots newdir)[m]? = some nde) (hino : nde.ino = ni)
    (hkm : ¬ (olddir = newdir ∧ k = m)) (ho : (v.fs.de olddir k).ino = oldi)
    (hoalloc : v.fs.Alloc oldi) (hnalloc : v.fs.Alloc ni)
    (hfile : (v.fs.inode oldi).isdir = false) (hnfile : (v.fs.inode ni).isdir = false)
    (hnlink : (v.fs.inode ni).nlink = 1) (hname : newname ≠ dot ∧ newname ≠ dotdot) :
    (((v.upd ni fun i => { i with nlink := 0 }).lose ni).movede olddir k newdir m newname
      oldi).fs.WF := by
  have hnotdir : ¬ v.fs.tree.dir ni := by rw [tree_dir, hnfile]; exact Bool.false_ne_true
  have honotdir : ¬ v.fs.tree.dir oldi := by rw [tree_dir, hfile]; exact Bool.false_ne_true
  have hndir : newdir ≠ ni := fun hd => hnotdir (hd ▸ (hwf.tree.mem_dirs_of_slot hm).2)
  have hnil : (v.fs.inode ni).slots = [] := by
    by_contra hne
    exact hnotdir (hwf.tree.slots_dir ni hne).2
  generalize hx : (v.upd ni fun i => { i with nlink := 0 }).lose ni = x
  have hxheld : x.fs.Held := by
    rw [← hx]
    apply held_lose
    rw [upd_fs]
    exact hwf.held.upd_of_eq rfl rfl
  -- the target's entry goes, and the target if nobody holds it
  have hunlink := hwf.tree.unlink (e := De.free) hm (hino ▸ hnotdir) rfl
  have hzero : v.fs.tree.nlink ni - 1 = 0 := by rw [tree_nlink, hnlink]
  rw [hino, hzero] at hunlink
  have hxtree : ∃ t', t'.WF ∧ t' = x.fs.tree.setSlot newdir m De.free ∧
      x.fs.tree.slots = v.fs.tree.slots ∧ (∀ j, x.fs.tree.dir j ↔ v.fs.tree.dir j) ∧
      (∀ j, t'.dir j ↔ v.fs.tree.dir j) ∧ (∀ j, v.fs.Alloc j → j ≠ ni → t'.alloc j) := by
    by_cases hlast : (v.upd ni fun i => { i with nlink := 0 }).Last ni
    · have htree : x.fs.tree = (v.fs.tree.setNlink ni 0).release ni := by
        rw [← hx, tree_lose_free hlast, upd_fs, tree_upd_nlink]
        right
        rw [upd_fs, upd_inode_self]
        exact hnil
      refine ⟨_, hunlink.release hnalloc (if_pos rfl), ?_, ?_, fun j => ?_, fun j => Iff.rfl,
        fun j hj hne => ⟨hj, hne⟩⟩
      · rw [htree, Tree.setSlot_release hndir]
        rfl
      · rw [htree]
        funext d
        show (if d = ni then [] else v.fs.tree.slots d) = v.fs.tree.slots d
        split
        · next hd =>
            rw [hd]
            exact hnil.symm
        · rfl
      · rw [htree]
        exact Iff.rfl
    · have htree : x.fs.tree = v.fs.tree.setNlink ni 0 := by
        rw [← hx, tree_lose_keep hlast, upd_fs, tree_upd_nlink]
      refine ⟨_, hunlink, ?_, ?_, fun j => ?_, fun j => Iff.rfl, fun j hj _ => hj⟩
      · rw [htree]
        rfl
      · rw [htree]
        rfl
      · rw [htree]
        exact Iff.rfl
  obtain ⟨t', hwf', ht', hslots, hxdir, hdir', halloc'⟩ := hxtree
  have hde : x.fs.de olddir k = v.fs.de olddir k := de_of_slots (congrFun hslots olddir)
  have hisdir : (x.fs.inode oldi).isdir = (v.fs.inode oldi).isdir := isdir_of_dir (hxdir oldi)
  have hne : oldi ≠ ni := by
    -- two entries, one link
    rintro rfl
    have hrefs := hunlink.nlink_eq oldi hoalloc
    have hk' : (((v.fs.tree.setSlot newdir m De.free).setNlink oldi 0).slots olddir)[k]? =
        some (v.fs.de olddir k) := by
      rw [Tree.setNlink_slots, Tree.setSlot_slots]
      split
      · next hd =>
          subst hd
          rw [List.getElem?_set_ne fun h => hkm ⟨rfl, h.symm⟩]
          exact hk
      · exact hk
    have hpos := Tree.refs_pos (hunlink.lt_bound_of_slot hk') (List.mem_of_getElem? hk')
    rw [ho, ← hrefs, Tree.setNlink_nlink, if_pos rfl] at hpos
    exact Nat.lt_irrefl 0 hpos
  have hk' : (t'.slots olddir)[k]? = some (v.fs.de olddir k) := by
    rw [ht', Tree.setSlot_slots, hslots]
    split
    · next hd =>
        subst hd
        rw [List.getElem?_set_ne fun h => hkm ⟨rfl, h.symm⟩]
        exact hk
    · exact hk
  have hm' : (t'.slots newdir)[m]? = some De.free := by
    rw [ht', Tree.setSlot_slots, hslots, if_pos rfl]
    exact List.getElem?_set_self (List.getElem?_eq_some_iff.mp hm).1
  have hmove := hwf'.moveFile (e := De.free) hk'
    (by rw [ho]; exact halloc' oldi hoalloc hne) (by rw [ho, hdir']; exact honotdir) hm' rfl rfl
    hname
  rw [ht', Tree.setSlot_overwrite _ _ _ _ hkm] at hmove
  apply movede_wf hxheld
  rw [movedTree, hisdir, hfile, hde]
  exact hmove

/-! ## `rename2` -/

/-- The new name exists. -/
theorem renameOver_wf (hwf : v.fs.WF) (hk : v.fs.findde olddir oldname = some k)
    (ho : (v.fs.de olddir k).ino = oldi) (hm : v.fs.findde newdir newname = some m)
    (honame : oldname ≠ dot ∧ oldname ≠ dotdot) (hname : newname ≠ dot ∧ newname ≠ dotdot)
    (hdiff : ¬ (olddir = newdir ∧ oldname = newname))
    (hfine : ∀ w, v.readi (v.fs.de newdir m).ino = .ok w →
      (v.fs.inode oldi).isdir = (v.fs.inode (v.fs.de newdir m).ino).isdir →
      ((v.fs.inode (v.fs.de newdir m).ino).isdir = true →
        v.fs.emptydir (v.fs.de newdir m).ino = true ∧
          (v.fs.inode (v.fs.de newdir m).ino).refcnt = 0) →
      ((v.fs.inode oldi).isdir = true → olddir = newdir) ∧
        ((v.fs.inode oldi).isdir = false → (v.fs.inode (v.fs.de newdir m).ino).nlink = 1)) :
    (v.renameOver olddir k newdir m newname oldi).2.fs.WF := by
  unfold renameOver
  dsimp only
  split
  · exact wf_lose hwf
  next w hw =>
  generalize hni : (v.fs.de newdir m).ino = ni at *
  have ha : v.fs.Alloc ni := hni ▸ hwf.alloc_of_findde hm
  have hwf' := wf_readi hwf ha hw
  have htree := tree_readi hw
  have hkm := slot_ne hk hm hdiff
  have hk' : w.fs.findde olddir oldname = some k := by rw [findde_of_tree htree, hk]
  have hm' : w.fs.findde newdir newname = some m := by rw [findde_of_tree htree, hm]
  have ho' : (w.fs.de olddir k).ino = oldi := by rw [de_of_tree htree, ho]
  have hni' : (w.fs.de newdir m).ino = ni := by rw [de_of_tree htree, hni]
  split
  · exact wf_lose hwf'
  next htype =>
  split
  · exact wf_lose hwf'
  next hempty =>
  split
  · exact wf_lose hwf'
  next hbusy =>
  have htype : (w.fs.inode oldi).isdir = (w.fs.inode ni).isdir := by simpa using htype
  obtain ⟨hold, -, -⟩ := findde_eq_some hk'
  obtain ⟨hnew, -, -⟩ := findde_eq_some hm'
  have hoalloc : w.fs.Alloc oldi := ho' ▸ hwf'.alloc_of_findde hk'
  have hnalloc : w.fs.Alloc ni := hni' ▸ hwf'.alloc_of_findde hm'
  have hrefcnt : (w.fs.inode ni).refcnt = (v.fs.inode ni).refcnt + 1 := by
    rw [refcnt_readi hw, if_pos rfl]
  obtain ⟨hdirs, hfiles⟩ := hfine w hw
    (by rw [← isdir_of_tree htree, htype, isdir_of_tree htree])
    (by
      intro hisdir
      rw [← isdir_of_tree htree] at hisdir
      rw [hisdir] at hempty hbusy
      rw [← emptydir_of_tree htree]
      have hle : ¬ 1 < (w.fs.inode ni).refcnt := by simpa using hbusy
      exact ⟨by simpa using hempty, by omega⟩)
  cases hisdir : (w.fs.inode oldi).isdir with
  | true =>
      obtain rfl := hdirs (by rw [← isdir_of_tree htree, hisdir])
      have hndir : (w.fs.inode ni).isdir = true := htype ▸ hisdir
      rw [hndir] at hempty hbusy
      have hkm' : k ≠ m := fun h => hkm ⟨rfl, h⟩
      exact replaceDir_wf hwf' ⟨hwf'.two_le_of_findde hk' honame.1 honame.2, _, hold, ho'⟩
        ⟨hwf'.two_le_of_findde hm' hname.1 hname.2, _, hnew, hni'⟩ hkm' ⟨hoalloc, hisdir⟩
        ⟨hnalloc, hndir⟩ (emptydir_iff.mp (by simpa using hempty)) (by simpa using hbusy)
        (cached_readi hw) hname
  | false =>
      have hnlink := hfiles (by rw [← isdir_of_tree htree, hisdir])
      rw [← nlink_of_tree htree] at hnlink
      exact replaceFile_wf hwf' hold hnew hni' hkm ho' hoalloc hnalloc hisdir
        (htype ▸ hisdir) hnlink hname

/-- The new name does not exist. -/
theorem renameNew_wf (hwf : v.fs.WF) (hk : v.fs.findde olddir oldname = some k)
    (ho : (v.fs.de olddir k).ino = oldi) (hm : v.fs.findde newdir newname = none)
    (honame : oldname ≠ dot ∧ oldname ≠ dotdot) (hname : newname ≠ [])
    (hnewdir : newdir ∈ v.fs.tree.dirs)
    (hdir : (v.fs.inode oldi).isdir = true → (v.fs.inode newdir).nlink < LINKMAX →
      newname.length ≤ MINIXNAMELEN → olddir = newdir)
    (hfile : (v.fs.inode oldi).isdir = false → e = 0 ∨ newname.length ≤ MINIXNAMELEN)
    (h : v.renameNew olddir k newdir newname oldi = some (e, v')) : v'.fs.WF := by
  have hname' := name_of_findde hwf hnewdir hm
  obtain ⟨hold, -, -⟩ := findde_eq_some hk
  have hoalloc : v.fs.Alloc oldi := ho ▸ hwf.alloc_of_findde hk
  unfold renameNew at h
  split at h
  · cases h
    exact wf_lose hwf
  next hlink =>
  cases hisdir : (v.fs.inode oldi).isdir with
  | true =>
      rw [hisdir] at hlink
      have hlink : (v.fs.inode newdir).nlink < LINKMAX := by simpa using hlink
      simp only [hisdir, if_true] at h
      generalize hv1 : (v.upd newdir fun i => { i with nlink := i.nlink + 1 }) = v1 at h
      have htree1 : v1.fs.tree = v.fs.tree.setNlink newdir (v.fs.tree.nlink newdir + 1) := by
        rw [← hv1, upd_fs, tree_incnlink]
      have hheld1 : v1.fs.Held := by
        rw [← hv1, upd_fs]
        exact hwf.held.upd_of_eq rfl rfl
      have hback : (v.fs.tree.setNlink newdir (v.fs.tree.nlink newdir + 1)).setNlink newdir
          ((v.fs.tree.setNlink newdir (v.fs.tree.nlink newdir + 1)).nlink newdir - 1) =
          v.fs.tree := by
        rw [Tree.setNlink_nlink, if_pos rfl, Nat.add_sub_cancel]
        exact Tree.setNlink_back _ _ _
      split at h
      · cases h
        apply wf_lose
        refine ⟨?_, hheld1.upd_of_eq rfl rfl⟩
        rw [upd_fs, tree_decnlink, htree1, hback]
        exact hwf.tree
      next hcheck =>
      obtain ⟨hlen, -⟩ := addcheck_eq_zero (not_not.mp hcheck)
      obtain rfl := hdir hisdir hlink hlen
      simp only [map_eq_some_iff] at h
      obtain ⟨⟨m, w⟩, hw, h⟩ := h
      cases h
      obtain ⟨l, hl, htree, hheld⟩ := freede_tree hw
      obtain ⟨free, hfree, hfree0⟩ := freede_free hw
      have hslots : v1.fs.slots olddir = v.fs.tree.slots olddir := by
        show v1.fs.tree.slots olddir = _
        rw [htree1]
        rfl
      rw [hslots] at hl
      have hroom := hwf.tree.room hnewdir hl
      have hat : (v.fs.tree.setSlots olddir l).At olddir k oldi := by
        refine ⟨hwf.two_le_of_findde hk honame.1 honame.2, v.fs.de olddir k, ?_, ho⟩
        rw [Tree.setSlots_slots, if_pos rfl]
        rcases hl with rfl | rfl
        · exact hold
        · exact (List.getElem?_append_left (List.getElem?_eq_some_iff.mp hold).1).trans hold
      have hwslots : w.fs.tree.slots olddir = (v.fs.tree.setSlots olddir l).slots olddir := by
        rw [htree, htree1]
        rfl
      have hmove := hroom.moveDir (e := De.free) ⟨hoalloc, hisdir⟩ hat
        (hwslots ▸ hfree) hfree0 rfl hname'
      have hwdir : (w.fs.inode oldi).isdir = true := by
        rw [← hisdir]
        apply isdir_of_dir
        rw [htree, htree1]
        exact Iff.rfl
      have hde : (w.fs.de olddir k).ino = oldi := by
        obtain ⟨-, old, hwold, hwo⟩ := hat
        show ((w.fs.tree.slots olddir)[k]?.getD _).ino = oldi
        rw [hwslots, hwold]
        exact hwo
      apply movede_wf (hheld hheld1)
      rw [movedTree, if_pos hwdir, hde, htree, htree1]
      have hback' : ((v.fs.tree.setNlink olddir (v.fs.tree.nlink olddir + 1)).setSlots olddir
          l).setNlink olddir (((v.fs.tree.setNlink olddir
            (v.fs.tree.nlink olddir + 1)).setSlots olddir l).nlink olddir - 1) =
          v.fs.tree.setSlots olddir l := by
        exact congrArg (fun t => t.setSlots olddir l) hback
      rw [hback']
      exact hmove
  | false =>
      simp only [hisdir, Bool.false_eq_true, if_false] at h
      split at h
      · next hcheck =>
          -- only a name that is too long is turned down here
          exfalso
          have hlong : ¬ newname.length ≤ MINIXNAMELEN := by
            intro hlen
            apply hcheck
            rw [addcheck, if_neg (Nat.not_lt.mpr hlen), if_neg hname, hm]
            rfl
          cases h
          exact (hfile hisdir).elim hcheck hlong
      · simp only [map_eq_some_iff] at h
        obtain ⟨⟨m, w⟩, hw, h⟩ := h
        cases h
        have hwfw := freede_wf hw hwf hnewdir
        obtain ⟨free, hfree, hfree0⟩ := freede_free hw
        obtain ⟨hwdir, -, -, hwalloc⟩ := freede_inode hw oldi
        have hwold := freede_slot hw hold
        have hde : w.fs.de olddir k = v.fs.de olddir k := by
          show (w.fs.tree.slots olddir)[k]?.getD _ = _
          rw [hwold]
          rfl
        have hnotdir : ¬ w.fs.tree.dir (v.fs.de olddir k).ino := by
          rw [ho, tree_dir, hwdir, hisdir]
          exact Bool.false_ne_true
        have hmove := hwfw.tree.moveFile (e := De.free) hwold
          (by rw [ho]; exact hwalloc.mpr hoalloc) hnotdir hfree hfree0 rfl hname'
        apply movede_wf hwfw.held
        rw [movedTree, hwdir, hisdir, hde]
        exact hmove

/-- `rename2` passes its checks up to `addde`; `oldi` is what the old name
stands for. -/
structure RenameGoes (v : Vol) (olddir : Nat) (oldname : Name) (newdir : Nat) (newname : Name)
    (oldi : Nat) : Prop where
  differ : ¬ (olddir = newdir ∧ oldname = newname)
  oldname_ok : ¬ (oldname = [] ∨ oldname = dot ∨ oldname = dotdot)
  newname_ok : ¬ (newname = [] ∨ newname = dot ∨ newname = dotdot)
  lookups : ∃ v1 v2, v.readi oldi = .ok v1 ∧
    (if (v.fs.inode oldi).isdir then v1.parentchild oldi newdir = some (false, v2) else v2 = v1) ∧
    match v.fs.findde newdir newname with
    | some m =>
        (∃ v3, v2.readi (v.fs.de newdir m).ino = .ok v3) ∧
          (v.fs.inode oldi).isdir = (v.fs.inode (v.fs.de newdir m).ino).isdir ∧
          ((v.fs.inode (v.fs.de newdir m).ino).isdir = true →
            v.fs.emptydir (v.fs.de newdir m).ino = true ∧
              (v.fs.inode (v.fs.de newdir m).ino).refcnt = 0)
    | none => (v.fs.inode oldi).isdir = true →
        (v.fs.inode newdir).nlink < LINKMAX ∧ newname.length ≤ MINIXNAMELEN

/-- A `rename2` that passes its checks keeps a directory where it is and replaces
no file with several links. -/
structure RenameKeeps (v : Vol) (olddir : Nat) (oldname : Name) (newdir : Nat) (newname : Name) :
    Prop where
  dir : ∀ k, v.fs.findde olddir oldname = some k →
    v.RenameGoes olddir oldname newdir newname (v.fs.de olddir k).ino →
    (v.fs.inode (v.fs.de olddir k).ino).isdir = true → olddir = newdir
  file : ∀ k m, v.fs.findde olddir oldname = some k → v.fs.findde newdir newname = some m →
    v.RenameGoes olddir oldname newdir newname (v.fs.de olddir k).ino →
    (v.fs.inode (v.fs.de olddir k).ino).isdir = false →
    (v.fs.inode (v.fs.de newdir m).ino).nlink = 1

/-- Nor does it try to give a file a name that is too long. -/
structure RenameFine (v : Vol) (olddir : Nat) (oldname : Name) (newdir : Nat) (newname : Name) :
    Prop extends RenameKeeps v olddir oldname newdir newname where
  short : ∀ k, v.fs.findde olddir oldname = some k → v.fs.findde newdir newname = none →
    v.RenameGoes olddir oldname newdir newname (v.fs.de olddir k).ino →
    (v.fs.inode (v.fs.de olddir k).ino).isdir = false → newname.length ≤ MINIXNAMELEN

theorem rename2_wf (hwf : v.fs.WF) (hnewdir : newdir ∈ v.fs.tree.dirs)
    (hkeeps : v.RenameKeeps olddir oldname newdir newname)
    (hfine : e = 0 ∨ v.RenameFine olddir oldname newdir newname)
    (h : v.rename2 olddir oldname newdir newname = some (e, v')) : v'.fs.WF := by
  unfold rename2 at h
  split at h
  · cases h
    exact hwf
  next hdiff =>
  split at h
  · cases h
    exact hwf
  next honame =>
  split at h
  · cases h
    exact hwf
  next hname =>
  have honame' := honame
  have hname' := hname
  simp only [not_or] at honame hname
  split at h
  · cases h
    exact hwf
  next k hk =>
  dsimp only at h
  have ha := hwf.alloc_of_findde hk
  have hdirs := hkeeps.dir k hk
  have hfiles := fun m => hkeeps.file k m hk
  have hshort : v.fs.findde newdir newname = none →
      v.RenameGoes olddir oldname newdir newname (v.fs.de olddir k).ino →
      (v.fs.inode (v.fs.de olddir k).ino).isdir = false →
      e = 0 ∨ newname.length ≤ MINIXNAMELEN :=
    fun hm hgo hisfile => hfine.imp_right fun hfine => hfine.short k hk hm hgo hisfile
  generalize hoi : (v.fs.de olddir k).ino = oldi at *
  split at h
  · cases h
    exact hwf
  next v1 hv1 =>
  have hwf1 := wf_readi hwf ha hv1
  have htree1 := tree_readi hv1
  obtain ⟨⟨child, v2⟩, hclimb, h⟩ := bind_eq_some_iff.mp h
  have hisdir1 : (v1.fs.inode oldi).isdir = (v.fs.inode oldi).isdir := isdir_of_tree htree1
  -- the state in which both names are looked up
  have hv2 : v2.fs.tree = v.fs.tree ∧ v2.fs.Held ∧
      (∀ j, (v2.fs.inode j).refcnt = (v1.fs.inode j).refcnt) ∧
      (child = false → if (v.fs.inode oldi).isdir then
        v1.parentchild oldi newdir = some (false, v2) else v2 = v1) := by
    rw [hisdir1] at hclimb
    split at hclimb
    · next hisdir =>
        have hspec := parentchild_spec hwf1 (htree1 ▸ hnewdir) hclimb
        refine ⟨hspec.1.trans htree1, hspec.2.1, hspec.2.2, ?_⟩
        rintro rfl
        rw [if_pos hisdir]
        exact hclimb
    · next hisdir =>
        cases hclimb
        exact ⟨htree1, hwf1.held, fun _ => rfl, fun _ => by rw [if_neg hisdir]⟩
  obtain ⟨htree2, hheld2, hrefcnt2, hchild⟩ := hv2
  have hwf2 : v2.fs.WF := ⟨htree2 ▸ hwf.tree, hheld2⟩
  split at h
  · cases h
    exact wf_lose hwf2
  next hnochild =>
  have hchild := hchild (by simpa using hnochild)
  have hk2 : v2.fs.findde olddir oldname = some k := by rw [findde_of_tree htree2, hk]
  have hoi2 : (v2.fs.de olddir k).ino = oldi := by rw [de_of_tree htree2, hoi]
  have hfind2 : v2.fs.findde newdir newname = v.fs.findde newdir newname :=
    findde_of_tree htree2 newname
  rw [hfind2] at h
  cases hm : v.fs.findde newdir newname with
  | some m =>
      rw [hm] at h
      have hov : v' = (v2.renameOver olddir k newdir m newname oldi).2 := by
        rw [some.inj h]
      rw [hov]
      refine renameOver_wf hwf2 hk2 hoi2 (hfind2.trans hm) honame.2 hname.2 hdiff ?_
      intro w hw htype hgoes
      rw [de_of_tree htree2] at hw htype hgoes ⊢
      rw [isdir_of_tree htree2, isdir_of_tree htree2] at htype
      rw [isdir_of_tree htree2, emptydir_of_tree htree2] at hgoes
      rw [isdir_of_tree htree2, nlink_of_tree htree2]
      have hgo : v.RenameGoes olddir oldname newdir newname oldi := by
        refine ⟨hdiff, honame', hname', v1, v2, hv1, hchild, ?_⟩
        rw [hm]
        refine ⟨⟨w, hw⟩, htype, fun hisdir => ⟨(hgoes hisdir).1, ?_⟩⟩
        have hzero := (hgoes hisdir).2
        rw [hrefcnt2, refcnt_readi hv1] at hzero
        omega
      exact ⟨hdirs hgo, hfiles m hm hgo⟩
  | none =>
      rw [hm] at h
      have hgo : ((v.fs.inode oldi).isdir = true → (v.fs.inode newdir).nlink < LINKMAX ∧
          newname.length ≤ MINIXNAMELEN) →
          v.RenameGoes olddir oldname newdir newname oldi := by
        intro hroom
        refine ⟨hdiff, honame', hname', v1, v2, hv1, hchild, ?_⟩
        rw [hm]
        exact hroom
      refine renameNew_wf hwf2 hk2 hoi2 (hfind2.trans hm) honame.2 hname.1 (htree2 ▸ hnewdir)
        ?_ ?_ h
      · intro hisdir hlink hlen
        rw [isdir_of_tree htree2] at hisdir
        rw [nlink_of_tree htree2] at hlink
        exact hdirs (hgo fun _ => ⟨hlink, hlen⟩) hisdir
      · intro hisfile
        rw [isdir_of_tree htree2] at hisfile
        exact hshort hm (hgo fun hisdir => by rw [hisfile] at hisdir; cases hisdir) hisfile

end Unixlite.Fs.Vol
