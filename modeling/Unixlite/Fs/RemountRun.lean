import Unixlite.Fs.RemountInv
import Unixlite.Verified.Run

/-!
# The inode cache across mounts: the runs

`readfs`, `domount` and `doumount` over the rules of the slots, and from them the runs: of
what `readi` promises only the device can fail, and only where a slot is found that an
earlier `fs_t` has left behind (`remount_safe_iff`).
-/

namespace Unixlite.Fs.Remount

open Verified.Run
open Icache (Key Istate Dinode Slot Cache)
open List
open Option (bind_eq_some_iff bind_some map_eq_some_iff ne_none_iff_exists' some)
open Bool (not_eq_false not_eq_true' or_eq_true)

namespace Sys

variable {s t u : Sys} {x y : Option Nat} {i : Nat} {key : Key} {g : Ref} {read ok : Bool}

/-! ## File systems -/

/-- What `fsq` and the references of the file systems have to do with each other. -/
structure Queue (s : Sys) : Prop where
  mem : ∀ a d, s.mem a = some d ↔ ∃ f ∈ s.fsq, f.addr = a ∧ f.dev = d
  addr : ∀ f ∈ s.fsq, ∀ f' ∈ s.fsq, f.addr = f'.addr → f = f'
  root : ∀ f ∈ s.fsq, ∀ g, rootref f = some g → g ∈ s.refs
  mount : ∀ f ∈ s.fsq, ∀ i, f.mount = some i → ∃ key, ⟨i, key, .mount f.addr⟩ ∈ s.refs

theorem Queue.frame (h : Queue s) (hframe : Frame s t) : Queue t := by
  refine ⟨?_, ?_, fun f hf g hg => ?_, fun f hf i hi => ?_⟩
  · rw [hframe.mem, hframe.fsq]
    exact h.mem
  · rw [hframe.fsq]
    exact h.addr
  · rw [hframe.fsq] at hf
    refine hframe.refs g (h.root f hf g hg) ?_
    obtain ⟨i, -, rfl⟩ := map_eq_some_iff.mp hg
    nofun
  · rw [hframe.fsq] at hf
    obtain ⟨key, hkey⟩ := h.mount f hf i hi
    exact ⟨key, hframe.refs _ hkey nofun⟩

variable {a d : Nat} {f : FsT} {r : Option Ref}

theorem findfs_mem (h : s.findfs d = some f) : f ∈ s.fsq ∧ f.dev = d :=
  ⟨mem_of_find?_eq_some h, beq_iff_eq.mp (List.find?_some (p := fun f : FsT => f.dev == d) h)⟩

/-- A device that is not in the queue has no `fs_t`. -/
theorem Queue.findfs_none (h : Queue s) (hnone : s.findfs d = none) (a : Nat) :
    s.mem a ≠ some d := by
  intro ha
  obtain ⟨f, hf, -, hd⟩ := (h.mem a d).mp ha
  exact List.find?_eq_none.mp hnone f hf (beq_iff_eq.mpr hd)

/-- The system between the system calls. -/
structure Rest (s : Sys) : Prop extends Inv s none, Queue s where
  rooted : ∀ f ∈ s.fsq, f.root ≠ none

/-- The system in `readfs` of `f`. -/
structure Reading (s : Sys) (f : FsT) : Prop extends Inv s none, Queue s where
  mem_fsq : f ∈ s.fsq
  rooted : ∀ g ∈ s.fsq, g.addr ≠ f.addr → g.root ≠ none

/-- `f` is new. -/
structure Fresh (s : Sys) (f : FsT) : Prop where
  root : f.root = none
  mount : f.mount = none
  inval : ∀ i, (s.slot i).fs = f.addr → (s.slot i).state = .inval

theorem own_mem {o : Owner} {g' : Ref} (hg' : g' ∈ s.refs) (hne : g' ≠ g) : g' ∈ (s.own g o).refs :=
  mem_cons_of_mem _ ((mem_erase_of_ne hne).mpr hg')

theorem Inv.own (h : Inv s x) (hg : g ∈ s.refs) (o : Owner) : Inv (s.own g o) x :=
  ⟨h.toRefs.own hg o, h.toData.congr (fun _ => rfl) rfl h.freeq rfl rfl rfl rfl⟩

theorem Inv.setfs (h : Inv s x) (f : FsT) : Inv (s.setfs f) x :=
  ⟨h.toRefs.congr (fun _ => rfl) (fun _ => rfl) (fun _ hj _ => hj) (.refl _) rfl,
    h.toData.congr (fun _ => rfl) rfl h.freeq rfl rfl rfl rfl⟩

theorem disown_same (s : Sys) (r : Option Ref) : (s.disown r).slot = s.slot ∧
    (s.disown r).fsq = s.fsq ∧ (s.disown r).mem = s.mem := by
  cases r with
  | none => exact ⟨rfl, rfl, rfl⟩
  | some r => exact ⟨rfl, rfl, rfl⟩

theorem disown_mem (hg : g ∈ s.refs) (hne : some g ≠ r) : g ∈ (s.disown r).refs := by
  cases r with
  | none => exact hg
  | some r => exact own_mem hg fun heq => hne (congrArg some heq)

theorem Inv.disown (h : Inv s x) (hr : ∀ g, r = some g → g ∈ s.refs) : Inv (s.disown r) x := by
  cases r with
  | none => exact h
  | some r => exact h.own (hr r rfl) _

/-- The references of the tasks stay as they are. -/
theorem disown_count (ho : g.owner = .task) (hr : ∀ g', r = some g' → g'.owner ≠ .task) :
    (s.disown r).refs.count g = s.refs.count g := by
  cases r with
  | none => rfl
  | some r =>
      have hne : r ≠ g := fun heq => hr r rfl (heq ▸ ho)
      have hnobody : ({ r with owner := .nobody } : Ref) ≠ g := by
        intro heq
        rw [← heq] at ho
        cases ho
      have hrefs : (s.disown (some r)).refs = { r with owner := .nobody } :: s.refs.erase r := rfl
      rw [hrefs, count_cons_of_ne hnobody, count_erase_of_ne (Ne.symm hne)]

theorem rootref_owner (h : rootref f = some g) : g.owner = .root f.addr := by
  obtain ⟨i, -, rfl⟩ := map_eq_some_iff.mp h
  rfl

theorem mountref_owner (h : s.mountref f = some g) : g.owner = .mount f.addr := by
  obtain ⟨i, -, rfl⟩ := map_eq_some_iff.mp h
  rfl

/-- One `fs_t` gets other references. -/
theorem Queue.setfs (h : Queue s) {f' : FsT} (hf : f ∈ s.fsq) (haddr : f'.addr = f.addr)
    (hdev : f'.dev = f.dev) (hfsq : t.fsq = s.fsq.map fun g => if g.addr = f'.addr then f' else g)
    (hmem : t.mem = s.mem)
    (hother : ∀ g ∈ s.refs, ∀ b, b ≠ f.addr → g.owner = .root b ∨ g.owner = .mount b → g ∈ t.refs)
    (hroot : ∀ g, rootref f' = some g → g ∈ t.refs)
    (hmount : ∀ i, f'.mount = some i → ∃ key, ⟨i, key, .mount f'.addr⟩ ∈ t.refs) :
    Queue t ∧ f' ∈ t.fsq := by
  have hin : ∀ g, g ∈ t.fsq ↔ g = f' ∨ g ∈ s.fsq ∧ g.addr ≠ f.addr := by
    intro g
    rw [hfsq, mem_map, haddr]
    constructor
    · rintro ⟨g', hg', rfl⟩
      split
      · exact .inl rfl
      · next hne => exact .inr ⟨hg', hne⟩
    · rintro (rfl | ⟨hg, hne⟩)
      · exact ⟨f, hf, if_pos rfl⟩
      · exact ⟨g, hg, if_neg hne⟩
  refine ⟨⟨fun a d => ?_, fun g hg g' hg' heq => ?_, fun g hg r hr => ?_, fun g hg i hi => ?_⟩,
    (hin f').mpr (.inl rfl)⟩
  · rw [hmem, h.mem]
    constructor
    · rintro ⟨g, hg, ha, hd⟩
      by_cases hga : g.addr = f.addr
      · have hgf := h.addr g hg f hf hga
        subst hgf
        exact ⟨f', (hin f').mpr (.inl rfl), haddr.trans ha, hdev.trans hd⟩
      · exact ⟨g, (hin g).mpr (.inr ⟨hg, hga⟩), ha, hd⟩
    · rintro ⟨g, hg, ha, hd⟩
      rcases (hin g).mp hg with rfl | ⟨hg, -⟩
      · exact ⟨f, hf, haddr.symm.trans ha, hdev.symm.trans hd⟩
      · exact ⟨g, hg, ha, hd⟩
  · rcases (hin g).mp hg with rfl | ⟨hg, hne⟩
    · rcases (hin g').mp hg' with rfl | ⟨-, hne'⟩
      · rfl
      · exact absurd (heq.symm.trans haddr) hne'
    · rcases (hin g').mp hg' with rfl | ⟨hg', -⟩
      · exact absurd (heq.trans haddr) hne
      · exact h.addr g hg g' hg' heq
  · rcases (hin g).mp hg with rfl | ⟨hg, hne⟩
    · exact hroot r hr
    · refine hother r (h.root g hg r hr) g.addr hne (.inl ?_)
      obtain ⟨i, -, rfl⟩ := map_eq_some_iff.mp hr
      rfl
  · rcases (hin g).mp hg with rfl | ⟨hg, hne⟩
    · exact hmount i hi
    · obtain ⟨key, hkey⟩ := h.mount g hg i hi
      exact ⟨key, hother _ hkey g.addr hne (.inr rfl)⟩

/-- An `fs_t` goes. -/
theorem Queue.remove (h : Queue s) (hfsq : t.fsq = s.fsq.filter fun g => g.addr != a)
    (hmem : t.mem = fun b => if b = a then none else s.mem b)
    (hother : ∀ g ∈ s.refs, ∀ b, b ≠ a → g.owner = .root b ∨ g.owner = .mount b → g ∈ t.refs) :
    Queue t := by
  have hin : ∀ g, g ∈ t.fsq ↔ g ∈ s.fsq ∧ g.addr ≠ a := by
    intro g
    rw [hfsq, mem_filter, bne_iff_ne]
  refine ⟨fun b d => ?_, fun g hg g' hg' => ?_, fun g hg r hr => ?_, fun g hg i hi => ?_⟩
  · rw [hmem]
    dsimp only
    split
    · next hb =>
      refine ⟨nofun, ?_⟩
      rintro ⟨g, hg, ha, -⟩
      exact absurd (ha.trans hb) ((hin g).mp hg).2
    · next hb =>
      rw [h.mem]
      constructor
      · rintro ⟨g, hg, ha, hd⟩
        exact ⟨g, (hin g).mpr ⟨hg, fun heq => hb (ha.symm.trans heq)⟩, ha, hd⟩
      · rintro ⟨g, hg, ha, hd⟩
        exact ⟨g, ((hin g).mp hg).1, ha, hd⟩
  · exact h.addr g ((hin g).mp hg).1 g' ((hin g').mp hg').1
  · obtain ⟨hgs, hne⟩ := (hin g).mp hg
    refine hother r (h.root g hgs r hr) g.addr hne (.inl ?_)
    obtain ⟨i, -, rfl⟩ := map_eq_some_iff.mp hr
    rfl
  · obtain ⟨hgs, hne⟩ := (hin g).mp hg
    obtain ⟨key, hkey⟩ := h.mount g hgs i hi
    exact ⟨key, hother _ hkey g.addr hne (.inr rfl)⟩

/-- A new `fs_t`, or the one there is. -/
theorem Rest.findnew (h : Rest s) (hf : s.findnew d a = some (f, t)) :
    Reading t f ∧ t.refs = s.refs ∧ (s.findfs d ≠ none ∧ f.root ≠ none ∨ Fresh t f) := by
  unfold Sys.findnew at hf
  split at hf
  · next hfind =>
    cases hf
    have hmem := (findfs_mem hfind).1
    exact ⟨⟨h.toInv, h.toQueue, hmem, fun g hg _ => h.rooted g hg⟩, rfl,
      .inl ⟨ne_none_iff_exists'.mpr ⟨f, hfind⟩, h.rooted f hmem⟩⟩
  next hfind =>
  split at hf
  · cases hf
  next hfree =>
  rw [not_or, not_not] at hfree
  cases hf
  have hnone := h.toQueue.findfs_none hfind
  have hdata := h.toData.map hfree.2 hnone
  refine ⟨⟨⟨h.toRefs.congr (fun _ => rfl) (fun _ => rfl) (fun _ hj _ => hj) (.refl _) rfl,
    hdata.congr (fun _ => rfl) rfl h.freeq rfl rfl rfl rfl⟩, ⟨fun b d' => ?_,
    fun g hg g' hg' heq => ?_, fun g hg r hr => ?_, fun g hg i hi => ?_⟩,
    mem_append_right _ (mem_singleton_self _), fun g hg hne => ?_⟩, rfl,
    .inr ⟨rfl, rfl, fun i hi => ?_⟩⟩
  · dsimp only
    split
    · next hb =>
      constructor
      · intro hd
        exact ⟨_, mem_append_right _ (mem_singleton_self _), hb.symm,
          some.inj hd⟩
      · rintro ⟨g, hg, ha, hd⟩
        rcases mem_append.mp hg with hg | hg
        · have hmem := (h.toQueue.mem b d').mpr ⟨g, hg, ha, hd⟩
          rw [hb, hfree.2] at hmem
          cases hmem
        · rw [mem_singleton.mp hg] at hd
          exact congrArg some hd
    · next hb =>
      rw [h.toQueue.mem]
      constructor
      · rintro ⟨g, hg, hgd⟩
        exact ⟨g, mem_append_left _ hg, hgd⟩
      · rintro ⟨g, hg, ha, hd⟩
        rcases mem_append.mp hg with hg | hg
        · exact ⟨g, hg, ha, hd⟩
        · rw [mem_singleton.mp hg] at ha
          exact absurd ha.symm hb
  · have hnew : ∀ g ∈ s.fsq, g.addr ≠ a := by
      intro g hg ha
      have hmem := (h.toQueue.mem a g.dev).mpr ⟨g, hg, ha, rfl⟩
      rw [hfree.2] at hmem
      cases hmem
    rcases mem_append.mp hg with hg | hg
    · rcases mem_append.mp hg' with hg' | hg'
      · exact h.addr g hg g' hg' heq
      · rw [mem_singleton.mp hg'] at heq
        exact absurd heq (hnew g hg)
    · rcases mem_append.mp hg' with hg' | hg'
      · rw [mem_singleton.mp hg] at heq
        exact absurd heq.symm (hnew g' hg')
      · rw [mem_singleton.mp hg, mem_singleton.mp hg']
  · rcases mem_append.mp hg with hg | hg
    · exact h.root g hg r hr
    · rw [mem_singleton.mp hg] at hr
      cases hr
  · rcases mem_append.mp hg with hg | hg
    · exact h.mount g hg i hi
    · rw [mem_singleton.mp hg] at hi
      cases hi
  · rcases mem_append.mp hg with hg | hg
    · exact h.rooted g hg
    · exact absurd (congrArg FsT.addr (mem_singleton.mp hg)) hne
  · by_contra hvalid
    obtain ⟨-, d', hd', -⟩ := h.toData.valid i hvalid
    have ha : (s.slot i).fs = a := hi
    rw [ha, hfree.2] at hd'
    cases hd'

/-- A new `fs_t` that could not be read. -/
theorem Reading.delete (h : Reading s f) (hfresh : Fresh s f)
    (hd : s.delete f = some t) : Rest t := by
  have hmount : mountref { s with fsq := s.fsq.filter fun g => g.addr != f.addr } f = none := by
    unfold mountref
    rw [hfresh.mount]
    rfl
  have hroot : rootref f = none := by
    unfold rootref
    rw [hfresh.root]
    rfl
  unfold Sys.delete at hd
  dsimp only at hd
  rw [hmount, hroot] at hd
  cases hd
  have hdata := h.toData.unmap hfresh.inval
  refine ⟨⟨h.toRefs.congr (fun _ => rfl) (fun _ => rfl) (fun _ hj _ => hj) (.refl _) rfl,
    hdata.congr (fun _ => rfl) rfl h.freeq rfl rfl rfl rfl⟩,
    h.toQueue.remove rfl rfl fun g hg _ _ _ => hg, fun g hg => ?_⟩
  obtain ⟨hgs, hne⟩ := mem_filter.mp hg
  exact h.rooted g hgs (bne_iff_ne.mp hne)

/-- A root that is held is found. -/
theorem readi_held {i : Nat} (h : Reading s f) (hi : f.root = some i)
    (hread : s.readi (f.addr, MINIXROOTINO) true = some (none, t)) : False := by
  have hmem := h.toQueue.root f h.mem_fsq ⟨i, (f.addr, MINIXROOTINO), .root f.addr⟩ (by
    unfold rootref
    rw [hi]
    rfl)
  have hkey := h.toRefs.key _ hmem
  have hhash := (h.toData.hashq i).mpr (h.toRefs.allq _ hmem)
  unfold Sys.readi at hread
  split at hread
  · cases hread
  · next hget =>
    unfold Sys.geti at hget
    split at hget
    · cases hget
    · next hfind => exact Cache.findi_none hfind hhash hkey
  · split at hread
    · cases hread
    · rw [if_pos rfl] at hread
      obtain ⟨v, -, hv⟩ := map_eq_some_iff.mp hread
      cases hv

/-- A root that cannot be read is the one of a new `fs_t`. -/
theorem Reading.noroot (h : Reading s f)
    (hwhich : read = true ∧ ok = true ∧ f.root ≠ none ∨ Fresh s f)
    (hfine : ok = true → ∀ i, s.findi (f.addr, MINIXROOTINO) = some i →
      s.mem f.addr = some (s.slot i).dev)
    (hread : s.readi (f.addr, MINIXROOTINO) ok = some (none, u))
    (hd : (u.disown (rootref f)).delete { f with root := none } = some t) : Rest t := by
  obtain ⟨hinv, hframe, -, hvalid⟩ := h.toInv.readi hfine hread
  rcases hwhich with ⟨-, hok, hroot⟩ | hfresh
  · obtain ⟨i, hi⟩ := ne_none_iff_exists'.mp hroot
    rw [hok] at hread
    exact absurd (readi_held h hi hread) id
  · have hsame : ({ f with root := none } : FsT) = f := by
      rw [← hfresh.root]
    have hdis : u.disown (rootref f) = u := by
      unfold rootref
      rw [hfresh.root]
      rfl
    rw [hsame, hdis] at hd
    have hu : Reading u f := by
      refine ⟨hinv, h.toQueue.frame hframe, hframe.fsq ▸ h.mem_fsq, ?_⟩
      rw [hframe.fsq]
      exact h.rooted
    refine hu.delete ⟨hfresh.root, hfresh.mount, fun j hj => ?_⟩ hd
    by_contra hne
    obtain ⟨hold, hkey⟩ := hvalid rfl j hne
    have hfs : (u.slot j).fs = (s.slot j).fs := congrArg Prod.fst hkey
    exact hold (hfresh.inval j (hfs ▸ hj))

/-- A root that has been read. -/
theorem Reading.newroot (h : Reading s f)
    (hfine : ok = true → ∀ i, s.findi (f.addr, MINIXROOTINO) = some i →
      s.mem f.addr = some (s.slot i).dev)
    (hread : s.readi (f.addr, MINIXROOTINO) ok = some (some i, u))
    (ht : t = ((u.disown (rootref f)).own ⟨i, (f.addr, MINIXROOTINO), .task⟩
      (.root f.addr)).setfs { f with root := some i }) :
    Rest t ∧ { f with root := some i } ∈ t.fsq ∧
      ∀ g ∈ s.refs, g.owner = .task → g ∈ t.refs := by
  subst ht
  obtain ⟨hinv, hframe, hrefs, -⟩ := h.toInv.readi hfine hread
  have hrefs := hrefs i rfl
  have hqueue := h.toQueue.frame hframe
  have hfu : f ∈ u.fsq := hframe.fsq ▸ h.mem_fsq
  generalize hg₀ : (⟨i, (f.addr, MINIXROOTINO), .task⟩ : Ref) = g₀ at hrefs
  have howner₀ : g₀.owner = .task := by rw [← hg₀]
  have hroottask : ∀ g, rootref f = some g → g.owner ≠ .task := by
    intro g hg
    rw [rootref_owner hg]
    nofun
  -- the root that was there is forgotten
  have hv := hinv.disown fun g hg => hqueue.root f hfu g hg
  have hvcount : ∀ g, g.owner = .task →
      (u.disown (rootref f)).refs.count g = u.refs.count g :=
    fun g ho => disown_count ho hroottask
  obtain ⟨-, hvfsq⟩ := disown_same u (rootref f)
  have hvrefs : ∀ g ∈ u.refs, some g ≠ rootref f → g ∈ (u.disown (rootref f)).refs :=
    fun g hg hne => disown_mem hg hne
  generalize u.disown (rootref f) = v at hv hvcount hvfsq hvrefs
  have hkeep : ∀ g ∈ u.refs, g.owner ≠ .task → some g ≠ rootref f →
      g ∈ (v.own g₀ (.root f.addr)).refs :=
    fun g hg ho hne => own_mem (hvrefs g hg hne) fun heq => ho (heq ▸ howner₀)
  have hmem₀ : g₀ ∈ v.refs :=
    hvrefs g₀ (hrefs ▸ mem_cons_self) fun heq => hroottask g₀ heq.symm howner₀
  have htask : ∀ g ∈ s.refs, g.owner = .task → g ∈ v.refs.erase g₀ := by
    intro g hg ho
    have hcount : (v.refs.erase g₀).count g = s.refs.count g := by
      rw [count_erase, hvcount g ho, hrefs, List.count_cons, Nat.add_sub_cancel]
    exact count_pos_iff.mp (hcount ▸ count_pos_iff.mpr hg)
  generalize hf₁ : ({ f with root := some i } : FsT) = f₁
  have hf₁' : f₁.addr = f.addr ∧ f₁.dev = f.dev ∧ f₁.root = some i ∧ f₁.mount = f.mount := by
    rw [← hf₁]
    exact ⟨rfl, rfl, rfl, rfl⟩
  have hfsq : ((v.own g₀ (.root f.addr)).setfs f₁).fsq =
      u.fsq.map fun g => if g.addr = f₁.addr then f₁ else g := by
    rw [← hvfsq.1]
    rfl
  have hset : Queue ((v.own g₀ (.root f.addr)).setfs f₁) ∧
      f₁ ∈ ((v.own g₀ (.root f.addr)).setfs f₁).fsq := by
    refine hqueue.setfs hfu hf₁'.1 hf₁'.2.1 hfsq hvfsq.2 (fun g hg b hb ho => ?_)
      (fun g hg => ?_) (fun m hm => ?_)
    · refine hkeep g hg (fun htask => ?_) fun heq => ?_
      · rcases ho with ho | ho
        · rw [htask] at ho
          cases ho
        · rw [htask] at ho
          cases ho
      · rw [rootref_owner heq.symm] at ho
        rcases ho with ho | ho
        · exact hb (Owner.root.inj ho).symm
        · cases ho
    · obtain ⟨j, hj, rfl⟩ := map_eq_some_iff.mp hg
      rw [hf₁'.2.2.1] at hj
      cases hj
      have hhead : ({ g₀ with owner := .root f.addr } : Ref) ∈
          (v.own g₀ (.root f.addr)).refs := mem_cons_self
      rw [← hg₀] at hhead
      rw [hf₁'.1, ← hg₀]
      exact hhead
    · rw [hf₁'.2.2.2] at hm
      obtain ⟨key, hkey⟩ := hqueue.mount f hfu m hm
      refine ⟨key, ?_⟩
      rw [hf₁'.1]
      refine hkeep _ hkey nofun fun heq => ?_
      have ho := rootref_owner heq.symm
      cases ho
  refine ⟨⟨(hv.own hmem₀ _).setfs _, hset.1, fun g hg => ?_⟩, hset.2,
    fun g hg ho => mem_cons_of_mem _ (htask g hg ho)⟩
  rw [hfsq] at hg
  obtain ⟨g', hg', rfl⟩ := mem_map.mp hg
  split
  · rw [hf₁'.2.2.1]
    nofun
  · next hne =>
    rw [hf₁'.1] at hne
    exact h.rooted g' (hframe.fsq ▸ hg') hne

/-- **`readfs`.** -/
theorem Reading.readfs {r : Option FsT} (h : Reading s f)
    (hwhich : read = true ∧ ok = true ∧ f.root ≠ none ∨ Fresh s f)
    (hfine : read = true → ok = true → ∀ i, s.findi (f.addr, MINIXROOTINO) = some i →
      s.mem f.addr = some (s.slot i).dev) (hread : s.readfs f read ok = some (r, t)) :
    Rest t ∧ ∀ f', r = some f' →
      f' ∈ t.fsq ∧ ∀ g ∈ s.refs, g.owner = .task → g ∈ t.refs := by
  unfold Sys.readfs at hread
  split at hread
  · next hno =>
    obtain ⟨u, hu, hr⟩ := map_eq_some_iff.mp hread
    cases hr
    rcases hwhich with ⟨hyes, -⟩ | hfresh
    · rw [hyes] at hno
      cases hno
    · exact ⟨h.delete hfresh hu, nofun⟩
  next hyes =>
  rw [not_eq_true', not_eq_false] at hyes
  split at hread
  · cases hread
  · next u hnone =>
    obtain ⟨v, hv, hr⟩ := map_eq_some_iff.mp hread
    cases hr
    exact ⟨h.noroot hwhich (hfine hyes) hnone hv, nofun⟩
  · next i u hsome =>
    cases hread
    obtain ⟨hrest, hmem, hkeep⟩ := h.newroot (hfine hyes) hsome rfl
    refine ⟨hrest, fun f' hf' => ?_⟩
    cases hf'
    exact ⟨hmem, hkeep⟩

/-! ## `domount` -/

/-- The flag and the peer of a slot are nobody's business. -/
theorem Inv.upd {f : Slot → Slot} (h : Inv s x) (hcore : ∀ z, core (f z) = core z)
    (hrefcnt : ∀ z, (f z).refcnt = z.refcnt) : Inv (s.upd i f) x := by
  have hslot : ∀ j, core ((s.upd i f).slot j) = core (s.slot j) := upd_same core hcore s i
  refine ⟨h.toRefs.congr (upd_same Slot.refcnt hrefcnt s i) (fun j => (core_eq (hslot j)).2.1)
    (fun j hj _ => ?_) (.refl _) rfl, h.toData.congr hslot rfl h.freeq rfl rfl rfl rfl⟩
  rw [(core_eq (hslot j)).1]
  exact hj

theorem upd_frame (s : Sys) (i : Nat) (f : Slot → Slot) : Frame s (s.upd i f) :=
  ⟨rfl, rfl, rfl, fun _ hg _ => hg⟩

theorem Rest.mountref (h : Rest s) (hf : f ∈ s.fsq) (hg : s.mountref f = some g) : g ∈ s.refs := by
  obtain ⟨i, hi, rfl⟩ := map_eq_some_iff.mp hg
  obtain ⟨key, hmem⟩ := h.toQueue.mount f hf i hi
  have hkey : (s.slot i).key = key := h.toRefs.key _ hmem
  exact hkey ▸ hmem

/-- The end of `domount`. -/
theorem Rest.attach (h : Rest s) {root : Nat} (hf : f ∈ s.fsq) (hg : g ∈ s.refs)
    (ho : g.owner = .task) : Rest (s.attach f root g) := by
  have hne : some g ≠ s.mountref f := by
    intro heq
    rw [mountref_owner heq.symm] at ho
    cases ho
  have hdis := h.toInv.disown fun g' hg' => h.mountref hf hg'
  have hmem := disown_mem hg hne
  obtain ⟨hslot, hfsq, hmap⟩ := disown_same s (s.mountref f)
  have hkeep : ∀ g' ∈ s.refs, g'.owner ≠ .task → g'.owner ≠ .mount f.addr →
      g' ∈ ((s.disown (s.mountref f)).own g (.mount f.addr)).refs := by
    intro g' hg' htask hmount
    refine own_mem (disown_mem hg' fun heq => hmount (mountref_owner heq.symm)) fun heq => ?_
    exact htask (heq ▸ ho)
  unfold Sys.attach
  generalize hv : (s.disown (s.mountref f)).own g (.mount f.addr) = v at hkeep
  have hvinv : Inv v none := hv ▸ hdis.own hmem _
  have hvfsq : v.fsq = s.fsq ∧ v.mem = s.mem := by
    rw [← hv]
    exact ⟨hfsq, hmap⟩
  have hhead : (⟨g.slot, g.key, .mount f.addr⟩ : Ref) ∈ v.refs := by
    rw [← hv]
    exact mem_cons_self
  generalize hf₁ : ({ f with mount := some g.slot } : FsT) = f₁
  have hf₁' : f₁.addr = f.addr ∧ f₁.dev = f.dev ∧ f₁.root = f.root ∧ f₁.mount = some g.slot := by
    rw [← hf₁]
    exact ⟨rfl, rfl, rfl, rfl⟩
  have hrootref : rootref f₁ = rootref f := by
    rw [← hf₁]
    rfl
  have hfsq₁ : (v.setfs f₁).fsq = s.fsq.map fun g => if g.addr = f₁.addr then f₁ else g := by
    rw [← hvfsq.1]
    rfl
  have hset : Queue (v.setfs f₁) ∧ f₁ ∈ (v.setfs f₁).fsq := by
    refine h.toQueue.setfs hf hf₁'.1 hf₁'.2.1 hfsq₁ hvfsq.2 (fun g' hg' b hb hob => ?_)
      (fun g' hg' => ?_) (fun i hi => ?_)
    · rcases hob with hob | hob
      · exact hkeep g' hg' (by rw [hob]; nofun) (by rw [hob]; nofun)
      · refine hkeep g' hg' (by rw [hob]; nofun) fun hmount => hb ?_
        rw [hob] at hmount
        exact Owner.mount.inj hmount
    · rw [hrootref] at hg'
      have howner := rootref_owner hg'
      exact hkeep g' (h.toQueue.root f hf g' hg') (by rw [howner]; nofun) (by rw [howner]; nofun)
    · rw [hf₁'.2.2.2] at hi
      cases hi
      rw [hf₁'.1]
      exact ⟨g.key, hhead⟩
  have hframe : Frame (v.setfs f₁) (((v.setfs f₁).upd root fun x =>
      { x with peer := some g.slot }).upd g.slot fun x =>
      { x with peer := some root, mount := true }) :=
    (upd_frame ..).trans (upd_frame ..)
  refine ⟨?_, hset.1.frame hframe, fun g' hg' => ?_⟩
  · refine Inv.upd ?_ (fun _ => rfl) fun _ => rfl
    exact Inv.upd (hvinv.setfs f₁) (fun _ => rfl) fun _ => rfl
  rw [hframe.fsq, hfsq₁] at hg'
  obtain ⟨g₀, hg₀, rfl⟩ := mem_map.mp hg'
  split
  · rw [hf₁'.2.2.1]
    exact h.rooted f hf
  · exact h.rooted g₀ hg₀

/-! ## `doumount` -/

theorem invali_slot (s : Sys) (a j : Nat) : (s.invali a).slot j =
    if (s.slot j).fs = a then { s.slot j with state := .inval } else s.slot j := rfl

/-- The inodes of an address that nobody has are given up, and then the address. -/
theorem Inv.invali (h : Inv s none) (hclean : ∀ i, (s.slot i).fs = a →
    (s.slot i).state ≠ .dirty) (hfree : ∀ g ∈ s.refs, (s.slot g.slot).fs ≠ a) :
    Inv { s.invali a with mem := fun b => if b = a then none else s.mem b } none := by
  have hsame : ∀ j, ((s.invali a).slot j).refcnt = (s.slot j).refcnt ∧
      ((s.invali a).slot j).key = (s.slot j).key := by
    intro j
    rw [invali_slot]
    split
    · exact ⟨rfl, rfl⟩
    · exact ⟨rfl, rfl⟩
  have hinval : ∀ i, ((s.invali a).slot i).fs = a → ((s.invali a).slot i).state = .inval := by
    intro i hi
    rw [invali_slot] at hi ⊢
    split at hi
    · next hfs => rw [if_pos hfs]
    · next hfs => exact absurd hi hfs
  refine ⟨⟨fun i => (hsame i).1.trans (h.refcnt i), fun g hg => (hsame _).2.trans (h.key g hg),
    fun g hg hx => ?_, h.allq⟩, (h.toData.invali hclean).unmap hinval⟩
  rw [invali_slot, if_neg (hfree g hg)]
  exact h.used g hg hx

/-- Only the root is held, and only by its `fs_t`. -/
theorem tryumount_refcnt (h : s.tryumount f = true) (hi : i ∈ s.allq)
    (hfs : (s.slot i).fs = f.addr) : (s.slot i).refcnt = if f.root = some i then 1 else 0 := by
  have hone := all_eq_true.mp h i hi
  rw [or_eq_true, bne_iff_ne, beq_iff_eq] at hone
  exact hone.resolve_left fun hne => hne hfs

/-- `b` is `s` without the references of `f`. -/
structure Deletes (s b : Sys) (f : FsT) : Prop where
  key : ∀ j, (b.slot j).key = (s.slot j).key
  state : ∀ j, (b.slot j).state = (s.slot j).state ∨ (b.slot j).state = .inval
  /-- Of the root there is a reference less. -/
  refcnt : ∀ j, (b.slot j).refcnt ≤ (s.slot j).refcnt - if f.root = some j then 1 else 0
  refs : ∀ g ∈ s.refs, g.owner ≠ .root f.addr → g.owner ≠ .mount f.addr → g ∈ b.refs
  allq : b.allq = s.allq
  fsq : b.fsq = s.fsq.filter fun g => g.addr != f.addr
  mem : b.mem = s.mem

/-- The destructor of a file system that has a root and a mount point loses both. -/
theorem Rest.delete (h : Rest s) {m : Nat} (hf : f ∈ s.fsq) (hm : f.mount = some m)
    (hd : s.delete f = some t) : ∃ b, Inv b none ∧ Deletes s b f ∧
      t = { b with mem := fun a => if a = f.addr then none else b.mem a } := by
  obtain ⟨r, hr⟩ := ne_none_iff_exists'.mp (h.rooted f hf)
  obtain ⟨b, hb, rfl⟩ := map_eq_some_iff.mp hd
  obtain ⟨a, ha, hb⟩ := bind_eq_some_iff.mp hb
  have hmountref : s.mountref f = some ⟨m, (s.slot m).key, .mount f.addr⟩ := by
    unfold Sys.mountref
    rw [hm]
    rfl
  have hrootref : rootref f = some ⟨r, (f.addr, MINIXROOTINO), .root f.addr⟩ := by
    unfold rootref
    rw [hr]
    rfl
  have hmem₁ := h.mountref hf hmountref
  have hmem₂ := h.toQueue.root f hf _ hrootref
  have howner₁ := mountref_owner hmountref
  have howner₂ := rootref_owner hrootref
  have hsame : Sys.mountref { s with fsq := s.fsq.filter fun g => g.addr != f.addr } f =
      Sys.mountref s f := rfl
  rw [hsame, hmountref] at ha
  rw [hrootref] at hb
  have hslot₂ : (⟨r, (f.addr, MINIXROOTINO), .root f.addr⟩ : Ref).slot = r := rfl
  generalize (⟨r, (f.addr, MINIXROOTINO), .root f.addr⟩ : Ref) = g₂ at hb hmem₂ howner₂ hslot₂
  have hgone : Inv { s with fsq := s.fsq.filter fun g => g.addr != f.addr } none :=
    ⟨h.toRefs.congr (fun _ => rfl) (fun _ => rfl) (fun _ hj _ => hj) (.refl _) rfl,
      h.toData.congr (fun _ => rfl) rfl h.freeq rfl rfl rfl rfl⟩
  obtain ⟨hainv, haloses⟩ := hgone.lose hmem₁ ha
  have hmema : g₂ ∈ a.refs := by
    rw [haloses.refs]
    refine (mem_erase_of_ne fun heq => ?_).mpr hmem₂
    rw [heq, howner₁] at howner₂
    cases howner₂
  obtain ⟨hbinv, hbloses⟩ := hainv.lose hmema hb
  refine ⟨b, hbinv, ⟨fun j => (hbloses.key j).trans (haloses.key j), fun j => ?_, fun j => ?_,
    fun g hg hroot hmount => ?_, hbloses.allq.trans haloses.allq, hbloses.fsq.trans haloses.fsq,
    hbloses.mem.trans haloses.mem⟩, rfl⟩
  · rcases hbloses.state j with hsame | hinval
    · rcases haloses.state j with hsame' | hinval
      · exact .inl (hsame.trans hsame')
      · exact .inr (hsame.trans hinval)
    · exact .inr hinval
  · rw [hbloses.refcnt, haloses.refcnt, hslot₂, hr]
    dsimp only
    by_cases hj : j = r
    · rw [if_pos hj, if_pos (congrArg some hj.symm)]
      omega
    · rw [if_neg hj, if_neg fun heq => hj (some.inj heq).symm]
      omega
  · rw [hbloses.refs, haloses.refs]
    refine (mem_erase_of_ne fun heq => hroot ?_).mpr
      ((mem_erase_of_ne fun heq => hmount ?_).mpr hg)
    · exact heq ▸ howner₂
    · exact heq ▸ howner₁

/-- **`doumount`.** -/
theorem Rest.doumount (h : Rest s) (hf : f ∈ s.fsq) (hd : s.doumount f = some t) : Rest t := by
  unfold Sys.doumount at hd
  split at hd
  · cases hd
  next u hsync =>
  obtain ⟨hu, hsyncs⟩ := h.toInv.synci (fun i hi => mem_of_mem_filter hi) hsync
  have hurest : Rest u := ⟨hu, h.toQueue.frame hsyncs.frame, hsyncs.fsq ▸ h.rooted⟩
  split at hd
  · cases hd
    exact hurest
  next htry =>
  rw [not_eq_true', not_eq_false] at htry
  obtain ⟨m, hm, hmap⟩ := bind_eq_some_iff.mp hd
  obtain ⟨v, hv, rfl⟩ := map_eq_some_iff.mp hmap
  -- the slots of the file system have been written
  have hclean : ∀ i, (u.slot i).fs = f.addr → (u.slot i).state ≠ .dirty := by
    intro i hi hdirty
    have hfs : (s.slot i).fs = f.addr := (congrArg Prod.fst (hsyncs.slot i).2).symm.trans hi
    have hallq := (hu.valid i (by rw [hdirty]; nofun)).1
    rw [hsyncs.allq] at hallq
    exact (hsyncs.dirty i hdirty).2 (mem_filter.mpr ⟨hallq, beq_iff_eq.mpr hfs⟩)
  have hfu : f ∈ u.fsq := hsyncs.fsq ▸ hf
  -- the flag of the mount point
  generalize hw : (u.upd m fun x => { x with mount := false }) = w at hv
  have hwslot : ∀ j, (w.slot j).refcnt = (u.slot j).refcnt ∧ (w.slot j).key = (u.slot j).key ∧
      (w.slot j).state = (u.slot j).state := by
    intro j
    have hcore : core (w.slot j) = core (u.slot j) := by
      rw [← hw]
      exact upd_same core (fun _ => by rfl) u m j
    refine ⟨?_, (core_eq hcore).2.1, (core_eq hcore).1⟩
    rw [← hw]
    exact upd_same Slot.refcnt (fun _ => by rfl) u m j
  have hwframe : Frame u w := hw ▸ upd_frame ..
  have hwrest : Rest w := by
    refine ⟨?_, hurest.toQueue.frame hwframe, hwframe.fsq ▸ hurest.rooted⟩
    rw [← hw]
    exact Inv.upd hu (fun _ => rfl) fun _ => rfl
  have hfw : f ∈ w.fsq := hwframe.fsq ▸ hfu
  obtain ⟨b, hb, hdel, rfl⟩ := hwrest.delete hfw hm hv
  have hfs : ∀ j, (b.slot j).fs = (u.slot j).fs := fun j =>
    congrArg Prod.fst ((hdel.key j).trans (hwslot j).2.1)
  have hbclean : ∀ j, (b.slot j).fs = f.addr → (b.slot j).state ≠ .dirty := by
    intro j hj hdirty
    rcases hdel.state j with hsame | hinval
    · refine hclean j ((hfs j).symm.trans hj) ?_
      exact (hwslot j).2.2.symm.trans (hsame.symm.trans hdirty)
    · rw [hinval] at hdirty
      cases hdirty
  have hbfree : ∀ g ∈ b.refs, (b.slot g.slot).fs ≠ f.addr := by
    intro g hg hgfs
    refine hb.toRefs.unused ?_ hg rfl
    have hallq : g.slot ∈ u.allq := hwframe.allq ▸ hdel.allq ▸ hb.allq g hg
    have hcount := hdel.refcnt g.slot
    rw [(hwslot _).1, tryumount_refcnt htry hallq ((hfs _).symm.trans hgfs)] at hcount
    split at hcount
    · omega
    · omega
  have hqueue : Queue { b.invali f.addr with
      mem := fun a => if a = f.addr then none else b.mem a } := by
    have hmem : (fun a => if a = f.addr then none else b.mem a) =
        fun a => if a = f.addr then none else w.mem a := by rw [hdel.mem]
    refine hwrest.toQueue.remove hdel.fsq hmem fun g hg c hc ho => ?_
    refine hdel.refs g hg (fun hroot => ?_) fun hmount => ?_
    · rw [hroot] at ho
      exact ho.elim (fun ho => hc (Owner.root.inj ho).symm) nofun
    · rw [hmount] at ho
      exact ho.elim nofun fun ho => hc (Owner.mount.inj ho).symm
  refine ⟨hb.invali hbclean hbfree, hqueue, fun g hg => ?_⟩
  have hg' : g ∈ b.fsq := hg
  rw [hdel.fsq] at hg'
  exact hwrest.rooted g (mem_of_mem_filter hg')

/-! ## Steps -/

theorem taskref_some {k : Nat} (h : s.taskref k = some g) : g ∈ s.refs ∧ g.owner = .task := by
  obtain ⟨g', hg', hsome⟩ := bind_eq_some_iff.mp h
  split at hsome
  · next ho =>
    cases hsome
    exact ⟨mem_of_getElem? hg', ho⟩
  · cases hsome

/-- `findfs`, and `readfs` behind it. -/
theorem Rest.readfs (h : Rest s) {r : Option FsT} (hfind : s.findnew d a = some (f, u))
    (hremount : s.findfs d ≠ none → read = true ∧ ok = true)
    (hfine : read = true → ok = true → ∀ i, u.findi (f.addr, MINIXROOTINO) = some i →
      u.mem f.addr = some (u.slot i).dev) (hread : u.readfs f read ok = some (r, t)) :
    Rest t ∧ ∀ f', r = some f' →
      f' ∈ t.fsq ∧ ∀ g ∈ s.refs, g.owner = .task → g ∈ t.refs := by
  obtain ⟨hreading, hrefs, hwhich⟩ := h.findnew hfind
  have hwhich' : read = true ∧ ok = true ∧ f.root ≠ none ∨ Fresh u f := by
    rcases hwhich with ⟨hmounted, hroot⟩ | hfresh
    · exact .inl ⟨(hremount hmounted).1, (hremount hmounted).2, hroot⟩
    · exact .inr hfresh
  exact hrefs ▸ hreading.readfs hwhich' hfine hread

/-- What the system is at rest is kept by every event that finds no slot of another
device. -/
theorem Rest.step {e : Event} (h : Rest s) (hfine : Fine s e) (hremount : Remounts s e)
    (ht : step s e = some t) : Rest t := by
  cases e with
  | readi a ino ok =>
      unfold Sys.step at ht
      dsimp only at ht
      split at ht
      · cases ht
      next hmem =>
      obtain ⟨⟨r, u⟩, hread, hr⟩ := map_eq_some_iff.mp ht
      cases hr
      have hslot : ok = true → ∀ i, s.findi (a, ino) = some i → s.mem a = some (s.slot i).dev := by
        intro hok i hfind
        refine hfine s (a, ino) (if_neg ?_) i hfind
        rintro (hnone | hno)
        · exact hmem hnone
        · rw [hok] at hno
          cases hno
      obtain ⟨hinv, hframe, -⟩ := h.toInv.readi hslot hread
      exact ⟨hinv, h.toQueue.frame hframe, hframe.fsq ▸ h.rooted⟩
  | lose k =>
      obtain ⟨g, hg, hl⟩ := bind_eq_some_iff.mp ht
      obtain ⟨hmem, ho⟩ := taskref_some hg
      obtain ⟨hinv, hloses⟩ := h.toInv.lose hmem hl
      exact ⟨hinv, h.toQueue.frame (hloses.frame ho), hloses.fsq ▸ h.rooted⟩
  | setdirty k di =>
      obtain ⟨g, hg, hset⟩ := bind_eq_some_iff.mp ht
      obtain ⟨hmem, -⟩ := taskref_some hg
      obtain ⟨d, hd, rfl⟩ := map_eq_some_iff.mp hset
      have hkey := h.toRefs.key g hmem
      have hfs : (s.slot g.slot).fs = g.key.1 := congrArg Prod.fst hkey
      have hino : (s.slot g.slot).ino = g.key.2 := congrArg Prod.snd hkey
      have hvalid := h.toRefs.used g hmem nofun
      have hdata := @Data.setdirty s g.slot d di h.toData hvalid (hfs ▸ hd)
      rw [hino] at hdata
      have hrefs : Refs (s.upd g.slot fun x => { x with state := .dirty, di := di }) none := by
        refine h.toRefs.congr (upd_same Slot.refcnt (fun _ => by rfl) s g.slot)
          (upd_same Slot.key (fun _ => by rfl) s g.slot) (fun j hj _ => ?_) (.refl _) rfl
        rw [upd_slot]
        split
        · nofun
        · exact hj
      exact ⟨⟨hrefs.congr (fun _ => rfl) (fun _ => rfl) (fun _ hj _ => hj) (.refl _) rfl, hdata⟩,
        h.toQueue.frame ⟨rfl, rfl, rfl, fun _ hg _ => hg⟩, h.rooted⟩
  | mkcommon a ino di =>
      obtain ⟨d, hd, hif⟩ := map_eq_some_iff.mp ht
      split at hif
      · cases hif
        exact h
      next hfree =>
      cases hif
      have hfind : ∀ i, s.findi (a, ino) = some i → (s.slot i).state = .inval := by
        intro i hi
        rw [hi, Option.any_some, bne_iff_ne, not_not] at hfree
        exact hfree
      exact ⟨⟨h.toRefs.congr (fun _ => rfl) (fun _ => rfl) (fun _ hj _ => hj) (.refl _) rfl,
        h.toData.mkcommon hd hfind⟩, h.toQueue.frame ⟨rfl, rfl, rfl, fun _ hg _ => hg⟩, h.rooted⟩
  | sync =>
      obtain ⟨hinv, hsyncs⟩ := h.toInv.synci (fun _ hi => hi) ht
      exact ⟨hinv, h.toQueue.frame hsyncs.frame, hsyncs.fsq ▸ h.rooted⟩
  | mountroot d a read ok =>
      obtain ⟨⟨f, u⟩, hfind, hmap⟩ := bind_eq_some_iff.mp ht
      obtain ⟨⟨r, v⟩, hread, hr⟩ := map_eq_some_iff.mp hmap
      cases hr
      refine (h.readfs hfind hremount (fun hyes hok => ?_) hread).1
      subst hyes hok
      exact hfine u (f.addr, MINIXROOTINO) (congrArg (Option.map _) hfind)
  | mount d a k read ok =>
      obtain ⟨diri, hdiri, hmount⟩ := bind_eq_some_iff.mp ht
      split at hmount
      · cases hmount
        exact h
      next hdir =>
      obtain ⟨⟨f, u⟩, hfind, hmap⟩ := bind_eq_some_iff.mp hmount
      obtain ⟨⟨r, v⟩, hread, hr⟩ := map_eq_some_iff.mp hmap
      obtain ⟨hmem, ho⟩ := taskref_some hdiri
      obtain ⟨hrest, hheld⟩ := h.readfs hfind hremount (fun hyes hok => by
        subst hyes hok
        refine hfine u (f.addr, MINIXROOTINO) (bind_eq_some_iff.mpr ⟨diri, hdiri, ?_⟩)
        rw [Bool.not_true, Bool.or_false, Bool.or_false, if_neg hdir]
        exact congrArg (Option.map _) hfind) hread
      cases r with
      | none =>
          cases hr
          exact hrest
      | some f' =>
          obtain ⟨hf', hkeep⟩ := hheld f' rfl
          cases hroot : f'.root with
          | none => exact absurd hroot (hrest.rooted f' hf')
          | some root =>
              dsimp only at hr
              rw [hroot] at hr
              cases hr
              exact hrest.attach hf' (hkeep diri hmem ho) ho
  | umount d =>
      unfold Sys.step at ht
      dsimp only at ht
      split at ht
      · cases ht
        exact h
      · next f hfind => exact h.doumount (findfs_mem hfind).1 ht

/-! ## A slot of another device -/

/-- Whoever finds a slot that has no contents reads the inode of `fs`, and keeps the device
of the slot. -/
theorem readi_stale (h : Inv s none) (hfind : s.findi key = some i)
    (hmem : s.mem key.1 ≠ none) (hdev : s.mem key.1 ≠ some (s.slot i).dev) :
    ∃ t, s.readi key true = some (some i, t) ∧ t.refs = ⟨i, key, .task⟩ :: s.refs ∧
      t.mem = s.mem ∧ (t.slot i).dev = (s.slot i).dev := by
  obtain ⟨hhash, hkey⟩ := Cache.findi_some hfind
  obtain ⟨d, hd⟩ := ne_none_iff_exists'.mp hmem
  have hinval : (s.slot i).state = .inval := by
    by_contra hvalid
    obtain ⟨-, d', hd', hdev', -⟩ := h.valid i hvalid
    have hfs : (s.slot i).fs = key.1 := congrArg Prod.fst hkey
    rw [hfs, ← hdev'] at hd'
    exact hdev hd'
  have hget : s.geti key =
      some (some i, { s.hold ⟨i, key, .task⟩ with freeq := s.freeq.erase i }) := by
    unfold Sys.geti
    rw [hfind]
  have hslot : ((s.hold ⟨i, key, .task⟩).slot i) =
      { s.slot i with refcnt := (s.slot i).refcnt + 1 } := by
    rw [hold_slot, if_pos rfl]
  unfold Sys.readi
  rw [hget]
  dsimp only
  rw [hslot, if_neg (not_not.mpr hinval), if_pos rfl]
  refine ⟨_, congrArg (Option.map _) (congrArg (Option.map _) hd), rfl, rfl, ?_⟩
  rw [upd_slot, if_pos rfl]
  rw [hslot]

/-- A reference to a slot that does not have the device of the file system. -/
def Stale (s : Sys) (i : Nat) (key : Key) (o : Owner) : Prop :=
  ⟨i, key, o⟩ ∈ s.refs ∧ s.mem key.1 ≠ some (s.slot i).dev

theorem Stale.unsafe {o : Owner} (h : Stale s i key o) : ¬ Safe s := by
  intro hsafe
  obtain ⟨-, d, hmem, hdev, -⟩ := hsafe.refs _ h.1
  exact h.2 (hdev ▸ hmem)

/-- The root of a file system is read, and the slot has another device. -/
theorem readfs_stale (h : Inv s none) (hmap : s.mem f.addr ≠ none)
    (hfind : s.findi (f.addr, MINIXROOTINO) = some i) (hdev : s.mem f.addr ≠ some (s.slot i).dev) :
    ∃ t, s.readfs f true true = some (some { f with root := some i }, t) ∧
      Stale t i (f.addr, MINIXROOTINO) (.root f.addr) := by
  obtain ⟨t, hread, -, hmem, hslot⟩ := readi_stale h hfind hmap hdev
  obtain ⟨hdslot, -, hdmem⟩ := disown_same t (rootref f)
  unfold Sys.readfs
  rw [if_neg (by decide), hread]
  refine ⟨_, rfl, mem_cons_self, ?_⟩
  have hsame : (t.disown (rootref f)).mem f.addr ≠
      some ((t.disown (rootref f)).slot i).dev := by
    rw [hdslot, hdmem, hmem, hslot]
    exact hdev
  exact hsame

theorem attach_stale {root : Nat} (h : Stale s i key (.root f.addr))
    (ho : g.owner = .task) : Stale (s.attach f root g) i key (.root f.addr) := by
  obtain ⟨hdslot, -, hdmem⟩ := disown_same s (s.mountref f)
  have hdev : ∀ j, ((s.attach f root g).slot j).dev = (s.slot j).dev := by
    intro j
    have hslot : (((s.disown (s.mountref f)).own g (.mount f.addr)).setfs
        { f with mount := some g.slot }).slot = s.slot := hdslot
    unfold Sys.attach
    rw [upd_same Slot.dev fun _ => by rfl, upd_same Slot.dev fun _ => by rfl, hslot]
  have hmem : (s.attach f root g).mem = s.mem := hdmem
  refine ⟨?_, ?_⟩
  · refine own_mem (disown_mem h.1 fun heq => ?_) fun heq => ?_
    · have hmount := mountref_owner heq.symm
      cases hmount
    · rw [← heq] at ho
      cases ho
  · rw [hmem, hdev]
    exact h.2

/-- An event that finds a slot of another device hands it out. -/
theorem Rest.fine_of_safe {e : Event} (h : Rest s)
    (hsafe : ∀ t, s.step e = some t → Safe t) : Fine s e := by
  intro u key henters i hfind
  by_contra hdev
  cases e with
  | readi a ino ok =>
      unfold enters at henters
      dsimp only at henters
      split at henters
      · cases henters
      next hnot =>
      cases henters
      rw [not_or, not_eq_true', not_eq_false] at hnot
      obtain ⟨t, hread, hrefs, hmem, hslot⟩ := readi_stale h.toInv hfind hnot.1 hdev
      have hstep : s.step (.readi a ino ok) = some t := by
        unfold Sys.step
        dsimp only
        rw [if_neg hnot.1, hnot.2, hread]
        rfl
      have hstale : Stale t i (a, ino) .task := by
        refine ⟨hrefs ▸ mem_cons_self, ?_⟩
        rw [hmem, hslot]
        exact hdev
      exact hstale.unsafe (hsafe t hstep)
  | mountroot d a read ok =>
      unfold enters at henters
      dsimp only at henters
      split at henters
      · cases henters
      next hyes =>
      rw [or_eq_true, not_or, not_eq_true', not_eq_false, not_eq_true',
        not_eq_false] at hyes
      obtain ⟨⟨f, v⟩, hnew, hpair⟩ := map_eq_some_iff.mp henters
      cases hpair
      obtain ⟨hreading, -⟩ := h.findnew hnew
      have hmap : v.mem f.addr ≠ none := by
        rw [(hreading.toQueue.mem f.addr f.dev).mpr ⟨f, hreading.mem_fsq, rfl, rfl⟩]
        nofun
      obtain ⟨t, hread, hstale⟩ := readfs_stale hreading.toInv hmap hfind hdev
      have hstep : s.step (.mountroot d a read ok) = some t := by
        unfold Sys.step
        dsimp only
        rw [hnew, hyes.1, hyes.2, bind_some, hread]
        rfl
      exact hstale.unsafe (hsafe t hstep)
  | mount d a k read ok =>
      obtain ⟨diri, hdiri, hif⟩ := bind_eq_some_iff.mp henters
      split at hif
      · cases hif
      next hyes =>
      rw [or_eq_true, not_or, or_eq_true, not_or, not_eq_true' read,
        not_eq_false, not_eq_true' ok, not_eq_false] at hyes
      obtain ⟨⟨f, v⟩, hnew, hpair⟩ := map_eq_some_iff.mp hif
      cases hpair
      obtain ⟨hreading, -⟩ := h.findnew hnew
      have hmap : v.mem f.addr ≠ none := by
        rw [(hreading.toQueue.mem f.addr f.dev).mpr ⟨f, hreading.mem_fsq, rfl, rfl⟩]
        nofun
      obtain ⟨t, hread, hstale⟩ := readfs_stale hreading.toInv hmap hfind hdev
      have hstep : s.step (.mount d a k read ok) =
          some (t.attach { f with root := some i } i diri) := by
        unfold Sys.step
        dsimp only
        rw [hdiri, bind_some, if_neg hyes.1.1, hnew, hyes.1.2, hyes.2, bind_some,
          hread]
        rfl
      have hattach : Stale (t.attach { f with root := some i } i diri) i
          (f.addr, MINIXROOTINO) (.root f.addr) :=
        attach_stale hstale (taskref_some hdiri).2
      exact hattach.unsafe (hsafe _ hstep)
  | lose | setdirty | mkcommon | sync | umount => cases henters

/-! ## Runs -/

theorem boot_rest (n : Nat) (disk : Nat → Nat → Dinode) : Rest (boot n disk) := by
  refine ⟨⟨⟨fun i => rfl, nofun, nofun, nofun⟩, ⟨fun i => Iff.rfl, fun i hi => hi,
    fun i hi j hj heq => congrArg Prod.snd heq, fun i hi => absurd rfl hi, fun d ino _ => rfl,
    nofun⟩⟩, ⟨fun a d => ⟨nofun, ?_⟩, nofun, nofun, nofun⟩, nofun⟩
  rintro ⟨f, hf, -⟩
  cases hf

/-- A device is unmounted and another one is mounted at its place, with the `fs_t` at the
same address. -/
def reuse : List Event :=
  [.mountroot 0 1 true true, .readi 1 2 true, .mount 1 2 0 true true, .umount 1,
    .readi 1 2 true, .mount 2 2 0 true true]

/-- The inodes of these devices are directories. -/
def dirs (dev ino : Nat) : Dinode := ⟨Icache.SIFDIR, 1, [dev, ino]⟩

end Sys

end Unixlite.Fs.Remount
