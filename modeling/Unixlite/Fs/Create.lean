import Unixlite.Fs.Bitmaps
import Unixlite.Fs.Dirbuf

/-!
# Making inodes, and errors

Port of `mkcommon`, `mkreg`, `mkfifo`, `mknod` and `mkdir` of `fs/dir.cc`, with the bitmaps of
`fs/fs.cc`, the buffers that are held, and I/O errors.

A failure leaves no trace, except that `mkcommon` keeps the buffer of the inode when `addde`
turns the name down, leaves the new entry when it then cannot read the inode, and cannot give
back the last inode (`make_error_iff`).
-/

namespace Unixlite.Fs

open Verified Counter Option

def SIFIFO : BitVec 16 := 0x1000

/-- A file system with its bitmaps, the slots of the inode cache nobody holds, and the reference
counts of the buffers. -/
structure Mkvol where
  maps : Fsmaps
  inode : Nat → Inode
  nfree : Nat
  pins : Nat → Nat

namespace Mkvol

/-! ## The source -/

def slots (s : Mkvol) (dir : Nat) : List De := (s.inode dir).slots

def upd (s : Mkvol) (ino : Nat) (f : Inode → Inode) : Mkvol :=
  { s with inode := Function.update s.inode ino (f (s.inode ino)) }

def holdbuf (s : Mkvol) (b : Nat) : Mkvol := { s with pins := Counter.hold s.pins b }

def losebuf (s : Mkvol) (b : Nat) : Mkvol := { s with pins := Counter.lose s.pins b }

/-- `fs->freei`. -/
def freei (s : Mkvol) (ino : Nat) : Mkvol := { s with maps := (s.maps.freei ino).getD s.maps }

/-- `fs->freeb`. -/
def freeb (s : Mkvol) (bno : Nat) : Mkvol := { s with maps := (s.maps.freeb bno).getD s.maps }

/-- `seeki`, with the block of the inode, which is held. -/
def seeki (d : Dirdisk) (s : Mkvol) (ino : Nat) : Except Int (Nat × Mkvol) :=
  match s.maps.seeki ino with
  | .error e => .error e
  | .ok (b, _) => if d.bad b then .error EIO else .ok (b, s.holdbuf b)

def readi (d : Dirdisk) (s : Mkvol) (ino : Nat) : Except Int Mkvol :=
  let i := s.inode ino
  let held := { s.upd ino (fun i => { i with refcnt := i.refcnt + 1, cached := true }) with
    nfree := if i.refcnt = 0 then s.nfree - 1 else s.nfree }
  if i.refcnt = 0 ∧ s.nfree = 0 then .error ENFILE
  else if i.cached then .ok held
  else
    match held.seeki d ino with
    | .error e => .error e
    | .ok (b, t) => .ok (t.losebuf b)

/-- `lose`, of an inode that has links. -/
def lose (s : Mkvol) (ino : Nat) : Mkvol :=
  let t := s.upd ino fun i => { i with refcnt := i.refcnt - 1 }
  { t with nfree := if (t.inode ino).refcnt = 0 then s.nfree + 1 else s.nfree }

def addcheck (d : Dirdisk) (s : Mkvol) (dir : Nat) (name : Name) : Int × Mkvol :=
  let x := d.addcheck dir name (s.slots dir) s.pins
  (x.1, { s with pins := x.2 })

/-- Zones that `writemap` allocates, one after the other. -/
def allocbs : Nat → Fsmaps → Option Fsmaps
  | 0, maps => some maps
  | n + 1, maps => maps.allocb.bind fun x => allocbs n x.2

/-- What `addde` does with the buffer of its scan: one more reference, then `~scandir_t` and
`lose2`. -/
def settle (pins : Nat → Nat) (b : Nat) : Nat → Nat :=
  Counter.lose (Counter.lose (Counter.hold pins b) b) b

/-- `addde`, behind its checks.  Where the directory cannot grow there is a panic. -/
def addde (d : Dirdisk) (s : Mkvol) (dir : Nat) (name : Name) (newino : Nat) : Option Mkvol :=
  let x := d.scan dir (fun de => de.ino == MINIXFREEINO) (s.slots dir) 0 s.pins
  match x.1 with
  | some (k, b) =>
      let s := { s with pins := settle x.2 b }
      some (s.upd dir fun i => { i with slots := i.slots.set k ⟨newino, name⟩ })
  | none =>
      let n := (s.slots dir).length
      let cost := if n % DEPERBLOCK = 0 then zonecost (n / DEPERBLOCK) else 0
      -- the scan has to come to the last entry, and then to the new one
      if n = 0 || d.bad (d.blockof dir (n - 1)) || d.bad (d.blockof dir n) then none
      else
        (allocbs cost s.maps).map fun maps =>
          let b := d.blockof dir n
          let s := { s with maps := maps, pins := settle (Counter.hold x.2 b) b }
          s.upd dir fun i =>
            { i with slots := i.slots ++ [⟨newino, name⟩], zones := i.zones + cost }

/-- `mkcommon`; with `keep` the new inode is returned, held. -/
def mkcommon (d : Dirdisk) (s : Mkvol) (c : Cred) (dir : Nat) (name : Name) (mode : BitVec 16)
    (keep : Bool) : Option (Int × Nat × Mkvol) :=
  if (s.inode dir).mounted then none
  else if !(s.inode dir).isdir then some (ENOTDIR, 0, s)
  else if (s.inode dir).deny c IW ≠ 0 then some (EACCES, 0, s)
  else
    match s.maps.alloci with
    | none => some (ENOSPC, 0, s)
    | some (newino, maps) =>
        let s := { s with maps := maps }
        if (s.inode newino).cached then some (EINVAL, 0, s.freei newino)
        else
          match s.seeki d newino with
          | .error e => some (e, 0, s.freei newino)
          | .ok (b, s) =>
              let x := s.addcheck d dir name
              -- nothing gives `b` back
              if x.1 ≠ 0 then some (x.1, 0, x.2.freei newino)
              else
                (x.2.addde d dir name newino).map fun s =>
                  let s := (s.upd newino (Vol.newinode c mode)).losebuf b
                  if !keep then (0, newino, s)
                  else
                    match s.readi d newino with
                    | .error e => (e, newino, s)
                    | .ok s => (0, newino, s)

def mkreg (d : Dirdisk) (s : Mkvol) (c : Cred) (dir : Nat) (name : Name) (mode : BitVec 16)
    (keep : Bool) : Option (Int × Mkvol) :=
  (s.mkcommon d c dir name (Vol.typemode SIFREG mode) keep).map fun x => (x.1, x.2.2)

def mkfifo (d : Dirdisk) (s : Mkvol) (c : Cred) (dir : Nat) (name : Name) (mode : BitVec 16) :
    Option (Int × Mkvol) :=
  (s.mkcommon d c dir name (Vol.typemode SIFIFO mode) false).map fun x => (x.1, x.2.2)

def mknod (d : Dirdisk) (s : Mkvol) (c : Cred) (dir : Nat) (name : Name) (mode : BitVec 16)
    (dev : Nat) : Option (Int × Mkvol) :=
  if c.euid ≠ 0 then some (EPERM, s)
  else if mode &&& SIFMT ≠ SIFCHR ∧ mode &&& SIFMT = SIFBLK then some (EINVAL, s)
  else
    let mode := if mode &&& SIFMT = SIFCHR then Vol.typemode mode SIFCHR
      else Vol.typemode mode SIFBLK
    (s.mkcommon d c dir name mode true).map fun (e, ino, s) =>
      if e ≠ 0 then (e, s) else (0, (s.upd ino fun i => { i with rdev := dev }).lose ino)

def mkdir (d : Dirdisk) (s : Mkvol) (c : Cred) (dir : Nat) (name : Name) (mode : BitVec 16) :
    Option (Int × Mkvol) :=
  if !(s.inode dir).isdir then some (ENOTDIR, s)
  else if LINKMAX ≤ (s.inode dir).nlink then some (EMLINK, s)
  else
    match s.maps.allocb with
    | none => some (ENOSPC, s)
    | some (bno, maps) =>
        let s := { s with maps := maps }
        if d.bad bno then some ( EIO, s.freeb bno)
        else
          ((s.holdbuf bno).mkcommon d c dir name (Vol.typemode SIFDIR mode) true).map
            fun (e, ino, s) =>
              if e ≠ 0 then (e, (s.freeb bno).losebuf bno)
              else
                let s := ((s.losebuf bno).upd ino fun i => { i with
                  nlink := 2
                  slots := [⟨ino, dot⟩, ⟨dir, dotdot⟩]
                  zones := 1 }).lose ino
                (0, s.upd dir fun i => { i with nlink := i.nlink + 1 })

/-- The calls that make an inode. -/
inductive Make
  | mkreg (keep : Bool)
  | mkfifo
  | mknod (dev : Nat)
  | mkdir

def make (d : Dirdisk) (s : Mkvol) (c : Cred) (dir : Nat) (name : Name) (mode : BitVec 16) :
    Make → Option (Int × Mkvol)
  | .mkreg keep => s.mkreg d c dir name mode keep
  | .mkfifo => s.mkfifo d c dir name mode
  | .mknod dev => s.mknod d c dir name mode dev
  | .mkdir => s.mkdir d c dir name mode

/-! ## Where it fails -/

/-- `mkcommon` fails where it does not undo what it has done: with the inode that `freei`
refuses, at a name that `addde` turns down, or when the cache is full and the entry is there. -/
def astrayCommon (d : Dirdisk) (s : Mkvol) (c : Cred) (dir : Nat) (name : Name) (keep : Bool) :
    Bool :=
  (s.inode dir).isdir && (s.inode dir).deny c IW == 0 &&
    match s.maps.alloci with
    | none => false
    | some (newino, _) =>
        if s.maps.ninode ≤ newino then true
        else if (s.inode newino).cached then false
        else if (s.seeki d newino).isOk then
          d.addcode dir name (s.slots dir) != 0 ||
            keep && (s.inode newino).refcnt == 0 && s.nfree == 0
        else false

def astray (d : Dirdisk) (s : Mkvol) (c : Cred) (dir : Nat) (name : Name) (mode : BitVec 16) :
    Make → Bool
  | .mkreg keep => s.astrayCommon d c dir name keep
  | .mkfifo => s.astrayCommon d c dir name false
  | .mknod _ =>
      c.euid == 0 && mode &&& SIFMT != SIFBLK && s.astrayCommon d c dir name true
  | .mkdir =>
      decide ((s.inode dir).nlink < LINKMAX) &&
        (s.maps.allocb.any fun x => !d.bad x.1) && s.astrayCommon d c dir name true

/-! ## Numbers given back -/

/-- The bitmaps, the entries, sizes and link counts, and the reference counts are as before. -/
structure Asbefore (s t : Mkvol) : Prop where
  imap : ∀ k, t.maps.imap.bit k = s.maps.imap.bit k
  zmap : ∀ k, t.maps.zmap.bit k = s.maps.zmap.bit k
  live : ∀ dir, (t.slots dir).filter (·.ino != MINIXFREEINO) =
    (s.slots dir).filter (·.ino != MINIXFREEINO)
  size : ∀ dir, (t.slots dir).length = (s.slots dir).length
  nlink : ∀ i, (t.inode i).nlink = (s.inode i).nlink
  refcnt : ∀ i, (t.inode i).refcnt = (s.inode i).refcnt
  pins : ∀ b, t.pins b = s.pins b

/-- A failure that leaves at most the inode bitmap written again. -/
structure Undone (s t : Mkvol) : Prop where
  inode : t.inode = s.inode
  pins : t.pins = s.pins
  maps : ∃ m, t.maps = { s.maps with imap := m } ∧ m.bit = s.maps.imap.bit

/-- A failure that leaves the bit of an inode set, or a buffer held. -/
def Stays (s t : Mkvol) : Prop :=
  (∃ i, t.maps.imap.bit i ≠ s.maps.imap.bit i) ∨ ∃ b, t.pins b = s.pins b + 1

variable {d : Dirdisk} {s t : Mkvol} {c : Cred} {dir newino bno : Nat} {name : Name}
  {mode : BitVec 16} {keep : Bool} {maps : Fsmaps} {e : Int}

/-- How a call ends. -/
structure Ends (astray : Bool) (s : Mkvol) (x : Int × Mkvol) : Prop where
  stays : astray = true → x.1 ≠ 0 ∧ Stays s x.2
  undone : astray = false → x.1 = 0 ∨ Undone s x.2

theorem Stays.ends (h : Stays s t) (he : e ≠ 0) : Ends true s (e, t) :=
  ⟨fun _ => ⟨he, h⟩, fun hno => absurd hno.symm Bool.false_ne_true⟩

theorem Undone.ends (h : Undone s t) (e : Int) : Ends false s (e, t) :=
  ⟨fun hyes => absurd hyes Bool.false_ne_true, fun _ => .inr h⟩

theorem ends_zero (s t : Mkvol) : Ends false s (0, t) :=
  ⟨fun hyes => absurd hyes Bool.false_ne_true, fun _ => .inl rfl⟩

theorem Undone.refl (s : Mkvol) : Undone s s := ⟨rfl, rfl, s.maps.imap, rfl, rfl⟩

theorem asbefore_of (hinode : t.inode = s.inode) (hpins : t.pins = s.pins)
    (himap : t.maps.imap.bit = s.maps.imap.bit) (hzmap : t.maps.zmap.bit = s.maps.zmap.bit) :
    Asbefore s t := by
  have hslots : ∀ dir, t.slots dir = s.slots dir := by
    intro dir
    unfold slots
    rw [hinode]
  refine ⟨congrFun himap, congrFun hzmap, fun dir => ?_, fun dir => ?_, fun i => ?_, fun i => ?_,
    congrFun hpins⟩
  · rw [hslots]
  · rw [hslots]
  · rw [hinode]
  · rw [hinode]

theorem Undone.asbefore (h : Undone s t) : Asbefore s t := by
  obtain ⟨m, hmaps, hbit⟩ := h.maps
  refine asbefore_of h.inode h.pins ?_ ?_
  · rw [hmaps]
    exact hbit
  · rw [hmaps]

theorem Stays.not_asbefore (h : Stays s t) : ¬Asbefore s t := by
  intro hsame
  rcases h with ⟨i, hi⟩ | ⟨b, hb⟩
  · exact hi (hsame.imap i)
  · rw [hsame.pins b] at hb
    omega

/-- The inode is given back, -/
theorem freei_undone (hm : s.maps.Marked) (h : s.maps.alloci = some (newino, maps))
    (hlt : newino < s.maps.ninode) : Undone s ({ s with maps := maps }.freei newino) := by
  obtain ⟨⟨⟨hpos, -⟩, hclear⟩, -, m, rfl, hputs⟩ := Fsmaps.alloci_eq_some hm h
  have hset : m.bit newino = true := (hputs.bit newino).trans (if_pos rfl)
  have hsome : (Fsmaps.freei { s.maps with imap := m } newino).isSome = true :=
    Fsmaps.freei_isSome.mpr ⟨Nat.ne_of_gt hpos, hlt, hset⟩
  obtain ⟨f, hf⟩ := isSome_iff_exists.mp hsome
  obtain ⟨m', rfl, hputs'⟩ := Fsmaps.freei_eq_some hf
  refine ⟨rfl, rfl, m', ?_, ?_⟩
  · unfold freei
    rw [hf]
    rfl
  · funext k
    rw [hputs'.bit]
    rw [hputs.bit]
    split_ifs with hk
    · rw [hk]
      exact hclear.symm
    · rfl

/-- unless it is the last one. -/
theorem freei_stays (hm : s.maps.Marked) (h : s.maps.alloci = some (newino, maps))
    (hle : s.maps.ninode ≤ newino) :
    ({ s with maps := maps }.freei newino).maps.imap.bit newino ≠ s.maps.imap.bit newino := by
  obtain ⟨⟨-, hclear⟩, -, m, rfl, hputs⟩ := Fsmaps.alloci_eq_some hm h
  have hnone : Fsmaps.freei { s.maps with imap := m } newino = none := if_pos (.inr hle)
  unfold freei
  rw [hnone, getD_none]
  rw [hputs.bit, if_pos rfl, hclear]
  decide

/-! ## The steps of `mkcommon` -/

/-- What `seeki` depends on. -/
structure Samefs (f f' : Fsmaps) : Prop where
  imap : f'.imap.nblock = f.imap.nblock
  zmap : f'.zmap.nblock = f.zmap.nblock
  ninode : f'.ninode = f.ninode

variable {f f' : Fsmaps} {x : Int × Mkvol}

theorem Samefs.seeki (h : Samefs f f') (ino : Nat) : f'.seeki ino = f.seeki ino := by
  unfold Fsmaps.seeki
  rw [h.imap, h.zmap, h.ninode]

theorem samefs_alloci (hm : s.maps.Marked) (h : s.maps.alloci = some (newino, maps)) :
    Samefs s.maps maps := by
  obtain ⟨-, -, m, rfl, hputs⟩ := Fsmaps.alloci_eq_some hm h
  exact ⟨hputs.nblock, rfl, rfl⟩

/-- The zones do not concern the inodes. -/
theorem allocb_spec (h : f.allocb = some (bno, f')) : f'.imap = f.imap ∧ Samefs f f' := by
  obtain ⟨⟨k, m⟩, halloc, hk⟩ := map_eq_some_iff.mp h
  cases hk
  obtain ⟨-, -, -, hputs⟩ := Blockmap.alloc_eq_some halloc
  exact ⟨rfl, rfl, hputs.nblock, rfl⟩

theorem allocbs_spec {n : Nat} (h : allocbs n f = some f') : f'.imap = f.imap ∧ Samefs f f' := by
  induction n generalizing f with
  | zero =>
      cases h
      exact ⟨rfl, rfl, rfl, rfl⟩
  | succ n ih =>
      obtain ⟨⟨bno, g⟩, hone, hrest⟩ := bind_eq_some_iff.mp h
      obtain ⟨himap, hsame⟩ := allocb_spec hone
      obtain ⟨himap', hsame'⟩ := ih hrest
      exact ⟨himap'.trans himap, hsame'.imap.trans hsame.imap, hsame'.zmap.trans hsame.zmap,
        hsame'.ninode.trans hsame.ninode⟩

theorem upd_inode (s : Mkvol) (i : Nat) (f : Inode → Inode) (j : Nat) :
    (s.upd i f).inode j = if j = i then f (s.inode j) else s.inode j := by
  unfold upd
  dsimp only
  by_cases hj : j = i
  · rw [hj, Function.update_self, if_pos rfl]
  · rw [Function.update_of_ne hj, if_neg hj]

/-- `addde` leaves the inode bitmap and the inode cache alone, and holds no buffer. -/
structure Added (s t : Mkvol) : Prop where
  imap : t.maps.imap = s.maps.imap
  fs : Samefs s.maps t.maps
  nfree : t.nfree = s.nfree
  pins : t.pins = s.pins
  refcnt : ∀ i, (t.inode i).refcnt = (s.inode i).refcnt
  cached : ∀ i, (t.inode i).cached = (s.inode i).cached

theorem settle_hold (pins : Nat → Nat) (b : Nat) : settle (Counter.hold pins b) b = pins := by
  unfold settle
  rw [lose_hold, lose_hold]

theorem addde_added (h : s.addde d dir name newino = some t) : Added s t := by
  unfold addde at h
  rw [Dirdisk.scan_eq, List.drop_zero] at h
  cases hfind : d.find dir (fun de => de.ino == MINIXFREEINO) (s.slots dir) 0 with
  | some k =>
      rw [hfind] at h
      dsimp only [map_some, elim_some] at h
      rw [settle_hold] at h
      cases h
      refine ⟨rfl, ⟨rfl, rfl, rfl⟩, rfl, rfl, fun i => ?_, fun i => ?_⟩
      · rw [upd_inode]
        split_ifs <;> rfl
      · rw [upd_inode]
        split_ifs <;> rfl
  | none =>
      rw [hfind] at h
      dsimp only [map_none, elim_none] at h
      generalize (if (s.slots dir).length % DEPERBLOCK = 0 then
        zonecost ((s.slots dir).length / DEPERBLOCK) else 0) = cost at h
      split_ifs at h
      obtain ⟨maps, hmaps, hgrown⟩ := map_eq_some_iff.mp h
      rw [settle_hold] at hgrown
      obtain ⟨himap, hsame⟩ := allocbs_spec hmaps
      cases hgrown
      refine ⟨himap, hsame, rfl, rfl, fun i => ?_, fun i => ?_⟩
      · rw [upd_inode]
        split_ifs <;> rfl
      · rw [upd_inode]
        split_ifs <;> rfl

theorem seeki_cases (d : Dirdisk) (s : Mkvol) (ino : Nat) :
    (∃ e, s.seeki d ino = .error e ∧ e ≠ 0) ∨
      ino < s.maps.ninode ∧ ∃ b, s.seeki d ino = .ok (b, s.holdbuf b) := by
  unfold seeki Fsmaps.seeki
  by_cases hrange : s.maps.ninode ≤ ino
  · rw [if_pos hrange]
    exact .inl ⟨EINVAL, rfl, by decide⟩
  · rw [if_neg hrange]
    dsimp only
    split_ifs
    · exact .inl ⟨ EIO, rfl, by decide⟩
    · exact .inr ⟨Nat.not_le.mp hrange, _, rfl⟩

/-- `seeki` finds the inode or not whatever has been allocated. -/
theorem seeki_congr (h : Samefs f f') (i i' : Nat → Inode) (n n' : Nat)
    (p p' : Nat → Nat) (ino : Nat) :
    (seeki d ⟨f', i', n', p'⟩ ino).isOk = (seeki d ⟨f, i, n, p⟩ ino).isOk := by
  unfold seeki
  rw [h.seeki]
  cases f.seeki ino with
  | error e => rfl
  | ok x =>
      dsimp only
      split_ifs <;> rfl

/-- The end of `mkcommon`: the inode is read, or the cache is full. -/
theorem readi_added (h : Added s t) (hcached : (s.inode newino).cached = false)
    (hseek : (s.seeki d newino).isOk = true) (f : Inode → Inode) (b : Nat)
    (hf : ∀ i, (f i).refcnt = i.refcnt ∧ (f i).cached = i.cached) :
    (((s.inode newino).refcnt == 0 && s.nfree == 0) = true →
      ((t.upd newino f).losebuf b).readi d newino = .error ENFILE) ∧
    (((s.inode newino).refcnt == 0 && s.nfree == 0) = false →
      ∃ u, ((t.upd newino f).losebuf b).readi d newino = .ok u) := by
  have hinode : (((t.upd newino f).losebuf b).inode newino).refcnt = (s.inode newino).refcnt ∧
      (((t.upd newino f).losebuf b).inode newino).cached = false := by
    have hi : ((t.upd newino f).losebuf b).inode newino = f (t.inode newino) :=
      (upd_inode t newino f newino).trans (if_pos rfl)
    rw [hi, (hf _).1, (hf _).2, h.refcnt, h.cached]
    exact ⟨rfl, hcached⟩
  have hnfree : ((t.upd newino f).losebuf b).nfree = s.nfree := h.nfree
  unfold readi
  dsimp only
  rw [hinode.1, hinode.2, hnfree]
  constructor
  · intro hfull
    rw [Bool.and_eq_true, beq_iff_eq, beq_iff_eq] at hfull
    rw [if_pos hfull]
  · intro hroom
    have hnot : ¬((s.inode newino).refcnt = 0 ∧ s.nfree = 0) := by
      rintro ⟨hzero, hnone⟩
      rw [hzero, hnone] at hroom
      cases hroom
    rw [if_neg hnot, if_neg Bool.false_ne_true]
    generalize hheld : Mkvol.mk _ _ _ _ = held
    have hok : (held.seeki d newino).isOk = true := by
      rw [← hheld, ← hseek]
      exact seeki_congr h.fs _ _ _ _ _ _ newino
    cases hread : held.seeki d newino with
    | error e =>
        rw [hread] at hok
        cases hok
    | ok x => exact ⟨_, rfl⟩

/-- The entry is made, and the new inode is to be held: when the cache is full the entry stays. -/
theorem readi_ends {newino b : Nat} {maps : Fsmaps} {u : Mkvol} (hm : s.maps.Marked)
    (halloc : s.maps.alloci = some (newino, maps)) (hcached : (s.inode newino).cached = false)
    (hfound : (seeki d (holdbuf { s with maps := maps } b) newino).isOk = true) (c : Cred)
    (mode : BitVec 16)
    (hu : addde d (holdbuf { s with maps := maps } b) dir name newino = some u) :
    (((s.inode newino).refcnt == 0 && s.nfree == 0) = true →
      ((u.upd newino (Vol.newinode c mode)).losebuf b).readi d newino = .error ENFILE ∧
        Ends true s (ENFILE, (u.upd newino (Vol.newinode c mode)).losebuf b)) ∧
      (((s.inode newino).refcnt == 0 && s.nfree == 0) = false →
        ∃ v, ((u.upd newino (Vol.newinode c mode)).losebuf b).readi d newino = .ok v) := by
  have hadded := addde_added hu
  obtain ⟨hfull, hroom⟩ := readi_added hadded hcached hfound (Vol.newinode c mode) b
    fun _ => ⟨rfl, rfl⟩
  refine ⟨fun hcache => ⟨hfull hcache, ?_⟩, hroom⟩
  refine Stays.ends (.inl ⟨newino, ?_⟩) (show ENFILE ≠ 0 by decide)
  show u.maps.imap.bit newino ≠ _
  obtain ⟨⟨-, hclear⟩, -, m, rfl, hputs⟩ := Fsmaps.alloci_eq_some hm halloc
  rw [hadded.imap, hclear]
  show m.bit newino ≠ false
  rw [hputs.bit, if_pos rfl]
  decide

/-- `mkcommon` goes through, fails without a trace, or leaves one. -/
theorem mkcommon_spec (hm : s.maps.Marked) {x : Int × Nat × Mkvol}
    (h : s.mkcommon d c dir name mode keep = some x) :
    Ends (s.astrayCommon d c dir name keep) s (x.1, x.2.2) := by
  unfold mkcommon at h
  unfold astrayCommon
  by_cases hmount : (s.inode dir).mounted = true
  · rw [if_pos hmount] at h
    cases h
  rw [if_neg hmount] at h
  cases hdir : (s.inode dir).isdir with
  | false =>
      rw [hdir, Bool.not_false, if_pos rfl] at h
      cases h
      exact (Undone.refl s).ends _
  | true =>
  rw [hdir, Bool.not_true, if_neg Bool.false_ne_true] at h
  rw [Bool.true_and]
  by_cases hdeny : (s.inode dir).deny c IW ≠ 0
  · rw [if_pos hdeny] at h
    cases h
    rw [beq_false_of_ne hdeny]
    exact (Undone.refl s).ends _
  rw [if_neg hdeny] at h
  rw [not_not.mp hdeny, beq_self_eq_true, Bool.true_and]
  cases halloc : s.maps.alloci with
  | none =>
      rw [halloc] at h
      cases h
      exact (Undone.refl s).ends _
  | some y =>
  obtain ⟨newino, maps⟩ := y
  rw [halloc] at h
  dsimp only at h ⊢
  have hsame := samefs_alloci hm halloc
  by_cases hrange : s.maps.ninode ≤ newino
  · -- the last inode
    rw [if_pos hrange]
    have hstays := freei_stays hm halloc hrange
    cases hcached : (s.inode newino).cached with
    | true =>
        rw [hcached, if_pos rfl] at h
        cases h
        exact Stays.ends (.inl ⟨newino, hstays⟩) (show EINVAL ≠ 0 by decide)
    | false =>
        rw [hcached, if_neg Bool.false_ne_true] at h
        rcases seeki_cases d { s with maps := maps } newino with ⟨e, herr, hne⟩ | ⟨hlt, -⟩
        · rw [herr] at h
          cases h
          exact Stays.ends (.inl ⟨newino, hstays⟩) hne
        · rw [hsame.ninode] at hlt
          omega
  rw [if_neg hrange]
  have hundone := freei_undone hm halloc (Nat.not_le.mp hrange)
  cases hcached : (s.inode newino).cached with
  | true =>
      rw [hcached, if_pos rfl] at h
      cases h
      exact hundone.ends _
  | false =>
  rw [hcached, if_neg Bool.false_ne_true] at h
  have hseek : (s.seeki d newino).isOk = (seeki d { s with maps := maps } newino).isOk :=
    (seeki_congr hsame _ _ _ _ _ _ newino).symm
  rcases seeki_cases d { s with maps := maps } newino with ⟨e, herr, -⟩ | ⟨-, b, hok⟩
  · have hno : (s.seeki d newino).isOk = false := by
      rw [hseek, herr]
      rfl
    rw [herr] at h
    rw [hno, if_neg Bool.false_ne_true]
    cases h
    exact hundone.ends _
  have hyes : (s.seeki d newino).isOk = true := by
    rw [hseek, hok]
    rfl
  rw [hok] at h
  rw [hyes, if_pos rfl]
  unfold addcheck at h
  dsimp only at h
  rw [Dirdisk.addcheck_eq] at h
  have hslots : (holdbuf { s with maps := maps } b).slots dir = s.slots dir := rfl
  rw [hslots] at h
  by_cases hcode : d.addcode dir name (s.slots dir) ≠ 0
  · -- the buffer of the inode
    rw [if_pos hcode] at h
    cases h
    rw [bne_iff_ne.mpr hcode, Bool.true_or]
    refine Stays.ends (.inr ⟨b, ?_⟩) hcode
    show Counter.hold s.pins b b = s.pins b + 1
    rw [hold_apply, if_pos rfl]
  rw [if_neg hcode] at h
  rw [not_not.mp hcode, bne_self_eq_false, Bool.false_or]
  obtain ⟨u, hu, hx⟩ := map_eq_some_iff.mp h
  cases keep with
  | false =>
      cases hx
      exact ends_zero s _
  | true =>
  rw [Bool.true_and]
  have hfound : (seeki d (holdbuf { s with maps := maps } b) newino).isOk = true := by
    rw [← hyes, hseek]
    exact seeki_congr ⟨rfl, rfl, rfl⟩ _ _ _ _ _ _ newino
  obtain ⟨hfull, hroom⟩ := readi_ends hm halloc hcached hfound c mode hu
  cases hcache : (s.inode newino).refcnt == 0 && s.nfree == 0 with
  | true =>
      obtain ⟨hread, hends⟩ := hfull hcache
      rw [hread] at hx
      cases hx
      exact hends
  | false =>
      obtain ⟨v, hv⟩ := hroom hcache
      rw [hv] at hx
      cases hx
      exact ends_zero s v

/-! ## The four calls -/

theorem mkreg_ends (hm : s.maps.Marked) (mode : BitVec 16) (keep : Bool)
    (h : (s.mkcommon d c dir name mode keep).map (fun x => (x.1, x.2.2)) = some x) :
    Ends (s.astrayCommon d c dir name keep) s x := by
  obtain ⟨y, hy, rfl⟩ := map_eq_some_iff.mp h
  exact mkcommon_spec hm hy

theorem mknod_ends (hm : s.maps.Marked) {dev : Nat} (h : s.mknod d c dir name mode dev = some x) :
    Ends (s.astray d c dir name mode (.mknod dev)) s x := by
  unfold mknod at h
  unfold astray
  by_cases hroot : c.euid ≠ 0
  · rw [if_pos hroot] at h
    cases h
    rw [beq_false_of_ne hroot]
    exact (Undone.refl s).ends _
  rw [if_neg hroot] at h
  rw [not_not.mp hroot, beq_self_eq_true, Bool.true_and]
  by_cases hblk : mode &&& SIFMT = SIFBLK
  · have hchr : mode &&& SIFMT ≠ SIFCHR := by
      rw [hblk]
      decide
    rw [if_pos ⟨hchr, hblk⟩] at h
    cases h
    rw [hblk, bne_self_eq_false]
    exact (Undone.refl s).ends _
  rw [if_neg fun hboth => hblk hboth.2] at h
  rw [bne_iff_ne.mpr hblk, Bool.true_and]
  obtain ⟨⟨e, ino, t⟩, ht, hx⟩ := map_eq_some_iff.mp h
  have hends := mkcommon_spec hm ht
  dsimp only at hx hends
  by_cases he : e ≠ 0
  · rw [if_pos he] at hx
    cases hx
    exact hends
  · obtain rfl := not_not.mp he
    cases hx
    refine ⟨fun hyes => ?_, fun _ => .inl rfl⟩
    exact absurd rfl (hends.stays hyes).1

theorem freeb_imap (s : Mkvol) (bno : Nat) : (s.freeb bno).maps.imap = s.maps.imap := by
  unfold freeb
  cases hfree : s.maps.freeb bno with
  | none => rfl
  | some f =>
      obtain ⟨z, rfl, -⟩ := Fsmaps.freeb_eq_some hfree
      rfl

/-- The zone of a new directory is given back. -/
theorem freeb_undone {m : Blockmap} (hm : s.maps.Marked) (h : s.maps.allocb = some (bno, maps))
    (ht : t.maps = { maps with imap := m }) :
    (t.freeb bno).maps.imap = m ∧ (t.freeb bno).maps.zmap.bit = s.maps.zmap.bit := by
  refine ⟨by rw [freeb_imap, ht], ?_⟩
  obtain ⟨⟨hbno, hclear⟩, z, rfl, hputs⟩ := Fsmaps.allocb_eq_some hm h
  have hset : z.bit (bno - s.maps.datazone + 1) = true := (hputs.bit _).trans (if_pos rfl)
  have hsome : (Fsmaps.freeb { s.maps with imap := m, zmap := z } bno).isSome = true :=
    Fsmaps.freeb_isSome.mpr ⟨hbno, hset⟩
  obtain ⟨f, hf⟩ := isSome_iff_exists.mp hsome
  obtain ⟨z', rfl, hputs'⟩ := Fsmaps.freeb_eq_some hf
  unfold freeb
  rw [ht, hf]
  funext k
  show z'.bit k = _
  rw [hputs'.bit]
  rw [hputs.bit]
  split_ifs with hk
  · rw [hk]
    exact hclear.symm
  · rfl

theorem marked_allocb (hm : s.maps.Marked) (h : s.maps.allocb = some (bno, maps)) :
    maps.Marked := by
  obtain ⟨⟨hbno, -⟩, z, rfl, hputs⟩ := Fsmaps.allocb_eq_some hm h
  exact hm.zput hputs hbno

/-- What has been allocated for a new directory does not matter to `mkcommon`. -/
theorem astrayCommon_congr (h : s.maps.allocb = some (bno, maps)) (p : Nat → Nat) :
    astrayCommon d { s with maps := maps, pins := p } c dir name keep =
      s.astrayCommon d c dir name keep := by
  obtain ⟨himap, hsame⟩ := allocb_spec h
  unfold astrayCommon Fsmaps.alloci
  rw [himap]
  cases s.maps.imap.alloc IDIRTY with
  | none => rfl
  | some x =>
      dsimp only [map_some]
      rw [hsame.ninode, seeki_congr hsame s.inode s.inode s.nfree s.nfree s.pins p x.1]
      rfl

theorem Ends.iff {a : Bool} (h : Ends a s x) : (x.1 ≠ 0 → Asbefore s x.2) ↔ a = false := by
  cases a with
  | true =>
      obtain ⟨hne, hstays⟩ := h.stays rfl
      exact iff_of_false (fun hsame => hstays.not_asbefore (hsame hne)) (by decide)
  | false =>
      refine iff_of_true (fun hne => ?_) rfl
      exact ((h.undone rfl).resolve_left hne).asbefore

theorem mkdir_iff (hm : s.maps.Marked) (h : s.mkdir d c dir name mode = some x) :
    (x.1 ≠ 0 → Asbefore s x.2) ↔ s.astray d c dir name mode .mkdir = false := by
  have hrefl := (Undone.refl s).asbefore
  unfold mkdir at h
  unfold astray
  dsimp only
  cases hdir : (s.inode dir).isdir with
  | false =>
      rw [hdir, Bool.not_false, if_pos rfl] at h
      cases h
      refine iff_of_true (fun _ => hrefl) ?_
      unfold astrayCommon
      rw [hdir, Bool.false_and, Bool.false_and, Bool.and_false]
  | true =>
  rw [hdir, Bool.not_true, if_neg Bool.false_ne_true] at h
  by_cases hlink : LINKMAX ≤ (s.inode dir).nlink
  · rw [if_pos hlink] at h
    cases h
    rw [decide_eq_false (Nat.not_lt.mpr hlink)]
    exact iff_of_true (fun _ => hrefl) rfl
  rw [if_neg hlink] at h
  rw [decide_eq_true (Nat.not_le.mp hlink), Bool.true_and]
  cases halloc : s.maps.allocb with
  | none =>
      rw [halloc] at h
      cases h
      exact iff_of_true (fun _ => hrefl) rfl
  | some y =>
  obtain ⟨bno, maps⟩ := y
  rw [halloc] at h
  dsimp only [any_some] at h ⊢
  have himap := (allocb_spec halloc).1
  cases hbad : d.bad bno with
  | true =>
      rw [hbad, if_pos rfl] at h
      cases h
      refine iff_of_true (fun _ => ?_) rfl
      have hback : (freeb { s with maps := maps } bno).maps.imap = maps.imap ∧
        (freeb { s with maps := maps } bno).maps.zmap.bit = s.maps.zmap.bit :=
          freeb_undone hm halloc rfl
      refine asbefore_of rfl rfl ?_ hback.2
      rw [hback.1, himap]
  | false =>
  rw [hbad, if_neg Bool.false_ne_true] at h
  obtain ⟨⟨e, ino, t⟩, ht, hx⟩ := map_eq_some_iff.mp h
  have hends := mkcommon_spec (marked_allocb hm halloc) ht
  have hcommon : astrayCommon d (holdbuf { s with maps := maps } bno) c dir name true =
      s.astrayCommon d c dir name true := astrayCommon_congr halloc _
  rw [hcommon] at hends
  cases hastray : s.astrayCommon d c dir name true with
  | true =>
      obtain ⟨hne, hstays⟩ := hends.stays hastray
      rw [if_pos hne] at hx
      cases hx
      refine iff_of_false (fun hsame => ?_) (by decide)
      have hback := hsame hne
      rcases hstays with ⟨i, hi⟩ | ⟨b, hb⟩
      · refine hi ((congrFun (congrArg Blockmap.bit (freeb_imap t bno)) i).symm.trans ?_)
        exact (hback.imap i).trans (congrFun (congrArg Blockmap.bit himap.symm) i)
      · have hpins : Counter.lose t.pins bno b = s.pins b := hback.pins b
        have hheld : (holdbuf { s with maps := maps } bno).pins b =
            s.pins b + if b = bno then 1 else 0 := hold_apply
        rw [lose_apply, hb, hheld] at hpins
        omega
  | false =>
      refine iff_of_true (fun hne => ?_) rfl
      by_cases he : e ≠ 0
      · rw [if_pos he] at hx
        cases hx
        have hundone := (hends.undone hastray).resolve_left he
        obtain ⟨m, hmaps, hbit⟩ := hundone.maps
        have hback := freeb_undone hm halloc hmaps
        refine asbefore_of hundone.inode ?_ ?_ hback.2
        · show Counter.lose t.pins bno = s.pins
          rw [hundone.pins]
          exact lose_hold s.pins bno
        · show (t.freeb bno).maps.imap.bit = _
          rw [hback.1, hbit]
          exact congrArg Blockmap.bit himap
      · rw [if_neg he] at hx
        cases hx
        exact absurd rfl hne

/-- **When a failed creation leaves no trace.**  The bitmaps, the entries, sizes and link counts
and the reference counts are as before whenever `mkreg`, `mkfifo`, `mknod` or `mkdir` returns an
error, if and only if `mkcommon` does not fail with the last inode, at a name that `addde` turns
down, or with the entry made and the inode cache full. -/
theorem make_error_iff (hm : s.maps.Marked) {a : Make}
    (h : s.make d c dir name mode a = some (e, t)) :
    (e ≠ 0 → Asbefore s t) ↔ s.astray d c dir name mode a = false := by
  cases a with
  | mkreg keep => exact (mkreg_ends hm _ keep h).iff
  | mkfifo => exact (mkreg_ends hm _ false h).iff
  | mknod dev => exact (mknod_ends hm h).iff
  | mkdir => exact mkdir_iff hm h

/-! ## A small file system -/

/-- Three inodes, of which the first is the root, and two zones. -/
def small : Mkvol where
  maps := (Numbers.threeinodes 0xfffffff3 [1]).fs
  inode i :=
    { mode := if i = 1 then 0x41FF else 0
      nlink := if i = 1 then 2 else 0
      uid := 0
      gid := 0
      size := 0
      rdev := 0
      slots := if i = 1 then [⟨1, dot⟩, ⟨1, dotdot⟩] else []
      zones := if i = 1 then 1 else 0
      refcnt := if i = 1 then 1 else 0
      cached := decide (i = 1)
      mounted := false }
  nfree := 8
  pins _ := 0

/-- The directories are in the zones from 8 on; this block cannot be read. -/
def disk (bad : Nat) : Dirdisk where
  block dir _ := dir + 7
  itab _ := 4
  bad b := b == bad
  lost _ := false
  ragged _ := false

theorem small_marked : small.maps.Marked :=
  (Numbers.inv_threeinodes (by decide) (by decide) (by decide) (by decide) :
    Numbers.Inv (Numbers.threeinodes 0xfffffff3 [1])).marked

/-- Without the table of inodes nothing is made. -/
theorem make_error_table : ∃ t, small.make (disk 4) ⟨0, 0, 0, 0, 0⟩ 1 [0x61] 0x1FF
    (.mkreg true) = some ( EIO, t) ∧ Asbefore small t := by
  obtain ⟨⟨e, t⟩, h, he⟩ : ∃ x, small.make (disk 4) ⟨0, 0, 0, 0, 0⟩ 1 [0x61] 0x1FF
      (.mkreg true) = some x ∧ x.1 = EIO := Option.map_eq_some_iff.mp (by decide +kernel)
  obtain rfl : e = EIO := he
  exact ⟨t, h, (make_error_iff small_marked h).mpr (by decide +kernel) (by decide)⟩

/-- The name is there, and the buffer of the new inode stays held. -/
theorem make_leaks : ¬ ∀ (d : Dirdisk) (s t : Mkvol) (c : Cred) (dir : Nat) (name : Name)
    (mode : BitVec 16) (a : Make) (e : Int), s.maps.Marked →
    s.make d c dir name mode a = some (e, t) → e ≠ 0 → Asbefore s t := by
  intro hall
  obtain ⟨⟨e, t⟩, h, he⟩ : ∃ x, small.make (disk 0) ⟨0, 0, 0, 0, 0⟩ 1 dot 0x1FF
      (.mkreg true) = some x ∧ (x.1, x.2.pins 4) = (EEXIST, 1) :=
    Option.map_eq_some_iff.mp (by decide +kernel)
  obtain ⟨rfl, hpins⟩ : e = EEXIST ∧ t.pins 4 = 1 := Prod.mk.inj he
  have hsame := hall (disk 0) small t _ 1 dot 0x1FF _ EEXIST small_marked h (by decide)
  have hzero : t.pins 4 = 0 := hsame.pins 4
  rw [hpins] at hzero
  cases hzero

end Mkvol

end Unixlite.Fs
