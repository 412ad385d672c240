import Unixlite.Fs.Split

/-!
# The name of the current directory

Port of `findde` of an inode number of `fs/dir.cc`, of `backward` and `sysgetcwd` of
`fs/namei.cc`, and of `strcpy` and `memcpy` of `lib/string.cc`.  The path is built backwards from
the end of the buffer, a name for each directory, and then moved to the front.  Addresses are
numbers: in a buffer of the user no pointer wraps.

`sysgetcwd` returns the room that is left in front of the path, and not what it has filled; at the
root it leaves an empty string; and where it fails with the directory above in hand, or behind a
mount, it does not give back what it holds (`sysgetcwd_iff`).
-/

namespace Unixlite.Fs

open Verified Counter Words
open Kernel (tokens)
open Function (update update_of_ne update_self)
open List

/-! ## Strings -/

/-- `strcpy`, of `n` bytes at most. -/
def strcpy : Nat → Mem → Nat → Nat → Option Mem
  | 0, _, _, _ => none
  | n + 1, mem, dst, src =>
      let c := mem src
      let mem := update mem dst c
      if c = 0 then some mem else strcpy n mem (dst + 1) (src + 1)

def memcpy : Mem → Nat → Name → Mem
  | mem, _, [] => mem
  | mem, dst, c :: src => memcpy (update mem dst c) (dst + 1) src

/-- `verw`; `grants` says that the user can write in every page of the buffer. -/
def verw (grants : Bool) (size : Nat) : Int := if size = 0 ∨ grants = false then EFAULT else 0

namespace Dirtree

/-! ## `sysgetcwd` -/

/-- `findde` of an inode number; the name is put in front of `stop`. -/
def finddeIno (t : Dirtree) (r : Ref) (ino : Nat) (mem : Mem) (buf stop : Nat) :
    Except Int (Mem × Nat) :=
  match (t.entries r).find? fun de => de.ino == ino with
  | none => .error ENOENT
  | some de =>
      let len := de.name.length
      if stop ≤ buf + len + 1 then .error ERANGE
      else
        let stop := stop - len
        let mem := memcpy mem stop de.name
        let stop := stop - 1
        .ok (update mem stop sep, stop)

/-- `backward` crosses from a root directory to the mount point. -/
def cross (t : Dirtree) (s : Counts) (cwd : Ref) : Option (Ref × Counts) :=
  match if cwd.2 = MINIXROOTINO then t.peer cwd else none with
  | some p => (lose s cwd).map fun s => (p, hold s p)
  | none => some (cwd, s)

/-- `backward`.  Where it fails `cwd` stays as it is. -/
def backward (t : Dirtree) (s : Counts) (cwd : Ref) (mem : Mem) (buf stop : Nat) :
    Option (Except Int (Ref × Mem × Nat) × Counts) := do
  let (child, s) ← t.cross s cwd
  match t.lookup2 s child dotdot with
  | .error e => some (.error e, s)
  | .ok (parent, s) =>
      match t.finddeIno parent child.2 mem buf stop with
      | .error e => some (.error e, s)
      | .ok (mem, stop) => do
          let s ← lose s child
          some (.ok (parent, mem, stop), s)

/-- The loop of `sysgetcwd`, for `n` directories at most. -/
def climb (t : Dirtree) (buf : Nat) :
    Nat → Ref → Counts → Mem → Nat → Option (Except Int Nat × Counts × Mem)
  | 0, _, _, _, _ => none
  | n + 1, cwd, s, mem, stop =>
      if cwd = t.root then do
        let s ← lose s cwd
        some (.ok stop, s, mem)
      else do
        match ← t.backward s cwd mem buf stop with
        | (.error e, s) =>
            let s ← lose s cwd
            some (.error e, s, mem)
        | (.ok (parent, mem, stop), s) => climb t buf n parent s mem stop

/-- The end of `sysgetcwd`; what `backward` returned is returned. -/
def tofront (buf size : Nat) :
    Except Int Nat × Counts × Mem → Option (Except Int Nat × Counts × Mem)
  | (.error e, s, mem) => some (.error e, s, mem)
  | (.ok stop, s, mem) =>
      (strcpy (size + 1) mem buf stop).map fun mem => (.ok (stop - buf), s, mem)

def sysgetcwd (t : Dirtree) (s : Counts) (grants : Bool) (mem : Mem) (buf size : Nat) :
    Option (Except Int Nat × Counts × Mem) :=
  let e := verw grants size
  if e ≠ 0 then some (.error e, s, mem)
  else
    let size := size - 1
    let mem := update mem (buf + size) 0
    (t.climb buf (size + 1) t.cwd (hold s t.cwd) mem (buf + size)).bind (tofront buf size)

end Dirtree

/-! ## What is written -/

variable {mem mem' : Mem} {dst src b n room : Nat} {c : BitVec 8} {str name : Name}

theorem Cstring.congr (h : Cstring mem b room str) (hmem : ∀ a, b ≤ a → mem' a = mem a) :
    Cstring mem' b room str := by
  refine ⟨h.1, fun i hi => ?_, ?_⟩
  · rw [hmem _ (Nat.le_add_right b i)]
    exact h.2.1 i hi
  · rw [hmem _ (Nat.le_add_right b _)]
    exact h.2.2

theorem cstring_cons :
    Cstring mem b (room + 1) (c :: str) ↔ mem b = c ∧ Cstring mem (b + 1) room str := by
  have hnext : ∀ i, b + (i + 1) = b + 1 + i := by omega
  constructor
  · rintro ⟨hlen, hchars, hend⟩
    refine ⟨hchars 0 (Nat.zero_lt_succ _), Nat.lt_of_succ_lt_succ hlen, fun i hi => ?_, ?_⟩
    · rw [← hnext]
      exact hchars (i + 1) (Nat.succ_lt_succ hi)
    · rw [← hnext]
      exact hend
  · rintro ⟨hhead, hlen, hchars, hend⟩
    refine ⟨Nat.succ_lt_succ hlen, fun i hi => ?_, ?_⟩
    · cases i with
      | zero => exact hhead
      | succ i =>
          rw [hnext]
          exact hchars i (Nat.lt_of_succ_lt_succ hi)
    · rw [length_cons, hnext]
      exact hend

/-- There is one string at an address. -/
theorem Cstring.unique {room' : Nat} {str' : Name} (h : Cstring mem b room str)
    (h' : Cstring mem b room' str') (hnul : 0 ∉ str) (hnul' : 0 ∉ str') : str = str' := by
  induction str generalizing b room room' str' with
  | nil =>
      cases str' with
      | nil => rfl
      | cons c str' =>
          have hzero : mem b = 0 := h.2.2
          have hc : mem b = c := h'.2.1 0 (Nat.zero_lt_succ _)
          simp [← hc, hzero] at hnul'
  | cons c str ih =>
      obtain ⟨room, rfl⟩ := Nat.exists_eq_succ_of_ne_zero (Nat.ne_of_gt (Nat.zero_lt_of_lt h.1))
      obtain ⟨hc, h⟩ := cstring_cons.mp h
      cases str' with
      | nil =>
          have hzero : mem b = 0 := h'.2.2
          simp [← hc, hzero] at hnul
      | cons c' str' =>
          obtain ⟨room', rfl⟩ :=
            Nat.exists_eq_succ_of_ne_zero (Nat.ne_of_gt (Nat.zero_lt_of_lt h'.1))
          obtain ⟨hc', h'⟩ := cstring_cons.mp h'
          rw [mem_cons, not_or] at hnul hnul'
          rw [← hc, ← hc', ih h h' hnul.2 hnul'.2]

/-- A string moves towards the front, byte by byte. -/
theorem strcpy_spec (hstr : Cstring mem src room str) (hnul : 0 ∉ str) (hdst : dst ≤ src)
    (hn : str.length < n) :
    ∃ mem', strcpy n mem dst src = some mem' ∧ Cstring mem' dst room str ∧
      ∀ a, a < dst ∨ dst + str.length < a → mem' a = mem a := by
  induction str generalizing mem dst src n room with
  | nil =>
      obtain ⟨n, rfl⟩ := Nat.exists_eq_succ_of_ne_zero (Nat.ne_of_gt hn)
      have hzero : mem src = 0 := hstr.2.2
      refine ⟨update mem dst 0, by simp [strcpy, hzero], ⟨hstr.1, ?_, ?_⟩, ?_⟩
      · intro i hi
        cases hi
      · exact update_self ..
      · intro a ha
        exact update_of_ne (by simp at ha; omega) ..
  | cons c str ih =>
      obtain ⟨n, rfl⟩ := Nat.exists_eq_succ_of_ne_zero (Nat.ne_of_gt (Nat.zero_lt_of_lt hn))
      obtain ⟨room, rfl⟩ :=
        Nat.exists_eq_succ_of_ne_zero (Nat.ne_of_gt (Nat.zero_lt_of_lt hstr.1))
      obtain ⟨hc, hrest⟩ := cstring_cons.mp hstr
      rw [mem_cons, not_or] at hnul
      have hne : mem src ≠ 0 := by
        rw [hc]
        exact Ne.symm hnul.1
      have hkept : Cstring (update mem dst (mem src)) (src + 1) room str :=
        hrest.congr fun a ha => update_of_ne (by omega) ..
      obtain ⟨mem', hcopy, hstr', hframe⟩ :=
        ih hkept hnul.2 (Nat.succ_le_succ hdst) (Nat.lt_of_succ_lt_succ hn)
      refine ⟨mem', (if_neg hne).trans hcopy, cstring_cons.mpr ⟨?_, hstr'⟩, ?_⟩
      · rw [hframe dst (.inl (Nat.lt_succ_self dst)), update_self, hc]
      · intro a ha
        rw [length_cons] at ha
        rw [hframe a (by omega)]
        exact update_of_ne (by omega) ..

theorem memcpy_frame {a : Nat} (ha : a < dst ∨ dst + str.length ≤ a) :
    memcpy mem dst str a = mem a := by
  induction str generalizing mem dst with
  | nil => rfl
  | cons c str ih =>
      rw [length_cons] at ha
      rw [memcpy, ih (by omega)]
      exact update_of_ne (by omega) ..

/-- What is copied in front of a string becomes a part of it. -/
theorem memcpy_cstring (h : Cstring mem (dst + name.length) room str) :
    Cstring (memcpy mem dst name) dst (room + name.length) (name ++ str) := by
  induction name generalizing mem dst with
  | nil => exact h
  | cons c name ih =>
      have hkept : Cstring (update mem dst c) (dst + 1 + name.length) room str := by
        rw [length_cons, ← Nat.add_assoc, Nat.add_right_comm] at h
        exact h.congr fun a ha => update_of_ne (by omega) ..
      refine cstring_cons.mpr ⟨?_, ih hkept⟩
      rw [memcpy, memcpy_frame (.inl (Nat.lt_succ_self dst)), update_self]

/-! ## The way up -/

/-- The path that these names make, the last one first. -/
def pathOf : List Name → Name
  | [] => []
  | name :: names => pathOf names ++ sep :: name

namespace Dirtree

/-- The directory that a name is looked for: of what is mounted, the mount point. -/
def below (t : Dirtree) (r : Ref) : Ref :=
  if r.2 = MINIXROOTINO then (t.peer r).getD r else r

/-- The directory above. -/
def parent (t : Dirtree) (s : Counts) (r : Ref) : Except Int Ref :=
  t.child (hold s (t.below r)) (t.below r) dotdot

/-- The first name that an inode has in a directory. -/
def nameIn (t : Dirtree) (p r : Ref) : Option Name :=
  ((t.entries p).find? fun de => de.ino == r.2).map De.name

/-- From `r` it goes up to `q`, by these names. -/
def Climbs (t : Dirtree) (s : Counts) : List Name → Ref → Ref → Prop
  | [], r, q => r = q
  | name :: names, r, q =>
      r ≠ t.root ∧ ∃ p, t.parent s r = .ok p ∧ t.nameIn p (t.below r) = some name ∧
        Climbs t s names p q

variable {t : Dirtree} {s : Counts} {r q p : Ref} {names : List Name} {buf stop : Nat} {e : Int}

theorem finddeIno_eq (t : Dirtree) (p r : Ref) (mem : Mem) (buf stop : Nat) :
    t.finddeIno p r.2 mem buf stop =
      match t.nameIn p r with
      | none => .error ENOENT
      | some name =>
          if stop ≤ buf + name.length + 1 then .error ERANGE
          else .ok (update (memcpy mem (stop - name.length) name)
            (stop - name.length - 1) sep, stop - name.length - 1) := by
  unfold finddeIno nameIn
  cases (t.entries p).find? fun de => de.ino == r.2 with
  | none => rfl
  | some de => rfl

/-- One directory up: what is held is given up for the directory above. -/
theorem backward_eq (t : Dirtree) (s : Counts) (r : Ref) (mem : Mem) (buf stop : Nat) :
    t.backward (hold s r) r mem buf stop =
      match t.parent s r with
      | .error e => some (.error e, hold s (t.below r))
      | .ok p =>
          match t.finddeIno p (t.below r).2 mem buf stop with
          | .error e => some (.error e, hold (hold s (t.below r)) p)
          | .ok (mem, stop) => some (.ok (p, mem, stop), hold s p) := by
  have hcross : t.cross (hold s r) r = some (t.below r, hold s (t.below r)) := by
    unfold cross below
    split_ifs
    · cases t.peer r with
      | none => rfl
      | some p => simp [lose_hold]
    · rfl
  have hback : ∀ c p : Ref, lose (hold (hold s c) p) c = some (hold s p) := by
    intro c p
    rw [hold_comm]
    exact lose_hold _ _
  unfold backward
  simp only [Option.bind_eq_bind, hcross, Option.bind_some, lookup2_eq, parent]
  cases t.child (hold s (t.below r)) (t.below r) dotdot with
  | error e => rfl
  | ok p =>
      simp only [Except.map]
      cases t.finddeIno p (t.below r).2 mem buf stop with
      | error e => rfl
      | ok y => simp [hback]

theorem length_le_pathOf (names : List Name) : names.length ≤ (pathOf names).length := by
  induction names with
  | nil => simp
  | cons name names ih =>
      simp only [pathOf, length_cons, length_append]
      omega

theorem pathOf_head (hne : names ≠ []) : (pathOf names).head? = some sep := by
  induction names with
  | nil => exact absurd rfl hne
  | cons name names ih =>
      cases names with
      | nil => rfl
      | cons name' names =>
          rw [pathOf, List.head?_append, ih (cons_ne_nil name' names)]
          rfl

theorem Climbs.nul (h : t.Climbs s names r q) : 0 ∉ pathOf names := by
  induction names generalizing r with
  | nil => simp [pathOf]
  | cons name names ih =>
      obtain ⟨-, p, -, hname, h⟩ := h
      obtain ⟨de, hfind, rfl⟩ := Option.map_eq_some_iff.mp hname
      have hde : de ∈ (t.inode p).slots := by
        have hin := mem_of_find?_eq_some hfind
        simp only [entries, mem_map, mem_filter] at hin
        obtain ⟨x, ⟨hx, -⟩, rfl⟩ := hin
        exact (mem_zipIdx' hx).2 ▸ getElem_mem _
      have hsep : (0 : BitVec 8) ≠ sep := by decide
      simp only [pathOf, mem_append, mem_cons, not_or]
      exact ⟨ih h, hsep, t.named p de hde⟩

/-- There is room in front of `stop` for these names, or it is not looked at. -/
def Fits (names : List Name) (buf stop : Nat) : Prop :=
  names = [] ∨ buf + (pathOf names).length < stop

/-- The loop goes up by these names, and puts each in front of what is there. -/
theorem climb_run (h : t.Climbs s names r q) (hfits : Fits names buf stop)
    (hstr : Cstring mem stop room str) :
    ∃ mem', t.climb buf (n + names.length) r (hold s r) mem stop =
        t.climb buf n q (hold s q) mem' (stop - (pathOf names).length) ∧
      Cstring mem' (stop - (pathOf names).length) (room + (pathOf names).length)
        (pathOf names ++ str) ∧
      ∀ a, a < buf ∨ stop ≤ a → mem' a = mem a := by
  induction names generalizing r mem stop room str with
  | nil =>
      cases h
      exact ⟨mem, rfl, hstr, fun _ _ => rfl⟩
  | cons name names ih =>
      obtain ⟨hr, p, hp, hname, h⟩ := h
      have hlen : (pathOf (name :: names)).length = (pathOf names).length + name.length + 1 := by
        simp [pathOf, Nat.add_assoc]
      have hroom : buf + ((pathOf names).length + name.length + 1) < stop := by
        rw [← hlen]
        exact hfits.resolve_left (cons_ne_nil _ _)
      have hstop : stop - name.length = stop - name.length - 1 + 1 := by omega
      have hfind := finddeIno_eq t p (t.below r) mem buf stop
      rw [hname] at hfind
      simp only [if_neg (by omega : ¬ stop ≤ buf + name.length + 1)] at hfind
      have hname' : Cstring (memcpy mem (stop - name.length) name) (stop - name.length)
          (room + name.length) (name ++ str) := by
        refine memcpy_cstring ?_
        rwa [Nat.sub_add_cancel (by omega)]
      have hsep : Cstring (update (memcpy mem (stop - name.length) name)
          (stop - name.length - 1) sep) (stop - name.length - 1) (room + name.length + 1)
          (sep :: (name ++ str)) := by
        refine cstring_cons.mpr ⟨update_self .., ?_⟩
        rw [← hstop]
        exact hname'.congr fun a ha => update_of_ne (by omega) ..
      obtain ⟨mem', hclimb, hstr', hframe⟩ := ih h (.inr (by omega)) hsep
      have hstep : stop - name.length - 1 - (pathOf names).length =
          stop - (pathOf (name :: names)).length := by omega
      have hplus : room + name.length + 1 + (pathOf names).length =
          room + (pathOf (name :: names)).length := by omega
      rw [hstep] at hclimb hstr'
      rw [hplus] at hstr'
      refine ⟨mem', ?_, by simpa [pathOf] using hstr', fun a ha => ?_⟩
      · rw [length_cons, ← Nat.add_assoc, climb, if_neg hr, backward_eq, hp]
        simp only [hfind]
        exact hclimb
      · rw [hframe a (by omega), update_of_ne (by omega), memcpy_frame (by omega)]

theorem climb_root (s : Counts) : t.climb buf (n + 1) t.root (hold s t.root) mem stop =
    some (.ok stop, s, mem) := by
  simp [climb, lose_hold]

/-- There is no directory above. -/
theorem climb_error (hq : q ≠ t.root) (hp : t.parent s q = .error e) :
    t.climb buf (n + 1) q (hold s q) mem stop =
      (lose (hold s (t.below q)) q).map fun s => (.error e, s, mem) := by
  rw [climb, if_neg hq, backward_eq, hp, Option.map_eq_bind]
  rfl

/-- There is no name in the directory above, or no room for it. -/
theorem climb_lost (hq : q ≠ t.root) (hp : t.parent s q = .ok p)
    (hlost : ∀ name, t.nameIn p (t.below q) = some name → stop ≤ buf + name.length + 1) :
    ∃ e, t.climb buf (n + 1) q (hold s q) mem stop =
      (lose (hold (hold s (t.below q)) p) q).map fun s => (.error e, s, mem) := by
  have hfind : ∃ e, t.finddeIno p (t.below q).2 mem buf stop = .error e := by
    rw [finddeIno_eq]
    cases hname : t.nameIn p (t.below q) with
    | none => exact ⟨_, rfl⟩
    | some name => exact ⟨_, if_pos (hlost name hname)⟩
  obtain ⟨e, hfind⟩ := hfind
  refine ⟨e, ?_⟩
  rw [climb, if_neg hq, backward_eq, hp, Option.map_eq_bind]
  simp only [hfind]
  rfl

/-- Somewhere the way up ends. -/
theorem exists_climbs (t : Dirtree) (s : Counts) (r : Ref) (buf stop : Nat) :
    ∃ names q, t.Climbs s names r q ∧ Fits names buf stop ∧
      (q = t.root ∨ q ≠ t.root ∧ (∃ e, t.parent s q = .error e) ∨
        q ≠ t.root ∧ ∃ p, t.parent s q = .ok p ∧ ∀ name, t.nameIn p (t.below q) = some name →
          stop - (pathOf names).length ≤ buf + name.length + 1) := by
  induction stop using Nat.strong_induction_on generalizing r with
  | _ stop ih =>
      by_cases hr : r = t.root
      · exact ⟨[], r, rfl, .inl rfl, .inl hr⟩
      cases hp : t.parent s r with
      | error e => exact ⟨[], r, rfl, .inl rfl, .inr (.inl ⟨hr, e, hp⟩)⟩
      | ok p =>
          by_cases hlost : ∀ name, t.nameIn p (t.below r) = some name →
              stop ≤ buf + name.length + 1
          · exact ⟨[], r, rfl, .inl rfl, .inr (.inr ⟨hr, p, hp, hlost⟩)⟩
          push Not at hlost
          obtain ⟨name, hname, hroom⟩ := hlost
          obtain ⟨names, q, hclimbs, hfits, hend⟩ := ih (stop - name.length - 1) (by omega) p
          have hlen : (pathOf (name :: names)).length =
              (pathOf names).length + name.length + 1 := by
            simp [pathOf, Nat.add_assoc]
          refine ⟨name :: names, q, ⟨hr, p, hp, hname, hclimbs⟩, .inr ?_, ?_⟩
          · rw [hlen]
            rcases hfits with rfl | hfits
            · simp only [pathOf, length_nil]
              omega
            · omega
          · have hstop : stop - (pathOf (name :: names)).length =
                stop - name.length - 1 - (pathOf names).length := by omega
            rw [hstop]
            exact hend

/-! ## What becomes of the buffer and the counts -/

variable {grants : Bool} {size : Nat}

theorem size_ne_zero (hverw : verw grants size = 0) : size ≠ 0 := by
  rintro rfl
  cases hverw

/-- How far `sysgetcwd` gets by these names. -/
theorem sysgetcwd_climb (mem : Mem) (hverw : verw grants size = 0) (h : t.Climbs s names t.cwd q)
    (hfits : Fits names buf (buf + (size - 1))) :
    ∃ mem' n, t.sysgetcwd s grants mem buf size =
        (t.climb buf (n + 1) q (hold s q) mem'
          (buf + (size - 1) - (pathOf names).length)).bind (tofront buf (size - 1)) ∧
      Cstring mem' (buf + (size - 1) - (pathOf names).length) (1 + (pathOf names).length)
        (pathOf names) ∧
      ∀ a, a < buf ∨ buf + size ≤ a → mem' a = mem a := by
  have hsize := size_ne_zero hverw
  have hend : Cstring (update mem (buf + (size - 1)) 0) (buf + (size - 1)) 1 [] := by
    refine ⟨Nat.zero_lt_one, fun i hi => ?_, update_self ..⟩
    cases hi
  have hfuel : size - 1 - names.length + 1 + names.length = size - 1 + 1 := by
    have hnames := length_le_pathOf names
    rcases hfits with rfl | hfits
    · rfl
    · omega
  obtain ⟨mem', hclimb, hstr, hframe⟩ := climb_run h hfits hend
  rw [hfuel] at hclimb
  rw [append_nil] at hstr
  refine ⟨mem', size - 1 - names.length, ?_, hstr, fun a ha => ?_⟩
  · rw [sysgetcwd, if_neg (not_not.mpr hverw)]
    dsimp only
    rw [hclimb]
  · rw [hframe a (by omega)]
    exact update_of_ne (by omega) ..

/-- All the way up to the root. -/
theorem sysgetcwd_root (mem : Mem) (hverw : verw grants size = 0) (h : t.Climbs s names t.cwd t.root)
    (hfits : Fits names buf (buf + (size - 1))) :
    ∃ mem', t.sysgetcwd s grants mem buf size =
        some (.ok (size - 1 - (pathOf names).length), s, mem') ∧
      Cstring mem' buf size (pathOf names) ∧
      ∀ a, a < buf ∨ buf + size ≤ a → mem' a = mem a := by
  obtain ⟨mem', n, hget, hstr, hframe⟩ := sysgetcwd_climb mem hverw h hfits
  have hsize := size_ne_zero hverw
  have hlen : (pathOf names).length < size := by
    rcases hfits with rfl | hfits
    · exact Nat.pos_of_ne_zero hsize
    · omega
  obtain ⟨mem'', hcopy, hstr', hframe'⟩ :=
    strcpy_spec hstr h.nul (by omega : buf ≤ _) (by omega : _ < size - 1 + 1)
  have hstop : buf + (size - 1) - (pathOf names).length - buf =
      size - 1 - (pathOf names).length := by omega
  refine ⟨mem'', ?_, ⟨hlen, hstr'.2⟩, fun a ha => ?_⟩
  · rw [hget, climb_root, Option.bind_some, tofront, hcopy, Option.map_some, hstop]
  · rw [hframe' a (by omega), hframe a ha]

/-- The counts and the path are right, and nothing else is written: `sysgetcwd` returns an error
and nothing is held, or it stores an absolute path that leads back, and returns its length. -/
def Inverts (t : Dirtree) (s : Counts) (mem : Mem) (buf size : Nat) (y : Except Int Nat)
    (s' : Counts) (mem' : Mem) : Prop :=
  (∀ a, a < buf ∨ buf + size ≤ a → mem' a = mem a) ∧
    match y with
    | .error _ => s' = s
    | .ok len => ∃ path, Cstring mem' buf size path ∧ 0 ∉ path ∧ path.head? = some sep ∧
        (∃ s'', t.namei s' false path mem' 0 = some (.ok t.cwd, s'', mem')) ∧
        len = path.length + 1

/-- The buffer is refused; or there is no way up from a directory that is not behind a mount; or
the path has at least one name and leads back, and takes one byte less than half of the buffer. -/
def Invertible (t : Dirtree) (s : Counts) (grants : Bool) (size : Nat) : Prop :=
  verw grants size ≠ 0 ∨
    (∃ names q e, t.Climbs s names t.cwd q ∧ Fits names 0 (size - 1) ∧ q ≠ t.root ∧
      t.parent s q = .error e ∧ t.below q = q) ∨
    ∃ names, t.Climbs s names t.cwd t.root ∧ names ≠ [] ∧
      size = 2 * (pathOf names).length + 2 ∧ (pathOf names).length < PAGESIZE ∧
      t.way s (tokens (pathOf names)) t.root = some (.ok t.cwd)

theorem fits_iff : Fits names 0 (size - 1) ↔ Fits names buf (buf + (size - 1)) := by
  exact or_congr_right (by omega)

/-- Behind a mount the root was given up already. -/
theorem lose_hold_eq_iff {s' : Counts} (h : lose (hold s p) q = some s') : s' = s ↔ p = q := by
  obtain ⟨-, hs⟩ := Option.ite_none_left_eq_some.mp h
  cases hs
  constructor
  · intro heq
    have hp := congrFun heq p
    rw [lose_apply, hold_apply, if_pos rfl] at hp
    by_contra hne
    rw [if_neg hne] at hp
    omega
  · rintro rfl
    exact Counter.lose_hold s p

theorem lose_hold_hold_ne {s' : Counts} {c : Ref} (h : lose (hold (hold s c) p) q = some s') :
    s' ≠ s := by
  obtain ⟨-, hs⟩ := Option.ite_none_left_eq_some.mp h
  cases hs
  intro heq
  by_cases hpq : p = q
  · have hc := congrFun heq c
    rw [hpq, Counter.lose_hold, hold_apply, if_pos rfl] at hc
    omega
  · have hp := congrFun heq p
    rw [lose_apply, hold_apply, if_pos rfl, if_neg hpq, hold_apply] at hp
    omega

/-- What is stored leads back to the current directory. -/
theorem namei_pathOf_iff {s' : Counts} {path : Name} (hnul : 0 ∉ path) (hhead : path.head? = some sep) :
    (∃ s'', t.namei s' false path mem 0 = some (.ok t.cwd, s'', mem)) ↔
      path.length < PAGESIZE ∧ t.way s' (tokens path) t.root = some (.ok t.cwd) := by
  have hstart : t.start path = t.root := if_pos hhead
  by_cases hlen : path.length < PAGESIZE
  · rw [namei_eq hnul hlen, hstart]
    constructor
    · rintro ⟨s'', h⟩
      obtain ⟨y, hway, heq⟩ := Option.map_eq_some_iff.mp h
      cases heq
      exact ⟨hlen, hway⟩
    · rintro ⟨-, hway⟩
      exact ⟨_, by rw [hway]; rfl⟩
  · refine iff_of_false ?_ fun h => hlen h.1
    have hsize : ¬ (path.length < Scanstr.SIZE ∨ path.length < PAGESIZE) := by
      simp only [Scanstr.SIZE, PAGESIZE] at hlen ⊢
      omega
    rintro ⟨s'', h⟩
    simp [namei, Scanstr.construct, hsize] at h

/-- **`sysgetcwd` inverts lookup, or fails and gives back what it holds, if and only if it refuses
the buffer, or finds no way up from a directory that is not behind a mount, or the path leads back
and takes one byte less than half of the buffer.** -/
theorem sysgetcwd_iff (t : Dirtree) (s : Counts) (grants : Bool) (mem : Mem) (buf size : Nat) :
    (∃ y s' mem', t.sysgetcwd s grants mem buf size = some (y, s', mem') ∧
      t.Inverts s mem buf size y s' mem') ↔ t.Invertible s grants size := by
  by_cases hverw : verw grants size = 0
  swap
  · refine iff_of_true ?_ (.inl hverw)
    exact ⟨.error _, s, mem, if_pos hverw, fun _ _ => rfl, rfl⟩
  constructor
  · rintro ⟨y, s', mem', hget, hframe, hy⟩
    obtain ⟨names, q, hclimbs, hfits, hend⟩ := t.exists_climbs s t.cwd buf (buf + (size - 1))
    rcases hend with rfl | ⟨hq, e, hp⟩ | ⟨hq, p, hp, hlost⟩
    · obtain ⟨mem'', hget', hstr, -⟩ := sysgetcwd_root mem hverw hclimbs hfits
      cases hget.symm.trans hget'
      obtain ⟨path, hpath, hnul, hhead, hback, hlen⟩ := hy
      obtain rfl := hpath.unique hstr hnul hclimbs.nul
      obtain ⟨hpage, hway⟩ := (namei_pathOf_iff hnul hhead).mp hback
      refine .inr (.inr ⟨names, hclimbs, ?_, by omega, hpage, hway⟩)
      rintro rfl
      cases hhead
    · obtain ⟨mem'', n, hget', -, -⟩ := sysgetcwd_climb mem hverw hclimbs hfits
      rw [climb_error hq hp] at hget'
      obtain ⟨x, hx, htail⟩ := Option.bind_eq_some_iff.mp (hget'.symm.trans hget)
      obtain ⟨s'', hlose, rfl⟩ := Option.map_eq_some_iff.mp hx
      cases htail
      exact .inr (.inl ⟨names, q, e, hclimbs, fits_iff.mpr hfits, hq, hp,
        (lose_hold_eq_iff hlose).mp hy⟩)
    · obtain ⟨mem'', n, hget', -, -⟩ := sysgetcwd_climb mem hverw hclimbs hfits
      obtain ⟨e, hclimb⟩ := @climb_lost _ n _ _ _ _ _ _ hq hp hlost
      rw [hclimb] at hget'
      obtain ⟨x, hx, htail⟩ := Option.bind_eq_some_iff.mp (hget'.symm.trans hget)
      obtain ⟨s'', hlose, rfl⟩ := Option.map_eq_some_iff.mp hx
      cases htail
      exact absurd hy (lose_hold_hold_ne hlose)
  · rintro (hrefused | ⟨names, q, e, hclimbs, hfits, hq, hp, hbelow⟩ |
      ⟨names, hclimbs, hne, hsize, hpage, hway⟩)
    · exact absurd hverw hrefused
    · obtain ⟨mem', n, hget, -, hframe⟩ := sysgetcwd_climb mem hverw hclimbs (fits_iff.mp hfits)
      rw [climb_error hq hp, hbelow, lose_hold] at hget
      exact ⟨.error e, s, mem', hget, hframe, rfl⟩
    · have hfits : Fits names buf (buf + (size - 1)) := .inr (by omega)
      obtain ⟨mem', hget, hstr, hframe⟩ := sysgetcwd_root mem hverw hclimbs hfits
      have hhead := pathOf_head hne
      refine ⟨_, s, mem', hget, hframe, pathOf names, hstr, hclimbs.nul, hhead, ?_, by omega⟩
      exact (namei_pathOf_iff hclimbs.nul hhead).mpr ⟨hpage, hway⟩

/-- In the root of the volume on `/x`, with a buffer of 100 bytes, 97 comes back. -/
theorem getcwd_returns_room :
    ¬ ∃ y s' mem', (nested (2, 1)).sysgetcwd (fun _ => 1) true (fun _ => 0) 0 100 =
        some (y, s', mem') ∧
      (nested (2, 1)).Inverts (fun _ => 1) (fun _ => 0) 0 100 y s' mem' := by
  have hclimbs : (nested (2, 1)).Climbs (fun _ => 1) [[0x78]] (2, 1) (1, 1) :=
    ⟨by decide, (1, 1), rfl, rfl, rfl⟩
  obtain ⟨mem', hget, hstr, -⟩ := @sysgetcwd_root _ _ _ 0 true 100 (fun _ => 0) rfl hclimbs
    (.inr (by decide))
  rintro ⟨y, s', mem'', hget', -, hy⟩
  cases hget.symm.trans hget'
  obtain ⟨path, hpath, hnul, -, -, hlen⟩ := hy
  obtain rfl := hpath.unique hstr hnul hclimbs.nul
  cases hlen

end Dirtree

end Unixlite.Fs
