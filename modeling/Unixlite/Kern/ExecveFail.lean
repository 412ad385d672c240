import Unixlite.Kern.ExecveArgs
import Unixlite.Verified.Counter

/-!
# Failing calls

A call that fails gives back what it holds and leaves the task alone, but in two places
(`execve_harmless_iff`): behind `flush` nothing is left of the old program, and an interpreter
whose name finds no room any more is not given back.
-/

namespace Unixlite.Kern.Execve

open Unixlite.Fs hiding PAGESIZE
open Unixlite.Mm Unixlite.Verified Label Counter Ustack
open List

variable {c : Call} {x y : Exec} {k : Caller} {items rest : List Item} {l : List Ref}
  {path : Name} {toks : List Name} {head : Head}

/-! ## What is held -/

/-- What the call has taken is what it holds, and these inodes. -/
structure Held (c : Call) (l : List Ref) (x : Exec) : Prop where
  icount : Taken c.icount x.icount (x.inode.toList ++ l)
  bcount : Taken c.bcount x.bcount (x.head.toList.map Head.key)

theorem Held.losehead (h : Held c l x) : Taken c.bcount x.losehead.bcount [] := by
  have hbcount := h.bcount
  unfold Exec.losehead
  cases hhead : x.head with
  | none =>
      rw [hhead] at hbcount
      exact hbcount
  | some head =>
      rw [hhead] at hbcount
      exact hbcount.lose_head

theorem Held.loseinode (h : Held c l x) : Taken c.icount x.loseinode.icount l := by
  have hicount := h.icount
  unfold Exec.loseinode
  cases hinode : x.inode with
  | none =>
      rw [hinode] at hicount
      exact hicount
  | some r =>
      rw [hinode] at hicount
      exact hicount.lose_head

theorem start_held (c : Call) : Held c [] c.start := ⟨.refl _, .refl _⟩

/-- An inode is found, and then it is held. -/
theorem Held.setinode (h : Held c [] x) (hnone : x.inode = none) (r : Ref) :
    Held c [] (Exec.setinode r { x with icount := hold x.icount r }) := by
  have hicount := h.icount
  rw [hnone] at hicount
  exact ⟨hicount.hold r, h.bcount⟩

theorem Held.setinterp (h : Held c [] x) (i : Ref) :
    Held c [i] (Exec.setinterp i { x with icount := hold x.icount i }) := by
  refine ⟨(h.icount.hold i).of_perm ?_, h.bcount⟩
  rw [append_nil]
  exact (perm_append_singleton i x.inode.toList).symm

/-- The interpreter is held in the place of the script. -/
theorem Held.interpret {i : Ref} (h : Held c [i] x) (hi : x.interp = some i) :
    Held c [] x.interpret ∧ x.interpret.head = none := by
  have hinode : x.interpret.inode = some i := hi
  refine ⟨⟨?_, h.losehead⟩, rfl⟩
  rw [hinode]
  have hhead : Held c [i] { x with head := none, bcount := x.losehead.bcount } :=
    ⟨h.icount, h.losehead⟩
  exact hhead.loseinode

/-- The first block is held if it is there. -/
theorem check_held (h : Held c [] x) (hnone : x.head = none) :
    (c.check x).Meets (Held c []) (fun _ => Held c []) fun _ => True := by
  have hbcount := h.bcount
  rw [hnone] at hbcount
  unfold Call.check
  split
  · exact trivial
  next r hinode =>
  dsimp only
  have hx : ∀ euid egid, Held c [] { x with head := none, euid := euid, egid := egid } :=
    fun euid egid => ⟨h.icount, hbcount⟩
  split
  · exact hx _ _
  split
  · exact hx _ _
  split
  · exact hx _ _
  split
  · exact hx _ _
  · exact ⟨h.icount, hbcount.hold _⟩

/-! ## Where a call fails -/

/-- The first block of the file is that of a script. -/
def Call.scripted (c : Call) : Bool :=
  match c.opened with
  | .next x => x.head.elim false fun head => matchscript head.data
  | _ => false

/-- It is not the name of the interpreter that does not find room. -/
def Early (c : Call) (x : Exec) : Prop :=
  c.scripted = true → none ∈ c.items ∨ x.ustack.Live c.supply c.strings ∨
    x.ustack.Spent c.supply (size c.strings.tail)

/-- It is, and the interpreter is held besides. -/
structure Lost (c : Call) (x : Exec) : Prop where
  script : c.scripted = true
  items : none ∉ c.items
  before : ∃ u : Ustack, u.Live c.supply c.strings.tail
  spent : x.ustack.Spent c.supply (size c.strings)
  held : ∃ i, Held c [i] x

theorem Early.of_none (h : none ∈ c.items) : Early c x := fun _ => .inl h

theorem Left.early (h : Left c [] x) : Early c x := fun _ => .inr (.inl h.live)

theorem Left.none_mem (h : Left c (none :: rest) x) : none ∈ c.items := by
  obtain ⟨pre, heq, -⟩ := h
  rw [heq]
  exact mem_append_right _ mem_cons_self

/-- What stops the call before the last item leaves the others on the stack. -/
theorem Halted.early (h : Halted c rest x) (hrest : rest ≠ []) : Early c x := by
  intro _
  obtain ⟨items, heq, pre, post, hsome, ⟨rfl, -⟩ | ⟨rfl, -, hspent⟩⟩ := h
  · refine .inl ?_
    rw [heq]
    simp
  · obtain ⟨item, more, hmore⟩ := exists_cons_of_ne_nil
      (show post ++ rest ≠ [] from append_ne_nil_of_right_ne_nil post hrest)
    rw [append_assoc, hmore] at heq
    cases item with
    | none =>
        refine .inl ?_
        rw [heq]
        simp
    | some str =>
        have hstrings : c.strings = ((wants more).reverse ++ [str]) ++ (wants pre).reverse := by
          rw [Call.strings, heq, wants_append hsome, reverse_append]
          exact congrArg (· ++ _) reverse_cons
        have htail : c.strings.tail =
            ((wants more).reverse ++ [str]).tail ++ (wants pre).reverse := by
          rw [hstrings, tail_append_of_ne_nil (by simp)]
        rw [append_nil] at hspent
        refine .inr (.inr (hspent.mono ?_))
        rw [htail]
        exact size_le_append _

/-- All items are strings, and the last one is still to be pushed. -/
theorem Left.last {str : Name} (h : Left c [some str] x) :
    none ∉ c.items ∧ x.ustack.Live c.supply c.strings.tail := by
  obtain ⟨pre, heq, hsome, hlive⟩ := h
  have hstrings : c.strings = str :: (wants pre).reverse := by
    rw [Call.strings, heq, wants_append hsome]
    exact reverse_append
  refine ⟨?_, ?_⟩
  · rw [heq]
    simp [hsome]
  · rw [hstrings]
    exact hlive

theorem Halted.spent (h : Halted c [] x) (hitems : none ∉ c.items) :
    x.ustack.Spent c.supply (size c.strings) := by
  obtain ⟨items, heq, pre, post, hsome, ⟨rfl, -⟩ | ⟨rfl, -, hspent⟩⟩ := h
  · refine absurd ?_ hitems
    rw [heq]
    simp
  · rw [append_nil] at heq hspent
    refine hspent.mono ?_
    rw [Call.strings, heq, wants_append hsome, reverse_append]
    exact size_le_append _

/-- What a call is in when it fails before `flush`. -/
def Undone (c : Call) (x : Exec) : Prop := Early c x ∧ Held c [] x ∨ Lost c x

theorem worditems_ne_nil (icount : Counts) (h : toks ≠ []) : c.worditems icount toks ≠ [] := by
  cases toks with
  | nil => exact absurd rfl h
  | cons tok toks =>
      rw [Call.worditems]
      split
      · split
        · exact cons_ne_nil _ _
        · exact cons_ne_nil _ _
      · exact cons_ne_nil _ _

/-- From its lookup on the interpreter is held. -/
theorem parsewords_undone (hscript : c.scripted = true) (hne : toks ≠ [])
    (hnul : ∀ tok ∈ toks, 0 ∉ tok) (hleft : Left c (c.worditems x.icount toks) x)
    (hheld : Held c [] x) :
    (c.parsewords toks x).Meets
      (fun y => Left c [] y ∧ ∃ i, y.interp = some i ∧ Held c [i] y) (fun _ => Undone c)
      (Early c) := by
  induction toks generalizing x with
  | nil => exact absurd rfl hne
  | cons tok toks ih =>
      rw [Call.worditems] at hleft
      rw [Call.parsewords]
      cases toks with
      | nil =>
          unfold Call.lookup
          obtain hnamei | ⟨e, hnamei⟩ | ⟨i, hnamei⟩ :=
            Dirtree.namei_cases c.tree x.icount c.kmem 0 (hnul tok mem_cons_self)
          · rw [hnamei] at hleft ⊢
            exact .of_none hleft.none_mem
          · rw [hnamei] at hleft ⊢
            exact .inl ⟨.of_none hleft.none_mem, hheld⟩
          · rw [hnamei] at hleft ⊢
            have hname : Left c ([some (scriptbase tok)] ++ [])
                (Exec.setinterp i { x with icount := hold x.icount i }) := hleft
            obtain ⟨hitems, hbefore⟩ := hname.last
            have hinterp := hheld.setinterp i
            refine hname.pushed (fun strs hlive => hlive.pushkstr_passes (scriptbase tok))
              (fun hhalted => .inr ?_) fun hy => ?_
            · exact ⟨hscript, hitems, ⟨_, hbefore⟩, hhalted.spent hitems, i, hinterp.icount,
                hinterp.bcount⟩
            · exact ⟨hy.setcounts _ _, i, rfl, hinterp.icount, hinterp.bcount⟩
      | cons tok' toks =>
          have hname : Left c ([some tok] ++ c.worditems x.icount (tok' :: toks)) x := hleft
          refine hname.pushed (fun strs hlive => hlive.pushkstr_passes tok) (fun hhalted => .inl ?_)
            fun hy => ?_
          · have hrest := worditems_ne_nil (c := c) x.icount (cons_ne_nil tok' toks)
            exact ⟨hhalted.early hrest, hheld.icount, hheld.bcount⟩
          · exact ih (cons_ne_nil tok' toks) (fun t ht => hnul t (mem_cons_of_mem tok ht))
              (hy.setcounts _ _) ⟨hheld.icount, hheld.bcount⟩

theorem lineitems_ne_nil (icount : Counts) (head : Head) : c.lineitems icount head ≠ [] := by
  unfold Call.lineitems
  split
  · exact cons_ne_nil _ _
  · split
    · exact cons_ne_nil _ _
    · next hwords => exact worditems_ne_nil icount (by simpa using hwords)

theorem parsescript_undone (hscript : c.scripted = true)
    (hleft : Left c (c.lineitems x.icount head) x) (hheld : Held c [] x) :
    (c.parsescript head x).Meets
      (fun y => Left c [] y ∧ ∃ i, y.interp = some i ∧ Held c [i] y) (fun _ => Undone c)
      (Early c) := by
  unfold Call.lineitems at hleft
  unfold Call.parsescript
  split
  · next hline =>
    rw [hline] at hleft
    exact .inl ⟨.of_none hleft.none_mem, hheld.icount, hheld.bcount⟩
  · next line hline =>
    rw [hline] at hleft
    dsimp only at hleft
    split
    · next hwords =>
      rw [if_pos hwords] at hleft
      exact .inl ⟨.of_none hleft.none_mem, hheld.icount, hheld.bcount⟩
    · next hwords =>
      rw [if_neg hwords] at hleft
      have hnul : ∀ tok ∈ scriptwords line, 0 ∉ tok := fun tok htok hzero =>
        scriptline_terminated hline (Words.words_subset (mem_reverse.mp htok) hzero)
      exact parsewords_undone hscript (by simpa using hwords) hnul hleft ⟨hheld.icount, hheld.bcount⟩

/-- The file, or its interpreter, is held when the arguments are pushed. -/
theorem args_undone {path : Ustr} (hpath : c.pathname = some path) (hhead : x.head = some head)
    (hscript : c.scripted = matchscript head.data) (hleft : Left c (c.argitems x.icount path head) x)
    (hheld : Held c [] x) :
    (c.args x).Meets (fun y => Left c [] y ∧ Held c [] y) (fun _ => Undone c) (Early c) := by
  have hsame : ∀ u : Ustack, Held c [] { x with ustack := u } := fun _ =>
    ⟨hheld.icount, hheld.bcount⟩
  unfold Call.args
  rw [hpath, hhead]
  dsimp only
  cases hmatch : matchscript head.data with
  | false =>
      have hearly : ∀ y, Early c y := fun y h => by
        rw [hscript, hmatch] at h
        cases h
      unfold Call.argitems at hleft
      rw [hmatch, if_neg Bool.false_ne_true] at hleft
      refine hleft.pushed (fun strs hlive => hlive.pushuvec c.envp)
        (fun _ => .inl ⟨hearly _, hsame _⟩) fun hy => ?_
      rw [← append_nil (uvecitems c.argv)] at hy
      refine (hy.setcounts _ _).pushed (fun strs hlive => hlive.pushuvec c.argv)
        (fun _ => .inl ⟨hearly _, hsame _⟩) fun hz => ⟨hz.setcounts _ _, hsame _⟩
  | true =>
      unfold Call.argitems at hleft
      rw [hmatch, if_pos rfl] at hleft
      refine hleft.pushed (fun strs hlive => hlive.pushuvec c.envp)
        (fun hhalted => .inl ⟨hhalted.early (by simp), hsame _⟩) fun hy => ?_
      refine (hy.setcounts _ _).pushed (fun strs hlive => hlive.pushuvec c.argv.tail)
        (fun hhalted => .inl ⟨hhalted.early (by simp), hsame _⟩) fun hz => ?_
      refine (hz.setcounts _ _).pushed (fun strs hlive => hlive.pushustr path)
        (fun hhalted => .inl ⟨hhalted.early (lineitems_ne_nil _ _), hsame _⟩) fun hw => ?_
      refine (parsescript_undone (hscript.trans hmatch) (hw.setcounts _ _) (hsame _)).andThen
        fun v hv => ?_
      obtain ⟨hv, i, hi, hinterp⟩ := hv
      obtain ⟨hheld', hnone⟩ := hinterp.interpret hi
      have hkeep := (check_keeps c v.interpret).and (check_held hheld' hnone)
      have hleft' : ∀ u : Exec, u.ustack = v.interpret.ustack → Left c [] u :=
        fun u hu => hv.congr hu
      exact hkeep.mono (fun u hu => ⟨hleft' u hu.1, hu.2⟩)
        (fun _ u hu => .inl ⟨(hleft' u hu.1).early, hu.2⟩) fun u hu => (hleft' u hu.1).early

theorem opened_held (c : Call) : c.opened.Meets (Held c []) (fun _ => Held c []) fun _ => True := by
  unfold Call.opened
  split
  · exact trivial
  next path _ =>
  unfold Call.lookup
  obtain hnamei | ⟨e, hnamei⟩ | ⟨r, hnamei⟩ :=
    Dirtree.namei_cases c.tree c.start.icount c.kmem 0 path.terminated
  · rw [hnamei]
    exact trivial
  · rw [hnamei]
    exact start_held c
  · rw [hnamei]
    exact check_held ((start_held c).setinode rfl r) rfl

/-- Before `flush` a call gives back what it holds, unless it loses an interpreter. -/
theorem prepare_undone (c : Call) : c.prepare.Meets (Left c []) (fun _ => Undone c) (Early c) := by
  have hkeep := opened_keeps c
  have hheld := opened_held c
  have hnone : (∀ x, c.opened ≠ .next x) → ∀ x, Early c x := fun h x =>
    .of_none (items_of_not h ▸ mem_cons_self)
  unfold Call.prepare
  cases hopened : c.opened with
  | error e x =>
      rw [hopened] at hheld
      exact .inl ⟨hnone (by simp [hopened]) x, hheld⟩
  | stop x => exact hnone (by simp [hopened]) x
  | next x =>
      rw [hopened] at hkeep hheld
      have haccept : ∀ y, Left c [] y ∧ Held c [] y →
          y.accept.Meets (Left c []) (fun _ => Undone c) (Early c) := by
        intro y hy
        unfold Exec.accept
        split
        · exact hy.1.early
        split
        · exact .inl ⟨hy.1.early, hy.2⟩
        · exact hy.1
      rw [Flow.next_andThen]
      refine Flow.Meets.andThen ?_ haccept
      obtain ⟨path, hpath, ⟨hhead, hitems⟩ | ⟨head, hhead, hitems⟩⟩ := items_of_opened hopened
      · unfold Call.args
        rw [hpath, hhead]
        exact .of_none (hitems ▸ mem_cons_self)
      · have hscript : c.scripted = matchscript head.data := by
          unfold Call.scripted
          rw [hopened]
          dsimp only
          rw [hhead]
          rfl
        exact args_undone hpath hhead hscript (start_left hkeep hitems) hheld

/-! ## The end of a failing call -/

/-- An error leaves the counts, the task and its memory as they were. -/
structure Unchanged (c : Call) (k : Caller) (r : Result) : Prop where
  icount : r.exec.icount = c.icount
  bcount : r.exec.bcount = c.bcount
  cred : r.cred = c.tree.cred
  caller : r.caller = k

def Harmless (c : Call) : Prop := ∀ k e, (sysexecve c k).out = some e → e ≠ 0 →
  Unchanged c k (sysexecve c k)

/-- `loadelf` or `initustack` fails, and the pages can be freed. -/
def FailsLate (c : Call) : Prop := c.low = false ∧ c.supply.page 0 ≠ 0 ∧
  ∃ x r head e y, c.prepare = .next x ∧ x.inode = some r ∧ x.head = some head ∧
    c.load r head x = .error e y

/-- The strings of a script fill the pages, and the name of the interpreter comes after them; what
stands before the array can be freed. -/
structure LosesInterp (c : Call) : Prop where
  low : c.low = false
  script : c.scripted = true
  items : none ∉ c.items
  served : c.supply.Served (MAXARGPAGE * PAGESIZE)
  fits : size c.strings.tail ≤ MAXARGPAGE * PAGESIZE
  past : MAXARGPAGE * PAGESIZE < size c.strings
  before : c.supply.vtop (c.before (-1)) = true ∧
    (∀ j < MAXARGPAGE, c.supply.page j ≠ c.before (-1)) ∧ c.others (c.before (-1)) = true

/-- What stands before the array is never written. -/
theorem below_kept (s : Supply) (page : Int → Nat) :
    Kept s fun u => ∀ i < 0, u.page i = page i where
  room := fun u h i hi => ((Grows.room s u).page i (.inr hi)).trans (h i hi)
  lower := fun u _ h _ _ i hi => ((Grows.room s u).page i (.inr hi)).trans (h i hi)
  put := fun u _ h _ i hi => ((Grows.room s u).page i (.inr hi)).trans (h i hi)

theorem prepare_below (c : Call) : Always (fun u => ∀ i < 0, u.page i = c.before i) c.prepare :=
  prepare_always (below_kept c.supply c.before) (fun _ _ _ h => h) fun _ _ => rfl

/-- `giveup` comes back if `destroy` does, and then with the error. -/
theorem giveup_cases (e : Int) (x : Exec) (cred : Cred) (k : Caller) (y : Newstack) :
    ((c.giveup e x cred k y).out = none ∧ x.ustack.destroy c.supply c.others = none ∨
      (c.giveup e x cred k y).out = some e ∧
        (x.ustack.destroy c.supply c.others).isSome = true) ∧
    (c.giveup e x cred k y).exec = x.losehead.loseinode ∧
      (c.giveup e x cred k y).cred = cred ∧
      (c.giveup e x cred k y).caller = { k with space := y.space, mem := y.umem.mem } := by
  unfold Call.giveup
  dsimp only
  split
  · next hdestroy => exact ⟨.inl ⟨rfl, hdestroy⟩, rfl, rfl, rfl⟩
  · next freed hdestroy =>
    have hsome : (x.ustack.destroy c.supply c.others).isSome = true :=
      Option.isSome_iff_exists.mpr ⟨freed, hdestroy⟩
    exact ⟨.inr ⟨rfl, hsome⟩, rfl, rfl, rfl⟩

/-- Only what is held besides is not given back. -/
theorem Held.giveup (h : Held c l x) :
    Taken c.icount x.losehead.loseinode.icount l ∧ x.losehead.loseinode.bcount = c.bcount :=
  ⟨h.loseinode, h.losehead.eq⟩

theorem not_served_of_starved (h : c.supply.page 0 = 0) :
    ¬ c.supply.Served (MAXARGPAGE * PAGESIZE) := fun hserved => hserved.2 0 (by decide) h

/-- With so many bytes all pages are served. -/
theorem size_le_of_live (hserved : c.supply.Served (MAXARGPAGE * PAGESIZE)) {u : Ustack}
    {strs : List Name} (h : u.Live c.supply strs) : size strs ≤ MAXARGPAGE * PAGESIZE := by
  obtain ⟨hpushed, -⟩ | ⟨hnone, -⟩ := h
  · exact Nat.le_trans hpushed.size_le.1 hpushed.size_le.2
  · exact absurd hserved (not_served_of_starved hnone)

/-- If the call comes back it has lost the interpreter. -/
theorem Lost.interp (h : Lost c x) (hlow : c.low = false)
    (hbefore : ∀ i < 0, x.ustack.page i = c.before i)
    (hdestroy : (x.ustack.destroy c.supply c.others).isSome = true) : LosesInterp c := by
  obtain ⟨hscript, hitems, ⟨u, hlive⟩, ⟨hspent, hover | ⟨-, hstarved⟩⟩, -⟩ := h
  · have hfree := hover.destroy.mp hdestroy
    rw [hbefore (-1) (by decide)] at hfree
    refine ⟨hlow, hscript, hitems, hover.served, size_le_of_live hover.served hlive, ?_, hfree⟩
    by_contra hle
    exact hspent (hover.served.mono (not_lt.mp hle))
  · rw [hstarved.destroy] at hdestroy
    cases hdestroy

/-- If the interpreter's name is the first that finds no room, it is lost. -/
theorem LosesInterp.lost (h : LosesInterp c) : ∃ e x, c.prepare = .error e x ∧ Lost c x ∧
    (x.ustack.destroy c.supply c.others).isSome = true := by
  have hundone := prepare_undone c
  have hbelow := prepare_below c
  have hearly : ∀ x, ¬ Early c x := by
    intro x hx
    obtain hnone | hlive | hspent := hx h.script
    · exact h.items hnone
    · exact absurd (size_le_of_live h.served hlive) (not_le.mpr h.past)
    · exact hspent.1 (h.served.mono h.fits)
  cases hprepare : c.prepare with
  | next x =>
      rw [hprepare] at hundone
      exact absurd hundone.early (hearly x)
  | stop x =>
      rw [hprepare] at hundone
      exact absurd hundone (hearly x)
  | error e x =>
      rw [hprepare] at hundone hbelow
      obtain ⟨hx, -⟩ | hlost := hundone
      · exact absurd hx (hearly x)
      · refine ⟨e, x, rfl, hlost, ?_⟩
        obtain hover | ⟨hnot, -⟩ := hlost.spent.2
        · rw [hover.destroy, hbelow (-1) (by decide)]
          exact h.before
        · exact absurd h.served hnot

/-! ## Harmless calls -/

/-- `pending` has no descriptor to be closed. -/
theorem flush_pending (c : Call) : ∃ k', c.flush pending = some k' ∧
    k'.task = pending.task.flush := by
  exact ⟨_, rfl, rfl⟩

theorem FailsLate.not_harmless (h : FailsLate c) : ¬ Harmless c := by
  intro hharmless
  obtain ⟨hlow, hpage, x, r, head, e, y, hprepare, hinode, hhead, hload⟩ := h
  obtain ⟨k', hflush, htask⟩ := flush_pending c
  have hleft := prepare_left c
  have hne := load_fails c r head x
  rw [hprepare] at hleft
  rw [hload] at hne
  have hcall := Flushes.call ⟨hlow, hprepare, hflush, hinode, hhead⟩
  rw [hload] at hcall
  obtain ⟨hpushed, -⟩ | ⟨hnone, -⟩ := hleft.live
  · obtain ⟨⟨-, hdestroy⟩ | ⟨hout, -⟩, -, -, hcaller⟩ := giveup_cases (c := c) e x
      { c.tree.cred with euid := x.euid, egid := x.egid } k' y.2
    · rw [hpushed.destroy] at hdestroy
      cases hdestroy
    · have hsame := (hharmless pending e (hcall ▸ hout) hne).caller
      rw [hcall] at hsame
      have htask' := congrArg Caller.task (hcaller.symm.trans hsame)
      have hsigset := congrArg (fun t => t.sigset.bits) (htask.symm.trans htask')
      exact absurd hsigset (by decide)
  · exact hpage hnone

theorem LosesInterp.not_harmless (h : LosesInterp c) : ¬ Harmless c := by
  intro hharmless
  obtain ⟨e, x, hprepare, hlost, hdestroy⟩ := h.lost
  have hne := prepare_fails c
  rw [hprepare] at hne
  obtain ⟨i, hheld⟩ := hlost.held
  obtain ⟨⟨-, hnone⟩ | ⟨hout, -⟩, hexec, -⟩ := giveup_cases (c := c) e x c.tree.cred pending
    (Call.untouched pending)
  · rw [hnone] at hdestroy
    cases hdestroy
  · have hcall : sysexecve c pending =
        c.giveup e x c.tree.cred pending (Call.untouched pending) := by
      unfold sysexecve
      rw [h.low, if_neg Bool.false_ne_true, hprepare]
    have hsame := (hharmless pending e (hcall ▸ hout) hne).icount
    rw [hcall, hexec] at hsame
    exact hheld.giveup.1.ne mem_cons_self (congrFun hsame i)

end Unixlite.Kern.Execve
