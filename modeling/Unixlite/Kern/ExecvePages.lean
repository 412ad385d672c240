import Unixlite.Kern.Execve

/-!
# The argument pages of a call

What a call pushes is a list of strings that is known before (`Call.strings`), and its pages are
as they should be at the end exactly if there is room for these and the pages for them are there
(`execve_pages_iff`).
-/

namespace Unixlite.Kern.Execve

open Unixlite.Fs hiding PAGESIZE
open Unixlite.Mm Unixlite.Verified Label Ustack
open List

namespace Call

variable (c : Call)

/-! ## What is pushed -/

/-- The words of a script; the interpreter is looked up before its name is pushed. -/
def worditems (icount : Counts) : List Name → List Item
  | [] => []
  | tok :: toks =>
      if toks.isEmpty then
        match c.tree.namei icount false tok c.kmem 0 with
        | some (.ok _, _, _) => some (scriptbase tok) :: worditems icount toks
        | _ => [none]
      else some tok :: worditems icount toks

def lineitems (icount : Counts) (head : Head) : List Item :=
  match scriptline head.data with
  | none => [none]
  | some line =>
      if (scriptwords line).isEmpty then [none] else c.worditems icount (scriptwords line)

def argitems (icount : Counts) (path : Ustr) (head : Head) : List Item :=
  uvecitems c.envp ++
    if matchscript head.data then
      uvecitems c.argv.tail ++ ([path.item] ++ c.lineitems icount head)
    else uvecitems c.argv

/-- What the call pushes, in this order. -/
def items : List Item :=
  match c.opened, c.pathname with
  | .next x, some path =>
      match x.head with
      | some head => c.argitems x.icount path head
      | none => [none]
  | _, _ => [none]

/-- The strings that it pushes, the last one first. -/
def strings : List Name := (wants c.items).reverse

end Call

variable {c : Call} {x y : Exec} {items rest : List Item} {k : Caller}

/-! ## The stack at each step -/

/-- These items are still to be pushed. -/
def Left (c : Call) (items : List Item) (x : Exec) : Prop :=
  ∃ pre, c.items = pre ++ items ∧ none ∉ pre ∧ x.ustack.Live c.supply (wants pre).reverse

/-- Nothing is pushed any more. -/
def Done (c : Call) (x : Exec) : Prop := x.ustack.Ends c.supply c.strings

/-- An item before these has stopped the call. -/
def Halted (c : Call) (rest : List Item) (x : Exec) : Prop :=
  ∃ items, c.items = items ++ rest ∧ Blocked c.supply [] items x.ustack

theorem Left.halted (h : Left c (none :: rest) x) : Halted c rest x := by
  obtain ⟨pre, heq, hsome, hlive⟩ := h
  refine ⟨pre ++ [none], by rw [heq, append_assoc, singleton_append], pre, [], hsome, ?_⟩
  exact .inl ⟨rfl, (append_nil _).symm ▸ hlive⟩

theorem Halted.done (h : Halted c rest x) : Done c x := by
  obtain ⟨items, heq, hblocked⟩ := h
  have hends := (hblocked.append rest).ends
  rw [← heq, append_nil] at hends
  exact hends

theorem Left.done (h : Left c (none :: items) x) : Done c x := h.halted.done

/-- A push is done, or it stops the call. -/
theorem Left.pushed {r : Int × Ustack} {f : Exec → Flow Exec} {N S : Exec → Prop}
    {E : Int → Exec → Prop} (h : Left c (items ++ rest) x)
    (hr : ∀ strs, x.ustack.Live c.supply strs → Passes c.supply strs items r)
    (hE : Halted c rest { x with ustack := r.2 } → E r.1 { x with ustack := r.2 })
    (hf : Left c rest { x with ustack := r.2 } → (f { x with ustack := r.2 }).Meets N E S) :
    ((x.pushed r).andThen f).Meets N E S := by
  obtain ⟨pre, heq, hsome, hlive⟩ := h
  unfold Exec.pushed
  obtain ⟨he, hsome', hlive'⟩ | ⟨he, hblocked⟩ := hr _ hlive
  · rw [if_neg (not_not.mpr he)]
    refine hf ⟨pre ++ items, by rw [heq, append_assoc], ?_, ?_⟩
    · exact fun hmem => (mem_append.mp hmem).elim hsome hsome'
    · rw [wants_append hsome, reverse_append]
      exact hlive'
  · rw [if_pos he]
    refine hE ⟨pre ++ items, by rw [heq, append_assoc], Blocked.behind hsome ?_⟩
    rw [append_nil]
    exact hblocked

/-- The counts of the arguments do not matter. -/
theorem Left.setcounts (h : Left c items x) (argc envc : Nat) :
    Left c items { x with ustack := { x.ustack with argc := argc, envc := envc } } := by
  obtain ⟨pre, heq, hsome, hlive⟩ := h
  refine ⟨pre, heq, hsome, hlive.imp (fun h => ⟨⟨h.1.served, h.1.asked, h.1.base, h.1.page, h.1.sp⟩,
    h.2⟩) fun h => h⟩

theorem Left.congr (h : Left c items x) (hy : y.ustack = x.ustack) : Left c items y := by
  obtain ⟨pre, heq, hsome, hlive⟩ := h
  exact ⟨pre, heq, hsome, hy ▸ hlive⟩

/-- The step leaves the stack alone. -/
def Keeps (f : Exec → Flow Exec) : Prop :=
  ∀ x, (f x).Meets (fun y => y.ustack = x.ustack) (fun _ y => y.ustack = x.ustack)
    fun y => y.ustack = x.ustack

theorem lookup_keeps (c : Call) (path : Name) (set : Ref → Exec → Exec)
    (hset : ∀ r x, (set r x).ustack = x.ustack) : Keeps (c.lookup path set) := by
  intro x
  unfold Call.lookup
  split
  · exact rfl
  · exact rfl
  · exact hset _ _

theorem check_keeps (c : Call) : Keeps c.check := by
  intro x
  unfold Call.check
  split
  · exact rfl
  dsimp only
  split
  · exact rfl
  split
  · exact rfl
  split
  · exact rfl
  split
  · exact rfl
  · exact rfl

theorem opened_keeps (c : Call) : c.opened.Meets (fun x => x.ustack = c.start.ustack)
    (fun _ x => x.ustack = c.start.ustack) fun x => x.ustack = c.start.ustack := by
  unfold Call.opened
  split
  · exact rfl
  · refine (lookup_keeps c _ Exec.setinode (fun _ _ => rfl) c.start).andThen fun x hx => ?_
    exact (check_keeps c x).mono (fun y hy => hy.trans hx) (fun _ y hy => hy.trans hx)
      fun y hy => hy.trans hx

theorem start_live (c : Call) : c.start.ustack.Live c.supply [] := push_live c.before c.kmem

/-- The words of a script. -/
theorem parsewords_left (toks : List Name) (h : Left c (c.worditems x.icount toks) x) :
    (c.parsewords toks x).Meets (Left c []) (fun _ => Done c) (Done c) := by
  induction toks generalizing x with
  | nil => exact h
  | cons tok toks ih =>
      rw [Call.worditems] at h
      rw [Call.parsewords]
      cases toks with
      | nil =>
          simp only [isEmpty_nil, if_true] at h ⊢
          unfold Call.lookup
          split
          · next hnamei =>
            rw [hnamei] at h
            exact h.done
          · next e icount mem hnamei =>
            rw [hnamei] at h
            exact h.done
          · next r icount mem hnamei =>
            rw [hnamei] at h
            have hleft : Left c ([some (scriptbase tok)] ++ [])
                (Exec.setinterp r { x with icount := icount }) := h
            exact hleft.pushed (fun strs hlive => hlive.pushkstr_passes (scriptbase tok))
              Halted.done fun hy => hy.setcounts _ _
      | cons tok' toks =>
          have hleft : Left c ([some tok] ++ c.worditems x.icount (tok' :: toks)) x := h
          exact hleft.pushed (fun strs hlive => hlive.pushkstr_passes tok) Halted.done
            fun hy => ih (hy.setcounts _ _)

theorem parsescript_left {head : Head} (h : Left c (c.lineitems x.icount head) x) :
    (c.parsescript head x).Meets (Left c []) (fun _ => Done c) (Done c) := by
  unfold Call.lineitems at h
  unfold Call.parsescript
  split
  · next hline =>
    rw [hline] at h
    exact h.done
  · next line hline =>
    rw [hline] at h
    dsimp only at h
    split
    · next hwords =>
      rw [if_pos hwords] at h
      exact h.done
    · next hwords =>
      rw [if_neg hwords] at h
      exact parsewords_left _ h

/-- All items have been strings, and these are on the stack. -/
theorem Left.live (h : Left c [] x) : x.ustack.Live c.supply c.strings := by
  obtain ⟨pre, heq, -, hlive⟩ := h
  rw [append_nil] at heq
  unfold Call.strings
  rwa [heq]

theorem Left.ends (h : Left c [] x) : Done c x := .inl h.live

theorem Done.congr (h : Done c x) (hy : y.ustack = x.ustack) : Done c y := by
  unfold Done at *
  rw [hy]
  exact h

/-- All arguments are pushed. -/
theorem args_left {path : Ustr} {head : Head} (hpath : c.pathname = some path)
    (hhead : x.head = some head) (h : Left c (c.argitems x.icount path head) x) :
    (c.args x).Meets (Left c []) (fun _ => Done c) (Done c) := by
  unfold Call.args
  rw [hpath, hhead]
  have hleft : Left c (uvecitems c.envp ++ _) x := h
  refine hleft.pushed (fun strs hlive => hlive.pushuvec c.envp) Halted.done fun hy => ?_
  split
  · next hscript =>
    rw [if_pos hscript] at hy
    refine (hy.setcounts _ _).pushed (fun strs hlive => hlive.pushuvec c.argv.tail) Halted.done
      fun hz => ?_
    refine (hz.setcounts _ _).pushed (fun strs hlive => hlive.pushustr path) Halted.done fun hw => ?_
    refine (parsescript_left (hw.setcounts _ _)).andThen fun v hv => ?_
    exact (check_keeps c v.interpret).mono (fun u hu => hv.congr hu)
      (fun _ u hu => hv.ends.congr hu) fun u hu => hv.ends.congr hu
  · next hscript =>
    rw [if_neg hscript, ← append_nil (uvecitems c.argv)] at hy
    exact (hy.setcounts _ _).pushed (fun strs hlive => hlive.pushuvec c.argv) Halted.done
      fun hz => hz.setcounts _ _

/-- If the file cannot be opened nothing is pushed. -/
theorem items_of_not (h : ∀ x, c.opened ≠ .next x) : c.items = [none] := by
  unfold Call.items
  split
  · next x _ hopened _ => exact absurd hopened (h x)
  · rfl

theorem items_of_opened (h : c.opened = .next x) : ∃ path, c.pathname = some path ∧
    (x.head = none ∧ c.items = [none] ∨
      ∃ head, x.head = some head ∧ c.items = c.argitems x.icount path head) := by
  cases hpath : c.pathname with
  | none =>
      rw [Call.opened, hpath] at h
      cases h
  | some path =>
      refine ⟨path, rfl, ?_⟩
      unfold Call.items
      rw [h, hpath]
      dsimp only
      cases x.head with
      | none => exact .inl ⟨rfl, rfl⟩
      | some head => exact .inr ⟨head, rfl, rfl⟩

theorem start_left (h : x.ustack = c.start.ustack) (hitems : c.items = items) : Left c items x :=
  ⟨[], hitems, not_mem_nil, h ▸ start_live c⟩

/-- Up to `flush` the strings are pushed, or as many as can be. -/
theorem prepare_left (c : Call) : c.prepare.Meets (Left c []) (fun _ => Done c) (Done c) := by
  have hkeep := opened_keeps c
  have hnone : (∀ x, c.opened ≠ .next x) → ∀ x, x.ustack = c.start.ustack → Done c x :=
    fun h x hx => (start_left hx (items_of_not h)).done
  unfold Call.prepare
  cases hopened : c.opened with
  | error e x =>
      rw [hopened] at hkeep
      exact hnone (by simp [hopened]) x hkeep
  | stop x =>
      rw [hopened] at hkeep
      exact hnone (by simp [hopened]) x hkeep
  | next x =>
      rw [hopened] at hkeep
      have haccept : ∀ y, Left c [] y → y.accept.Meets (Left c []) (fun _ => Done c) (Done c) := by
        intro y hy
        unfold Exec.accept
        split
        · exact hy.ends
        split
        · exact hy.ends
        · exact hy
      rw [Flow.next_andThen]
      refine Flow.Meets.andThen ?_ haccept
      obtain ⟨path, hpath, ⟨hhead, hitems⟩ | ⟨head, hhead, hitems⟩⟩ := items_of_opened hopened
      · unfold Call.args
        rw [hpath, hhead]
        exact (start_left hkeep hitems).done
      · exact args_left hpath hhead (start_left hkeep hitems)

/-! ## What all steps keep -/

/-- This holds of the stack in the end. -/
def Always (P : Ustack → Prop) (o : Flow Exec) : Prop :=
  o.Meets (fun x => P x.ustack) (fun _ x => P x.ustack) fun x => P x.ustack

section

variable {P : Ustack → Prop}

theorem Always.pushed {r : Int × Ustack} {f : Exec → Flow Exec} (h : P r.2)
    (hf : ∀ y, P y.ustack → Always P (f y)) : Always P ((x.pushed r).andThen f) := by
  unfold Exec.pushed
  split
  · exact h
  · exact hf _ h

theorem Keeps.always {f : Exec → Flow Exec} (h : Keeps f) (hx : P x.ustack) : Always P (f x) :=
  (h x).mono (fun _ hy => hy.symm ▸ hx) (fun _ _ hy => hy.symm ▸ hx) fun _ hy => hy.symm ▸ hx

variable (hP : Kept c.supply P)
  (hcounts : ∀ u argc envc, P u → P { u with argc := argc, envc := envc })

include hP hcounts

theorem parsewords_always (toks : List Name) (hx : P x.ustack) :
    Always P (c.parsewords toks x) := by
  induction toks generalizing x with
  | nil => exact hx
  | cons tok toks ih =>
      rw [Call.parsewords]
      split
      · refine ((lookup_keeps c tok Exec.setinterp fun _ _ => rfl).always hx).andThen fun y hy => ?_
        exact Always.pushed (hP.pushbytes _ hy) fun z hz => ih (hcounts _ _ _ hz)
      · exact Always.pushed (hP.pushbytes _ hx) fun z hz => ih (hcounts _ _ _ hz)

theorem prepare_always (hinit : P (Ustack.init c.before c.kmem)) : Always P c.prepare := by
  have hstart : P c.start.ustack := hP.push _ _ hinit
  have hopened : Always P c.opened :=
    (opened_keeps c).mono (fun _ hx => hx.symm ▸ hstart) (fun _ _ hx => hx.symm ▸ hstart)
      fun _ hx => hx.symm ▸ hstart
  refine hopened.andThen fun x hx => ?_
  have hargs : Always P (c.args x) := by
    unfold Call.args
    split
    · next path head _ _ =>
      refine Always.pushed (hP.pushuvec _ hx) fun y hy => ?_
      have hy : P (y.setenvc (count c.envp)).ustack := hcounts _ _ _ hy
      split
      · refine Always.pushed (hP.pushuvec _ hy) fun z hz => ?_
        have hz : P (z.setargc (count c.argv.tail)).ustack := hcounts _ _ _ hz
        refine Always.pushed (hP.pushustr _ hz) fun w hw => ?_
        have hparse : Always P (c.parsescript head (w.addargc 1)) := by
          unfold Call.parsescript
          split
          · exact hcounts _ _ _ hw
          split
          · exact hcounts _ _ _ hw
          · exact parsewords_always hP hcounts _ (hcounts _ _ _ hw)
        exact hparse.andThen fun v hv => (check_keeps c).always (x := v.interpret) hv
      · exact Always.pushed (hP.pushuvec _ hy) fun z hz => hcounts _ _ _ hz
    · exact hx
  refine hargs.andThen fun y hy => ?_
  unfold Exec.accept
  split
  · exact hy
  split
  · exact hy
  · exact hy

end

/-- Only pages that have been given out are written. -/
theorem prepare_inside (c : Call) : Always (Inside c.supply) c.prepare :=
  prepare_always (inside_kept c.supply) (fun _ _ _ h => ⟨h.wrote, h.sp⟩)
    ⟨fun _ ha => absurd ha not_mem_nil, fun h => absurd rfl h⟩

/-! ## The pages in the end -/

/-- Only pages of the stack are written; `destroy` goes through entries of the array with pages
that have been given out and are not mapped; and when the call comes back each page has been freed
or is mapped, once. -/
structure PagesOk (c : Call) (r : Result) : Prop where
  wrote : ∀ a ∈ r.exec.ustack.wrote, Given c.supply r.exec.ustack.asked a
  destroyed : ∀ entries, r.destroyed = some entries → ∀ entry ∈ entries,
    r.exec.ustack.Good c.supply entry ∧ entry.2 ∉ r.mapped.map Prod.snd
  once : r.out ≠ none → ∀ n < r.exec.ustack.asked, c.supply.page n ≠ 0 →
    (r.freed ++ r.mapped.map Prod.snd).count (c.supply.page n) = 1

/-- The call comes to an end: to a `return`, or to `destroy`. -/
def Result.Ends (r : Result) : Prop := r.out ≠ none ∨ r.destroyed ≠ none

theorem size_pos (strs : List (List (BitVec 8))) : 0 < size strs :=
  Nat.lt_of_lt_of_le (by decide) (Nat.le_add_right AUXSIZE _)

/-- With all pages served the stack is whole, and else it is not. -/
theorem Done.pushed_iff (h : Done c x) :
    (c.supply.Served (size c.strings) → ∃ n, x.ustack.Pushed c.supply n) ∧
      (¬ c.supply.Served (size c.strings) →
        ¬ ∀ entry ∈ x.ustack.entries, x.ustack.Good c.supply entry) := by
  rcases h with (⟨hpushed, -⟩ | ⟨hnone, hstarved⟩) | hspent
  · exact ⟨fun _ => ⟨_, hpushed⟩, fun hserved => absurd hpushed.served hserved⟩
  · exact ⟨fun hserved => absurd hserved (spent_of_starved hnone hstarved (size_pos _)).1,
      fun _ => hstarved.not_good⟩
  · exact ⟨fun hserved => absurd hserved hspent.1, fun _ => hspent.not_good⟩

theorem pagesOk_stopped {cred : Cred} {y : Newstack} (h : x.ustack.Inside c.supply) :
    PagesOk c (Call.stopped x cred k y) ∧ ¬ (Call.stopped x cred k y).Ends := by
  refine ⟨⟨h.wrote, fun _ hnone => (nomatch hnone), fun hout => absurd rfl hout⟩, ?_⟩
  rintro (hout | hdestroyed)
  · exact hout rfl
  · exact hdestroyed rfl

/-- From the label `error` on all is well if and only if all pages were served. -/
theorem pagesOk_giveup {e : Int} {cred : Cred} {y : Newstack} (h : Done c x)
    (hin : x.ustack.Inside c.supply) (hy : (∃ n, x.ustack.Pushed c.supply n) → y.mapped = []) :
    (PagesOk c (c.giveup e x cred k y) ↔ c.supply.Served (size c.strings)) ∧
      (c.giveup e x cred k y).Ends := by
  have hdestroyed : (c.giveup e x cred k y).destroyed = some x.ustack.entries ∧
      (c.giveup e x cred k y).exec.ustack = x.ustack ∧
        (c.giveup e x cred k y).mapped = y.mapped := by
    unfold Call.giveup
    dsimp only
    split
    · exact ⟨rfl, rfl, rfl⟩
    · exact ⟨rfl, rfl, rfl⟩
  obtain ⟨hserved, hunserved⟩ := h.pushed_iff
  refine ⟨⟨fun hok => ?_, fun hs => ?_⟩, .inr fun hnone => ?_⟩
  · by_contra hs
    refine hunserved hs fun entry hentry => ?_
    have hgood := (hok.destroyed _ hdestroyed.1 entry hentry).1
    rwa [hdestroyed.2.1] at hgood
  · obtain ⟨n, hpushed⟩ := hserved hs
    have hgiveup : c.giveup e x cred k y = ⟨some e, x.losehead.loseinode, cred,
        { k with space := y.space, mem := y.umem.mem }, some x.ustack.entries,
        (x.ustack.entries.map Prod.snd).reverse, [], y.umem, 0, 0⟩ := by
      have hdestroy : x.losehead.loseinode.ustack.destroy c.supply c.others = _ := hpushed.destroy
      unfold Call.giveup
      dsimp only
      rw [hdestroy, hy ⟨n, hpushed⟩]
      rfl
    rw [hgiveup]
    refine ⟨hin.wrote, fun entries hentries entry hentry => ?_, fun _ m hm _ => ?_⟩
    · cases hentries
      exact ⟨hpushed.good entry hentry, not_mem_nil⟩
    · rw [map_nil, append_nil, count_reverse]
      exact hpushed.count hm
  · rw [hdestroyed.1] at hnone
    cases hnone

/-- Once the file is loaded it is up to `initustack`. -/
theorem load_meets (r : Ref) (head : Head) {entry : Nat} {space : Space}
    {N S : Newstack → Prop} {E : Int → Newstack → Prop}
    (hload : loadelf (c.file r).exe head.data c.ph (flushed c.tables c.free) =
      .ok (0, entry, space))
    (h : (initustack c.supply x.ustack (c.ids x) c.program c.esp space).Meets N E S) :
    (c.load r head x).Meets (fun y => N y.2) (fun e y => E e y.2) fun y => S y.2 := by
  unfold Call.load
  rw [hload]
  dsimp only
  rw [if_neg (not_not.mpr rfl)]
  split
  · next hinit =>
    rw [hinit] at h
    exact h
  · next hinit =>
    rw [hinit] at h
    exact h
  · next hinit =>
    rw [hinit] at h
    exact h

/-- `loadelf` stops, fails before anything is mapped, or goes on to `initustack`. -/
theorem load_cases (c : Call) (r : Ref) (head : Head) (x : Exec) :
    (∃ y, c.load r head x = .stop y ∧ y.2.mapped = [] ∧ y.2.umem.wrote = []) ∨
    (∃ e y, c.load r head x = .error e y ∧ e ≠ 0 ∧ y.2.mapped = [] ∧ y.2.umem.wrote = []) ∨
    ∃ entry space, loadelf (c.file r).exe head.data c.ph (flushed c.tables c.free) =
      .ok (0, entry, space) := by
  unfold Call.load
  split
  · exact .inl ⟨_, rfl, rfl, rfl⟩
  · next e entry space hload =>
    by_cases he : e ≠ 0
    · rw [if_pos he]
      exact .inr (.inl ⟨_, _, rfl, he, rfl, rfl⟩)
    · rw [not_not.mp he] at hload
      exact .inr (.inr ⟨entry, space, hload⟩)

/-- What `loadelf` and `initustack` do to the pages. -/
theorem load_pages (c : Call) (r : Ref) (head : Head) (x : Exec) : (c.load r head x).Meets
    (fun y => y.2.mapped.map Prod.snd = x.ustack.entries.map Prod.snd ∧ ¬ x.ustack.Starved)
    (fun _ y => (∃ n, x.ustack.Pushed c.supply n) → y.2.mapped = []) fun _ => True := by
  obtain ⟨y, hload, -⟩ | ⟨e, y, hload, -, hmapped, -⟩ | ⟨entry, space, hload⟩ :=
    load_cases c r head x
  · rw [hload]
    exact trivial
  · rw [hload]
    exact fun _ => hmapped
  · have hpages := load_meets (x := x) r head hload (initustack_pages _ _ _ _ _ space)
    refine hpages.mono (fun y hy => ?_) (fun _ _ hy => hy) fun _ hy => hy
    exact ⟨hy.1, fun hstarved => hstarved.not_mapped hy.2⟩

/-- A root with one file in it. -/
def onefile : Dirtree where
  inode r :=
    { mode := if r = (1, 2) then SIFREG ||| 0o755 else SIFDIR ||| 0o755
      nlink := 1
      uid := 0
      gid := 0
      size := 4096
      rdev := 0
      slots := if r = (1, 2) then [] else [⟨1, dotdot⟩, ⟨2, [0x61]⟩]
      zones := 1
      refcnt := 1
      cached := true
      mounted := false }
  peer _ := none
  readable _ _ := true
  readi _ _ := 0
  cred := ⟨0, 0, 0, 0, 0⟩
  root := (1, 1)
  cwd := (1, 1)
  mounted_isdir _ h := by cases h
  named r de hde := by
    dsimp only at hde
    split_ifs at hde
    · exact absurd hde not_mem_nil
    · exact (by decide : ∀ de ∈ [(⟨1, dotdot⟩ : De), ⟨2, [0x61]⟩], 0 ∉ de.name) de hde

/-- So many pages, and then NULL. -/
def supplied (m : Nat) : Supply where
  page n := if n < m then USEREND + (n + 1) * PAGESIZE else 0
  kernend := USEREND + (m + 1) * PAGESIZE
  aligned n := by
    unfold pagemod USEREND PAGESIZE
    split
    · omega
    · rfl
  kernel n hne := by
    split at hne
    · next hn =>
      rw [if_pos hn]
      unfold USEREND PAGESIZE
      omega
    · exact absurd rfl hne
  distinct n n' heq hne := by
    unfold USEREND PAGESIZE at *
    split at heq
    · split at heq
      · omega
      · omega
    · next hn => exact absurd (if_neg hn) hne

/-- `/a` is executed with this environment. -/
def execa (m : Nat) (argv envp : List Slot) (data : Kern.Bytes) : Call where
  low := false
  supply := supplied m
  before _ := 0
  kmem _ := 0
  others _ := false
  tree := onefile
  icount _ := 1
  bcount _ := 0
  pathname := some ⟨true, [sep, 0x61], by decide⟩
  argv := argv
  envp := envp
  file _ := ⟨fun _ => 8, fun _ _ => 0, ⟨2, 4096, data, none⟩⟩
  readb _ := (0, data)
  ph _ := 0
  tables _ := false
  free _ := true
  program _ := 0
  esp := USEREND - PAGESIZE
  tid := 1

/-- A task with a pending signal and no descriptors. -/
def pending : Caller where
  task := ⟨false, false, .run, ⟨1⟩, Sigset.clear, fun _ => Sigact.zero, .none⟩
  fds := ⟨2, fun _ => true, fun _ => .new, 0, fun _ => none, 0, fun _ => none⟩
  space := ⟨[], ⟨fun _ => false, fun _ => false, fun _ => true⟩⟩
  mem _ := 0

/-- A string of so many letters. -/
def letters (n : Nat) : Ustr where
  ok := true
  bytes := List.replicate n 0x61
  terminated h := absurd (eq_of_mem_replicate h) (by decide)

end Unixlite.Kern.Execve
