import Unixlite.Kern.ExecvePages

/-!
# The arguments of a new program

The strings that a call pushes are the arguments and the environment of the new program, and
`createargv` writes their vectors below them.  The pages for these are the ones that the strings
have taken, and so the vectors must fit into what is left of the lowest one
(`execve_argv_iff`).
-/

namespace Unixlite.Kern.Execve

open Unixlite.Fs hiding PAGESIZE
open Unixlite.Mm Unixlite.Verified Label Ustack
open List

namespace Call

variable (c : Call)

/-! ## The vectors -/

/-- The words of a script as arguments; the interpreter is called by its base name. -/
def wordargs (toks : List Name) : List Name := toks.reverse.modifyHead scriptbase

/-- The arguments that the program is to get. -/
def argnames (path : Ustr) (head : Head) : List Name :=
  if matchscript head.data then
    wordargs ((scriptline head.data).elim [] scriptwords) ++
      path.bytes :: (strs c.argv.tail).map Ustr.bytes
  else (strs c.argv).map Ustr.bytes

/-- The arguments and the environment that the program is to get. -/
def vectors : List Name × List Name :=
  match c.opened, c.pathname with
  | .next x, some path =>
      match x.head with
      | some head => (c.argnames path head, (strs c.envp).map Ustr.bytes)
      | none => ([], [])
  | _, _ => ([], [])

end Call

variable {c : Call} {x y : Exec} {vec : List Slot} {toks : List Name} {icount : Counts}
  {path : Ustr} {head : Head} {k : Caller}

theorem wants_some {α : Type} {f : α → Item} {g : α → List (BitVec 8)} {l : List α}
    (h : none ∉ l.map f) (hf : ∀ a ∈ l, f a ≠ none → f a = some (g a)) :
    wants (l.map f) = l.map g := by
  induction l with
  | nil => rfl
  | cons a l ih =>
      have hne : f a ≠ none := fun hnone => h (mem_map.mpr ⟨a, mem_cons_self, hnone⟩)
      rw [map_cons, hf a mem_cons_self hne, map_cons]
      refine congrArg _ (ih (fun hmem => h (mem_cons_of_mem _ hmem)) fun b hb => ?_)
      exact hf b (mem_cons_of_mem _ hb)

theorem wants_uvecitems (h : none ∉ uvecitems vec) :
    (wants (uvecitems vec)).reverse = (strs vec).map Ustr.bytes := by
  unfold uvecitems at h ⊢
  split at h
  · exact absurd mem_cons_self h
  · next hvec =>
    rw [if_neg hvec, wants_some (g := Ustr.bytes) h, map_reverse, reverse_reverse]
    intro u _ hne
    unfold Ustr.item at *
    split at hne
    · next hok => rw [if_pos hok]
    · exact absurd rfl hne

/-- The words that are pushed are the arguments. -/
theorem wants_worditems (h : none ∉ c.worditems icount toks) :
    (wants (c.worditems icount toks)).reverse = Call.wordargs toks := by
  induction toks with
  | nil => rfl
  | cons tok toks ih =>
      rw [Call.worditems] at h ⊢
      cases toks with
      | nil =>
          rw [isEmpty_nil, if_pos rfl] at h ⊢
          split at h
          · next hnamei => rfl
          · exact absurd mem_cons_self h
      | cons tok' toks =>
          have hrest := ih fun hmem => h (mem_cons_of_mem _ hmem)
          have hcons : (tok :: tok' :: toks).reverse = (tok' :: toks).reverse ++ [tok] :=
            reverse_cons
          obtain ⟨first, rest, hrev⟩ := exists_cons_of_ne_nil
            (show (tok' :: toks).reverse ≠ [] by simp)
          calc (wants (some tok :: c.worditems icount (tok' :: toks))).reverse
              = (wants (c.worditems icount (tok' :: toks))).reverse ++ [tok] := reverse_cons
            _ = (tok' :: toks).reverse.modifyHead scriptbase ++ [tok] := by
                  rw [hrest]
                  rfl
            _ = Call.wordargs (tok :: tok' :: toks) := by
                  unfold Call.wordargs
                  rw [hcons, hrev]
                  rfl

/-- All that is pushed are the arguments and the environment. -/
theorem argitems_strings (h : none ∉ c.argitems icount path head) :
    (wants (c.argitems icount path head)).reverse =
      c.argnames path head ++ (strs c.envp).map Ustr.bytes := by
  unfold Call.argitems at h ⊢
  rw [mem_append, not_or] at h
  obtain ⟨henvp, h⟩ := h
  rw [wants_append henvp, reverse_append, wants_uvecitems henvp]
  congr 1
  unfold Call.argnames
  split
  · next hscript =>
    rw [if_pos hscript, mem_append, not_or, mem_append, not_or] at h
    obtain ⟨hargv, hpath, hline⟩ := h
    have hitem : wants [path.item] = [path.bytes] := by
      unfold Ustr.item at hpath ⊢
      split at hpath
      · next hok =>
        rw [if_pos hok]
        rfl
      · exact absurd mem_cons_self hpath
    rw [wants_append hargv, wants_append hpath, reverse_append, reverse_append,
      wants_uvecitems hargv, hitem]
    unfold Call.lineitems at hline ⊢
    cases hscriptline : scriptline head.data with
    | none =>
        rw [hscriptline] at hline
        exact absurd mem_cons_self hline
    | some line =>
        rw [hscriptline] at hline
        dsimp only at hline ⊢
        split at hline
        · exact absurd mem_cons_self hline
        · next hwords =>
          rw [if_neg hwords, wants_worditems hline, append_assoc]
          rfl
  · next hscript =>
    rw [if_neg hscript] at h
    exact wants_uvecitems h

/-! ## How many there are -/

/-- What is counted so far. -/
def Counted (argc envc : Nat) (x : Exec) : Prop := x.ustack.argc = argc ∧ x.ustack.envc = envc

variable {argc envc : Nat}

theorem Counted.congr (h : Counted argc envc x) (hy : y.ustack = x.ustack) :
    Counted argc envc y := by
  unfold Counted
  rw [hy]
  exact h

theorem Counted.pushed {r : Int × Ustack} (h : Counted argc envc x) (hr : Grows x.ustack r.2)
    (hy : x.pushed r = .next y) : Counted argc envc y := by
  unfold Exec.pushed at hy
  split at hy
  · cases hy
  · cases hy
    exact ⟨hr.argc.trans h.1, hr.envc.trans h.2⟩

theorem Counted.addargc (h : Counted argc envc x) : Counted (argc + 1) envc (x.addargc 1) :=
  ⟨congrArg (· + 1) h.1, h.2⟩

theorem pushkstr_grows (s : Supply) (u : Ustack) (str : Name) : Grows u (u.pushkstr s str).2 :=
  (grows_kept s u).pushbytes _ (.refl u)

theorem pushuvec_grows (s : Supply) (u : Ustack) (vec : List Slot) : Grows u (u.pushuvec s vec).2 :=
  (grows_kept s u).pushuvec vec (.refl u)

theorem parsewords_counted (hx : Counted argc envc x) (h : c.parsewords toks x = .next y) :
    Counted (argc + toks.length) envc y := by
  induction toks generalizing argc x with
  | nil =>
      cases h
      exact hx
  | cons tok toks ih =>
      rw [length_cons, Nat.add_comm toks.length, ← Nat.add_assoc]
      rw [Call.parsewords] at h
      split at h
      · obtain ⟨z, hz, h⟩ := Flow.andThen_eq_next.mp h
        obtain ⟨w, hw, h⟩ := Flow.andThen_eq_next.mp h
        have hkeep := lookup_keeps c tok Exec.setinterp (fun _ _ => rfl) x
        rw [hz] at hkeep
        exact ih ((hx.congr hkeep).pushed (pushkstr_grows _ _ _) hw).addargc h
      · obtain ⟨w, hw, h⟩ := Flow.andThen_eq_next.mp h
        exact ih (hx.pushed (pushkstr_grows _ _ _) hw).addargc h

theorem parsescript_counted (hx : Counted argc envc x) (h : c.parsescript head x = .next y) :
    Counted (argc + ((scriptline head.data).elim [] scriptwords).length) envc y := by
  unfold Call.parsescript at h
  split at h
  · cases h
  · next line hline =>
    rw [hline]
    split at h
    · cases h
    · exact parsewords_counted (x := { x with interp := none }) hx h

/-- `argc` and `envc` are the lengths of the vectors. -/
theorem args_counted (hpath : c.pathname = some path) (hhead : x.head = some head)
    (h : c.args x = .next y) :
    Counted (c.argnames path head).length (count c.envp) y := by
  unfold Call.args at h
  rw [hpath, hhead] at h
  obtain ⟨z, -, h⟩ := Flow.andThen_eq_next.mp h
  have henvc : Counted z.ustack.argc (count c.envp) (z.setenvc (count c.envp)) := ⟨rfl, rfl⟩
  unfold Call.argnames
  split at h
  · next hscript =>
    obtain ⟨w, hw, h⟩ := Flow.andThen_eq_next.mp h
    obtain ⟨v, hv, h⟩ := Flow.andThen_eq_next.mp h
    obtain ⟨t, ht, h⟩ := Flow.andThen_eq_next.mp h
    have hargv : Counted (count c.argv.tail) (count c.envp) (w.setargc (count c.argv.tail)) :=
      ⟨rfl, (henvc.pushed (pushuvec_grows _ _ _) hw).2⟩
    have hpath := (hargv.pushed ((grows_kept _ _).pushustr path (.refl _)) hv).addargc
    have hcheck := check_keeps c t.interpret
    rw [h] at hcheck
    have hy := (parsescript_counted hpath ht).congr hcheck
    have hlen : (Call.wordargs ((scriptline head.data).elim [] scriptwords) ++
        path.bytes :: (strs c.argv.tail).map Ustr.bytes).length =
          count c.argv.tail + 1 + ((scriptline head.data).elim [] scriptwords).length := by
      simp only [Call.wordargs, Mm.count, length_append, length_cons, length_map,
        length_modifyHead, length_reverse]
      omega
    rw [if_pos hscript, hlen]
    exact hy
  · next hscript =>
    obtain ⟨w, hw, h⟩ := Flow.andThen_eq_next.mp h
    cases h
    rw [if_neg hscript, length_map]
    exact ⟨rfl, (henvc.pushed (pushuvec_grows _ _ _) hw).2⟩

/-- In front of `flush` all strings of the vectors are on the stack. -/
theorem prepare_vectors (h : c.prepare = .next x) : x.ustack.Live c.supply c.strings ∧
    c.strings = c.vectors.1 ++ c.vectors.2 ∧ Counted c.vectors.1.length c.vectors.2.length x := by
  have hleft := prepare_left c
  rw [h] at hleft
  refine ⟨hleft.live, ?_⟩
  obtain ⟨pre, hitems, hsome, -⟩ := hleft
  rw [append_nil] at hitems
  rw [← hitems] at hsome
  obtain ⟨y, hopened, h⟩ := Flow.andThen_eq_next.mp h
  obtain ⟨z, hargs, h⟩ := Flow.andThen_eq_next.mp h
  have hz : x = z := by
    unfold Exec.accept at h
    split at h
    · cases h
    split at h
    · cases h
    · cases h
      rfl
  subst hz
  obtain ⟨path, hpath, ⟨-, hnone⟩ | ⟨head, hhead, hitems⟩⟩ := items_of_opened hopened
  · exact absurd (hnone ▸ mem_cons_self) hsome
  · have hvectors : c.vectors = (c.argnames path head, (strs c.envp).map Ustr.bytes) := by
      unfold Call.vectors
      rw [hopened, hpath]
      dsimp only
      rw [hhead]
    rw [hitems] at hsome
    rw [hvectors, Call.strings, hitems, length_map]
    exact ⟨argitems_strings hsome, args_counted hpath hhead hargs⟩

/-! ## Terminators -/

theorem scriptline_terminated {data : Kern.Bytes} {line : Name} (h : scriptline data = some line) :
    0 ∉ line := by
  unfold scriptline at h
  dsimp only at h
  split at h
  · cases h
    intro hmem
    have hbuf := mem_takeWhile_imp ((takeWhile_sublist _).mem hmem)
    simp at hbuf
  · cases h

theorem wordargs_terminated {str : Name} (htoks : ∀ tok ∈ toks, 0 ∉ tok)
    (h : str ∈ Call.wordargs toks) : 0 ∉ str := by
  unfold Call.wordargs at h
  cases hrev : toks.reverse with
  | nil =>
      rw [hrev] at h
      exact absurd h not_mem_nil
  | cons tok rest =>
      have hmem : ∀ s ∈ tok :: rest, 0 ∉ s := fun s hs =>
        htoks s (mem_reverse.mp (hrev ▸ hs))
      rw [hrev, modifyHead_cons] at h
      rcases mem_cons.mp h with rfl | h
      · exact fun hzero => hmem tok mem_cons_self ((rtakeWhile_suffix _ _).mem hzero)
      · exact hmem str (mem_cons_of_mem _ h)

/-- A string of the vectors has no terminator in it. -/
theorem vectors_terminated (c : Call) : ∀ str ∈ c.vectors.1 ++ c.vectors.2, 0 ∉ str := by
  have hustrs : ∀ (l : List Ustr), ∀ str ∈ l.map Ustr.bytes, 0 ∉ str := by
    intro l str hstr
    obtain ⟨u, -, rfl⟩ := mem_map.mp hstr
    exact u.terminated
  have hargs : ∀ path head, ∀ str ∈ c.argnames path head, 0 ∉ str := by
    intro path head str hstr
    unfold Call.argnames at hstr
    split at hstr
    · rcases mem_append.mp hstr with hstr | hstr
      · refine wordargs_terminated (fun tok htok => ?_) hstr
        cases hline : scriptline head.data with
        | none =>
            rw [hline] at htok
            exact absurd htok not_mem_nil
        | some line =>
            rw [hline] at htok
            have hsub := Words.words_subset (mem_reverse.mp htok)
            exact fun hzero => scriptline_terminated hline (hsub hzero)
      · rcases mem_cons.mp hstr with rfl | hstr
        · exact path.terminated
        · exact hustrs _ str hstr
    · exact hustrs _ str hstr
  intro str hstr
  unfold Call.vectors at hstr
  split at hstr
  · split at hstr
    · rcases mem_append.mp hstr with hstr | hstr
      · exact hargs _ _ str hstr
      · exact hustrs _ str hstr
    · exact absurd hstr not_mem_nil
  · exact absurd hstr not_mem_nil

/-! ## Errors -/

/-- An error is not zero. -/
def Fails (o : Flow Exec) : Prop := o.Meets (fun _ => True) (fun e _ => e ≠ 0) fun _ => True

theorem Fails.andThen {o : Flow Exec} {f : Exec → Flow Exec} (h : Fails o) (hf : ∀ y, Fails (f y)) :
    Fails (o.andThen f) :=
  Flow.Meets.andThen h fun y _ => hf y

theorem pushed_fails (x : Exec) (r : Int × Ustack) : Fails (x.pushed r) := by
  unfold Exec.pushed
  split
  · next he => exact he
  · exact trivial

theorem lookup_fails (path : Name) (set : Ref → Exec → Exec) (x : Exec) :
    Fails (c.lookup path set x) := by
  unfold Call.lookup
  split
  · exact trivial
  · next hnamei => exact Dirtree.namei_error hnamei
  · exact trivial

theorem check_fails (x : Exec) : Fails (c.check x) := by
  unfold Call.check
  split
  · exact trivial
  dsimp only
  split
  · exact (by decide : EACCES ≠ 0)
  split
  · next hreadmap =>
    unfold Regmap.readmap at hreadmap
    split at hreadmap
    · cases hreadmap
      exact (by decide : EINVAL ≠ 0)
    · split at hreadmap
      · cases hreadmap
      · cases hreadmap
  split
  · exact (by decide : ENOEXEC ≠ 0)
  split
  · next he => exact he
  · exact trivial

theorem parsewords_fails (toks : List Name) (x : Exec) : Fails (c.parsewords toks x) := by
  induction toks generalizing x with
  | nil => exact trivial
  | cons tok toks ih =>
      rw [Call.parsewords]
      split
      · exact (lookup_fails tok _ x).andThen fun y => (pushed_fails y _).andThen fun z => ih _
      · exact (pushed_fails x _).andThen fun z => ih _

theorem prepare_fails (c : Call) : Fails c.prepare := by
  have hopened : Fails c.opened := by
    unfold Call.opened
    split
    · exact trivial
    · exact (lookup_fails _ _ _).andThen check_fails
  have hparse : ∀ head x, Fails (c.parsescript head x) := by
    intro head x
    unfold Call.parsescript
    split
    · exact (by decide : ENOEXEC ≠ 0)
    split
    · exact (by decide : ENOEXEC ≠ 0)
    · exact parsewords_fails _ _
  have hargs : ∀ x, Fails (c.args x) := by
    intro x
    unfold Call.args
    split
    · refine (pushed_fails _ _).andThen fun y => ?_
      split
      · exact (pushed_fails _ _).andThen fun z => (pushed_fails _ _).andThen fun w =>
          (hparse _ _).andThen fun v => check_fails _
      · exact (pushed_fails _ _).andThen fun z => trivial
    · exact trivial
  refine hopened.andThen fun x => (hargs x).andThen fun y => ?_
  unfold Exec.accept
  split
  · exact trivial
  split
  · exact (by decide : ENOEXEC ≠ 0)
  · exact trivial

theorem load_fails (c : Call) (r : Ref) (head : Head) (x : Exec) :
    (c.load r head x).Meets (fun _ => True) (fun e _ => e ≠ 0) fun _ => True := by
  obtain ⟨y, hload, -⟩ | ⟨e, y, hload, he, -⟩ | ⟨entry, space, hload⟩ := load_cases c r head x
  · rw [hload]
    exact trivial
  · rw [hload]
    exact he
  · exact load_meets r head hload initustack_fails

theorem giveup_ne {e : Int} (he : e ≠ 0) (cred : Cred) (y : Newstack) :
    (c.giveup e x cred k y).out ≠ some 0 := by
  unfold Call.giveup
  dsimp only
  split
  · exact fun heq => nomatch heq
  · exact fun heq => he (Option.some.inj heq)

/-! ## The vectors in memory -/

/-- Each word that `createargv` writes lies in pages that are mapped, and at the stack pointer
of a new program are its arguments. -/
structure ArgvOk (c : Call) (r : Result) : Prop where
  wrote : ∀ a ∈ r.umem.wrote, ∀ i < 4, ∃ p ∈ r.mapped, p.1 ≤ a + i ∧ a + i < p.1 + PAGESIZE
  startup : r.out = some 0 → Startup r.caller.mem r.esp c.vectors.1 c.vectors.2
    ⟨r.cred.uid, r.cred.euid, r.cred.gid, r.cred.egid⟩

namespace Call

/-- Where `createargv` ends. -/
def argvsp (c : Call) : Nat := initsp (size c.strings) c.strings.length

/-- The arguments fit in the argument pages. -/
def ArgsFit (c : Call) : Prop := USEREND - MAXARGPAGE * PAGESIZE ≤ c.argvsp

/-- The vectors fit in what the strings leave of the lowest page. -/
def VectorsFit (c : Call) : Prop := USEREND - npages (size c.strings) * PAGESIZE ≤ c.argvsp

/-- `initustack` goes on to `createargv`. -/
def reaches (c : Call) (k : Caller) : Bool :=
  !c.low &&
    match c.prepare with
    | .next x =>
        match c.flush k, x.inode, x.head with
        | some _, some r, some head =>
            match loadelf (c.file r).exe head.data c.ph (flushed c.tables c.free) with
            | .ok (e, _, space) =>
                e == 0 &&
                  match mapentries c.supply (x.ustack.entries.map Prod.snd) x.ustack.vbase space with
                  | .ok (e, _, _) => e == 0
                  | .error _ => false
            | .error _ => false
        | _, _, _ => false
    | _ => false

end Call

/-- `initustack` in a call that gets as far as `createargv`. -/
theorem initustack_argv {space : Space} (hprepare : c.prepare = .next x)
    (hmapped : Mapped c.supply x.ustack space) :
    ∃ m l, (initustack c.supply x.ustack (c.ids x) c.program c.esp space).Meets
        (fun y => y.mapped = l ∧ y.umem = m ∧ y.initsp = c.argvsp) (fun _ _ => False)
        (fun y => y.mapped = l ∧ y.umem = m ∧ y.initsp = c.argvsp) ∧
      Startup m.mem c.argvsp c.vectors.1 c.vectors.2 (c.ids x) ∧
      ((∀ a ∈ m.wrote, ∀ i < 4, ∃ p ∈ l, p.1 ≤ a + i ∧ a + i < p.1 + PAGESIZE) ↔ c.VectorsFit) := by
  obtain ⟨hlive, hstrings, hargc, henvc⟩ := prepare_vectors hprepare
  obtain ⟨space', l, hmap⟩ := hmapped
  obtain ⟨hpushed, hcontents⟩ | ⟨-, hstarved⟩ := hlive
  · have hspan := hpushed.span hmap
    unfold Call.VectorsFit Call.argvsp
    rw [hstrings] at hpushed hcontents hspan ⊢
    rw [length_append]
    obtain ⟨m, hargv, hstartup, hwrote, hmem⟩ :=
      hpushed.createargv hcontents hargc henvc (vectors_terminated c) (c.ids x) c.program
    refine ⟨m, l, initustack_mapped hmap hargv, hstartup, fun hall => ?_, fun hfit a ha i hi => ?_⟩
    · have hlast := (hspan _).mp (hall _ hmem 0 (by decide))
      exact hlast.1
    · obtain ⟨hlow, hhigh⟩ := hwrote a ha
      rw [hspan]
      omega
  · exact absurd ⟨space', l, hmap⟩ hstarved.not_mapped

theorem reaches_iff : c.reaches k = true ↔ ∃ x k' r head entry space, Flushes c k x k' r head ∧
    loadelf (c.file r).exe head.data c.ph (flushed c.tables c.free) = .ok (0, entry, space) ∧
      Mapped c.supply x.ustack space := by
  unfold Call.reaches
  constructor
  · intro h
    rw [Bool.and_eq_true, Bool.not_eq_true'] at h
    obtain ⟨hlow, h⟩ := h
    split at h
    · next x hprepare =>
      split at h
      · next k' r head hflush hinode hhead =>
        split at h
        · next e entry space hload =>
          rw [Bool.and_eq_true, beq_iff_eq] at h
          obtain ⟨rfl, h⟩ := h
          split at h
          · next e space' l hmap =>
            rw [beq_iff_eq] at h
            subst h
            exact ⟨x, k', r, head, entry, space, ⟨hlow, hprepare, hflush, hinode, hhead⟩, hload,
              space', l, hmap⟩
          · cases h
        · cases h
      · cases h
    · cases h
  · rintro ⟨x, k', r, head, entry, space, ⟨hlow, hprepare, hflush, hinode, hhead⟩, hload, space', l,
      hmap⟩
    simp [hlow, hprepare, hflush, hinode, hhead, hload, hmap]

/-- If `createargv` is called, its words are in mapped pages if they fit there. -/
theorem argvOk_iff (h : c.reaches k = true) : ArgvOk c (sysexecve c k) ↔ c.VectorsFit := by
  obtain ⟨x, k', r, head, entry, space, hflush, hload, hmapped⟩ := reaches_iff.mp h
  obtain ⟨m, l, hinit, hstartup, hwrote⟩ := initustack_argv hflush.prepare hmapped
  have hmeets := load_meets r head hload hinit
  rw [hflush.call]
  cases hy : c.load r head x with
  | stop y =>
      rw [hy] at hmeets
      obtain ⟨rfl, rfl, -⟩ := hmeets
      exact ⟨fun hok => hwrote.mp hok.wrote,
        fun hfit => ⟨hwrote.mpr hfit, fun hout => nomatch hout⟩⟩
  | error e y =>
      rw [hy] at hmeets
      exact hmeets.elim
  | next y =>
      rw [hy] at hmeets
      obtain ⟨rfl, rfl, hsp⟩ := hmeets
      refine ⟨fun hok => hwrote.mp hok.wrote, fun hfit => ⟨hwrote.mpr hfit, fun _ => ?_⟩⟩
      show Startup _ y.2.initsp _ _ _
      rw [hsp]
      exact hstartup

/-- Without a word that is written the call must not succeed. -/
theorem argvOk_of_fails {r : Result} (hwrote : r.umem.wrote = []) (hout : r.out ≠ some 0) :
    ArgvOk c r :=
  ⟨fun _ ha => absurd (hwrote ▸ ha) not_mem_nil, fun h => absurd h hout⟩

theorem giveup_wrote (e : Int) (x : Exec) (cred : Cred) (y : Newstack) :
    (c.giveup e x cred k y).umem = y.umem := by
  unfold Call.giveup
  dsimp only
  split
  · rfl
  · rfl

/-- If `createargv` is not called, nothing is written and the call does not succeed. -/
theorem argvOk_of_not (h : c.reaches k = false) : ArgvOk c (sysexecve c k) := by
  have hfails := prepare_fails c
  obtain ⟨-, hcall⟩ | ⟨x, cred, -, hcall⟩ | ⟨e, x, -, hprepare, hcall⟩ |
    ⟨x, k', r, head, hflush, hcall⟩ := sysexecve_cases c k
  · rw [hcall]
    exact argvOk_of_fails rfl (show some ENOMEM ≠ some 0 by decide)
  · rw [hcall]
    exact argvOk_of_fails rfl fun hout => nomatch hout
  · rw [hprepare] at hfails
    rw [hcall]
    exact argvOk_of_fails (by rw [giveup_wrote]; rfl) (giveup_ne hfails _ _)
  · rw [hcall]
    obtain ⟨y, hy, -, hwrote⟩ | ⟨e, y, hy, he, -, hwrote⟩ | ⟨entry, space, hload⟩ :=
      load_cases c r head x
    · rw [hy]
      exact argvOk_of_fails hwrote fun hout => nomatch hout
    · rw [hy]
      exact argvOk_of_fails (by rw [Call.ending, giveup_wrote, hwrote]) (giveup_ne he _ _)
    · have hnot : ¬ Mapped c.supply x.ustack space := fun hmapped =>
        Bool.false_ne_true (h.symm.trans
          (reaches_iff.mpr ⟨x, k', r, head, entry, space, hflush, hload, hmapped⟩))
      have hmeets := load_meets r head hload
        (initustack_unmapped (c.ids x) c.program c.esp hnot)
      have hne := load_fails c r head x
      cases hy : c.load r head x with
      | stop y =>
          rw [hy] at hmeets
          exact argvOk_of_fails hmeets fun hout => nomatch hout
      | error e y =>
          rw [hy] at hmeets hne
          exact argvOk_of_fails ((congrArg _ (giveup_wrote ..)).trans hmeets) (giveup_ne hne _ _)
      | next y =>
          rw [hy] at hmeets
          exact hmeets.elim

/-- A program with so many headers, of which the first one is not aligned to pages. -/
def elf (phnum : BitVec 8) : Kern.Bytes := fun i =>
  if i < 6 then [0x7f, 0x45, 0x4c, 0x46, 1, 1].getD i 0
  else if i = 16 then 2
  else if i = 18 then 3
  else if i = 28 then 52
  else if i = 42 then 32
  else if i = 44 then phnum
  else if i = 52 ∨ i = 56 then 1
  else 0

end Unixlite.Kern.Execve
