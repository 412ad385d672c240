import Unixlite.Fs.Addde

/-!
# Reading a directory

Port of `destream_t` and `inode_t::getdents` of `fs/dirent.cc`, with `regfd_t::getdents`, which
hands it the position of the descriptor.

A call returns the entries from its position on that fit, and leaves the position behind the
last one of them; so the records of one call after the other are the entries in their order
(`getdents_enumerates`).
-/

namespace Unixlite.Fs.Dirino

open Verified List

/-- `dirent_t`. -/
structure Dirent where
  ino : Nat
  off : Nat
  reclen : Nat
  name : Name

/-- What a record says. -/
def Dirent.entry (d : Dirent) : Name × Nat := (d.name, d.ino)

/-- `destream_t`, with what has been written to it. -/
structure Destream where
  nbyte : Nat
  cursor : Nat
  out : List Dirent

/-- `offsetof(dirent_t,name) + strlen(name) + 1`. -/
def reclen (name : Name) : Nat := 10 + name.length + 1

/-- `write`; `none` is 0. -/
def Destream.write (st : Destream) (ino off : Nat) (name : Name) : Option Destream :=
  if st.nbyte < st.cursor + reclen name then none
  else some { st with
    cursor := st.cursor + reclen name
    out := st.out ++ [⟨ino, off, reclen name, name⟩] }

/-- The body of `getdents`, which goes on with `*pos` and the stream. -/
def getbody (_ : Bno) (off : Nat) (de : Rawde) (x : Nat × Destream) :
    Rawde × (Nat × Destream ⊕ Nat × Destream) :=
  if de.isfree then (de, .inl x)
  else
    (de.get, match x.2.write de.ino.toNat x.1 de.get.name.str with
      | none => .inr x
      | some st => .inl (off + 32, st))

/-- `getdents`: what is returned, the records, and `*pos`. -/
def getdents (s : Dirino) (pos nbyte : Nat) : Option ((Int × List Dirent) × Nat × Dirino) :=
  if !s.map.isdir then some ((ENOTDIR, []), pos, s)
  else
    (s.scan getbody pos (pos, ⟨nbyte, 0, []⟩)).map fun y =>
      let x := y.2.elim id id
      ((x.2.cursor, x.2.out), x.1, y.1)

/-- One call after the other on one descriptor, with these buffers. -/
def calls : List Nat → Nat → Dirino → Option (List (Int × List Dirent) × Nat × Dirino)
  | [], pos, s => some ([], pos, s)
  | nbyte :: ns, pos, s =>
      (s.getdents pos nbyte).bind fun x =>
        (calls ns x.2.1 x.2.2).map fun y => (x.1 :: y.1, y.2)

/-- The entries in use, in their order. -/
def live (t : Table Name Nat) : List (Name × Nat) := t.filterMap id

variable {s s' : Dirino} {k : Nat}

/-! ## One call -/

/-- A turn of `getdents` at the `k`th entry. -/
def getturn (k : Nat) (e : Option (Name × Nat)) (x : Nat × Destream) :
    Nat × Destream ⊕ Nat × Destream :=
  match e with
  | none => .inl x
  | some e =>
      match x.2.write e.2 x.1 e.1 with
      | none => .inr x
      | some st => .inl (32 * k + 32, st)

theorem getbody_reads (s : Dirino) : Reads s getbody getturn := by
  intro k de x
  unfold getbody
  cases hfree : de.isfree with
  | true =>
      rw [if_pos rfl, (Rawde.isfree_iff de).mp hfree]
      exact ⟨rfl, rfl⟩
  | false =>
      rw [if_neg Bool.false_ne_true, Rawde.entry_of_live hfree]
      exact ⟨de.entry_get.trans (Rawde.entry_of_live hfree), rfl⟩

/-- What has been written to a stream. -/
def Destream.wrote (st : Destream) (recs : List Dirent) : Destream :=
  { st with
    cursor := st.cursor + (recs.map Dirent.reclen).sum
    out := st.out ++ recs }

/-- The entries `es`, from the `k`th one on, have been gone through: the first `j` of them are
the records, and the next one in use does not fit. -/
structure Got (es : Table Name Nat) (k : Nat) (x y : Nat × Destream) (j : Nat)
    (recs : List Dirent) : Prop where
  out : y.2 = x.2.wrote recs
  pos : recs = [] ∧ j = 0 ∧ y.1 = x.1 ∨ recs ≠ [] ∧ y.1 = 32 * (k + j)
  le : j ≤ es.length
  entry : recs.map Dirent.entry = live (es.take j)
  lens : ∀ r ∈ recs, r.reclen = reclen r.name
  fits : x.2.cursor ≤ x.2.nbyte → y.2.cursor ≤ y.2.nbyte
  full : ∀ e, (live (es.drop j)).head? = some e → y.2.nbyte < y.2.cursor + reclen e.1

variable {es : Table Name Nat} {x y : Nat × Destream} {j : Nat} {recs : List Dirent}

theorem Destream.wrote_nil (st : Destream) : st.wrote [] = st := by
  unfold wrote
  rw [append_nil]
  rfl

theorem Destream.wrote_append (st : Destream) (recs recs' : List Dirent) :
    (st.wrote recs).wrote recs' = st.wrote (recs ++ recs') := by
  unfold wrote
  rw [map_append, sum_append, append_assoc, Nat.add_assoc]

/-- Nothing more fits, or there is nothing more. -/
theorem Got.stop (k : Nat) (hfull : ∀ e, (live es).head? = some e →
    x.2.nbyte < x.2.cursor + reclen e.1) : Got es k x x 0 [] :=
  ⟨x.2.wrote_nil.symm, .inl ⟨rfl, rfl, rfl⟩, Nat.zero_le _, rfl, fun _ hr => (by cases hr),
    fun h => h, hfull⟩

/-- A free entry is passed over. -/
theorem Got.free (h : Got es (k + 1) x y j recs) : ∃ j, Got (none :: es) k x y j recs := by
  rcases h.pos with ⟨hrecs, hj, hpos⟩ | ⟨hrecs, hpos⟩
  · refine ⟨0, h.out, .inl ⟨hrecs, rfl, hpos⟩, Nat.zero_le _, ?_, h.lens, h.fits, ?_⟩
    · rw [hrecs]
      rfl
    · have hfull := h.full
      rw [hj] at hfull
      exact hfull
  · refine ⟨j + 1, h.out, .inr ⟨hrecs, ?_⟩, Nat.succ_le_succ h.le, h.entry, h.lens, h.fits,
      h.full⟩
    rw [hpos, Nat.add_assoc, Nat.add_comm 1 j]

/-- An entry is written, and then others. -/
theorem Got.record {name : Name} {ino : Nat} {st : Destream}
    (hwrite : x.2.write ino x.1 name = some st) (h : Got es (k + 1) (32 * k + 32, st) y j recs) :
    Got (some (name, ino) :: es) k x y (j + 1)
      (⟨ino, x.1, reclen name, name⟩ :: recs) := by
  unfold Destream.write at hwrite
  split_ifs at hwrite with hroom
  cases hwrite
  refine ⟨?_, .inr ⟨cons_ne_nil _ _, ?_⟩, Nat.succ_le_succ h.le, ?_, ?_, fun _ => ?_, h.full⟩
  · exact h.out.trans (x.2.wrote_append [⟨ino, x.1, reclen name, name⟩] recs)
  · rcases h.pos with ⟨-, hj, hpos⟩ | ⟨-, hpos⟩
    · rw [hpos, hj]
      omega
    · rw [hpos, Nat.add_assoc, Nat.add_comm 1 j]
  · rw [map_cons, h.entry]
    rfl
  · intro r hr
    rcases mem_cons.mp hr with rfl | hr
    · rfl
    · exact h.lens r hr
  · exact h.fits (Nat.not_lt.mp hroom)

theorem scanlist_got (es : Table Name Nat) : ∀ (k : Nat) (x : Nat × Destream),
    ∃ j recs, Got es k x ((scanlist getturn k es x).elim id id) j recs := by
  induction es with
  | nil => exact fun k x => ⟨0, [], .stop k fun e he => by cases he⟩
  | cons e es ih =>
      intro k x
      cases e with
      | none =>
          obtain ⟨j, recs, hgot⟩ := ih (k + 1) x
          obtain ⟨j', hgot'⟩ := hgot.free
          exact ⟨j', recs, hgot'⟩
      | some e =>
          obtain ⟨name, ino⟩ := e
          cases hwrite : x.2.write ino x.1 name with
          | none =>
              have hstop : scanlist getturn k (some (name, ino) :: es) x = .inr x := by
                rw [scanlist, getturn]
                rw [hwrite]
              rw [hstop]
              refine ⟨0, [], .stop k fun e he => ?_⟩
              cases he
              unfold Destream.write at hwrite
              by_contra hroom
              rw [if_neg hroom] at hwrite
              cases hwrite
          | some st =>
              have hgo : scanlist getturn k (some (name, ino) :: es) x =
                  scanlist getturn (k + 1) es (32 * k + 32, st) := by
                rw [scanlist, getturn]
                rw [hwrite]
              obtain ⟨j, recs, hgot⟩ := ih (k + 1) (32 * k + 32, st)
              rw [hgo]
              exact ⟨j + 1, _, hgot.record hwrite⟩

/-- The lengths of the records. -/
def total (recs : List Dirent) : Nat := (recs.map Dirent.reclen).sum

/-- **What one call returns**: the records of the next `j` entries. -/
theorem Whole.getdents (h : Whole s) (k nbyte : Nat) :
    ∃ s' recs j, s.getdents (32 * k) nbyte =
        some (((total recs : Int), recs), 32 * (k + j), s') ∧ Same s s' ∧
      recs.map Dirent.entry = live ((s.entries.drop k).take j) ∧ total recs ≤ nbyte ∧
      (∀ d ∈ recs, d.reclen = reclen d.name) ∧
      ∀ e, (live (s.entries.drop (k + j))).head? = some e →
        nbyte < total recs + reclen e.1 := by
  obtain ⟨s', hscan, hsame⟩ := h.scan (getbody_reads s) k (32 * k, ⟨nbyte, 0, []⟩)
  obtain ⟨j, recs, hgot⟩ := scanlist_got (s.entries.drop k) k (32 * k, ⟨nbyte, 0, []⟩)
  have hfits := hgot.fits (Nat.zero_le _)
  have hfull := hgot.full
  have hpos : ((scanlist getturn k (s.entries.drop k) (32 * k, ⟨nbyte, 0, []⟩)).elim id id).1 =
      32 * (k + j) := by
    rcases hgot.pos with ⟨-, hj, hpos⟩ | ⟨-, hpos⟩
    · rw [hpos, hj]
      rfl
    · exact hpos
  rw [hgot.out] at hfits hfull
  unfold Destream.wrote at hfits hfull
  rw [Nat.zero_add] at hfits hfull
  refine ⟨s', recs, j, ?_, hsame, hgot.entry, hfits, hgot.lens, ?_⟩
  · unfold Dirino.getdents
    rw [h.isdir, if_neg (by decide), hscan, Option.map_some]
    dsimp only
    rw [hpos, hgot.out]
    unfold Destream.wrote
    rw [Nat.zero_add, nil_append]
    rfl
  · rw [drop_drop] at hfull
    exact hfull

/-! ## One call after the other -/

theorem live_append (t t' : Table Name Nat) : live (t ++ t') = live t ++ live t' :=
  filterMap_append

/-- What the calls before have returned, and the call itself. -/
structure Turn (es : Table Name Nat) (nbyte : Nat) (before recs : List Dirent) (r : Int)
    (a b : Nat) : Prop where
  prior : before.map Dirent.entry = live (es.take a)
  now : recs.map Dirent.entry = live ((es.drop a).take b)
  count : r = total recs
  fits : total recs ≤ nbyte
  lens : ∀ d ∈ recs, d.reclen = reclen d.name
  full : ∀ e, (live (es.drop (a + b))).head? = some e → nbyte < total recs + reclen e.1

theorem calls_turn (ns : List Nat) : ∀ {s : Dirino} (k : Nat), Whole s →
    ∃ outs pos s', calls ns (32 * k) s = some (outs, pos, s') ∧ outs.length = ns.length ∧
      ∀ i n out, ns[i]? = some n → outs[i]? = some out →
        ∃ a b, Turn (s.entries.drop k) n ((outs.take i).flatMap Prod.snd) out.2 out.1 a b := by
  induction ns with
  | nil => exact fun k _ => ⟨[], _, _, rfl, rfl, fun i n out hn => by cases hn⟩
  | cons n ns ih =>
      intro s k h
      obtain ⟨s₁, recs, j, hcall, hsame, hentry, hfits, hlens, hfull⟩ := h.getdents k n
      obtain ⟨outs, pos, s', hrun, hlength, hturns⟩ := ih (k + j) (hsame.whole h)
      rw [hsame.entries] at hturns
      refine ⟨((total recs : Int), recs) :: outs, pos, s', ?_, ?_, fun i m out hn hout => ?_⟩
      · rw [calls, hcall, Option.bind_some, hrun]
        rfl
      · rw [length_cons, length_cons, hlength]
      cases i with
      | zero =>
          cases hn
          cases hout
          refine ⟨0, j, rfl, hentry, rfl, hfits, hlens, ?_⟩
          rw [Nat.zero_add, drop_drop]
          exact hfull
      | succ i =>
          obtain ⟨a, b, hturn⟩ := hturns i m out hn hout
          refine ⟨j + a, b, ?_, ?_, hturn.count, hturn.fits, hturn.lens, ?_⟩
          · rw [take_succ_cons, flatMap_cons, map_append, hentry, hturn.prior,
              take_add, live_append, drop_drop]
          · rw [hturn.now, drop_drop, drop_drop, Nat.add_assoc]
          · have hmore := hturn.full
            rw [drop_drop] at hmore ⊢
            rw [show k + (j + a + b) = k + j + (a + b) by omega]
            exact hmore

/-- A record has a length. -/
theorem recs_nil {recs : List Dirent} (hlens : ∀ d ∈ recs, d.reclen = reclen d.name)
    (hzero : total recs = 0) : recs = [] := by
  cases recs with
  | nil => rfl
  | cons d recs =>
      have hd := hlens d mem_cons_self
      unfold total reclen at *
      rw [map_cons, sum_cons] at hzero
      omega

/-- **`getdents` enumerates.**  The records of the calls are the entries in use, in their order;
they fit into the buffers; and a call that returns 0 though the next entry would have fit comes
when all have been returned. -/
theorem getdents_enumerates (h : Whole s) (ns : List Nat) :
    ∃ outs pos s', calls ns 0 s = some (outs, pos, s') ∧ outs.length = ns.length ∧
      ∀ i n r recs, ns[i]? = some n → outs[i]? = some (r, recs) →
        ((outs.take i).flatMap Prod.snd ++ recs).map Dirent.entry <+: live s.entries ∧
        r = total recs ∧ total recs ≤ n ∧ (∀ d ∈ recs, d.reclen = reclen d.name) ∧
        (r = 0 →
          (∀ e, (live s.entries)[((outs.take i).flatMap Prod.snd).length]? = some e →
            reclen e.1 ≤ n) →
          ((outs.take i).flatMap Prod.snd).map Dirent.entry = live s.entries) := by
  obtain ⟨outs, pos, s', hrun, hlength, hturns⟩ := calls_turn ns 0 h
  refine ⟨outs, pos, s', hrun, hlength, fun i n r recs hn hout => ?_⟩
  obtain ⟨a, b, hturn⟩ := hturns i n (r, recs) hn hout
  rw [List.drop_zero] at hturn
  have hall : (((outs.take i).flatMap Prod.snd ++ recs).map Dirent.entry) =
      live (s.entries.take (a + b)) := by
    rw [List.map_append, hturn.prior, hturn.now, List.take_add, live_append]
  have hsplit : live s.entries =
      live (s.entries.take (a + b)) ++ live (s.entries.drop (a + b)) := by
    rw [← live_append, List.take_append_drop]
  refine ⟨?_, hturn.count, hturn.fits, hturn.lens, fun hr hnext => ?_⟩
  · rw [hall, hsplit]
    exact List.prefix_append ..
  · have hnil : recs = [] := recs_nil hturn.lens (Int.ofNat_eq_zero.mp (hturn.count.symm.trans hr))
    rw [hnil, List.append_nil] at hall
    rw [hall]
    cases hrest : live (s.entries.drop (a + b)) with
    | nil => rw [hsplit, hrest, List.append_nil]
    | cons e es =>
        have hfull := hturn.full e (by rw [hrest]; rfl)
        have hnextfits := hnext e (by
          rw [hsplit, hrest, ← hall, List.getElem?_append_right (by rw [List.length_map]),
            List.length_map, Nat.sub_self]
          rfl)
        rw [hnil] at hfull
        unfold total at hfull
        rw [List.map_nil, List.sum_nil, Nat.zero_add] at hfull
        omega

/-- A buffer for one record of a directory with two. -/
theorem getdents_small : ∃ r recs pos s',
    calls [12] 0 (small 64 []) = some ([(r, recs)], pos, s') ∧
      recs.map Dirent.entry <+: [([1], 1), ([2], 2)] ∧ r = total recs ∧ total recs ≤ 12 := by
  have hwhole : Whole (small 64 []) :=
    small_whole (by decide) (by decide) (by decide) List.nodup_nil fun b hb => by cases hb
  obtain ⟨outs, pos, s', hrun, hlength, hturns⟩ := getdents_enumerates hwhole [12]
  obtain ⟨out, rfl⟩ := List.length_eq_one_iff.mp hlength
  obtain ⟨hfirst, hcount, hfits, -⟩ := hturns 0 12 out.1 out.2 rfl rfl
  exact ⟨out.1, out.2, pos, s', hrun, hfirst, hcount, hfits⟩

end Unixlite.Fs.Dirino
