import Unixlite.Dev.Condev

/-!
# The console stays on its screen

After every byte the screen is in video memory and the cursor on the screen, and no byte has
changed a cell beside it, in the runs whose bytes meet `Fits` each.
-/

namespace Unixlite.Chrdev

open Unixlite.Verified

variable {lo hi src dst stop nchar : Int} {m : Cells CharT}

theorem stray_erasechar : (erasechar lo hi src dst m).stray = false ↔
    m.stray = false ∧ (dst ≤ src ∨ lo ≤ src ∧ dst ≤ hi) := by
  rw [erasechar, Cells.stray_fill]
  refine and_congr_right fun _ => ?_
  omega

theorem stray_movechar : (movechar lo hi src dst nchar m).stray = false ↔
    m.stray = false ∧ (nchar ≤ 0 ∨ lo ≤ dst ∧ dst + nchar ≤ hi) := by
  unfold movechar
  split
  · rw [Cells.stray_back]
    refine and_congr_right fun _ => ?_
    omega
  · rw [Cells.stray_forth]
    refine and_congr_right fun _ => ?_
    omega

theorem stray_insertchar : (insertchar lo hi src dst stop m).stray = false ↔
    m.stray = false ∧ (stop ≤ dst ∨ lo ≤ dst ∧ stop ≤ hi) ∧ (dst ≤ src ∨ lo ≤ src ∧ dst ≤ hi) := by
  rw [insertchar, stray_erasechar, stray_movechar, and_assoc]
  refine and_congr_right fun _ => ?_
  omega

theorem stray_deletechar : (deletechar lo hi src dst stop m).stray = false ↔
    m.stray = false ∧ (stop ≤ dst ∨ lo ≤ src ∧ src + (stop - dst) ≤ hi) ∧
      (dst ≤ src ∨ lo ≤ src + (stop - dst) ∧ stop ≤ hi) := by
  rw [deletechar, stray_erasechar, stray_movechar, and_assoc]
  refine and_congr_right fun _ => ?_
  omega

namespace Condev

/-- After each byte. -/
structure Bounds (s : Condev) : Prop where
  org_ge : video ≤ s.org
  cursor_ge : s.org ≤ s.cursor
  cursor_lt : s.cursor < s.eorg
  eorg_le : s.eorg ≤ evideo
  size : s.eorg = s.org + nrow * ncolumn
  inside : s.screen.stray = false
  running : s.panicked = false

/-- The scroll region is the screen. -/
def Full (s : Condev) : Prop := s.top = 0 ∧ s.bottom = nrow

instance (s : Condev) : Decidable s.Full := inferInstanceAs (Decidable (_ ∧ _))

/-- `c` does not leave the screen where the code does not look: at the end of a smaller region,
in `ESC M` on the first row, and in `ESC [ @` on the last one. -/
@[mk_iff] structure Fits (s : Condev) (c : BitVec 8) : Prop where
  text : s.state = NORMAL → 32 ≤ c.toInt → c.toInt < 127 → s.cursor + 1 = s.eorg → s.Full
  lf : s.state = NORMAL → c = 10 → s.lastrow → s.Full
  down : s.state = ESC → c = ch 'D' ∨ c = ch 'E' → s.lastrow → s.Full
  up : s.state = ESC → c = ch 'M' → s.cury = 0 → s.curx = 0 ∧ s.Full
  insert : s.state = ESCBRACKET → c = ch '@' → s.lastrow → s.curx = 0

set_option synthInstance.maxSize 512 in
instance (s : Condev) (c : BitVec 8) : Decidable (s.Fits c) :=
  decidable_of_iff _ (fits_iff s c).symm

/-- The first row of the region that `ESC [ r` sets has not become negative as an `int`. -/
def Region (s : Condev) : Prop := s.pt < s.pb → s.pb ≤ nrow → 0 ≤ s.pt

def Rows (s : Condev) (c : BitVec 8) : Prop :=
  s.state = ESCBRACKET → c = ch 'r' → s.Region

instance (s : Condev) (c : BitVec 8) : Decidable (s.Rows c) :=
  inferInstanceAs (Decidable (_ → _ → _ → _ → _))

/-! ## The invariant -/

/-- The screen and the region. -/
structure Geometry (s : Condev) : Prop where
  org_ge : 0 ≤ s.org
  eorg_le : s.eorg ≤ 16000
  size : s.eorg = s.org + 2000
  aligned : s.org % 80 = 0
  top_ge : 0 ≤ s.top
  top_lt : s.top < s.bottom
  bottom_le : s.bottom ≤ 25
  inside : s.screen.stray = false
  running : s.panicked = false

structure Inv (s : Condev) : Prop where
  geometry : s.Geometry
  cursor_ge : s.org ≤ s.cursor
  cursor_lt : s.cursor < s.eorg

variable {s t : Condev} {c : BitVec 8}

theorem Inv.bounds (h : s.Inv) : s.Bounds where
  org_ge := h.geometry.org_ge
  cursor_ge := h.cursor_ge
  cursor_lt := h.cursor_lt
  eorg_le := h.geometry.eorg_le
  size := h.geometry.size
  inside := h.geometry.inside
  running := h.geometry.running

/-- The row and the column of the cursor. -/
theorem Inv.place (h : s.Inv) : s.cursor = s.org + s.cury * 80 + s.curx ∧
    0 ≤ s.curx ∧ s.curx < 80 ∧ 0 ≤ s.cury ∧ s.cury < 25 := by
  have hnonneg : 0 ≤ s.cursor - s.org := by
    have := h.cursor_ge
    omega
  have hx : s.curx = (s.cursor - s.org) % 80 := Int.tmod_eq_emod_of_nonneg hnonneg
  have hy : s.cury = (s.cursor - s.org) / 80 := Int.tdiv_eq_ediv_of_nonneg hnonneg
  have := h.cursor_lt
  have := h.geometry.size
  omega

theorem Inv.lastrow_iff (h : s.Inv) : s.lastrow = true ↔ s.eorg ≤ s.cursor + 80 := by
  obtain ⟨hplace, hx, hx', hy, hy'⟩ := h.place
  have := h.geometry.size
  rw [lastrow, beq_iff_eq, show nrow - 1 = 24 from rfl]
  omega

/-- What is on the screen does not matter. -/
theorem Geometry.of_eq (h : s.Geometry) (horg : t.org = s.org) (heorg : t.eorg = s.eorg)
    (htop : t.top = s.top) (hbottom : t.bottom = s.bottom) (hinside : t.screen.stray = false)
    (hrunning : t.panicked = s.panicked) : t.Geometry where
  org_ge := by rw [horg]; exact h.org_ge
  eorg_le := by rw [heorg]; exact h.eorg_le
  size := by rw [heorg, horg]; exact h.size
  aligned := by rw [horg]; exact h.aligned
  top_ge := by rw [htop]; exact h.top_ge
  top_lt := by rw [htop, hbottom]; exact h.top_lt
  bottom_le := by rw [hbottom]; exact h.bottom_le
  inside := hinside
  running := by rw [hrunning]; exact h.running

theorem Inv.of_eq (h : s.Inv) (horg : t.org = s.org) (heorg : t.eorg = s.eorg)
    (htop : t.top = s.top) (hbottom : t.bottom = s.bottom) (hinside : t.screen.stray = false)
    (hrunning : t.panicked = s.panicked) (hcursor : s.org ≤ t.cursor ∧ t.cursor < s.eorg) :
    t.Inv where
  geometry := h.geometry.of_eq horg heorg htop hbottom hinside hrunning
  cursor_ge := by rw [horg]; exact hcursor.1
  cursor_lt := by rw [heorg]; exact hcursor.2

/-- The cursor and the screen stay. -/
theorem Inv.same (h : s.Inv) (horg : t.org = s.org) (heorg : t.eorg = s.eorg)
    (htop : t.top = s.top) (hbottom : t.bottom = s.bottom) (hscreen : t.screen = s.screen)
    (hrunning : t.panicked = s.panicked) (hcursor : t.cursor = s.cursor) : t.Inv := by
  refine h.of_eq horg heorg htop hbottom ?_ hrunning ?_
  · rw [hscreen]
    exact h.geometry.inside
  · rw [hcursor]
    exact ⟨h.cursor_ge, h.cursor_lt⟩

theorem Inv.ite {p : Prop} [Decidable p] {t u : Condev} (ht : p → t.Inv) (hu : ¬p → u.Inv) :
    (if p then t else u).Inv := by
  split
  · next hp => exact ht hp
  · next hp => exact hu hp

theorem Inv.setcursor (h : s.Inv) {p : Int} (hge : s.org ≤ p) (hlt : p < s.eorg) :
    (s.setcursor p).Inv :=
  h.of_eq rfl rfl rfl rfl h.geometry.inside rfl ⟨hge, hlt⟩

theorem Geometry.setcursor (h : s.Geometry) (p : Int) : (s.setcursor p).Geometry :=
  h.of_eq rfl rfl rfl rfl h.inside rfl

theorem Inv.put (h : s.Inv) {p : Int} {v : CharT} (hge : s.org ≤ p) (hlt : p < s.eorg) :
    (s.put p v).Inv :=
  h.of_eq rfl rfl rfl rfl (Cells.stray_put.mpr ⟨h.geometry.inside, hge, hlt⟩) rfl
    ⟨h.cursor_ge, h.cursor_lt⟩

theorem Inv.gotoxy (h : s.Inv) (x y : Int) : (s.gotoxy x y).Inv := by
  unfold Condev.gotoxy
  split
  · next hin =>
    have := h.geometry.size
    unfold ncolumn nrow at *
    exact h.setcursor (by omega) (by omega)
  · exact h

theorem Inv.erase (h : s.Inv) {a b : Int} (hab : b ≤ a ∨ s.org ≤ a ∧ b ≤ s.eorg) :
    (s.erase a b).Inv :=
  h.of_eq rfl rfl rfl rfl (stray_erasechar.mpr ⟨h.geometry.inside, hab⟩) rfl
    ⟨h.cursor_ge, h.cursor_lt⟩

/-! ## Scrolling -/

theorem Geometry.move (h : s.Geometry) (neworg : Int) (hge : 0 ≤ neworg)
    (hle : neworg + 2000 ≤ 16000) (haligned : neworg % 80 = 0) :
    (s.move neworg).Geometry where
  org_ge := hge
  eorg_le := hle
  size := rfl
  aligned := haligned
  top_ge := h.top_ge
  top_lt := h.top_lt
  bottom_le := h.bottom_le
  inside := stray_movechar.mpr ⟨h.inside, .inr ⟨Int.le_refl _, Int.le_refl _⟩⟩
  running := h.running

theorem Geometry.hardup (h : s.Geometry) (hroom : s.eorg ≠ 16000) : s.hardup.Geometry := by
  have horg := h.org_ge
  have heorg := h.eorg_le
  have hsize := h.size
  have haligned := h.aligned
  refine ⟨?_, ?_, ?_, ?_, h.top_ge, h.top_lt, h.bottom_le, ?_, h.running⟩
  · change 0 ≤ s.org + 80
    omega
  · -- both are multiples of a row
    change s.eorg + 80 ≤ 16000
    omega
  · change s.eorg + 80 = s.org + 80 + 2000
    omega
  · change (s.org + 80) % 80 = 0
    omega
  · refine stray_erasechar.mpr ⟨h.inside, .inr ⟨?_, Int.le_refl _⟩⟩
    change s.org + 80 ≤ s.eorg
    omega

theorem Geometry.harddown (h : s.Geometry) (hroom : s.org ≠ 0) : s.harddown.Geometry := by
  have horg := h.org_ge
  have heorg := h.eorg_le
  have hsize := h.size
  have haligned := h.aligned
  refine ⟨?_, ?_, ?_, ?_, h.top_ge, h.top_lt, h.bottom_le, ?_, h.running⟩
  · change 0 ≤ s.org - 80
    omega
  · change s.eorg - 80 ≤ 16000
    omega
  · change s.eorg - 80 = s.org - 80 + 2000
    omega
  · change (s.org - 80) % 80 = 0
    omega
  · refine stray_erasechar.mpr ⟨h.inside, .inr ⟨Int.le_refl _, ?_⟩⟩
    change s.org ≤ s.eorg - 80
    omega

/-- Hardware scrolling keeps the geometry; the cursor stays in its cell of the picture. -/
theorem Geometry.scrollup (h : s.Geometry) (hfull : s.Full) :
    s.scrollup.Geometry ∧ s.scrollup.cursor - s.scrollup.org = s.cursor - s.org - 80 := by
  have hscroll : s.scrollup = (if s.eorg = evideo then s.move video else s).hardup := if_pos hfull
  rw [hscroll]
  by_cases hend : s.eorg = evideo
  · rw [if_pos hend]
    have hmove := h.move video (by decide) (by decide) (by decide)
    refine ⟨hmove.hardup ?_, ?_⟩
    · change video + nrow * ncolumn ≠ 16000
      decide
    change video + (s.cursor - s.org) - (video + 80) = _
    omega
  · rw [if_neg hend]
    refine ⟨h.hardup hend, ?_⟩
    change s.cursor - (s.org + 80) = _
    omega

theorem Geometry.scrolldown (h : s.Geometry) (hfull : s.Full) :
    s.scrolldown.Geometry ∧ s.scrolldown.cursor - s.scrolldown.org = s.cursor - s.org + 80 := by
  have hscroll : s.scrolldown =
      (if s.org = video then s.move (evideo - nrow * ncolumn) else s).harddown := if_pos hfull
  rw [hscroll]
  by_cases hstart : s.org = video
  · rw [if_pos hstart]
    have hmove := h.move (evideo - nrow * ncolumn) (by decide) (by decide) (by decide)
    refine ⟨hmove.harddown ?_, ?_⟩
    · change evideo - nrow * ncolumn ≠ 0
      decide
    · change evideo - nrow * ncolumn + (s.cursor - s.org) - (evideo - nrow * ncolumn - 80) = _
      omega
  · rw [if_neg hstart]
    refine ⟨h.harddown hstart, ?_⟩
    change s.cursor - (s.org - 80) = _
    omega

theorem int_eq {n : Int} (hlo : -2000 ≤ n) (hhi : n ≤ 2000) : int n = n := by
  unfold int
  rw [Int.bmod_def]
  omega

theorem scrollup_soft (hfull : ¬s.Full) :
    s.scrollup = s.delete (s.org + int (s.top * ncolumn))
      (s.org + int (s.top * ncolumn) + ncolumn) (s.org + int (s.bottom * ncolumn)) :=
  if_neg hfull

theorem scrolldown_soft (hfull : ¬s.Full) :
    s.scrolldown = s.insert (s.org + int (s.top * ncolumn))
      (s.org + int (s.top * ncolumn) + ncolumn) (s.org + int (s.bottom * ncolumn)) :=
  if_neg hfull

/-- A region is scrolled in its place. -/
theorem Inv.scrolldown (h : s.Inv) (hfull : ¬s.Full) : s.scrolldown.Inv := by
  have htop := h.geometry.top_ge
  have hlt := h.geometry.top_lt
  have hbottom := h.geometry.bottom_le
  have hsize := h.geometry.size
  rw [scrolldown_soft hfull, int_eq (by unfold ncolumn; omega) (by unfold ncolumn; omega),
    int_eq (by unfold ncolumn; omega) (by unfold ncolumn; omega)]
  refine h.of_eq rfl rfl rfl rfl ?_ rfl ⟨h.cursor_ge, h.cursor_lt⟩
  refine stray_insertchar.mpr ⟨h.geometry.inside, ?_, ?_⟩
  · unfold ncolumn
    omega
  · unfold ncolumn
    omega

/-! ## The handlers -/

/-- There is a row below the cursor then. -/
theorem Inv.makeroom (h : s.Inv) (hfull : s.lastrow = true → s.Full) :
    s.makeroom.Inv ∧ s.makeroom.cursor + 80 < s.makeroom.eorg := by
  have hsize := h.geometry.size
  have hlt := h.cursor_lt
  unfold Condev.makeroom
  by_cases hlast : s.lastrow = true
  · rw [if_pos hlast]
    obtain ⟨hgeometry, hmoved⟩ := h.geometry.scrollup (hfull hlast)
    have hrow := h.lastrow_iff.mp hlast
    have hsize' := hgeometry.size
    exact ⟨⟨hgeometry, by omega, by omega⟩, by omega⟩
  · rw [if_neg hlast]
    rw [h.lastrow_iff] at hlast
    exact ⟨h, by omega⟩

theorem Inv.down (h : s.Inv) (hfull : s.lastrow = true → s.Full) :
    (s.makeroom.setcursor (s.makeroom.cursor + ncolumn)).Inv := by
  obtain ⟨hinv, hroom⟩ := h.makeroom hfull
  have hge := hinv.cursor_ge
  refine hinv.setcursor ?_ hroom
  unfold ncolumn
  omega

theorem Inv.nextrow (h : s.Inv) (hfull : s.lastrow = true → s.Full) :
    (s.makeroom.setcursor s.makeroom.ecurrow).Inv := by
  obtain ⟨hinv, hroom⟩ := h.makeroom hfull
  obtain ⟨hplace, hx, hx', hy, hy'⟩ := hinv.place
  unfold ecurrow currow ncolumn
  exact hinv.setcursor (by omega) (by omega)

theorem Inv.up (h : s.Inv) (hfull : s.cury = 0 → s.curx = 0 ∧ s.Full) :
    (s.makeroomabove.setcursor (s.makeroomabove.cursor - ncolumn)).Inv := by
  obtain ⟨hplace, hx, hx', hy, hy'⟩ := h.place
  have hsize := h.geometry.size
  unfold makeroomabove ncolumn
  by_cases hfirst : s.firstrow = true
  · rw [if_pos hfirst]
    by_cases hf : s.Full
    · obtain ⟨hgeometry, hmoved⟩ := h.geometry.scrolldown hf
      have hsize' := hgeometry.size
      refine ⟨hgeometry.setcursor _, ?_, ?_⟩
      · change s.scrolldown.org ≤ s.scrolldown.cursor - 80
        omega
      · change s.scrolldown.cursor - 80 < s.scrolldown.eorg
        omega
    · have hrow : s.cury ≠ 0 := fun hrow => hf (hfull hrow).2
      have hinv := h.scrolldown hf
      rw [scrolldown_soft hf] at hinv ⊢
      refine hinv.setcursor ?_ ?_
      · change s.org ≤ s.cursor - 80
        omega
      · change s.cursor - 80 < s.eorg
        omega
  · rw [if_neg hfirst]
    have hrow : s.cury ≠ 0 := by
      intro hrow
      refine hfirst ?_
      rw [firstrow, beq_iff_eq]
      exact (hfull hrow).1
    exact h.setcursor (by omega) (by omega)

/-- The character in the last cell of the screen scrolls it. -/
theorem Inv.text (h : s.Inv) (v : CharT) (hfull : s.cursor + 1 = s.eorg → s.Full) :
    (if s.cursor + 1 = s.eorg then ((s.put s.cursor v).setcursor (s.cursor + 1)).scrollup
      else (s.put s.cursor v).setcursor (s.cursor + 1)).Inv := by
  have hge := h.cursor_ge
  have hlt := h.cursor_lt
  have hsize := h.geometry.size
  have hput : (s.put s.cursor v).Inv := h.put hge hlt
  refine .ite (fun hend => ?_) fun hend => ?_
  · obtain ⟨hgeometry, hmoved⟩ :=
      (hput.geometry.setcursor (s.cursor + 1)).scrollup (hfull hend)
    have hsize' := hgeometry.size
    change _ = s.cursor + 1 - s.org - 80 at hmoved
    exact ⟨hgeometry, by omega, by omega⟩
  · refine hput.setcursor ?_ ?_
    · change s.org ≤ s.cursor + 1
      omega
    · change s.cursor + 1 < s.eorg
      omega

theorem Inv.normal (h : s.Inv) (hstate : s.state = NORMAL) (hfits : s.Fits c) :
    (s.normal c).Inv := by
  obtain ⟨hplace, hx, hx', hy, hy'⟩ := h.place
  have hsize := h.geometry.size
  have hrow : s.currow = s.org + s.cury * 80 := by
    unfold currow
    omega
  have hprev : s.cursor ≠ s.currow → s.org ≤ s.cursor - 1 ∧ s.cursor - 1 < s.eorg := by omega
  refine .ite (fun _ => h.same rfl rfl rfl rfl rfl rfl rfl) fun _ => ?_
  refine .ite (fun htext => h.text _ (hfits.text hstate htext.1 htext.2)) fun _ => ?_
  refine .ite (fun _ => h) fun _ => ?_
  refine .ite (fun _ => .ite (fun hcol => ?_) fun _ => h) fun _ => ?_
  · exact h.setcursor (hprev hcol).1 (hprev hcol).2
  refine .ite (fun _ => ?_) fun _ => ?_
  · unfold rounddown2
    exact h.setcursor (by omega) (by omega)
  refine .ite (fun hlf => h.down (hfits.lf hstate hlf)) fun _ => ?_
  refine .ite (fun _ => h.setcursor (by omega) (by omega)) fun _ => ?_
  refine .ite (fun _ => .ite (fun hcol => ?_) fun _ => h) fun _ => h
  exact (h.put (hprev hcol).1 (hprev hcol).2).setcursor (hprev hcol).1 (hprev hcol).2

theorem Inv.esc (h : s.Inv) (hstate : s.state = ESC) (hfits : s.Fits c) : (s.esc c).Inv := by
  have hnormal : ({ s with state := NORMAL } : Condev).Inv := h.same rfl rfl rfl rfl rfl rfl rfl
  refine .ite (fun _ => h.same rfl rfl rfl rfl rfl rfl rfl) fun _ => ?_
  refine .ite (fun _ => h.same rfl rfl rfl rfl rfl rfl rfl) fun _ => ?_
  refine .ite (fun _ => h.same rfl rfl rfl rfl rfl rfl rfl) fun _ => ?_
  refine .ite (fun hE => hnormal.nextrow (hfits.down hstate (.inr hE))) fun _ => ?_
  refine .ite (fun hM => hnormal.up (hfits.up hstate hM)) fun _ => ?_
  refine .ite (fun hD => hnormal.down (hfits.down hstate (.inl hD))) fun _ => ?_
  refine .ite (fun _ => h.same rfl rfl rfl rfl rfl rfl rfl) fun _ => ?_
  exact .ite (fun _ => hnormal.gotoxy _ _) fun _ => hnormal

theorem Inv.setpar (h : s.Inv) (i : Fin 4) (n : Int) : (s.setpar i n).Inv :=
  h.same rfl rfl rfl rfl rfl rfl rfl

theorem Inv.insert (h : s.Inv) {src dst stop : Int}
    (hmove : stop ≤ dst ∨ s.org ≤ dst ∧ stop ≤ s.eorg)
    (herase : dst ≤ src ∨ s.org ≤ src ∧ dst ≤ s.eorg) : (s.insert src dst stop).Inv :=
  h.of_eq rfl rfl rfl rfl (stray_insertchar.mpr ⟨h.geometry.inside, hmove, herase⟩) rfl
    ⟨h.cursor_ge, h.cursor_lt⟩

theorem Inv.escbracketJ (h : s.Inv) : s.escbracketJ.Inv := by
  have hge := h.cursor_ge
  have hlt := h.cursor_lt
  unfold Condev.escbracketJ
  split_ifs
  · exact h.erase (by omega)
  · exact h.erase (by omega)
  · exact h.erase (by omega)
  · exact h

theorem Inv.escbracketK (h : s.Inv) : s.escbracketK.Inv := by
  obtain ⟨hplace, hx, hx', hy, hy'⟩ := h.place
  have hsize := h.geometry.size
  unfold Condev.escbracketK ecurrow currow ncolumn
  split_ifs
  · exact h.erase (by omega)
  · exact h.erase (by omega)
  · exact h.erase (by omega)
  · exact h

/-- With `min` and `max` in each other's place, the rows end at the region or the screen. -/
theorem Inv.escbracketL (h : s.Inv) : s.escbracketL.Inv := by
  obtain ⟨hplace, hx, hx', hy, hy'⟩ := h.place
  have hsize := h.geometry.size
  have htop := h.geometry.top_ge
  have hlt := h.geometry.top_lt
  have hbottom := h.geometry.bottom_le
  have hrows : int (s.bottom - s.cury) = s.bottom - s.cury := int_eq (by omega) (by omega)
  have hcells : int (max (min 1 (s.par 0)) (s.bottom - s.cury) * 80) =
      max (min 1 (s.par 0)) (s.bottom - s.cury) * 80 := int_eq (by omega) (by omega)
  unfold Condev.escbracketL ncolumn
  simp only [hrows, hcells]
  unfold currow
  exact h.insert (by omega) (by omega)

/-- The whole row is erased. -/
theorem Inv.escbracketP (h : s.Inv) : s.escbracketP.Inv := by
  obtain ⟨hplace, hx, hx', hy, hy'⟩ := h.place
  have hsize := h.geometry.size
  unfold Condev.escbracketP ecurrow currow ncolumn
  refine h.of_eq rfl rfl rfl rfl ?_ rfl ⟨h.cursor_ge, h.cursor_lt⟩
  exact stray_deletechar.mpr ⟨h.geometry.inside, by omega, by omega⟩

/-- 80 cells from the cursor on are erased, on the last row from its first column only. -/
theorem Inv.escbracketAT (h : s.Inv) (hfirst : s.lastrow = true → s.curx = 0) :
    s.escbracketAT.Inv := by
  obtain ⟨hplace, hx, hx', hy, hy'⟩ := h.place
  have hsize := h.geometry.size
  have hroom : s.cursor + 80 ≤ s.eorg := by
    by_cases hlast : s.lastrow = true
    · have := hfirst hlast
      omega
    · rw [h.lastrow_iff] at hlast
      omega
  unfold Condev.escbracketAT ecurrow currow ncolumn
  exact h.insert (by omega) (by omega)

theorem Inv.escbracketm (h : s.Inv) : s.escbracketm.Inv := by
  unfold Condev.escbracketm
  split_ifs
  all_goals exact h.same rfl rfl rfl rfl rfl rfl rfl

theorem Inv.escbracketr (h : s.Inv) (hregion : s.Region) : s.escbracketr.Inv := by
  refine Inv.ite (fun hset => ?_) fun _ => h.same rfl rfl rfl rfl rfl rfl rfl
  have hgeometry := h.geometry
  exact ⟨⟨hgeometry.org_ge, hgeometry.eorg_le, hgeometry.size, hgeometry.aligned,
    hregion hset.1 hset.2, hset.1, hset.2, hgeometry.inside, hgeometry.running⟩, h.cursor_ge,
    h.cursor_lt⟩

theorem Inv.command (h : s.Inv) (hregion : c = ch 'r' → s.Region)
    (hfirst : c = ch '@' → s.lastrow → s.curx = 0) : (s.command c).Inv := by
  have hmove : ∀ i n x y, ((s.setpar i n).gotoxy x y).Inv := fun i n x y =>
    (h.setpar i n).gotoxy x y
  refine .ite (fun _ => hmove _ _ _ _) fun _ => ?_
  refine .ite (fun _ => hmove _ _ _ _) fun _ => ?_
  refine .ite (fun _ => hmove _ _ _ _) fun _ => ?_
  refine .ite (fun _ => hmove _ _ _ _) fun _ => ?_
  refine .ite (fun _ => hmove _ _ _ _) fun _ => ?_
  refine .ite (fun _ => hmove _ _ _ _) fun _ => ?_
  refine .ite (fun _ => hmove _ _ _ _) fun _ => ?_
  refine .ite (fun _ => hmove _ _ _ _) fun _ => ?_
  refine .ite (fun _ => ((h.setpar _ _).setpar _ _).gotoxy _ _) fun _ => ?_
  refine .ite (fun _ => h.escbracketJ) fun _ => ?_
  refine .ite (fun _ => h.escbracketK) fun _ => ?_
  refine .ite (fun _ => h.escbracketL) fun _ => ?_
  refine .ite (fun _ => h.escbracketL) fun _ => ?_
  refine .ite (fun _ => h.escbracketP) fun _ => ?_
  refine .ite (fun hAT => h.escbracketAT (hfirst hAT)) fun _ => ?_
  refine .ite (fun _ => h.escbracketm) fun _ => ?_
  refine .ite (fun hr => h.escbracketr (hregion hr)) fun _ => ?_
  refine .ite (fun _ => h.same rfl rfl rfl rfl rfl rfl rfl) fun _ => ?_
  exact .ite (fun _ => h.gotoxy _ _) fun _ => h

theorem Inv.escbracket (h : s.Inv) (hstate : s.state = ESCBRACKET) (hrows : s.Rows c)
    (hfits : s.Fits c) : (s.escbracket c).Inv := by
  have hnormal : ({ s with state := NORMAL } : Condev).Inv := h.same rfl rfl rfl rfl rfl rfl rfl
  unfold Condev.escbracket
  split
  · exact h.same rfl rfl rfl rfl rfl rfl rfl
  · exact hnormal.command (hrows hstate) (hfits.insert hstate)

theorem Inv.getpar (h : s.Inv) : (s.getpar c).Inv := by
  unfold Condev.getpar
  split_ifs
  all_goals exact h.same rfl rfl rfl rfl rfl rfl rfl

theorem Inv.write2_eq (h : s.Inv) (c : BitVec 8) : s.write2 c = s.switch c :=
  if_neg (not_not.mpr ⟨h.cursor_ge, h.cursor_lt⟩)

/-- **A byte that fits keeps the invariant.** -/
theorem Inv.write2 (h : s.Inv) (hrows : s.Rows c) (hfits : s.Fits c) : (s.write2 c).Inv := by
  rw [h.write2_eq]
  refine .ite (fun hstate => h.normal hstate hfits) fun _ => ?_
  refine .ite (fun hstate => h.esc hstate hfits) fun _ => ?_
  refine .ite (fun hstate => h.escbracket hstate hrows hfits) fun _ => ?_
  exact .ite (fun _ => h.getpar) fun _ => h

/-! ## A byte that does not fit -/

theorem switch_normal (hstate : s.state = NORMAL) : s.switch c = s.normal c := if_pos hstate

theorem switch_esc (hstate : s.state = ESC) : s.switch c = s.esc c := by
  rw [switch, if_neg (by rw [hstate]; decide), if_pos hstate]

theorem switch_escbracket (hstate : s.state = ESCBRACKET) : s.switch c = s.escbracket c := by
  rw [switch, if_neg (by rw [hstate]; decide), if_neg (by rw [hstate]; decide), if_pos hstate]

/-- Below the last row of a region that is not the screen there is no room. -/
theorem Inv.makeroom_soft (h : s.Inv) (hlast : s.lastrow = true) (hfull : ¬s.Full) :
    s.makeroom.eorg ≤ s.makeroom.cursor + 80 ∧ s.makeroom.ecurrow = s.makeroom.eorg := by
  obtain ⟨hplace, hx, hx', hy, hy'⟩ := h.place
  have hsize := h.geometry.size
  have hrow := hlast
  rw [lastrow, beq_iff_eq, show nrow - 1 = 24 from rfl] at hrow
  rw [Condev.makeroom, if_pos hlast, scrollup_soft hfull]
  refine ⟨h.lastrow_iff.mp hlast, ?_⟩
  change s.ecurrow = s.eorg
  unfold ecurrow currow ncolumn
  omega

theorem full_of_text (hbounds : (s.normal c).Bounds) (hge : 32 ≤ c.toInt) (hlt : c.toInt < 127)
    (hend : s.cursor + 1 = s.eorg) : s.Full := by
  by_contra hfull
  have hesc : c ≠ 27 := by
    rintro rfl
    exact absurd hge (by decide)
  have hcursor := hbounds.cursor_lt
  have hnormal : s.normal c =
      ((s.put s.cursor ⟨c, s.curattr⟩).setcursor (s.cursor + 1)).scrollup := by
    rw [Condev.normal, if_neg hesc, if_pos ⟨hge, hlt⟩]
    exact if_pos hend
  have hsoft : ¬((s.put s.cursor ⟨c, s.curattr⟩).setcursor (s.cursor + 1)).Full := hfull
  rw [hnormal, scrollup_soft hsoft] at hcursor
  exact absurd hend (Int.ne_of_lt hcursor)

theorem Inv.full_of_down (h : s.Inv)
    (hbounds : (s.makeroom.setcursor (s.makeroom.cursor + ncolumn)).Bounds)
    (hlast : s.lastrow = true) : s.Full := by
  by_contra hfull
  have hcursor : s.makeroom.cursor + 80 < s.makeroom.eorg := hbounds.cursor_lt
  have hroom := h.makeroom_soft hlast hfull
  omega

theorem Inv.full_of_nextrow (h : s.Inv)
    (hbounds : (s.makeroom.setcursor s.makeroom.ecurrow).Bounds) (hlast : s.lastrow = true) :
    s.Full := by
  by_contra hfull
  have hcursor : s.makeroom.ecurrow < s.makeroom.eorg := hbounds.cursor_lt
  have hroom := h.makeroom_soft hlast hfull
  omega

theorem Inv.full_of_up (h : s.Inv)
    (hbounds : (s.makeroomabove.setcursor (s.makeroomabove.cursor - ncolumn)).Bounds)
    (hrow : s.cury = 0) : s.curx = 0 ∧ s.Full := by
  obtain ⟨hplace, hx, hx', hy, hy'⟩ := h.place
  have hcursor : s.makeroomabove.org ≤ s.makeroomabove.cursor - 80 := hbounds.cursor_ge
  unfold makeroomabove at hcursor
  by_cases hfirst : s.firstrow = true
  · rw [if_pos hfirst] at hcursor
    rw [firstrow, beq_iff_eq] at hfirst
    refine ⟨hfirst, ?_⟩
    by_contra hfull
    rw [scrolldown_soft hfull] at hcursor
    change s.org ≤ s.cursor - 80 at hcursor
    omega
  · rw [if_neg hfirst] at hcursor
    omega

theorem Inv.first_of_insert (h : s.Inv) (hbounds : s.escbracketAT.Bounds)
    (hlast : s.lastrow = true) : s.curx = 0 := by
  obtain ⟨hplace, hx, hx', hy, hy'⟩ := h.place
  have hsize := h.geometry.size
  have hinside := (stray_insertchar.mp hbounds.inside).2.2
  rw [lastrow, beq_iff_eq, show nrow - 1 = 24 from rfl] at hlast
  unfold ncolumn at hinside
  omega

/-- **A byte that does not fit leaves the bounds.** -/
theorem Inv.fits (h : s.Inv) (hbounds : (s.write2 c).Bounds) : s.Fits c := by
  have hnormal : ({ s with state := NORMAL } : Condev).Inv := h.same rfl rfl rfl rfl rfl rfl rfl
  rw [h.write2_eq] at hbounds
  refine ⟨fun hstate hge hlt hend => ?_, fun hstate hc hlast => ?_, fun hstate hc hlast => ?_,
    fun hstate hc hrow => ?_, fun hstate hc hlast => ?_⟩
  · rw [switch_normal hstate] at hbounds
    exact full_of_text hbounds hge hlt hend
  · rw [switch_normal hstate, hc] at hbounds
    exact h.full_of_down hbounds hlast
  · rw [switch_esc hstate] at hbounds
    obtain rfl | rfl := hc
    · exact hnormal.full_of_down hbounds hlast
    · exact hnormal.full_of_nextrow hbounds hlast
  · rw [switch_esc hstate, hc] at hbounds
    exact hnormal.full_of_up hbounds hrow
  · rw [switch_escbracket hstate, hc] at hbounds
    exact hnormal.first_of_insert hbounds hlast

/-! ## Runs -/

/-- A condition on the byte that `write2` takes next. -/
def OnByte (cond : Condev → BitVec 8 → Prop) (s : Condev) : Act → Prop
  | .write _ => True
  | .byte => ∀ c ∈ s.outq.head?, cond s c

instance (cond : Condev → BitVec 8 → Prop) [∀ s c, Decidable (cond s c)] (s : Condev) :
    (a : Act) → Decidable (s.OnByte cond a)
  | .write _ => .isTrue trivial
  | .byte => inferInstanceAs (Decidable (∀ c ∈ s.outq.head?, cond s c))

theorem inv_init (cell : Int → CharT) : (init cell).Inv where
  geometry :=
    { org_ge := Int.le_refl 0
      eorg_le := show (2000 : Int) ≤ 16000 by decide
      size := rfl
      aligned := rfl
      top_ge := Int.le_refl 0
      top_lt := show (0 : Int) < 25 by decide
      bottom_le := Int.le_refl 25
      inside := stray_erasechar.mpr ⟨rfl, .inr ⟨Int.le_refl _, Int.le_refl _⟩⟩
      running := rfl }
  cursor_ge := Int.le_refl 0
  cursor_lt := show (0 : Int) < 2000 by decide

theorem Inv.step_byte (h : s.Inv) {outq : List (BitVec 8)} (hq : s.outq = c :: outq) :
    s.step .byte = some ({ s with outq := outq }.write2 c) := by
  rw [Condev.step, hq]
  exact if_neg (ne_true_of_eq_false h.geometry.running)

theorem Inv.step (h : s.Inv) {a : Act} (hrows : s.OnByte Rows a) (hfits : s.OnByte Fits a)
    (ht : s.step a = some t) : t.Inv := by
  cases a with
  | write bytes =>
      rw [Condev.step, if_neg (ne_true_of_eq_false h.geometry.running)] at ht
      cases ht
      exact h.same rfl rfl rfl rfl rfl rfl rfl
  | byte =>
      cases hq : s.outq with
      | nil =>
          rw [Condev.step, hq] at ht
          cases ht
      | cons c outq =>
          rw [h.step_byte hq] at ht
          cases ht
          have hpopped : ({ s with outq := outq } : Condev).Inv :=
            h.same rfl rfl rfl rfl rfl rfl rfl
          obtain ⟨htext, hlf, hdown, hup, hinsert⟩ := hfits c (by rw [hq]; exact rfl)
          exact hpopped.write2 (hrows c (by rw [hq]; exact rfl)) ⟨htext, hlf, hdown, hup, hinsert⟩

/-- **The console stays on its screen**, as long as its regions do, if and only if every byte
fits. -/
theorem run_console (cell : Int → CharT) (acts : List Act)
    (hrows : Run.Each step (OnByte Rows) (init cell) acts) :
    Run.Always step Bounds (init cell) acts ↔ Run.Each step (OnByte Fits) (init cell) acts := by
  refine hrows.always_iff (I := Inv) (fun s h => h.bounds)
    (fun s a t h hrows hfits ht => h.step hrows hfits ht) (fun s a h _ hbounds => ?_)
    (inv_init cell)
  cases a with
  | write bytes => trivial
  | byte =>
      intro c hc
      obtain ⟨outq, hq⟩ := List.head?_eq_some_iff.mp hc
      have hpopped : ({ s with outq := outq } : Condev).Inv :=
        h.same rfl rfl rfl rfl rfl rfl rfl
      obtain ⟨htext, hlf, hdown, hup, hinsert⟩ := hpopped.fits (hbounds _ (h.step_byte hq))
      exact ⟨htext, hlf, hdown, hup, hinsert⟩

/-- `ESC [ 5 ; 20 r` sets a region, in which `A` and a line feed leave the screen where it is. -/
theorem run_console_region :
    Run.Always step Bounds (init fun _ => erased)
      (.write [27, 91, 53, 59, 50, 48, 114, 65, 10] :: List.replicate 10 .byte) :=
  (run_console _ _ (by decide +kernel)).mpr (by decide +kernel)

/-- `A ESC M B` on an empty screen: the cursor leaves it upwards, and `B` finds it there. -/
theorem reverse_panics : ¬∀ cell acts, Run.Always step Bounds (init cell) acts := by
  intro hall
  have halways := hall (fun _ => erased)
    [.write [65, 27, 77, 66], .byte, .byte, .byte, .byte]
  rw [Run.always_iff_exec] at halways
  have hpanicked : ((Run.exec step (init fun _ => erased)
      [.write [65, 27, 77, 66], .byte, .byte, .byte, .byte]).map panicked) = some true := by
    decide
  obtain ⟨t, hexec, ht⟩ := Option.map_eq_some_iff.mp hpanicked
  have hbounds := halways _ [] t (List.append_nil _).symm hexec
  rw [hbounds.running] at ht
  cases ht

end Condev

end Unixlite.Chrdev
