import Unixlite.Dev.CondevRun

/-!
# Insert and delete

What `ESC [ n @`, `P`, `L` and `M` do to the cells of video memory.  `nr` is the larger of two
bounds, not the smaller, so that every one of them blanks as much as it can; `M` inserts, and
`P` blanks its row from the first column on.  They are right where all is to be blanked.
-/

namespace Unixlite.Chrdev

open Unixlite.Verified

variable {lo hi src dst stop nchar : Int} {m : Cells CharT}

theorem cell_erasechar (q : Int) : (erasechar lo hi src dst m).cell q =
    if src ≤ q ∧ q < dst then erased else m.cell q := by
  rw [erasechar, Cells.cell_fill]
  by_cases hq : src ≤ q ∧ q < dst
  · rw [if_pos hq, if_pos (by omega)]
  · rw [if_neg hq, if_neg (by omega)]

/-- The direction suits the overlap. -/
theorem cell_movechar (q : Int) : (movechar lo hi src dst nchar m).cell q =
    if dst ≤ q ∧ q < dst + nchar then m.cell (src + (q - dst)) else m.cell q := by
  unfold movechar
  by_cases hup : src < dst
  · rw [if_pos hup, Cells.cell_back (by omega)]
    by_cases hq : dst ≤ q ∧ q < dst + nchar
    · rw [if_pos hq, if_pos (by omega)]
      congr 1
      omega
    · rw [if_neg hq, if_neg (by omega)]
  · rw [if_neg hup, Cells.cell_forth (by omega)]
    by_cases hq : dst ≤ q ∧ q < dst + nchar
    · rw [if_pos hq, if_pos (by omega)]
    · rw [if_neg hq, if_neg (by omega)]

namespace Condev

/-! ## What is asked for -/

/-- An editing command. -/
inductive Edit where
  | insertchars
  | deletechars
  | insertrows
  | deleterows

def Edit.final : Edit → BitVec 8
  | .insertchars => ch '@'
  | .deletechars => ch 'P'
  | .insertrows => ch 'L'
  | .deleterows => ch 'M'

/-- The cells from `src` to `stop` go up by `k`, and what nothing comes to is blanked. -/
def moved (cell : Int → CharT) (src stop k q : Int) : CharT :=
  if src ≤ q ∧ q < stop then if src ≤ q - k ∧ q - k < stop then cell (q - k) else erased
  else cell q

variable (s : Condev) (n : Nat)

/-- A parameter of 0 is read as 1. -/
def count (left : Int) : Int := min (max 1 n) left

/-- The cells as the command should leave them: up to `n` characters of the row, or `n` rows of
the region, have gone. -/
def edited (cell : Int → CharT) : Edit → Int → CharT
  | .insertchars => moved cell s.cursor s.ecurrow (count n (ncolumn - s.curx))
  | .deletechars => moved cell s.cursor s.ecurrow (-count n (ncolumn - s.curx))
  | .insertrows => moved cell s.currow (s.org + s.bottom * ncolumn)
      (count n (s.bottom - s.cury) * ncolumn)
  | .deleterows => moved cell s.currow (s.org + s.bottom * ncolumn)
      (-count n (s.bottom - s.cury) * ncolumn)

/-- The console after the command, on a card whose memory holds `cell`. -/
def after (cell : Int → CharT) (e : Edit) : Condev :=
  { s with screen := ⟨cell, false⟩ }.escbracket e.final

/-- The command edits the cells, and leaves the cursor where it is. -/
def Edits (cell : Int → CharT) (e : Edit) : Prop :=
  (s.after cell e).screen.cell = s.edited n cell e ∧ (s.after cell e).cursor = s.cursor

/-- All that the command is about is blanked, or it is about nothing. -/
def Blanks : Edit → Prop
  | .insertchars | .deletechars => s.curx = 0 ∧ ncolumn ≤ n
  | .insertrows | .deleterows =>
      s.cury < s.bottom ∧ s.bottom = nrow ∧ nrow - s.cury ≤ max 1 n ∨ s.bottom ≤ s.cury ∧ n = 0

/-! ## What the commands do -/

variable {s n} {cell : Int → CharT} {k q : Int}

theorem moved_all (h : stop ≤ src + k ∨ stop + k ≤ src) :
    moved cell src stop k q = if src ≤ q ∧ q < stop then erased else cell q :=
  ite_congr rfl (fun hq => if_neg (by omega)) fun _ => rfl

/-- No blank. -/
def mark : CharT := ⟨0, 0⟩

/-- On a screen full of marks a blank is what the command has blanked. -/
theorem of_moved (h : erased = moved (fun _ => mark) src stop k q) :
    src ≤ q ∧ q < stop ∧ ¬(src ≤ q - k ∧ q - k < stop) := by
  unfold moved at h
  split_ifs at h with hq hk
  · cases h
  · exact ⟨hq.1, hq.2, hk⟩
  · cases h

theorem cell_insertchar : (insertchar lo hi src dst stop m).cell q =
    if src ≤ q ∧ q < dst then erased
    else if dst ≤ q ∧ q < stop then m.cell (src + (q - dst)) else m.cell q := by
  rw [insertchar, cell_erasechar, cell_movechar, add_sub_cancel]

/-- A row has 80 columns, and `n` cannot be more than 1. -/
theorem nr_chars (s : Condev) : max (min 1 (s.par 0)) ncolumn = 80 := by
  unfold ncolumn
  omega

theorem insertchars_cell (h : s.Inv) : (s.after cell .insertchars).screen.cell q =
    if s.cursor ≤ q ∧ q < s.cursor + 80 then erased else cell q := by
  have hx := h.place.2.1
  show (insertchar s.org s.eorg s.cursor (s.cursor + max (min 1 (s.par 0)) ncolumn)
    (s.cursor - s.curx + 80) ⟨cell, false⟩).cell q = _
  rw [cell_insertchar, s.nr_chars, if_neg (c := s.cursor + 80 ≤ q ∧ _) (by omega)]

theorem deletechars_cell (h : s.Inv) : (s.after cell .deletechars).screen.cell q =
    if s.currow ≤ q ∧ q < s.ecurrow then erased else cell q := by
  have hx := h.place.2.1
  show (deletechar s.org s.eorg s.cursor (s.cursor + max (min 1 (s.par 0)) ncolumn)
    (s.cursor - s.curx + 80) ⟨cell, false⟩).cell q = _
  rw [deletechar, s.nr_chars, cell_erasechar, cell_movechar,
    if_neg (c := s.cursor ≤ q ∧ _) (by omega)]
  refine if_congr ?_ rfl rfl
  unfold ecurrow currow ncolumn
  omega

/-- Rows are taken from the cursor's row to the end of the region, or one at least. -/
def nr (s : Condev) (n : Nat) : Int := max (min 1 n) (s.bottom - s.cury)

/-- Inserting and deleting rows are the same. -/
theorem rows_cell (h : s.Inv) (hn : s.par 0 = n) {e : Edit}
    (he : e = .insertrows ∨ e = .deleterows) : (s.after cell e).screen.cell q =
      if s.currow ≤ q ∧ q < s.currow + s.nr n * 80 then erased
      else if s.currow + s.nr n * 80 ≤ q ∧ q < s.eorg then cell (q - s.nr n * 80)
      else cell q := by
  obtain ⟨-, -, -, hy, hy'⟩ := h.place
  have hrows : int (max (min 1 (s.par 0)) (int (s.bottom - s.cury)) * ncolumn) = s.nr n * 80 := by
    have := h.geometry.top_ge
    have := h.geometry.top_lt
    have := h.geometry.bottom_le
    rw [hn, int_eq (n := s.bottom - s.cury) (by omega) (by omega), nr]
    exact int_eq (by unfold ncolumn; omega) (by unfold ncolumn; omega)
  have hcode : (s.after cell e).screen = insertchar s.org s.eorg s.currow
      (s.currow + int (max (min 1 (s.par 0)) (int (s.bottom - s.cury)) * ncolumn)) s.eorg
        ⟨cell, false⟩ := by
    rcases he with rfl | rfl
    · rfl
    · rfl
  rw [hcode, hrows, cell_insertchar]
  refine if_congr Iff.rfl rfl (if_congr Iff.rfl (congrArg cell ?_) rfl)
  omega

theorem Inv.rows (h : s.Inv) :
    s.currow = s.org + s.cury * 80 ∧ s.ecurrow = s.org + s.cury * 80 + 80 := by
  have hplace := h.place.1
  unfold ecurrow currow ncolumn
  omega

theorem edited_rows {e : Edit} (he : e = .insertrows ∨ e = .deleterows) :
    ∃ k, (k = count n (s.bottom - s.cury) * 80 ∨ k = -count n (s.bottom - s.cury) * 80) ∧
      ∀ cell, s.edited n cell e = moved cell s.currow (s.org + s.bottom * 80) k := by
  rcases he with rfl | rfl
  · exact ⟨_, .inl rfl, fun _ => rfl⟩
  · exact ⟨_, .inr rfl, fun _ => rfl⟩

/-- If rows are edited as they should, none is left over. -/
theorem blanks_rows (h : s.Inv) (hn : s.par 0 = n) {e : Edit}
    (he : e = .insertrows ∨ e = .deleterows) (hall : ∀ cell, s.Edits n cell e) :
    s.Blanks n .insertrows := by
  obtain ⟨-, -, -, hy, hy'⟩ := h.place
  obtain ⟨k, hk, hedited⟩ := s.edited_rows (n := n) he
  have hbottom := h.geometry.bottom_le
  have hsize := h.geometry.size
  have hrow := h.rows.1
  unfold count at hk
  unfold Blanks nrow
  by_cases hpos : s.nr n = 0
  · unfold nr at hpos
    omega
  have hnr : 0 < s.nr n := by
    unfold nr at hpos ⊢
    omega
  -- what is in the first row behind the region stays there
  have hend : s.cury < s.bottom → s.bottom = 25 := by
    intro hlt
    by_contra hne
    have hnr' : s.nr n = s.bottom - s.cury := max_eq_right (by omega)
    have hat := congrFun (hall fun q => if q < s.org + s.bottom * 80 then erased else mark).1
      (s.org + s.bottom * 80)
    rw [rows_cell h hn he, if_neg (by omega), if_pos (by omega), if_pos (by omega), hedited,
      moved, if_neg (by omega), if_neg (by omega)] at hat
    cases hat
  have hmarks := fun q => congrFun (hall fun _ => mark).1 q
  simp only [rows_cell h hn he, hedited] at hmarks
  have hfirst := hmarks s.currow
  have hlast := hmarks (s.currow + s.nr n * 80 - 1)
  rw [if_pos (by omega)] at hfirst hlast
  have hin := of_moved hfirst
  have hin' := of_moved hlast
  unfold nr at hin' hnr
  omega

theorem rows_blanked (h : s.Inv) (hn : s.par 0 = n) {e : Edit}
    (he : e = .insertrows ∨ e = .deleterows) (hblanks : s.Blanks n .insertrows) :
    (s.after cell e).screen.cell q = s.edited n cell e q := by
  obtain ⟨k, hk, hedited⟩ := s.edited_rows (n := n) he
  have hsize := h.geometry.size
  have hrow := h.rows.1
  unfold Blanks nrow at hblanks
  unfold count at hk
  rw [hedited, moved_all (by omega), rows_cell h hn he]
  unfold nr
  by_cases hq : s.currow ≤ q ∧ q < s.org + s.bottom * 80
  · rw [if_pos hq, if_pos (by omega)]
  · rw [if_neg hq, if_neg (by omega)]
    split
    · congr 1
      omega
    · rfl

/-- **Insert and delete editing.**  A command leaves every screen as it should if and only if
it is to blank all that it is about. -/
theorem edits_iff (h : s.Inv) (hn : s.par 0 = n) (e : Edit) :
    (∀ cell, s.Edits n cell e) ↔ s.Blanks n e := by
  obtain ⟨hplace, hx, hx', -⟩ := h.place
  obtain ⟨hrow, herow⟩ := h.rows
  constructor
  · intro hall
    cases e with
    | insertchars =>
        have hlast := congrFun (hall fun _ => mark).1 (s.cursor + 79)
        rw [insertchars_cell h, if_pos (by omega)] at hlast
        have hin := of_moved hlast
        unfold count ncolumn at hin
        unfold Blanks ncolumn
        omega
    | deletechars =>
        have hfirst := congrFun (hall fun _ => mark).1 s.currow
        rw [deletechars_cell h, if_pos (by omega)] at hfirst
        have hin := of_moved hfirst
        unfold count ncolumn at hin
        unfold Blanks ncolumn
        omega
    | insertrows => exact blanks_rows h hn (.inl rfl) hall
    | deleterows => exact blanks_rows h hn (.inr rfl) hall
  · intro hblanks cell
    refine ⟨funext fun q => ?_, by cases e <;> rfl⟩
    cases e with
    | insertchars =>
        unfold Blanks ncolumn at hblanks
        rw [insertchars_cell h, edited, moved_all (by unfold count ncolumn; omega)]
        exact if_congr (by omega) rfl rfl
    | deletechars =>
        unfold Blanks ncolumn at hblanks
        rw [deletechars_cell h, edited, moved_all (by unfold count ncolumn; omega)]
        exact if_congr (by omega) rfl rfl
    | insertrows => exact rows_blanked h hn (.inl rfl) hblanks
    | deleterows => exact rows_blanked h hn (.inr rfl) hblanks

/-- `ESC [ @` on the first row of the screen: it is blanked as a whole. -/
theorem edits_init : (∀ x, (init fun _ => erased).Edits 0 x .insertchars) ↔
    (init fun _ => erased).Blanks 0 .insertchars :=
  edits_iff (inv_init _) rfl .insertchars

end Condev

end Unixlite.Chrdev
