import Mathlib.Data.BitVec
import Unixlite.Verified.Cells
import Unixlite.Verified.Run

/-!
# The console

Port of the output half of `dev/chr/condev.cc`: the VT100 states, the cursor and scrolling.
Pointers into video memory are cell numbers from `video` on; `nrow` and `ncolumn`, which only
the constructor sets, are constants.  A write into video memory names the cells it is for:
those of the screen or, when the screen is moved, those of its new place.

Left out are the ports of the card, the bell, the answer to `ESC Z` and `directx`.
-/

namespace Unixlite.Chrdev

open Unixlite.Verified

/-! ## Data -/

/-- `char_t`. -/
structure CharT where
  value : BitVec 8
  attr : BitVec 8

/-- A cell after `erase`. -/
def erased : CharT := ⟨0x20, 0x07⟩

def nrow : Int := 25
def ncolumn : Int := 80
def video : Int := 0
def evideo : Int := video + nrow * ncolumn * 8

def NORMAL : Int := 0
def ESC : Int := 1
def ESCBRACKET : Int := 2
def ESCBRACE : Int := 3
def ESCNUMBER : Int := 4
def ESCBRACKETQUEST : Int := 5
def GETPAR : Int := 6

/-- An `int` that has wrapped around. -/
def int (n : Int) : Int := n.bmod (2 ^ 32)

/-- For a power of two. -/
def rounddown2 (size balign : Int) : Int := size - size % balign

def ch (c : Char) : BitVec 8 := BitVec.ofNat 8 c.toNat

/-- `condev_t`.  `par[NPAR]` is `aftergetpar`. -/
structure Condev where
  npar : Fin 5
  par : Fin 4 → Int
  aftergetpar : Int
  savedx : Int
  savedy : Int
  state : Int
  top : Int
  bottom : Int
  org : Int
  eorg : Int
  cursor : Int
  curattr : BitVec 8
  screen : Cells CharT
  outq : List (BitVec 8)
  panicked : Bool

/-! ## Video memory -/

def erasechar (lo hi src dst : Int) (m : Cells CharT) : Cells CharT :=
  m.fill lo hi erased (dst - src).toNat src

def movechar (lo hi src dst nchar : Int) (m : Cells CharT) : Cells CharT :=
  if src < dst then m.back lo hi nchar.toNat (src + nchar) (dst + nchar)
  else m.forth lo hi nchar.toNat src dst

def insertchar (lo hi src dst stop : Int) (m : Cells CharT) : Cells CharT :=
  erasechar lo hi src dst (movechar lo hi src dst (stop - dst) m)

def deletechar (lo hi src dst stop : Int) (m : Cells CharT) : Cells CharT :=
  erasechar lo hi (src + (stop - dst)) stop (movechar lo hi dst src (stop - dst) m)

namespace Condev

def curx (s : Condev) : Int := (s.cursor - s.org).tmod ncolumn
def cury (s : Condev) : Int := (s.cursor - s.org).tdiv ncolumn
def currow (s : Condev) : Int := s.cursor - s.curx
def ecurrow (s : Condev) : Int := s.currow + ncolumn
def firstrow (s : Condev) : Bool := s.curx == 0
def lastrow (s : Condev) : Bool := s.cury == nrow - 1

/-- Writes of the current screen. -/
def put (s : Condev) (p : Int) (v : CharT) : Condev :=
  { s with screen := s.screen.put s.org s.eorg p v }

def erase (s : Condev) (src dst : Int) : Condev :=
  { s with screen := erasechar s.org s.eorg src dst s.screen }

def insert (s : Condev) (src dst stop : Int) : Condev :=
  { s with screen := insertchar s.org s.eorg src dst stop s.screen }

def delete (s : Condev) (src dst stop : Int) : Condev :=
  { s with screen := deletechar s.org s.eorg src dst stop s.screen }

/-- The screen is moved to `neworg`, the cursor with it. -/
def move (s : Condev) (neworg : Int) : Condev :=
  { s with
    screen := movechar neworg (neworg + nrow * ncolumn) s.org neworg (nrow * ncolumn) s.screen
    cursor := neworg + (s.cursor - s.org)
    org := neworg
    eorg := neworg + nrow * ncolumn }

/-! ## Cursor and scrolling -/

def setcursor (s : Condev) (p : Int) : Condev := { s with cursor := p }

def gotoxy (s : Condev) (newx newy : Int) : Condev :=
  if 0 ≤ newx ∧ newx < ncolumn ∧ 0 ≤ newy ∧ newy < nrow then
    s.setcursor (s.org + (newx + newy * ncolumn))
  else s

/-- The card shows video memory from the next row on; the row that comes in is erased. -/
def hardup (s : Condev) : Condev :=
  { s with org := s.org + ncolumn, eorg := s.eorg + ncolumn }.erase s.eorg (s.eorg + ncolumn)

def harddown (s : Condev) : Condev :=
  { s with org := s.org - ncolumn, eorg := s.eorg - ncolumn }.erase (s.org - ncolumn) s.org

def scrollup (s : Condev) : Condev :=
  if s.top = 0 ∧ s.bottom = nrow then
    (if s.eorg = evideo then s.move video else s).hardup
  else
    s.delete (s.org + int (s.top * ncolumn)) (s.org + int (s.top * ncolumn) + ncolumn)
      (s.org + int (s.bottom * ncolumn))

def scrolldown (s : Condev) : Condev :=
  if s.top = 0 ∧ s.bottom = nrow then
    (if s.org = video then s.move (evideo - nrow * ncolumn) else s).harddown
  else
    s.insert (s.org + int (s.top * ncolumn)) (s.org + int (s.top * ncolumn) + ncolumn)
      (s.org + int (s.bottom * ncolumn))

/-- `if (lastrow()) scrollup()`. -/
def makeroom (s : Condev) : Condev := if s.lastrow then s.scrollup else s

/-- `if (firstrow()) scrolldown()`. -/
def makeroomabove (s : Condev) : Condev := if s.firstrow then s.scrolldown else s

/-! ## The states -/

def beforegetpar (s : Condev) (next : Int) : Condev :=
  { s with state := GETPAR, aftergetpar := next, npar := 0, par := fun _ => 0 }

/-- A fifth parameter is put into `aftergetpar`. -/
def getpar (s : Condev) (c : BitVec 8) : Condev :=
  if 48 ≤ c.toInt ∧ c.toInt ≤ 57 then
    if h : s.npar.val < 4 then
      { s with
        par := Function.update s.par ⟨s.npar, h⟩ (int (10 * s.par ⟨s.npar, h⟩ + c.toInt - 48)) }
    else { s with aftergetpar := int (10 * s.aftergetpar + c.toInt - 48) }
  else if h : c = ch ';' ∧ s.npar.val < 4 then
    { s with npar := ⟨s.npar + 1, Nat.succ_lt_succ h.2⟩ }
  else { s with state := s.aftergetpar, outq := c :: s.outq }

def normal (s : Condev) (c : BitVec 8) : Condev :=
  if c = 27 then { s with state := ESC }
  else if 32 ≤ c.toInt ∧ c.toInt < 127 then
    let t := (s.put s.cursor ⟨c, s.curattr⟩).setcursor (s.cursor + 1)
    if t.cursor = t.eorg then t.scrollup else t
  else if c = 7 then s
  else if c = 8 then if s.cursor ≠ s.currow then s.setcursor (s.cursor - 1) else s
  else if c = 9 then
    s.setcursor (min (s.eorg - 8) (s.currow + rounddown2 (s.curx + 8) 8))
  else if c = 10 then
    let t := s.makeroom
    t.setcursor (t.cursor + ncolumn)
  else if c = 13 then s.setcursor s.currow
  else if c = 127 then
    if s.cursor ≠ s.currow then (s.put (s.cursor - 1) erased).setcursor (s.cursor - 1) else s
  else s

def esc (s : Condev) (c : BitVec 8) : Condev :=
  if c = ch '[' then s.beforegetpar ESCBRACKET
  else if c = ch '(' then s.beforegetpar ESCBRACE
  else if c = ch '#' then s.beforegetpar ESCNUMBER
  else
    let s := { s with state := NORMAL }
    if c = ch 'E' then
      let t := s.makeroom
      t.setcursor t.ecurrow
    else if c = ch 'M' then
      let t := s.makeroomabove
      t.setcursor (t.cursor - ncolumn)
    else if c = ch 'D' then
      let t := s.makeroom
      t.setcursor (t.cursor + ncolumn)
    else if c = ch '7' then { s with savedx := s.curx, savedy := s.cury }
    else if c = ch '8' then s.gotoxy s.savedx s.savedy
    else s

def escbracketK (s : Condev) : Condev :=
  if s.par 0 = 0 then s.erase s.cursor s.ecurrow
  else if s.par 0 = 1 then s.erase s.currow s.cursor
  else if s.par 0 = 2 then s.erase s.currow s.ecurrow
  else s

def escbracketJ (s : Condev) : Condev :=
  if s.par 0 = 0 then s.erase s.cursor s.eorg
  else if s.par 0 = 1 then s.erase s.org s.cursor
  else if s.par 0 = 2 then s.erase s.org s.eorg
  else s

/-- `escbracketL` and `escbracketM` are the same. -/
def escbracketL (s : Condev) : Condev :=
  let nr := max (min 1 (s.par 0)) (int (s.bottom - s.cury))
  s.insert s.currow (s.currow + int (nr * ncolumn)) s.eorg

def escbracketM (s : Condev) : Condev :=
  let nr := max (min 1 (s.par 0)) (int (s.bottom - s.cury))
  s.insert s.currow (s.currow + int (nr * ncolumn)) s.eorg

def escbracketP (s : Condev) : Condev :=
  let nr := max (min 1 (s.par 0)) ncolumn
  s.delete s.cursor (s.cursor + nr) s.ecurrow

def escbracketAT (s : Condev) : Condev :=
  let nr := max (min 1 (s.par 0)) ncolumn
  s.insert s.cursor (s.cursor + nr) s.ecurrow

def escbracketm (s : Condev) : Condev :=
  if s.par 0 = 0 then { s with curattr := 0x07 }
  else if s.par 0 = 1 then { s with curattr := 0x0f }
  else if s.par 0 = 4 then { s with curattr := 0x0f }
  else if s.par 0 = 7 then { s with curattr := 0x70 }
  else if s.par 0 = 27 then { s with curattr := 0x07 }
  else s

/-- `if (n) n--` and `if (!n) n++`. -/
def dec (n : Int) : Int := if n ≠ 0 then int (n - 1) else n
def inc (n : Int) : Int := if n = 0 then int (n + 1) else n

/-- The parameters of `escbracketr`, as rows from 0 on. -/
def pt (s : Condev) : Int := dec (s.par 0)
def pb (s : Condev) : Int := if s.par 1 = 0 then nrow else s.par 1

def escbracketr (s : Condev) : Condev :=
  let t := { s with par := Function.update (Function.update s.par 0 s.pt) 1 s.pb }
  if s.pt < s.pb ∧ s.pb ≤ nrow then { t with top := s.pt, bottom := s.pb } else t

/-- The first parameter is changed in place. -/
def setpar (s : Condev) (i : Fin 4) (n : Int) : Condev :=
  { s with par := Function.update s.par i n }

/-- `escbracket` after `state = NORMAL`. -/
def command (s : Condev) (c : BitVec 8) : Condev :=
  let x := s.curx
  let y := s.cury
  let down := dec (s.par 0)
  let up := inc (s.par 0)
  if c = ch 'G' ∨ c = 96 then (s.setpar 0 down).gotoxy down y
  else if c = ch 'A' then (s.setpar 0 up).gotoxy x (int (y - up))
  else if c = ch 'B' ∨ c = ch 'e' then (s.setpar 0 up).gotoxy x (int (y + up))
  else if c = ch 'C' ∨ c = ch 'a' then (s.setpar 0 up).gotoxy (int (x + up)) y
  else if c = ch 'D' then (s.setpar 0 up).gotoxy (int (x - up)) y
  else if c = ch 'E' then (s.setpar 0 up).gotoxy 0 (int (y + up))
  else if c = ch 'F' then (s.setpar 0 up).gotoxy 0 (int (y - up))
  else if c = ch 'd' then (s.setpar 0 down).gotoxy x down
  else if c = ch 'H' ∨ c = ch 'f' then
    ((s.setpar 0 down).setpar 1 (dec (s.par 1))).gotoxy (dec (s.par 1)) down
  else if c = ch 'J' then s.escbracketJ
  else if c = ch 'K' then s.escbracketK
  else if c = ch 'L' then s.escbracketL
  else if c = ch 'M' then s.escbracketM
  else if c = ch 'P' then s.escbracketP
  else if c = ch '@' then s.escbracketAT
  else if c = ch 'm' then s.escbracketm
  else if c = ch 'r' then s.escbracketr
  else if c = ch 's' then { s with savedx := x, savedy := y }
  else if c = ch 'u' then s.gotoxy s.savedx s.savedy
  else s

def escbracket (s : Condev) (c : BitVec 8) : Condev :=
  if c = ch '?' then s.beforegetpar ESCBRACKETQUEST else { s with state := NORMAL }.command c

/-- The `switch` of `write2`; `escbrace`, `escnumber` and `escbracketquest` do nothing, and no
state has another number. -/
def switch (s : Condev) (c : BitVec 8) : Condev :=
  if s.state = NORMAL then s.normal c
  else if s.state = ESC then s.esc c
  else if s.state = ESCBRACKET then s.escbracket c
  else if s.state = GETPAR then s.getpar c
  else s

/-! ## Output -/

/-- The tty layer writes into the output queue, or `write2` takes a byte from there. -/
inductive Act where
  | write (bytes : List (BitVec 8))
  | byte

/-- One turn of the loop of `write2`. -/
def write2 (s : Condev) (c : BitVec 8) : Condev :=
  if ¬(s.org ≤ s.cursor ∧ s.cursor < s.eorg) then { s with panicked := true }
  else s.switch c

def step (s : Condev) : Act → Option Condev
  | .write bytes => if s.panicked then none else some { s with outq := s.outq ++ bytes }
  | .byte =>
      match s.outq with
      | [] => none
      | c :: outq => if s.panicked then none else some ({ s with outq := outq }.write2 c)

/-- The constructor, on a card whose memory holds `cell`. -/
def init (cell : Int → CharT) : Condev :=
  Condev.erase
    { npar := 0, par := fun _ => 0, aftergetpar := 0, savedx := 0, savedy := 0
      state := NORMAL, top := 0, bottom := nrow
      org := video, eorg := video + nrow * ncolumn, cursor := video, curattr := 0x07
      screen := ⟨cell, false⟩, outq := [], panicked := false }
    video (video + nrow * ncolumn)

end Condev

end Unixlite.Chrdev
