import NjuOs.Lib.Stdio
import Mathlib.Data.Prod.Basic
import Mathlib.Logic.Function.Basic
import Mathlib.Algebra.Order.Group.Int

/-!
The labyrinth game: the map, `loadMap`, `saveMap` and `movePlayer`.

The `char map[MAX_ROWS][MAX_COLS]` array is a function on its cells. An access
outside the array has no meaning in C; a function that makes one returns `none`.
`fopen` is a parameter of the functions that call it, and what is written to a
file that is open is assumed to reach it, as the code assumes.
-/

namespace NjuOs.LabyrinthGame

open NjuOs.Lib

def maxRows : Nat := 100
def maxCols : Nat := 100

instance : NeZero maxRows := ⟨by decide⟩

instance : NeZero maxCols := ⟨by decide⟩

/-- The size of the line buffer of `loadMap`. -/
def maxMap : Nat := 101

/-- A cell of the array. -/
abbrev Cell := Fin maxRows × Fin maxCols

/-- `struct Labyrinth`. -/
structure Labyrinth where
  map : Cell → UInt8
  rows : Nat
  cols : Nat

/-- `struct Position`. -/
structure Position where
  row : Int
  col : Int
deriving DecidableEq, Repr

/-- What a function returns, and what it prints on `stderr`. -/
structure Ret where
  value : Bool
  stderr : String
deriving DecidableEq, Repr

def Ret.ok : Ret := ⟨true, ""⟩

def Ret.fail (message : String) : Ret := ⟨false, message⟩

/-- The cell at a pair of indices, if they are inside the array. -/
def cellAt (row col : Int) : Option Cell :=
  if h : (0 ≤ row ∧ row < maxRows) ∧ 0 ≤ col ∧ col < maxCols then
    some (⟨row.toNat, by omega⟩, ⟨col.toNat, by omega⟩)
  else none

/-- The labyrinth with one cell overwritten. -/
def Labyrinth.set (l : Labyrinth) (p : Cell) (c : UInt8) : Labyrinth :=
  { l with map := Function.update l.map p c }

def Labyrinth.read (l : Labyrinth) (row col : Int) : Option UInt8 := (cellAt row col).map l.map

def Labyrinth.write (l : Labyrinth) (row col : Int) (c : UInt8) : Option Labyrinth :=
  (cellAt row col).map fun p => l.set p c

/-! ### Loading and saving -/

/-- The inner loop of `loadMap`: store the characters of the buffer up to the
newline or the terminator. The count is `none` for `return false`. -/
def copyLine (l : Labyrinth) (rows : Nat) : Nat → Bytes → Option (Labyrinth × Option Nat)
  | thisCols, [] => some (l, some thisCols)
  | thisCols, c :: buffer =>
      if c = newline ∨ c = 0 then some (l, some thisCols)
      else if thisCols > 100 then some (l, none)
      else
        (l.write rows thisCols c).bind fun l => copyLine l rows (thisCols + 1) buffer

/-- The outer loop of `loadMap`, over the rest of the file. -/
def loadLoop (l : Labyrinth) (rows cols : Nat) (file : Bytes) : Option (Ret × Labyrinth) :=
  match _h : fgets maxMap file with
  | none => some (if rows ≤ 100 ∧ cols ≤ 100 then Ret.ok else Ret.fail "",
      { l with rows := rows, cols := cols })
  | some (line, file) =>
      match copyLine l rows 0 line with
      | none => none
      | some (l, none) => some (Ret.fail "too big map\n", l)
      | some (l, some thisCols) =>
          if cols ≠ 0 ∧ cols ≠ thisCols then some (Ret.fail "the maps cols is not same\n", l)
          else
            let cols := if cols = 0 then thisCols else cols
            if rows + 1 > 100 then some (Ret.fail "too big map\n", l)
            else loadLoop l (rows + 1) cols file
termination_by file.length
decreasing_by exact fgets_length_lt (by decide) _h

/-- `none` as the file is a failure of `fopen`. -/
def loadMap (l : Labyrinth) (file : Option Bytes) : Option (Ret × Labyrinth) :=
  match file with
  | none => some (Ret.fail "", l)
  | some file => loadLoop l 0 0 file

/-- The characters that the inner loop of `saveMap` writes. -/
def rowChars (l : Labyrinth) (i : Nat) : Option Bytes :=
  (List.range l.cols).mapM fun j : Nat => l.read i j

/-- The value returned and the contents of the file, which `fopen` truncates;
a failure of `fopen` leaves the file as it was. -/
def saveMap (l : Labyrinth) (opens : Bool) (file : Bytes) : Option (Ret × Bytes) :=
  if opens then
    ((List.range l.rows).mapM (rowChars l)).map fun rows =>
      (Ret.ok, rows.flatMap fun row => row ++ [newline])
  else some (Ret.fail "", file)

/-! ### Playing -/

def isValidPlayer (playerId : UInt8) : Bool := playerId ≥ 48 && playerId ≤ 57

/-- Two nested loops that return at the first cell that holds a character. -/
def scan (l : Labyrinth) (c : UInt8) : List (Nat × Nat) → Option Position
  | [] => some ⟨-1, -1⟩
  | (i, j) :: rest =>
      (l.read i j).bind fun b => if b = c then some ⟨i, j⟩ else scan l c rest

/-- The cells in the order of the loops over rows and columns. -/
def rowMajor (rows cols : Nat) : List (Nat × Nat) :=
  (List.range rows).flatMap fun i => (List.range cols).map fun j => (i, j)

def findPlayer (l : Labyrinth) (playerId : UInt8) : Option Position :=
  scan l playerId (rowMajor l.rows l.cols)

/-- The character of an empty cell is a dot. -/
def findFirstEmptySpace (l : Labyrinth) : Option Position := scan l dot (rowMajor l.rows l.cols)

/-- `s[0]`: the first character, or the terminator of an empty string. -/
def firstChar (s : CString) : UInt8 := s.bytes.headD 0

/-- The `switch` of `movePlayer`: the new location, or the error it prints. -/
def nextLoc (l : Labyrinth) (loc : Position) (c : UInt8) : Except String Position :=
  if c = 117 then  -- 'u'
    if loc.row - 1 < 0 then .error "out side\n" else .ok ⟨loc.row - 1, loc.col⟩
  else if c = 100 then  -- 'd'
    if loc.row + 1 > l.rows then .error "out side\n" else .ok ⟨loc.row + 1, loc.col⟩
  else if c = 108 then  -- 'l'
    if loc.col - 1 < 0 then .error "out side\n" else .ok ⟨loc.row, loc.col - 1⟩
  else if c = 114 then  -- 'r'
    if loc.col + 1 > l.cols then .error "out side\n" else .ok ⟨loc.row, loc.col + 1⟩
  else .error "false direction\n"

/-- `none` as the direction is `NULL`. -/
def movePlayer (l : Labyrinth) (playerId : UInt8) (direction : Option CString) :
    Option (Ret × Labyrinth) :=
  (findPlayer l playerId).bind fun playLoc =>
    if playLoc.row = -1 ∧ playLoc.col = -1 then
      (findFirstEmptySpace l).bind fun empty =>
        if empty.row = -1 ∧ empty.col = -1 then
          some (Ret.fail "no empty place for player\n", l)
        else (l.write empty.row empty.col playerId).map fun l => (Ret.ok, l)
    else
      match direction with
      | none => some (Ret.ok, l)
      | some direction =>
          match nextLoc l playLoc (firstChar direction) with
          | .error message => some (Ret.fail message, l)
          | .ok loc =>
              (l.read loc.row loc.col).bind fun b =>
                if b ≠ dot then some (Ret.fail "target loc is not empty\n", l)
                else
                  (l.write loc.row loc.col playerId).bind fun l =>
                    (l.write playLoc.row playLoc.col dot).map fun l => (Ret.ok, l)

/-! ### Cells of the array -/

/-- A map without walls and players. -/
def field (rows cols : Nat) : Labyrinth := ⟨fun _ => dot, rows, cols⟩

/-- A cell of the used rectangle. -/
def Labyrinth.Inside (l : Labyrinth) (p : Cell) : Prop := p.1 < l.rows ∧ p.2 < l.cols

@[simp] theorem cellAt_cell (p : Cell) : cellAt p.1 p.2 = some p := by
  have h1 := p.1.isLt
  have h2 := p.2.isLt
  rw [cellAt, dif_pos ⟨⟨by omega, by omega⟩, by omega, by omega⟩]
  simp

@[simp] theorem Labyrinth.read_cell (l : Labyrinth) (p : Cell) :
    l.read p.1 p.2 = some (l.map p) := by rw [Labyrinth.read, cellAt_cell, Option.map_some]

@[simp] theorem Labyrinth.write_cell (l : Labyrinth) (p : Cell) (c : UInt8) :
    l.write p.1 p.2 c = some (l.set p c) := by rw [Labyrinth.write, cellAt_cell, Option.map_some]

/-- Indices inside the array are those of a cell. -/
theorem exists_cell {i j : Nat} (hi : i < maxRows) (hj : j < maxCols) :
    ∃ p : Cell, p.1.val = i ∧ p.2.val = j := ⟨(⟨i, hi⟩, ⟨j, hj⟩), rfl, rfl⟩

@[simp] theorem Labyrinth.set_self (l : Labyrinth) (p : Cell) (c : UInt8) :
    (l.set p c).map p = c := Function.update_self ..

theorem Labyrinth.set_of_ne (l : Labyrinth) {p q : Cell} (h : q ≠ p) (c : UInt8) :
    (l.set p c).map q = l.map q := Function.update_of_ne h ..

end NjuOs.LabyrinthGame
