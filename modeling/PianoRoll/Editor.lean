import PianoRoll.Canvas.Shape
import PianoRoll.Input
import PianoRoll.Number.Whole
import PianoRoll.Text.Lines

/-!
The script editor: rows of text with a caret, in a panel. A click in the panel takes the focus,
which the escape key or a click elsewhere gives back. Without the focus keys pass by.
-/

namespace PianoRoll

structure Editor where
  box : Box
  fonts : Fonts := .fixedWidth
  rows : List (List Char) := [[]]
  row : Nat := 0
  col : Nat := 0
  focused : Bool := false
  scroll : Nat := 0
  error : Option String := none

namespace Editor

open Text

def text (e : Editor) : List Char := unrows e.rows

def current (e : Editor) : List Char := e.rows[e.row]?.getD []

/-- Takes over a text, with the caret behind its end. -/
def setText (s : List Char) (e : Editor) : Editor :=
  let rows := Text.rows s
  { e with rows, row := rows.length - 1, col := (rows.getLast?.getD []).length }

/-- An editor that has just been opened. -/
def create (fonts : Fonts) (box : Box) (s : List Char) : Editor := setText s { box, fonts }

/-- What became of an input: whether the editor took it, and whether it changed the text. -/
structure Outcome where
  editor : Editor
  consumed : Bool
  edited : Bool

def face (e : Editor) : Typeface := e.fonts 16

def smallFace (e : Editor) : Typeface := e.fonts 13

def lineHeight (e : Editor) : Int := e.face.lineHeight

/-- Puts the caret at the end of the row at a height in the window. -/
def placeCaret (y : Int) (e : Editor) : Editor :=
  let r := e.scroll + (y - e.box.y - 6).fdiv e.lineHeight
  let row := min r.toNat (e.rows.length - 1)
  { e with row, col := (e.rows[row]?.getD []).length }

def insert (s : List Char) (e : Editor) : Editor :=
  let line := e.current
  { e with rows := e.rows.set e.row (line.take e.col ++ s ++ line.drop e.col),
           col := e.col + s.length }

def breakRow (e : Editor) : Editor :=
  let line := e.current
  { e with rows := e.rows.take e.row ++ [line.take e.col, line.drop e.col]
             ++ e.rows.drop (e.row + 1),
           row := e.row + 1, col := 0 }

/-- Takes out the character before the caret, or joins the row to the one above. -/
def deleteBefore? (e : Editor) : Option Editor :=
  let line := e.current
  if 0 < e.col then
    some { e with rows := e.rows.set e.row (line.take (e.col - 1) ++ line.drop e.col),
                  col := e.col - 1 }
  else if 0 < e.row then
    let above := e.rows[e.row - 1]?.getD []
    some { e with rows := e.rows.take (e.row - 1) ++ (above ++ line) :: e.rows.drop (e.row + 1),
                  row := e.row - 1, col := above.length }
  else none

/-- Takes out the character behind the caret, or joins the row below to this one. -/
def deleteAfter? (e : Editor) : Option Editor :=
  let line := e.current
  if e.col < line.length then
    some { e with rows := e.rows.set e.row (line.take e.col ++ line.drop (e.col + 1)) }
  else if e.row + 1 < e.rows.length then
    let below := e.rows[e.row + 1]?.getD []
    some { e with rows := e.rows.take e.row ++ (line ++ below) :: e.rows.drop (e.row + 2) }
  else none

/-- Moves the caret to another row, at its column or at the end of a shorter row. -/
def moveTo (row : Nat) (e : Editor) : Editor :=
  { e with row, col := min e.col (e.rows[row]?.getD []).length }

def press (k : Key) (e : Editor) : Editor × Bool :=
  match k with
  | .escape => ({ e with focused := false }, false)
  | .returnKey | .keypadEnter => (e.breakRow, true)
  | .backspace => (e.deleteBefore?.getD e, e.deleteBefore?.isSome)
  | .delete => (e.deleteAfter?.getD e, e.deleteAfter?.isSome)
  | .up => (if 0 < e.row then e.moveTo (e.row - 1) else e, false)
  | .down => (if e.row + 1 < e.rows.length then e.moveTo (e.row + 1) else e, false)
  | .left => ({ e with col := e.col - 1 }, false)
  | .right => ({ e with col := min e.current.length (e.col + 1) }, false)
  | _ => (e, false)

def handle (i : Input) (e : Editor) : Outcome :=
  match i with
  | .down x y 1 =>
    let focused := e.box.holds x y
    let e := { e with focused }
    ⟨if focused then e.placeCaret y else e, focused, false⟩
  | .text s => if e.focused then ⟨e.insert s.toList, true, true⟩ else ⟨e, false, false⟩
  | .key k =>
    if e.focused then
      let (e', edited) := e.press k
      ⟨e', true, edited⟩
    else ⟨e, false, false⟩
  | .keyUp _ => ⟨e, e.focused, false⟩
  | _ => ⟨e, false, false⟩

def visible (e : Editor) : Nat := (max 1 ((e.box.h - 30).fdiv e.lineHeight)).toNat

def scrollToCaret (e : Editor) : Editor :=
  if e.row < e.scroll then { e with scroll := e.row }
  else if e.scroll + e.visible ≤ e.row then { e with scroll := e.row + 1 - e.visible }
  else e

def shownRows (e : Editor) : List Nat :=
  (List.range (min e.rows.length (e.scroll + e.visible) - e.scroll)).map (e.scroll + ·)

def spot (x y : Int) : Spot := ⟨Number.ofWhole x, Number.ofWhole y⟩

def gutter (i : Nat) : String :=
  let s := toString (i + 1)
  String.ofList (List.replicate (3 - s.length) ' ') ++ s

def rowTop (e : Editor) (i : Nat) : Int := e.box.y + 6 + ((i : Int) - e.scroll) * e.lineHeight

/-- One row, with the caret if it is in it. -/
def drawRow (e : Editor) (i : Nat) : List Shape :=
  let line := e.rows[i]?.getD []
  let y := e.rowTop i
  let caret := e.box.x + 36 + e.face.width (String.ofList (line.take e.col))
  [.text (gutter i) ⟨90, 90, 100⟩ (spot (e.box.x + 4) (y + 2)),
   .text (String.ofList line) ⟨220, 220, 230⟩ (spot (e.box.x + 36) y)]
  ++ if e.focused && i == e.row then
       [.line ⟨240, 240, 240⟩ (spot caret y) (spot caret (y + e.lineHeight - 2)) 1]
     else []

/-- The place of the panel, which may be too far away to be drawn. -/
def area? (e : Editor) : Except Fault Area := do
  let b := e.box
  return ⟨← Number.ofWhole? b.x, ← Number.ofWhole? b.y, ← Number.ofWhole? b.w,
    ← Number.ofWhole? b.h⟩

def shapes (area : Area) (e : Editor) : List Shape :=
  let b := e.box
  let border : Colour := if e.focused then ⟨120, 160, 230⟩ else ⟨70, 70, 80⟩
  [.rect ⟨22, 22, 26⟩ area 0 (-1), .rect border area 1 (-1)]
  ++ e.shownRows.flatMap e.drawRow
  ++ match e.error with
     | some message =>
       if message.isEmpty then []
       else [.text message ⟨231, 76, 60⟩
         (spot (b.x + 6) (b.bottom - e.smallFace.height - 6))]
     | none => []

/-- The editor with its caret in view, and how it is drawn then. -/
def drawn (e : Editor) : Except Fault (Editor × List Shape) := do
  let area ← e.area?
  return (e.scrollToCaret, e.scrollToCaret.shapes area)

end Editor

end PianoRoll
