import PianoRoll.Melody.Note
import PianoRoll.Melody.Pitch
import PianoRoll.Number.Order
import PianoRoll.Number.Whole

/-!
Where things are on the roll and on the piano. The formulas are written over any numbers first.
-/

namespace PianoRoll.Layout

open Number

section Formulas

variable {α : Type}

/-- The height of a lane when `rows` of them share a height. -/
def laneHeightOf [Div α] (height rows : α) : α := height / rows

/-- The upper edge of the lane number `row`, counted from the top. -/
def laneTopOf [Add α] [Mul α] (top laneHeight row : α) : α := top + row * laneHeight

/-- The place of the striker at a fraction of the height. -/
def markerTopOf [Add α] [Mul α] (top height marker : α) : α := top + marker * height

/-- The place of a beat when the beats in view fill a width. -/
def beatXOf [Add α] [Sub α] [Mul α] [Div α] (viewStart viewEnd left width beat : α) : α :=
  left + (beat - viewStart) / (viewEnd - viewStart) * width

/-- The place of a beat while the roll moves: it crosses `hitX` when its time has come. -/
def movingXOf [Add α] [Sub α] [Mul α] (elapsed startDelay hitX pixelsPerBeat beat : α) : α :=
  hitX + (beat + startDelay - elapsed) * pixelsPerBeat

end Formulas

/-- The lane of a pitch, the highest pitch in lane zero; pitches beyond the extent share the
outer lanes. -/
def laneRow (r : Extent) (pitch : Int) : Int := min (max (r.high - pitch) 0) r.span

def laneHeight (r : Extent) (height : Float) : Except Fault Float :=
  if r.rows = 0 then .error .realDivision
  else (ofWhole? r.rows).map (laneHeightOf height)

def laneTop (top laneHeight : Float) (row : Int) : Except Fault Float :=
  (ofWhole? row).map (laneTopOf top laneHeight)

/-- The place of a beat in a view; everything is at the left edge of an empty one. -/
def beatX (viewStart viewEnd left width beat : Float) : Float :=
  if viewEnd ≤ viewStart then left else beatXOf viewStart viewEnd left width beat

structure PianoKey where
  pitch : Int
  x : Int
  w : Int
  black : Bool
  deriving DecidableEq, Repr

def pitchesBetween (first last : Int) : List Int :=
  (List.range (last + 1 - first).toNat).map fun (i : Nat) => first + (i : Int)

/-- One key: white keys side by side, black keys on the right of the white key before. `index` is
the number of white keys to the left. -/
def keyAt (left whiteWidth : Float) (index : Nat) (pitch : Int) : Except Fault PianoKey := do
  if isBlack pitch then
    let base := left + ofWhole ↑(index - 1) * whiteWidth
    return ⟨pitch, ← truncate (base + whiteWidth * 0.7), ← truncate (whiteWidth * 0.6), true⟩
  else
    return ⟨pitch, ← truncate (left + ofWhole index * whiteWidth),
      ← truncate (whiteWidth - 1), false⟩

/-- The keys of pitches, the first of which has `index` white keys to its left. -/
def keysFrom (left whiteWidth : Float) : Nat → List Int → Except Fault (List PianoKey)
  | _, [] => .ok []
  | index, p :: ps => do
    let key ← keyAt left whiteWidth index p
    let rest ← keysFrom left whiteWidth (if isBlack p then index else index + 1) ps
    return key :: rest

/-- How many white keys share a width, one if there are none. -/
def whiteKeys (pitches : List Int) : Nat := max 1 (pitches.countP (!isBlack ·))

/-- The piano from one pitch to another, over a width. -/
def piano (first last : Int) (left width : Float) : Except Fault (List PianoKey) :=
  let pitches := pitchesBetween first last
  keysFrom left (width / ofWhole (whiteKeys pitches)) 0 pitches

/-- The piano from one pitch to another, over a width in pixels from the left edge. -/
def pianoAcross (first last width : Int) : Except Fault (List PianoKey) := do
  let pitches := pitchesBetween first last
  keysFrom 0 (← quotient width (whiteKeys pitches)) 0 pitches

end PianoRoll.Layout
