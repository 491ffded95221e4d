/-!
What is drawn: shapes with their places, colours and texts, and the measure of texts.
-/

namespace PianoRoll

structure Box where
  x : Int
  y : Int
  w : Int
  h : Int
  deriving DecidableEq, Repr

namespace Box

def right (b : Box) : Int := b.x + b.w

def bottom (b : Box) : Int := b.y + b.h

/-- Whether a point lies in the box; the right and the lower edge are outside, and a box without
width or height holds nothing. -/
def holds (b : Box) (x y : Int) : Bool :=
  b.x ≤ x && x < b.x + b.w && b.y ≤ y && y < b.y + b.h

end Box

structure Colour where
  red : Nat
  green : Nat
  blue : Nat
  deriving DecidableEq, Repr

structure Spot where
  x : Float
  y : Float

structure Area where
  x : Float
  y : Float
  w : Float
  h : Float

inductive Shape
  | fill (colour : Colour)
  | rect (colour : Colour) (area : Area) (width : Int) (radius : Int)
  | line (colour : Colour) (start finish : Spot) (width : Int)
  | circle (colour : Colour) (centre : Spot) (radius : Int)
  | text (words : String) (colour : Colour) (corner : Spot)
  | clip (area : Option Area)

/-- How many pixels texts take in a typeface. The screen counts pixels in thirty-two bits. -/
structure Typeface where
  width : String → Nat
  height : Nat
  /-- The distance between lines. -/
  lineHeight : Nat
  lineHeight_pos : 0 < lineHeight
  width_lt (s : String) : width s < 2147483648
  height_lt : height < 2147483648

/-- The typefaces of a screen by their sizes. -/
abbrev Fonts := Nat → Typeface

/-- A count of pixels that the screen can hold. -/
def pixels (n : Nat) : Nat := min n 2147483647

theorem pixels_lt (n : Nat) : pixels n < 2147483648 :=
  Nat.lt_of_le_of_lt (Nat.min_le_right _ _) (by decide)

/-- Typefaces in which all characters are as wide as half their height. -/
def Fonts.fixedWidth : Fonts := fun size =>
  { width := fun s => pixels (s.length * (size / 2))
    height := pixels (size + 2)
    lineHeight := size + 4
    lineHeight_pos := Nat.succ_pos _
    width_lt := fun _ => pixels_lt _
    height_lt := pixels_lt _ }

end PianoRoll
