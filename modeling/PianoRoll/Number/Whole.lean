import PianoRoll.Fault
import PianoRoll.Number.Binary

/-!
Between whole numbers and doubles: dropping the fraction, rounding to the even neighbour, the
double of a whole number and of a quotient of two.
-/

namespace PianoRoll.Number

/-- The sign put back on a magnitude. -/
def signed (negative : Bool) (n : Nat) : Int := if negative then -n else n

/-- What remains after `round` has made a finite double whole; it is given the double's
magnitude as a quotient. -/
def wholeBy (round : Nat → Nat → Nat) (x : Float) : Except Fault Int :=
  match content x with
  | .nan => .error .wholeOfNan
  | .infinite _ => .error .wholeOfInfinity
  | .finite negative n e => .ok (signed negative (round (n * pow 2 e.toNat) (pow 2 (-e).toNat)))

/-- The whole part, toward zero. -/
def truncate (x : Float) : Except Fault Int := wholeBy (· / ·) x

/-- The nearest whole number, a half to the even one. -/
def roundToEven (x : Float) : Except Fault Int := wholeBy roundDiv x

/-- Whether a double is neither infinite nor without value. -/
def isFinite (x : Float) : Bool :=
  match content x with
  | .finite .. => true
  | _ => false

def ofWhole (n : Int) : Float := nearest (n < 0) n.natAbs 1

/-- The double nearest to a whole number, if there is one. -/
def ofWhole? (n : Int) : Except Fault Float :=
  let x := ofWhole n
  if isFinite x then .ok x else .error .wholeTooLarge

/-- How a double compares with a whole number, neither of them rounded; a value that is no number
does not compare. -/
def compareWhole? (x : Float) (n : Int) : Option Ordering :=
  match content x with
  | .nan => none
  | .infinite negative => some (if negative then .lt else .gt)
  | .finite negative m e =>
    some (compare (signed negative (m * pow 2 e.toNat)) (n * pow 2 (-e).toNat))

def isBelow (x : Float) (n : Int) : Bool := compareWhole? x n == some .lt

def isAbove (x : Float) (n : Int) : Bool := compareWhole? x n == some .gt

/-- Whether a whole number is no higher than a double. -/
def reaches (x : Float) (n : Int) : Bool := (compareWhole? x n).any Ordering.isGE

/-- The double nearest to a quotient of whole numbers. -/
def quotient (a b : Int) : Except Fault Float :=
  if b = 0 then .error .wholeDivision
  else
    let x := nearest ((a < 0) != (b < 0)) a.natAbs b.natAbs
    if isFinite x then .ok x else .error .quotientTooLarge

/-- The remainder with the sign of the divisor. -/
def modulo (a b : Int) : Except Fault Int :=
  if b = 0 then .error .wholeModulo else .ok (a.fmod b)

end PianoRoll.Number
