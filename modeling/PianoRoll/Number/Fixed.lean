import PianoRoll.Number.Binary

/-!
Doubles written with a set number of places. The exact value is rounded, a half to the even
neighbour, and the sign of zero is kept.
-/

namespace PianoRoll.Number

/-- Decimal digits of a natural, at least `width` of them. -/
def digits (width n : Nat) : List Char :=
  let ds := Nat.toDigits 10 n
  List.replicate (width - ds.length) '0' ++ ds

/-- A count of `10 ^ -places` written with a point. -/
def withPoint (places n : Nat) : List Char :=
  let whole := Nat.toDigits 10 (n / pow 10 places)
  if places = 0 then whole else whole ++ '.' :: digits places (n % pow 10 places)

/-- A double with `places` digits after the point. -/
def fixed (places : Nat) (x : Float) : String :=
  match content x with
  | .nan => "nan"
  | .infinite negative => if negative then "-inf" else "inf"
  | .finite negative n e =>
    let units := roundDiv (n * pow 2 e.toNat * pow 10 places) (pow 2 (-e).toNat)
    String.ofList ((if negative then ['-'] else []) ++ withPoint places units)

end PianoRoll.Number
