/-!
What a double holds, read exactly from its bits, and the double nearest to a quotient of
naturals. All other exact work with doubles goes through these two.
-/

namespace PianoRoll.Number

def pow (base exponent : Nat) : Nat := Nat.pow base exponent

/-- The exact content of a double: `digits * 2 ^ exponent` with a sign, an infinity, or no
number at all. -/
inductive Content
  | finite (negative : Bool) (digits : Nat) (exponent : Int)
  | infinite (negative : Bool)
  | nan
  deriving DecidableEq, Repr

/-- Sign, exponent and fraction fields of the bits, with the hidden digit put back. -/
def content (x : Float) : Content :=
  let bits : Nat := x.toBits.toNat
  let negative := bits / pow 2 63 == 1
  let field : Nat := bits / pow 2 52 % pow 2 11
  let fraction : Nat := bits % pow 2 52
  if field = 2047 then
    if fraction = 0 then .infinite negative else .nan
  else if field = 0 then .finite negative fraction (-1074)
  else .finite negative (fraction + pow 2 52) ((field : Int) - 1075)

/-- The quotient of naturals rounded to a whole number; a half goes to the even neighbour. -/
def roundDiv (n d : Nat) : Nat :=
  let q := n / d
  let r := n % d
  if 2 * r < d then q
  else if 2 * r > d then q + 1
  else q + q % 2

/-- The quotient `n / d` in units of `2 ^ e`, rounded. -/
def unitsOf (n d : Nat) (e : Int) : Nat :=
  roundDiv (n * pow 2 (-e).toNat) (d * pow 2 e.toNat)

/-- The exponent of the last place of the double nearest to `n / d`: fifty-three digits, but
never below the least place of a double. -/
def lastPlace (n d : Nat) : Int :=
  let e : Int := (n.log2 : Int) - d.log2 - 52
  let e := if n * pow 2 (-(e + 52)).toNat < d * pow 2 (e + 52).toNat then e - 1 else e
  if e < -1074 then -1074 else e

/-- The bits of the double nearest to the positive quotient `n / d`, without the sign. A
rounding that carries into the next power of two, or past the largest double into infinity,
carries in the bits as well. -/
def nearestBits (n d : Nat) : Nat :=
  if n = 0 then 0
  else
    let e := lastPlace n d
    min ((e + 1074).toNat * pow 2 52 + unitsOf n d e) (2047 * pow 2 52)

/-- The double nearest to `n / d` with the given sign; a half goes to the even neighbour and
what is too large becomes an infinity. -/
def nearest (negative : Bool) (n d : Nat) : Float :=
  Float.ofBits (UInt64.ofNat ((if negative then pow 2 63 else 0) + nearestBits n d))

/-- The double nearest to `digits * 2 ^ exponent`. -/
def nearestScaled (negative : Bool) (digits : Nat) (exponent : Int) : Float :=
  nearest negative (digits * pow 2 exponent.toNat) (pow 2 (-exponent).toNat)

def infinity (negative : Bool) : Float :=
  Float.ofBits (UInt64.ofNat ((if negative then pow 2 63 else 0) + 2047 * pow 2 52))

def notANumber : Float := Float.ofBits 0x7FF8000000000000

end PianoRoll.Number
