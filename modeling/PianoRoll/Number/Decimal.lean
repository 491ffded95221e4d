import PianoRoll.Text.Blank
import PianoRoll.Text.DecimalDigit
import PianoRoll.Number.Binary

/-!
Numbers read from text: the numeral at the start of a text, and a text that is a number as a
whole. Digits of every script count, and the value is the nearest double.
-/

namespace PianoRoll.Number

open Text

/-- The double nearest to `n * 10 ^ e`. Powers of ten far beyond the doubles are not built. -/
def ofDecimal (negative : Bool) (n : Nat) (e : Int) : Float :=
  let top : Int := (Nat.toDigits 10 n).length + e
  if n = 0 ∨ top < -330 then nearest negative 0 1
  else if 310 < top then infinity negative
  else nearest negative (n * pow 10 e.toNat) (pow 10 (-e).toNat)

def takeSign : List Char → Bool × List Char
  | '-' :: s => (true, s)
  | '+' :: s => (false, s)
  | s => (false, s)

/-- The digits before and after the point, at least one of them, and what follows. -/
def takeMantissa? (s : List Char) : Option (List Char × List Char × List Char) :=
  match s.span isDigit with
  | ([], '.' :: r) =>
    match r.span isDigit with
    | ([], _) => none
    | (fs, r) => some ([], fs, r)
  | ([], _) => none
  | (ds, '.' :: r) => let (fs, r) := r.span isDigit; some (ds, fs, r)
  | (ds, r) => some (ds, [], r)

/-- The power of ten written behind a mantissa, zero if there is none, and what follows. -/
def takePower (s : List Char) : Int × List Char :=
  match s with
  | c :: r =>
    if c = 'e' ∨ c = 'E' then
      let (negative, r) := takeSign r
      match r.span isDigit with
      | ([], _) => (0, s)
      | (ds, r) => (if negative then -natOfDigits 0 ds else natOfDigits 0 ds, r)
    else (0, s)
  | [] => (0, s)

def takeNumeral? (s : List Char) : Option (Float × List Char) := do
  let (negative, s) := takeSign s
  let (ds, fs, s) ← takeMantissa? s
  let (power, s) := takePower s
  return (ofDecimal negative (natOfDigits 0 (ds ++ fs)) (power - fs.length), s)

/-- The number a text begins with, after blanks. -/
def leadingNumber? (s : List Char) : Option Float := (takeNumeral? (trimStart s)).map (·.1)

/-- The longest whole numeral that is read. -/
def digitLimit : Nat := 4300

/-- The whole number a text begins with, after blanks. -/
def leadingWhole? (s : List Char) : Option Int :=
  let (negative, s) := takeSign (trimStart s)
  let ds := s.takeWhile isDigit
  if ds.isEmpty || ds.length > digitLimit then none
  else some (if negative then -natOfDigits 0 ds else natOfDigits 0 ds)

/-- The blanks that may surround a number: all but the information separators. -/
def isMargin (c : Char) : Bool := isBlank c && !(0x1C ≤ c.toNat && c.toNat ≤ 0x1F)

/-- The text without its grouping marks, each of which stands between two digits. -/
def ungroup? (afterDigit : Bool) : List Char → Option (List Char)
  | [] => some []
  | '_' :: c :: s => if afterDigit && isDigit c then (ungroup? true s).map (c :: ·) else none
  | c :: s => if c = '_' then none else (ungroup? (isDigit c) s).map (c :: ·)

/-- The words for values without digits. -/
def word? (s : List Char) : Option Float :=
  let (negative, s) := takeSign s
  match String.ofList (s.map Char.toLower) with
  | "inf" | "infinity" => some (infinity negative)
  | "nan" => some notANumber
  | _ => none

/-- The number that a text is as a whole, blanks around it aside. -/
def read? (s : List Char) : Option Float := do
  let s := ((s.dropWhile isMargin).reverse.dropWhile isMargin).reverse
  match word? s with
  | some x => return x
  | none =>
    let (x, rest) ← takeNumeral? (← ungroup? false s)
    if rest.isEmpty then return x else none

end PianoRoll.Number
