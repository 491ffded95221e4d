import PianoRoll.Melody.Pitch
import PianoRoll.Number.Decimal
import PianoRoll.Number.Whole

/-!
The lines of a melody script. A line is blank, sets the octave or the step, rests, or plays a
pitch; keywords and pitch names are read in either case.
-/

namespace PianoRoll.Script

open Text Number

/-- What a line asks for. `idle` is a keyword with no argument, or with something glued to it. -/
inductive Directive
  | blank
  | octave (arg : List Char)
  | step (arg : List Char)
  | idle
  | rest
  | pitch (p : PitchClass)
  | unknown
  deriving DecidableEq, Repr

/-- What follows a keyword at the start of a line. -/
def afterKeyword? : List Char → List Char → Option (List Char)
  | [], s => some s
  | _ :: _, [] => none
  | k :: ks, c :: s => if c.toLower = k then afterKeyword? ks s else none

def Directive.withArgument (make : List Char → Directive) : List Char → Directive
  | ' ' :: c :: arg => make (c :: arg)
  | _ => .idle

/-- The directive on a line that has no blanks around it. -/
def Directive.ofLine (line : List Char) : Directive :=
  if line = [] then .blank
  else match afterKeyword? ['o', 'c', 't', 'a', 'v', 'e'] line with
    | some s => .withArgument .octave s
    | none =>
      match afterKeyword? ['s', 't', 'e', 'p'] line with
      | some s => .withArgument .step s
      | none =>
        if line.map Char.toLower = ['r', 'e', 's', 't'] then .rest
        else match PitchClass.ofName? line with
          | some p => .pitch p
          | none => .unknown

/-- The octave an argument names, if it is one that keys have. -/
def octaveOf? (arg : List Char) : Option Int :=
  match leadingWhole? arg with
  | some n => if -1 ≤ n ∧ n ≤ 8 then some n else none
  | none => none

/-- The number a step argument denotes: a decimal, or a fraction of two. -/
def fractionOf? (arg : List Char) : Option Float :=
  match arg.span (· != '/') with
  | (_, []) => leadingNumber? arg
  | (num, _ :: den) =>
    match leadingNumber? num, leadingNumber? den with
    | some a, some b => if a == 0 || b == 0 then none else some (a / b)
    | _, _ => none

/-- The step an argument names, if it is a length that notes can have. -/
def stepOf? (arg : List Char) : Option Float :=
  match fractionOf? arg with
  | some x => if isFinite x && 0 < x then some x else none
  | none => none

end PianoRoll.Script
