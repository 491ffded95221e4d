import PianoRoll.Melody.Note
import PianoRoll.Script.Directive
import PianoRoll.Text.Lines

/-!
From a script to its notes. Each line moves a pen; the first line that is no directive rejects
the whole script, and arguments that cannot be used only leave a remark.
-/

namespace PianoRoll.Script

open Text

/-- Where the next note goes, how long it is, and its octave. -/
structure Pen where
  octave : Int := 4
  step : Float := 0.25
  cursor : Float := 0

def Pen.after (pen : Pen) : Directive → Pen
  | .octave arg => { pen with octave := (octaveOf? arg).getD pen.octave }
  | .step arg => { pen with step := (stepOf? arg).getD pen.step }
  | .rest | .pitch _ => { pen with cursor := pen.cursor + pen.step }
  | _ => pen

def Pen.notes (pen : Pen) : Directive → List Note
  | .pitch p => [⟨p.inOctave pen.octave, p.label pen.octave, pen.cursor, pen.cursor + pen.step⟩]
  | _ => []

/-- What is said of a line that has no effect. -/
inductive Remark
  | octaveIgnored (arg : String) (line : Nat)
  | stepIgnored (arg : String) (line : Nat)
  deriving DecidableEq, Repr

def Remark.message : Remark → String
  | .octaveIgnored arg line => s!"octave {quote arg} ignored (line {line})"
  | .stepIgnored arg line => s!"step {quote arg} ignored (line {line})"

def remarks (line : Nat) : Directive → List Remark
  | .octave arg => if (octaveOf? arg).isSome then [] else [.octaveIgnored (String.ofList arg) line]
  | .step arg => if (stepOf? arg).isSome then [] else [.stepIgnored (String.ofList arg) line]
  | _ => []

/-- The outcome of a script: its notes or why it is rejected, and the remarks made on the way. -/
structure Reading where
  notes : Except Fault (List Note)
  remarks : List Remark := []

/-- Puts what a directive yields in front of the outcome of the lines after it. -/
def Reading.after (said : List Remark) (played : List Note) (r : Reading) : Reading :=
  ⟨r.notes.map (played ++ ·), said ++ r.remarks⟩

/-- The outcome of lines, the first of which has the given number. -/
def read (pen : Pen) (number : Nat) : List (List Char) → Reading
  | [] => ⟨.ok [], []⟩
  | raw :: rest =>
    let line := trim raw
    match Directive.ofLine line with
    | .unknown => ⟨.error (.badToken number (String.ofList line)), []⟩
    | d => (read (pen.after d) (number + 1) rest).after (remarks number d) (pen.notes d)

def compile (text : String) : Reading := read {} 1 (lines text.toList)

/-- The notes of a script; a rejected one has none. -/
def notesOf (text : String) : List Note :=
  match (compile text).notes with
  | .ok notes => notes
  | .error _ => []

def errorOf? (text : String) : Option Fault :=
  match (compile text).notes with
  | .ok _ => none
  | .error f => some f

end PianoRoll.Script
