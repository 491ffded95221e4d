import PianoRoll.Melody.Note
import PianoRoll.Number.Order

/-!
The extent of two melodies shown together, taken note by note over both: of equally low or
high notes the first gives the label.
-/

namespace PianoRoll

/-- The first of the lowest notes. -/
def lowestNote (n : Note) (rest : List Note) : Note :=
  rest.foldl (fun best m => if m.pitch < best.pitch then m else best) n

/-- The first of the highest notes. -/
def highestNote (n : Note) (rest : List Note) : Note :=
  rest.foldl (fun best m => if best.pitch < m.pitch then m else best) n

/-- The last beat of a melody of at least one note. -/
def lastFinish (n : Note) (rest : List Note) : Float :=
  Number.largest n.finish (rest.map Note.finish)

/-- The extent of notes; there is none without a note. -/
def Extent.of? : List Note → Option Extent
  | [] => none
  | n :: rest =>
    let low := lowestNote n rest
    let high := highestNote n rest
    some ⟨low.pitch, high.pitch, low.label, high.label, lastFinish n rest⟩

/-- The beat at which the last of the notes ends, zero without a note. -/
def totalBeats : List Note → Float
  | [] => 0
  | n :: rest => lastFinish n rest

end PianoRoll
