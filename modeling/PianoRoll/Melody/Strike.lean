import PianoRoll.Melody.Note

/-!
Ghost notes that the melody hits: a note of the same pitch begins less than a tolerance away.
The search looks into the notes of one pitch only.
-/

namespace PianoRoll

/-- Whether a note has the ghost's pitch and begins within the tolerance. -/
def strikes (tolerance : Float) (ghost n : Note) : Bool :=
  n.pitch == ghost.pitch && (n.start - ghost.start).abs < tolerance

def isStruck (tolerance : Float) (notes : List Note) (ghost : Note) : Bool :=
  notes.any (strikes tolerance ghost)

/-- Notes by pitch, each pitch with its notes in order. -/
abbrev Buckets := List (Int × List Note)

namespace Buckets

def add (n : Note) : Buckets → Buckets
  | [] => [(n.pitch, [n])]
  | (p, ns) :: bs => if p = n.pitch then (p, ns ++ [n]) :: bs else (p, ns) :: add n bs

def ofNotes (notes : List Note) : Buckets := notes.foldl (fun bs n => bs.add n) []

def at? (bs : Buckets) (pitch : Int) : List Note := (bs.lookup pitch).getD []

end Buckets

/-- The places of the ghosts that are struck, in ascending order. -/
def struckGhosts (tolerance : Float) (ghosts notes : List Note) : List Nat :=
  let buckets := Buckets.ofNotes notes
  (ghosts.zipIdx.filter fun (g, _) => isStruck tolerance (buckets.at? g.pitch) g).map (·.2)

end PianoRoll
