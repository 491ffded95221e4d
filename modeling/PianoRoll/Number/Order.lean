/-!
The larger and the smaller of two doubles: the first stays unless the second is strictly beyond
it, so a value that is no number never replaces one, and is never replaced.
-/

namespace PianoRoll.Number

def larger (a b : Float) : Float := if a < b then b else a

def smaller (a b : Float) : Float := if b < a then b else a

/-- The largest of a list, the first of equals. -/
def largest (a : Float) (rest : List Float) : Float := rest.foldl larger a

/-- The value held between two bounds; the upper one is looked at first. -/
def clamp (lo hi x : Float) : Float := larger lo (smaller hi x)

end PianoRoll.Number
