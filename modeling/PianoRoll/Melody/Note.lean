/-!
Notes, and the extent of a melody: its lowest and highest pitch and the beat at which its last
note ends.
-/

namespace PianoRoll

/-- A note: key number, label, and the beats at which it begins and ends. -/
structure Note where
  pitch : Int
  label : String
  start : Float
  finish : Float

def Note.duration (n : Note) : Float := n.finish - n.start

/-- The pitches and the length of everything that is shown. -/
structure Extent where
  low : Int
  high : Int
  lowLabel : String
  highLabel : String
  total : Float

namespace Extent

def span (r : Extent) : Int := r.high - r.low

def rows (r : Extent) : Int := r.span + 1

end Extent

end PianoRoll
