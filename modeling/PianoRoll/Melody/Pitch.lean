/-!
The twelve pitches of an octave, their names, and the numbers that keys have: middle C is 60 and
opens octave 4.
-/

namespace PianoRoll

inductive PitchClass
  | c | cSharp | d | dSharp | e | f | fSharp | g | gSharp | a | aSharp | b
  deriving DecidableEq, Repr

namespace PitchClass

def all : List PitchClass :=
  [c, cSharp, d, dSharp, e, f, fSharp, g, gSharp, a, aSharp, b]

def name : PitchClass → List Char
  | c => ['C']
  | cSharp => ['C', '#']
  | d => ['D']
  | dSharp => ['D', '#']
  | e => ['E']
  | f => ['F']
  | fSharp => ['F', '#']
  | g => ['G']
  | gSharp => ['G', '#']
  | a => ['A']
  | aSharp => ['A', '#']
  | b => ['B']

def semitone : PitchClass → Nat
  | c => 0
  | cSharp => 1
  | d => 2
  | dSharp => 3
  | e => 4
  | f => 5
  | fSharp => 6
  | g => 7
  | gSharp => 8
  | a => 9
  | aSharp => 10
  | b => 11

/-- The pitch a text names, in capitals or not. -/
def ofName? (s : List Char) : Option PitchClass :=
  all.find? fun p => p.name == s.map Char.toUpper

def inOctave (p : PitchClass) (octave : Int) : Int := 60 + p.semitone + (octave - 4) * 12

def label (p : PitchClass) (octave : Int) : String :=
  String.ofList p.name ++ toString octave

end PitchClass

def isBlack (pitch : Int) : Bool :=
  [1, 3, 6, 8, 10].contains (pitch % 12)

end PianoRoll
