/-!
Events: what the parts of the studio tell each other. Each has a kind, by which listeners choose
what they hear, and a payload of named values.
-/

namespace PianoRoll

inductive Source
  | playback | live | midi
  deriving DecidableEq, Repr

def Source.name : Source → String
  | playback => "playback"
  | live => "live"
  | midi => "midi"

inductive Datum
  | null
  | flag (b : Bool)
  | whole (n : Int)
  | real (x : Float)
  | text (s : String)
  | list (ds : List Datum)
  | record (fields : List (String × Datum))

instance : Inhabited Datum := ⟨.null⟩

inductive Event
  | noteOn (pitch : Int) (source : Source) (velocity : Option Int)
  | noteOff (pitch : Int) (source : Source)
  | transport (playing : Bool)
  | textChanged (text : String)
  | midiStatus (status : String)
  | custom (kind : String) (payload : List (String × Datum))

namespace Event

def kind : Event → String
  | noteOn .. => "note_on"
  | noteOff .. => "note_off"
  | transport _ => "transport"
  | textChanged _ => "text_changed"
  | midiStatus _ => "midi_status"
  | custom kind _ => kind

def payload : Event → List (String × Datum)
  | noteOn pitch source velocity =>
    [("pitch", .whole pitch), ("source", .text source.name)]
      ++ (velocity.map fun v => ("velocity", .whole v)).toList
  | noteOff pitch source => [("pitch", .whole pitch), ("source", .text source.name)]
  | transport playing => [("playing", .flag playing)]
  | textChanged text => [("text", .text text)]
  | midiStatus status => [("status", .text status)]
  | custom _ payload => payload

/-- A name in the payload that publishing needs for itself, the first if there are several. -/
def takenName? (e : Event) : Option String :=
  (e.payload.map (·.1)).find? ["self", "kind"].contains

end Event

end PianoRoll
