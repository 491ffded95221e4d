import PianoRoll.Fault
import PianoRoll.Log
import PianoRoll.Text.Capital

/-!
The log of a program run: lines of a chosen level and above go to the console and to a file.
-/

namespace PianoRoll

inductive LogTarget
  | console | file
  deriving DecidableEq, Repr

structure Logger where
  /-- The rank below which lines are dropped. -/
  threshold : Nat := 10
  targets : List LogTarget := []
  /-- Whether someone had set the log up before; then it stays as it is. -/
  taken : Bool := false
  /-- The lines that the earlier set-up let through, latest first. -/
  seen : List LogLine := []
  /-- The text of the file, once there is one. -/
  text : Option String := none

namespace Logger

/-- The formats that a line can have, by the character that marks a field. -/
def formats : String :=
  "\x7b'%': (<class 'logging.PercentStyle'>, '%(levelname)s:%(name)s:%(message)s'), "
    ++ "'\x7b': (<class 'logging.StrFormatStyle'>, "
    ++ "'\x7blevelname\x7d:\x7bname\x7d:\x7bmessage\x7d'), "
    ++ "'$': (<class 'logging.StringTemplateStyle'>, "
    ++ "'$\x7blevelname\x7d:$\x7bname\x7d:$\x7bmessage\x7d')\x7d"

/-- The rank of a level's name; a name of none is that of information. Two names are taken by
something else: the format that lines have if no other is chosen, and all the formats. -/
def rankOf (name : String) : Except Fault Nat :=
  match Text.capitals name with
  | "CRITICAL" | "FATAL" => .ok 50
  | "ERROR" => .ok 40
  | "WARNING" | "WARN" => .ok 30
  | "DEBUG" => .ok 10
  | "NOTSET" => .ok 0
  | "BASIC_FORMAT" => .error (.noLevel (.text "%(levelname)s:%(name)s:%(message)s"))
  | "_STYLES" => .error (.noLevel (.table formats))
  | _ => .ok 20

def nameOf : Nat → String
  | 0 => "NOTSET"
  | 10 => "DEBUG"
  | 30 => "WARNING"
  | 40 => "ERROR"
  | 50 => "CRITICAL"
  | _ => "INFO"

/-- Sets the log up, unless it is; the file may be barred. -/
def setUp (level : String) (barred : Bool) (l : Logger) : Except Fault Logger := do
  if l.taken then return l
  let threshold ← rankOf level
  if barred then return { l with threshold, targets := [.console] }
  return { l with threshold, targets := [.console, .file], text := some "" }

/-- A line as the file shows it behind its time. -/
def format (line : LogLine) : String := s!"[{line.level.name}] root: {line.text}\n"

def emit (l : Logger) (line : LogLine) : Logger :=
  if line.level.rank < l.threshold then l
  else { l with
    seen := if l.taken then line :: l.seen else l.seen
    text := l.text.map (· ++ format line) }

end Logger

end PianoRoll
