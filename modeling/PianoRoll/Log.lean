/-!
Log lines: a level and a text.
-/

namespace PianoRoll

/-- How grave a log line is, in ascending order. -/
inductive Level
  | debug | info | warning | error | critical
  deriving DecidableEq, Repr

namespace Level

/-- The rank of a level; `notset` below all of them is zero. -/
def rank : Level → Nat
  | debug => 10
  | info => 20
  | warning => 30
  | error => 40
  | critical => 50

def name : Level → String
  | debug => "DEBUG"
  | info => "INFO"
  | warning => "WARNING"
  | error => "ERROR"
  | critical => "CRITICAL"

end Level

structure LogLine where
  level : Level
  text : String
  deriving DecidableEq, Repr

end PianoRoll
