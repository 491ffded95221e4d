import PianoRoll.Text.Quoted

/-!
Why an operation can fail. Causes are data; their wording is in `Fault.message` alone.
-/

namespace PianoRoll

/-- Why a path does not lead where it should. -/
inductive FileFault
  | missing
  | taken
  | notDirectory
  | isDirectory
  | nameTooLong
  deriving DecidableEq, Repr

def FileFault.code : FileFault → Nat
  | .missing => 2
  | .taken => 17
  | .notDirectory => 20
  | .isDirectory => 21
  | .nameTooLong => 36

def FileFault.words : FileFault → String
  | .missing => "No such file or directory"
  | .taken => "File exists"
  | .notDirectory => "Not a directory"
  | .isDirectory => "Is a directory"
  | .nameTooLong => "File name too long"

def FileFault.kind : FileFault → String
  | .missing => "FileNotFoundError"
  | .taken => "FileExistsError"
  | .notDirectory => "NotADirectoryError"
  | .isDirectory => "IsADirectoryError"
  | .nameTooLong => "OSError"

/-- What a blank setting was needed for. -/
inductive Need
  | number
  | factor
  | divisor
  | text
  deriving DecidableEq, Repr

/-- The wording of a need that a blank does not meet; a blank is an empty list. -/
def Need.message : Need → String
  | .number => "float() argument must be a string or a real number, not 'list'"
  | .factor => "can't multiply sequence by non-int of type 'float'"
  | .divisor => "unsupported operand type(s) for /: 'float' and 'list'"
  | .text => "unsupported format string passed to list.__format__"

/-- What stands in the place of a level without being one. -/
inductive NoLevel
  | text (s : String)
  | table (s : String)
  deriving DecidableEq, Repr

/-- Bytes that are not text: which ones, and what is wrong with them. -/
inductive ByteFault
  | start (byte position : Nat)
  | continuation (byte : Nat) (first last : Nat)
  | endOfText (byte : Nat) (first last : Nat)
  deriving DecidableEq, Repr

inductive Fault
  /-- A line of a script is no directive and no pitch. -/
  | badToken (line : Int) (token : String)
  | unknownSong (name : String)
  | unknownTimer (name : String)
  /-- Division by zero where one side is a double, both are whole, or a remainder is asked. -/
  | realDivision
  | wholeDivision
  | wholeModulo
  /-- A double that is no number, or infinite, where a whole number is needed. -/
  | wholeOfNan
  | wholeOfInfinity
  /-- A whole number, or a quotient of two, beyond the doubles. -/
  | wholeTooLarge
  | quotientTooLarge
  /-- A text that is no number. -/
  | notNumber (text : String)
  /-- A device refused. -/
  | device (text : String)
  /-- A payload names a value as publishing names its own. -/
  | nameTaken (name : String)
  /-- A listener or a scheduled program gave up. -/
  | failure (text : String)
  | file (cause : FileFault) (path : String)
  /-- A path that holds the character that ends one. -/
  | nulInPath
  | bytes (cause : ByteFault)
  /-- A setting that was left blank. -/
  | blank (need : Need)
  | noLevel (found : NoLevel)
  deriving DecidableEq, Repr

def ByteFault.message : ByteFault → String
  | .start b i =>
    s!"'utf-8' codec can't decode byte 0x{hexByte b} in position {i}: invalid start byte"
  | .continuation b i j => span b i j ++ ": invalid continuation byte"
  | .endOfText b i j => span b i j ++ ": unexpected end of data"
where
  hexByte (b : Nat) : String := String.ofList (Text.hex 2 b)
  span (b i j : Nat) : String :=
    if i = j then s!"'utf-8' codec can't decode byte 0x{hexByte b} in position {i}"
    else s!"'utf-8' codec can't decode bytes in position {i}-{j}"

def Fault.message : Fault → String
  | .badToken line token => s!"line {line}: unknown token {Text.quote token}"
  | .unknownSong name => Text.quote s!"Unknown song: {name}"
  | .unknownTimer name => Text.quote name
  | .realDivision => "float division by zero"
  | .wholeDivision => "division by zero"
  | .wholeModulo => "integer modulo by zero"
  | .wholeOfNan => "cannot convert float NaN to integer"
  | .wholeOfInfinity => "cannot convert float infinity to integer"
  | .wholeTooLarge => "int too large to convert to float"
  | .quotientTooLarge => "integer division result too large for a float"
  | .notNumber text => s!"could not convert string to float: {Text.quote text}"
  | .device text => text
  | .nameTaken name =>
    s!"EventBus.publish() got multiple values for argument {Text.quote name}"
  | .failure text => text
  | .file cause path => s!"[Errno {cause.code}] {cause.words}: {Text.quote path}"
  | .nulInPath => "embedded null byte"
  | .bytes cause => cause.message
  | .blank need => need.message
  | .noLevel (.text s) => s!"Unknown level: {Text.quote s}"
  | .noLevel (.table s) => s!"Level not an integer or a valid string: {s}"

end PianoRoll
