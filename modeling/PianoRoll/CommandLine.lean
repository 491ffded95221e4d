import PianoRoll.Number.Decimal
import PianoRoll.Settings
import PianoRoll.Songs
import PianoRoll.Sound

/-!
Settings from the words of a command line. A flag may be cut short as long as it stays the only
one that begins so, and takes its value from the next word or from behind an equals sign. Two
dashes behind the equals sign are no value and leave the setting blank.
-/

namespace PianoRoll.CommandLine

open Text Number

inductive Flag
  | help | script | ghost | bpm | waveform | volume | midiIn | pixelsPerBeat | logDir | logLevel
  deriving DecidableEq, Repr

/-- How flags are spelled, in the order in which they are tried. -/
def spellings : List (List Char × Flag) :=
  [("-h", .help), ("--help", .help), ("--script", .script), ("--ghost", .ghost), ("--bpm", .bpm),
   ("--waveform", .waveform), ("--volume", .volume), ("--midi-in", .midiIn),
   ("--pixels-per-beat", .pixelsPerBeat), ("--log-dir", .logDir),
   ("--log-level", .logLevel)].map fun ((s, f) : String × Flag) => (s.toList, f)

def Flag.name (f : Flag) : String :=
  "/".intercalate ((spellings.filter (·.2 = f)).map fun (s, _) => String.ofList s)

def levelNames : List String := ["DEBUG", "INFO", "WARNING", "ERROR"]

/-- The values a flag accepts, if not every one is good. -/
def Flag.choices? : Flag → Option (List String)
  | .ghost => some songNames
  | .waveform => some waveformNames
  | .logLevel => some levelNames
  | _ => none

/-- Why no settings come of a command line. -/
inductive Refusal
  /-- Help was asked for. -/
  | help
  | ambiguous (word : String) (flags : List String)
  | noValue (f : Flag)
  | valueIgnored (f : Flag) (value : String)
  | notNumber (f : Flag) (value : String)
  | notChoice (f : Flag) (value : String) (choices : List String)
  | unrecognized (words : List String)
  deriving DecidableEq, Repr

def Refusal.message : Refusal → String
  | .help => ""
  | .ambiguous word flags => s!"ambiguous option: {word} could match " ++ ", ".intercalate flags
  | .noValue f => s!"argument {f.name}: expected one argument"
  | .valueIgnored f value => s!"argument {f.name}: ignored explicit argument {quote value}"
  | .notNumber f value => s!"argument {f.name}: invalid float value: {quote value}"
  | .notChoice f value choices =>
    s!"argument {f.name}: invalid choice: {quote value} (choose from "
      ++ ", ".intercalate (choices.map quote) ++ ")"
  | .unrecognized words => "unrecognized arguments: " ++ " ".intercalate words

def Refusal.exitCode : Refusal → Nat
  | .help => 0
  | _ => 2

inductive Glue
  | nothing
  /-- Behind an equals sign. -/
  | value (s : List Char)
  /-- Directly behind a one-letter flag. -/
  | letters (s : List Char)
  deriving DecidableEq, Repr

inductive Word
  | plain
  | separator
  | flag (f : Flag) (glue : Glue)
  | unknownFlag
  deriving DecidableEq, Repr

/-- Whether a word is a negative number without an exponent. -/
def isNegativeNumber : List Char → Bool
  | '-' :: s =>
    let s := if s.getLast? = some '\n' then s.dropLast else s
    match s.span isDigit with
    | (_ :: _, []) => true
    | (_, '.' :: fs) => !fs.isEmpty && fs.all isDigit
    | _ => false
  | _ => false

def splitGlue (w : List Char) : List Char × Glue :=
  match w.span (· != '=') with
  | (s, '=' :: v) => (s, .value v)
  | (s, _) => (s, .nothing)

/-- The flags that a word can stand for, cut short or with letters glued to it. -/
def candidates (w : List Char) : List (List Char × Flag × Glue) :=
  match w with
  | '-' :: '-' :: _ =>
    let (start, glue) := splitGlue w
    (spellings.filter fun (s, _) => start.isPrefixOf s).map fun (s, f) => (s, f, glue)
  | '-' :: c :: letters =>
    spellings.filterMap fun (s, f) =>
      if s = ['-', c] then some (s, f, .letters letters)
      else if w.isPrefixOf s then some (s, f, .nothing)
      else none
  | _ => []

/-- What a word of the command line is, before any separator. -/
def Word.ofText (w : List Char) : Except Refusal Word :=
  match w with
  | [] | ['-'] => .ok .plain
  | '-' :: _ =>
    match spellings.lookup w with
    | some f => .ok (.flag f .nothing)
    | none =>
      match splitGlue w with
      | (s, .value v) =>
        match spellings.lookup s with
        | some f => .ok (.flag f (.value v))
        | none => guess
      | _ => guess
  | _ => .ok .plain
where
  guess : Except Refusal Word :=
    match candidates w with
    | [] =>
      if isNegativeNumber w || w.contains ' ' then .ok .plain else .ok .unknownFlag
    | [(_, f, glue)] => .ok (.flag f glue)
    | several =>
      .error (.ambiguous (String.ofList w) (several.map fun (s, _) => String.ofList s))

/-- What the words are. All words behind a separator are plain. -/
def classify : List (List Char) → Except Refusal (List (List Char × Word))
  | [] => .ok []
  | w :: ws =>
    if w = ['-', '-'] then .ok ((w, .separator) :: ws.map (·, .plain))
    else do
      let kind ← Word.ofText w
      return (w, kind) :: (← classify ws)

/-- What becomes of a text glued to the one-letter flag for help: each letter is such a flag again,
and help is given when all of them are. -/
def helpWith : List Char → Refusal
  | ['h'] => .help
  | 'h' :: s => helpWith s
  | s => .valueIgnored .help (String.ofList s)

/-- What becomes of a text glued to a flag for help. -/
def helpGlued (w : List Char) : Glue → Refusal
  | .nothing => .help
  | .letters s => helpWith s
  | .value v =>
    if ['-', '-'].isPrefixOf w then .valueIgnored .help (String.ofList v) else helpWith v

def numberFor (f : Flag) (v : List Char) : Except Refusal Float :=
  match Number.read? v with
  | some x => .ok x
  | none => .error (.notNumber f (String.ofList v))

def apply (f : Flag) (v : List Char) (s : Settings) : Except Refusal Settings := do
  let word := String.ofList v
  match f.choices? with
  | some choices => if !choices.contains word then .error (.notChoice f word choices)
  | none => pure ()
  match f with
  | .help => .error .help
  | .script => return { s with scriptPath := .value (some word) }
  | .ghost => return { s with ghostSong := .value (some word) }
  | .bpm => return { s with playback := { s.playback with bpm := .value (← numberFor f v) } }
  | .waveform => return { s with audio := { s.audio with waveform := .value word } }
  | .volume => return { s with audio := { s.audio with volume := .value (← numberFor f v) } }
  | .midiIn => return { s with midiIn := .value (some word) }
  | .pixelsPerBeat =>
    return { s with render := { s.render with pixelsPerBeat := .value (← numberFor f v) } }
  | .logDir => return { s with log := { s.log with directory := .value (some word) } }
  | .logLevel => return { s with log := { s.log with level := .value word } }

/-- The settings with that of one flag left blank. -/
def applyBlank (f : Flag) (s : Settings) : Settings :=
  match f with
  | .help => s
  | .script => { s with scriptPath := .blank }
  | .ghost => { s with ghostSong := .blank }
  | .bpm => { s with playback := { s.playback with bpm := .blank } }
  | .waveform => { s with audio := { s.audio with waveform := .blank } }
  | .volume => { s with audio := { s.audio with volume := .blank } }
  | .midiIn => { s with midiIn := .blank }
  | .pixelsPerBeat => { s with render := { s.render with pixelsPerBeat := .blank } }
  | .logDir => { s with log := { s.log with directory := .blank } }
  | .logLevel => { s with log := { s.log with level := .blank } }

def applyGlued (f : Flag) (v : List Char) (s : Settings) : Except Refusal Settings :=
  if v = ['-', '-'] then .ok (applyBlank f s) else apply f v s

/-- Goes through the words and gives the settings with the words that nothing took. -/
def gather (s : Settings) : List (List Char × Word) → Except Refusal (Settings × List String)
  | [] => .ok (s, [])
  | (w, .flag .help glue) :: _ => .error (helpGlued w glue)
  | (_, .flag f (.value v)) :: rest | (_, .flag f (.letters v)) :: rest => do
    gather (← applyGlued f v s) rest
  | (_, .flag f .nothing) :: (v, .plain) :: rest => do gather (← apply f v s) rest
  | (_, .flag f .nothing) :: _ => .error (.noValue f)
  | (w, _) :: rest => do
    let (s, left) ← gather s rest
    return (s, String.ofList w :: left)

def read (words : List String) : Except Refusal Settings := do
  match ← gather {} (← classify (words.map String.toList)) with
  | (s, []) => return s
  | (_, left) => .error (.unrecognized left)

end PianoRoll.CommandLine
