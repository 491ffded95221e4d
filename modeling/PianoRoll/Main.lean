import PianoRoll.Logger
import PianoRoll.Program

/-!
The program at a terminal. There is no window and no device, so nobody plays: the settings are
read, the script is opened, and what went on is logged.
-/

namespace PianoRoll.Main

def usage : String :=
  "usage: piano-roll" ++ String.join (CommandLine.spellings.map fun (s, _) =>
    " [" ++ String.ofList s ++ "]")

def withFile (path : String) (files : Files (List UInt8)) : IO (Files (List UInt8)) := do
  try return files.place path.toList (← IO.FS.readBinFile path).toList
  catch _ => return files

/-- Makes a directory; if it cannot be made, the files have one in its place. -/
def makeDirectory (path : String) : IO (Files (List UInt8)) := do
  try
    IO.FS.createDirAll path
    return {}
  catch _ => return Files.place path.toList [] {}

def logLines (entries : List Entry) : List LogLine := entries.filterMap fun
  | .log line => some line
  | _ => none

/-- The text that a log of the given level keeps. -/
def logText (level : String) (lines : List LogLine) : String :=
  match ({} : Logger).setUp level false with
  | .ok l => (lines.foldl Logger.emit l).text.getD ""
  | .error f => f.message ++ "\n"

/-- Shows what was logged, and the fault that ended the program; gives the exit code. -/
def conclude (settings : Settings) (entries : List Entry) (fault : Option Fault) : IO UInt32 := do
  IO.eprint (logText settings.log.level.text (logLines entries))
  match fault with
  | none => return 0
  | some f =>
    IO.eprintln s!"piano-roll: {f.message}"
    return 1

/-- Runs the program for settings that were read from the given words. -/
def runWith (words : List String) (settings : Settings) : IO UInt32 := do
  let directory := CrashReports.directoryFor (settings.log.directory.getD none)
  let files ← makeDirectory (String.ofList directory)
  let files ← withFile ((settings.scriptPath.getD none).getD "") files
  match Program.launch words { files, device := { id := -1 } } id [] with
  | some (.ran r) =>
    conclude settings ((r.shots ++ [r.last]).flatMap Program.Shot.entries) r.fault
  | some (.notBegun es f) => conclude settings es (some f)
  | some (.refused r) => return r.exitCode.toUInt32
  | none => return 1

/-- Reads the words of a command line and runs the program, or says why not. -/
def start (words : List String) : IO UInt32 := do
  match CommandLine.read words with
  | .ok settings => runWith words settings
  | .error .help =>
    IO.println usage
    return 0
  | .error r =>
    IO.eprintln s!"{usage}\npiano-roll: error: {r.message}"
    return r.exitCode.toUInt32

end PianoRoll.Main

def main (words : List String) : IO UInt32 := PianoRoll.Main.start words
