import PianoRoll.Files.Tree
import PianoRoll.Number.Fixed
import PianoRoll.Text.Utf8

/-!
Crash reports: one file for each failure, in a directory of its own, named for the second in which
it was written. Two reports of one kind within a second share a name, and the later one stays.
-/

namespace PianoRoll

structure Failure where
  /-- The kind of the failure. -/
  name : String
  /-- The kind with the place it belongs to. -/
  fullName : String
  text : String
  deriving DecidableEq, Repr

def Failure.line (f : Failure) : String :=
  (if f.text.isEmpty then f.fullName else f.fullName ++ ": " ++ f.text) ++ "\n"

/-- The failure to follow a path. -/
def Failure.ofPath (cause : FileFault) (path : String) : Failure :=
  ⟨cause.kind, cause.kind, (Fault.file cause path).message⟩

/-- The second in which a file is written: the date and the time of day, each read as one number. -/
structure Stamp where
  date : Nat
  time : Nat
  deriving DecidableEq, Repr

def Stamp.text (s : Stamp) : String :=
  String.ofList (Number.digits 8 s.date ++ '-' :: Number.digits 6 s.time)

/-- The files, and where reports go. -/
structure CrashReports where
  /-- The directory asked for; none and the empty one stand for the default. -/
  root : Option String := none
  /-- Whether failures that nothing catches are reported. -/
  installed : Bool := false
  /-- Whether the file for native faults is open. -/
  nativeOpen : Bool := false
  files : Files (List UInt8) := {}

namespace CrashReports

def directoryFor (root : Option String) : List Char :=
  match root with
  | some path => if path.isEmpty then "logs".toList else path.toList
  | none => "logs".toList

def directory (r : CrashReports) : List Char := directoryFor r.root

def pathOf (directory : List Char) (kind : String) (stamp : Stamp) : List Char :=
  Path.join directory s!"{kind}-{stamp.text}.txt".toList

def filing {α : Type} (p : Filing (List UInt8) α) (r : CrashReports) :
    Except Fault α × CrashReports :=
  let (result, files) := p.run.run r.files
  (result, { r with files })

/-- The directory of the reports, which is made if it is missing. -/
def openDirectory (r : CrashReports) : Except Fault (List Char) × CrashReports :=
  r.filing do
    Files.makeDirectories r.directory
    return r.directory

/-- Writes a file, over an older one of the same name, and gives its path. -/
def write (kind content : String) (stamp : Stamp) (r : CrashReports) :
    Except Fault (List Char) × CrashReports :=
  r.filing do
    Files.makeDirectories r.directory
    let path := pathOf r.directory kind stamp
    Files.write path (Text.encode content)
    return path

/-- A report: a heading, a rule and the failure. -/
def content (heading : String) (f : Failure) : String :=
  heading ++ "\n" ++ String.ofList (List.replicate 60 '=') ++ "\n" ++ f.line

/-- Opens the file for native faults, unless it is open; that it cannot be does no harm. -/
def openNative (stamp : Stamp) (r : CrashReports) : Except Fault Unit × CrashReports :=
  if r.nativeOpen then (.ok (), r)
  else match r.write "native" "" stamp with
    | (.ok _, r) => (.ok (), { r with nativeOpen := true })
    | (.error (.file ..), r) => (.ok (), r)
    | (.error f, r) => (.error f, r)

/-- Sends reports to a directory and catches what nothing else does. -/
def setUp (root : Option String) (stamp : Stamp) (r : CrashReports) :
    Except Fault Unit × CrashReports :=
  match ({ r with root }).openNative stamp with
  | (.ok (), r) => (.ok (), { r with installed := true })
  | failed => failed

def report (title : String) (f : Failure) (stamp : Stamp) (r : CrashReports) :
    Except Fault (List Char) × CrashReports :=
  r.write "error" (content s!"[{title}] {f.name}: {f.text}" f) stamp

def reportUncaught (f : Failure) (stamp : Stamp) (r : CrashReports) :
    Except Fault Unit × CrashReports :=
  if r.installed then
    let (result, r) := r.write "crash" (content "UNCAUGHT EXCEPTION" f) stamp
    (result.map fun _ => (), r)
  else (.ok (), r)

end CrashReports

end PianoRoll
