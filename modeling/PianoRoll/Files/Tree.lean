import PianoRoll.Fault
import PianoRoll.Files.Path
import PianoRoll.Table

/-!
Directories and files. A path is followed name by name, through directories only, and what it does
not lead to can be made: `makeDirectories` also makes the directories above.
-/

namespace PianoRoll

inductive Node (α : Type)
  | directory
  | file (content : α)

/-- The directories and files. A place is the names that lead to it from the root. -/
structure Files (α : Type) where
  /-- Where paths begin that do not begin at the root. The way there is through directories. -/
  here : List String := []
  nodes : Table (List String) (Node α) := []

/-- Work on files, which may fail and keeps what it made before. -/
abbrev Filing (α : Type) := ExceptT Fault (StateM (Files α))

namespace Files

variable {α : Type}

/-- The most bytes that a name can have. -/
def longestName : Nat := 255

/-- The most bytes that a path can have. -/
def longestPath : Nat := 4095

def at? (f : Files α) (place : List String) : Option (Node α) :=
  if place.isPrefixOf f.here then some .directory else f.nodes.get? place

def step (f : Files α) (place : List String) (name : String) : Except FileFault (List String) :=
  match f.at? place with
  | none => .error .missing
  | some (.file _) => .error .notDirectory
  | some .directory =>
    if name = "." then .ok place
    else if name = ".." then .ok place.dropLast
    else if longestName < name.utf8ByteSize then .error .nameTooLong
    else .ok (place ++ [name])

def start (f : Files α) (path : List Char) : List String :=
  if Path.isAbsolute path then [] else f.here

/-- The place that a path leads to. All directories on the way are there; at the place itself there
may be nothing. -/
def follow (f : Files α) (path : List Char) : Except FileFault (List String) :=
  if path = [] then .error .missing
  else if longestPath < (String.ofList path).utf8ByteSize then .error .nameTooLong
  else (Path.names path).foldlM f.step (f.start path)

/-- The place that a path leads to, if it can be a path. -/
def placeOf (f : Files α) (path : List Char) : Except Fault (List String) :=
  if path.contains '\x00' then .error .nulInPath
  else (f.follow path).mapError (.file · (String.ofList path))

def find? (f : Files α) (path : List Char) : Option (Node α) :=
  match f.placeOf path with
  | .error _ => none
  | .ok place =>
    match f.at? place with
    | some (.file content) => if Path.endsInSlash path then none else some (.file content)
    | node => node

def isDirectory (f : Files α) (path : List Char) : Bool :=
  match f.find? path with
  | some .directory => true
  | _ => false

def read (f : Files α) (path : List Char) : Except Fault α := do
  let fault := fun cause => Fault.file cause (String.ofList path)
  match f.at? (← f.placeOf path) with
  | none => .error (fault .missing)
  | some .directory => .error (fault .isDirectory)
  | some (.file content) =>
    if Path.endsInSlash path then .error (fault .notDirectory) else .ok content

def makeDirectory (path : List Char) : Filing α Unit := do
  let f ← get
  let place ← ExceptT.mk (pure (f.placeOf path))
  if (f.at? place).isSome then throw (.file .taken (String.ofList path))
  set { f with nodes := f.nodes.put place .directory }

def write (path : List Char) (content : α) : Filing α Unit := do
  let f ← get
  let place ← ExceptT.mk (pure (f.placeOf path))
  match f.at? place with
  | some .directory => throw (.file .isDirectory (String.ofList path))
  | _ => set { f with nodes := f.nodes.put place (.file content) }

/-- Work that is done if something stands in its way. -/
def unlessTaken (p : Filing α Unit) : Filing α Unit := tryCatch p fun
  | .file .taken _ => pure ()
  | f => throw f

/-- Makes a directory, unless it is there, and those above it that are missing. A dot at the end
names a directory that has then been made. -/
def makeDirectories (path : List Char) : Filing α Unit := do
  match _h : Path.parent? path with
  | some (head, last) =>
    if ((← get).find? head).isNone then
      unlessTaken (makeDirectories head)
      if last = ['.'] then return
  | none => pure ()
  try makeDirectory path
  catch fault => if !(← get).isDirectory path then throw fault
termination_by path.length
decreasing_by exact Path.length_lt_of_parent? (by assumption)

/-- Puts a file where a path leads, with the directories on the way; the names on it are no dots. -/
def place (path : List Char) (content : α) (f : Files α) : Files α :=
  let place := f.start path ++ Path.names path
  let ways := (List.range place.length).map fun n => (place.take n, Node.directory)
  { f with nodes := (f.nodes ++ ways).put place (.file content) }

/-- The shortest spelling of a path, when every name on the way is taken for a directory. -/
def plain (f : Files α) (path : List Char) : String :=
  let place := (Path.names path).foldl (fun above name =>
    if name = "." then above else if name = ".." then above.dropLast else above ++ [name])
    (f.start path)
  Path.spell (Path.relative f.here place)

/-- The files below the place where paths begin, by their paths. -/
def list (f : Files α) : List (String × α) :=
  f.nodes.filterMap fun (place, node) =>
    match node with
    | .file content =>
      if f.here.isPrefixOf place then
        some ("/".intercalate (place.drop f.here.length), content)
      else none
    | .directory => none

end Files

end PianoRoll
