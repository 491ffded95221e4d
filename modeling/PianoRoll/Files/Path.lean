/-!
Paths as they are spelled: names between slashes. A path that begins with a slash begins at the
root, and any other one where its reader stands.
-/

namespace PianoRoll.Path

/-- The pieces between the slashes, empty ones included. -/
def pieces : List Char → List (List Char)
  | [] => [[]]
  | c :: s =>
    if c = '/' then [] :: pieces s
    else match pieces s with
      | [] => [[c]]
      | p :: ps => (c :: p) :: ps

/-- The names on the way. Slashes beside each other have none between them. -/
def names (path : List Char) : List String :=
  ((pieces path).filter (!·.isEmpty)).map String.ofList

def isAbsolute (path : List Char) : Bool := path.head? == some '/'

/-- Whether a path can only be that of a directory. -/
def endsInSlash (path : List Char) : Bool := path.getLast? == some '/'

/-- What stands before the last slashes, and what behind them. Slashes that nothing stands before
are kept. -/
def splitLast (path : List Char) : List Char × List Char :=
  let before := path.reverse.dropWhile (· != '/')
  let stripped := before.dropWhile (· == '/')
  ((if stripped.isEmpty then before else stripped).reverse,
    (path.reverse.takeWhile (· != '/')).reverse)

/-- The path of the directory above, as it is spelled, and the last name; slashes at the end do not
count. There is none where one of the two is missing. -/
def parent? (path : List Char) : Option (List Char × List Char) :=
  let (head, last) := splitLast path
  let (head, last) := if last.isEmpty then splitLast head else (head, last)
  if head.isEmpty || last.isEmpty then none else some (head, last)

def join (directory name : List Char) : List Char :=
  if directory.isEmpty || endsInSlash directory then directory ++ name
  else directory ++ '/' :: name

/-- The names that lead from one place to another; both are names from the root. -/
def relative : List String → List String → List String
  | a :: s, b :: t =>
    if a = b then relative s t else List.replicate (s.length + 1) ".." ++ b :: t
  | s, t => List.replicate s.length ".." ++ t

/-- The spelling of names that lead somewhere. -/
def spell (names : List String) : String :=
  if names.isEmpty then "." else "/".intercalate names

theorem length_splitLast_le (path : List Char) :
    (splitLast path).1.length + (splitLast path).2.length ≤ path.length := by
  have h := congrArg List.length
    (List.takeWhile_append_dropWhile (p := (· != '/')) (l := path.reverse))
  have hs := ((path.reverse.dropWhile (· != '/')).dropWhile_suffix (· == '/')).length_le
  simp only [List.length_append, List.length_reverse] at h
  simp only [splitLast, List.length_reverse]
  split <;> omega

/-- A path is longer than that of the directory above. -/
theorem length_lt_of_parent? {path head last : List Char}
    (h : parent? path = some (head, last)) : head.length < path.length := by
  have h1 := length_splitLast_le path
  have h2 := length_splitLast_le (splitLast path).1
  simp only [parent?] at h
  split at h
  · next he => grind [List.isEmpty_iff, List.length_pos_iff]
  · next he => grind [List.isEmpty_iff, List.length_pos_iff]

end PianoRoll.Path
