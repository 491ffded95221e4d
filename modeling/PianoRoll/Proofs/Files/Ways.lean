import Mathlib.Data.List.TakeWhile
import Mathlib.Tactic.Common
import PianoRoll.Files.Tree
import PianoRoll.Proofs.Work

/-!
The ways that paths name. A path is its names one after the other, so the way to a place leads
through the directory above it (`placeOf_above`). A directory that is there is not made again
(`makeDirectories_of_isDirectory`), and a file can be written just where a way leads and no
directory stands (`run_write_ok_iff`); no way is lost by it (`placeOf_wrote`).
-/

namespace PianoRoll

/-! ## The names on a path -/

namespace Path

theorem pieces_ne_nil (path : List Char) : pieces path ≠ [] := by
  cases path with
  | nil => simp [pieces]
  | cons c path =>
    simp only [pieces]
    split
    · simp
    · split <;> simp

theorem pieces_append_slash (a b : List Char) :
    pieces (a ++ '/' :: b) = pieces a ++ pieces b := by
  induction a with
  | nil => simp [pieces]
  | cons c a ih =>
    by_cases slash : c = '/'
    · simp [pieces, slash, ih]
    · have some := pieces_ne_nil a
      cases e : pieces a with
      | nil => exact absurd e some
      | cons p ps => simp [pieces, slash, ih, e]

theorem pieces_of_not_mem {a : List Char} (plain : '/' ∉ a) : pieces a = [a] := by
  induction a with
  | nil => rfl
  | cons c a ih =>
    have slash : c ≠ '/' := fun e => plain (e ▸ List.mem_cons_self)
    simp [pieces, slash, ih fun m => plain (List.mem_cons_of_mem _ m)]

theorem names_append_slash (a b : List Char) : names (a ++ '/' :: b) = names a ++ names b := by
  simp [names, pieces_append_slash]

theorem names_of_not_mem {a : List Char} (plain : '/' ∉ a) (some : a ≠ []) :
    names a = [String.ofList a] := by
  simp [names, pieces_of_not_mem plain, some]

/-- Slashes have no names between them. -/
theorem names_slashes_append {s : List Char} (slashes : ∀ c ∈ s, c = '/') (b : List Char) :
    names (s ++ b) = names b := by
  induction s with
  | nil => rfl
  | cons c s ih =>
    obtain rfl := slashes c List.mem_cons_self
    rw [List.cons_append, show '/' :: (s ++ b) = [] ++ '/' :: (s ++ b) from rfl,
      names_append_slash, ih fun c m => slashes c (List.mem_cons_of_mem _ m)]
    rfl

/-- What ends in a slash, or is empty, has its names apart from those behind it. -/
theorem names_append {a : List Char} (apart : a = [] ∨ endsInSlash a = true) (b : List Char) :
    names (a ++ b) = names a ++ names b := by
  obtain rfl | slash := apart
  · rfl
  · obtain ⟨front, rfl⟩ : ∃ front, a = front ++ ['/'] := by
      simpa [endsInSlash, List.getLast?_eq_some_iff] using slash
    rw [List.append_assoc, List.singleton_append, names_append_slash, names_append_slash,
      show names [] = [] from rfl, List.append_nil]

/-- The name of a file is the last one on its path. -/
theorem names_join {name : List Char} (plain : '/' ∉ name) (some : name ≠ [])
    (directory : List Char) :
    names (join directory name) = names directory ++ [String.ofList name] := by
  rw [join, ← names_of_not_mem plain some]
  split
  · next apart =>
    exact names_append (by simpa [List.isEmpty_iff] using apart) name
  · exact names_append_slash directory name

theorem head_join (directory name : List Char) : directory <+: join directory name := by
  rw [join]
  split
  · exact List.prefix_append _ _
  · exact List.prefix_append _ _

/-- Behind what is no slash comes a slash or nothing. -/
theorem dropWhile_ne_slash (s : List Char) :
    s.dropWhile (· != '/') = [] ∨ ∃ rest, s.dropWhile (· != '/') = '/' :: rest := by
  have h := List.head?_dropWhile_not (· != '/') s
  cases e : s.dropWhile (· != '/') with
  | nil => exact .inl rfl
  | cons c rest =>
    rw [e] at h
    exact .inr ⟨rest, by simpa using h⟩

/-- A path is what stands before the last slashes, some slashes, and what stands behind them. -/
theorem splitLast_spec (path : List Char) : ∃ slashes, (∀ c ∈ slashes, c = '/') ∧
    path = (splitLast path).1 ++ (slashes ++ (splitLast path).2) ∧ '/' ∉ (splitLast path).2 ∧
      (slashes = [] → (splitLast path).1 = [] ∨ endsInSlash (splitLast path).1 = true) := by
  let before := path.reverse.dropWhile (· != '/')
  have parts : path = before.reverse ++ (path.reverse.takeWhile (· != '/')).reverse := by
    rw [← List.reverse_append, List.takeWhile_append_dropWhile, List.reverse_reverse]
  have plain : '/' ∉ (path.reverse.takeWhile (· != '/')).reverse := fun m => by
    simpa using List.mem_takeWhile_imp (List.mem_reverse.1 m)
  have starts : before = [] ∨ ∃ rest, before = '/' :: rest := dropWhile_ne_slash _
  by_cases stripped : (before.dropWhile (· == '/')).isEmpty = true
  · have head : (splitLast path).1 = before.reverse := congrArg List.reverse (if_pos stripped)
    refine ⟨[], by simp, by rw [head]; exact parts, plain, fun _ => ?_⟩
    rw [head]
    obtain e | ⟨rest, e⟩ := starts
    · exact .inl (by rw [e]; rfl)
    · exact .inr (by simp [endsInSlash, e])
  · have head : (splitLast path).1 = (before.dropWhile (· == '/')).reverse :=
      congrArg List.reverse (if_neg stripped)
    refine ⟨(before.takeWhile (· == '/')).reverse, fun c m => ?_, ?_, plain, fun none => ?_⟩
    · simpa using List.mem_takeWhile_imp (List.mem_reverse.1 m)
    · rw [head, ← List.append_assoc, ← List.reverse_append, List.takeWhile_append_dropWhile]
      exact parts
    · obtain e | ⟨rest, e⟩ := starts
      · exact absurd (by rw [e]; rfl) stripped
      · exact absurd none (by simp [e])

theorem names_splitLast (path : List Char) :
    names path = names (splitLast path).1 ++ names (splitLast path).2 := by
  obtain ⟨slashes, all, parts, -, apart⟩ := splitLast_spec path
  conv_lhs => rw [parts]
  cases slashes with
  | nil => exact names_append (apart rfl) _
  | cons c slashes =>
    obtain rfl := all c List.mem_cons_self
    rw [List.cons_append, names_append_slash,
      names_slashes_append fun c m => all c (List.mem_cons_of_mem _ m)]

theorem head_splitLast (path : List Char) : (splitLast path).1 <+: path := by
  obtain ⟨slashes, -, parts, -⟩ := splitLast_spec path
  exact ⟨_, parts.symm⟩

/-- The names on the way to the directory above, and the last one, are those on the path. -/
theorem names_of_parent? {path head last : List Char} (h : parent? path = some (head, last)) :
    head ≠ [] ∧ head <+: path ∧ names path = names head ++ [String.ofList last] := by
  have last_name (path : List Char) (some : (splitLast path).2 ≠ []) :
      names path = names (splitLast path).1 ++ [String.ofList (splitLast path).2] := by
    obtain ⟨-, -, -, plain, -⟩ := splitLast_spec path
    rw [names_splitLast, names_of_not_mem plain some]
  simp only [parent?] at h
  split at h
  · next none =>
    have same : names path = names (splitLast path).1 := by
      rw [names_splitLast, List.isEmpty_iff.1 none, show names [] = [] from rfl, List.append_nil]
    split at h
    · cases h
    · next some =>
      simp only [Bool.or_eq_true, List.isEmpty_iff, not_or] at some
      cases h
      exact ⟨some.1, (head_splitLast _).trans (head_splitLast path),
        by rw [same, last_name _ some.2]⟩
  · split at h
    · cases h
    · next some =>
      simp only [Bool.or_eq_true, List.isEmpty_iff, not_or] at some
      cases h
      exact ⟨some.1, head_splitLast path, last_name _ some.2⟩

end Path

/-! ## Places -/

namespace Files

variable {α : Type} {f f' : Files α} {path : List Char} {place : List String}

theorem placeOf_eq_ok_iff : f.placeOf path = .ok place ↔
    '\x00' ∉ path ∧ path ≠ [] ∧ (String.ofList path).utf8ByteSize ≤ longestPath ∧
      (Path.names path).foldlM f.step (f.start path) = .ok place := by
  rw [placeOf, follow]
  split
  · next nul => simp_all
  · next whole =>
    split
    · next empty => simp_all [Except.mapError]
    · next some =>
      split
      · next long =>
        simp only [Except.mapError, reduceCtorEq, false_iff, not_and]
        intro _ _ short
        omega
      · next short =>
        cases (Path.names path).foldlM f.step (f.start path) with
        | error e => simp [Except.mapError]
        | ok p =>
          simp only [List.contains_eq_mem, decide_eq_true_eq] at whole
          simp only [Except.mapError, Except.ok.injEq, whole, not_false_eq_true, some, ne_eq,
            true_and, iff_and_self]
          omega

/-- A step further is one from a directory. -/
theorem at?_of_step {name : String} {next : List String} (h : f.step place name = .ok next) :
    f.at? place = some .directory := by
  rw [step] at h
  split at h
  · cases h
  · cases h
  · next directory => exact directory

/-- A way with one more name leads through a directory. -/
theorem placeOf_above {head : List Char} {name : String} (h : f.placeOf path = .ok place)
    (some : head ≠ []) (front : head <+: path)
    (names : Path.names path = Path.names head ++ [name]) :
    ∃ above, f.placeOf head = .ok above ∧ f.step above name = .ok place := by
  obtain ⟨whole, -, short, way⟩ := placeOf_eq_ok_iff.1 h
  obtain ⟨rest, rfl⟩ := front
  have begins : f.start (head ++ rest) = f.start head := by
    cases head with
    | nil => exact absurd rfl some
    | cons c head => rfl
  rw [names, begins, List.foldlM_append] at way
  obtain ⟨above, way, last⟩ := ok_of_bind way
  refine ⟨above, placeOf_eq_ok_iff.2 ⟨fun m => whole (List.mem_append_left _ m), some, ?_, way⟩, ?_⟩
  · rw [String.ofList_append, String.utf8ByteSize_append] at short
    omega
  · simpa using last

theorem find?_of_directory (h : f.placeOf path = .ok place)
    (directory : f.at? place = some .directory) : f.find? path = some .directory := by
  simp [find?, h, directory]

theorem isDirectory_iff : f.isDirectory path = true ↔
    ∃ place, f.placeOf path = .ok place ∧ f.at? place = some .directory := by
  constructor
  · intro h
    cases e : f.placeOf path with
    | error fault => simp [isDirectory, find?, e] at h
    | ok place =>
      refine ⟨place, rfl, ?_⟩
      simp only [isDirectory, find?, e] at h
      split at h
      · next found =>
        split at found
        · split at found <;> simp at found
        · exact found
      · cases h
  · rintro ⟨place, h, directory⟩
    simp [isDirectory, find?_of_directory h directory]

theorem read_of_file {content : α} (h : f.placeOf path = .ok place)
    (file : f.at? place = some (.file content)) (plain : Path.endsInSlash path = false) :
    f.read path = .ok content := by
  rw [read, h]
  simp only [bind, Except.bind, file, plain]
  rfl

/-! ## What work on files does -/

section Running

variable {β γ : Type} {p : Filing α β} {b : β} {e : Fault}

theorem run_bind_ok (h : p.run.run f = (.ok b, f')) (g : β → Filing α γ) :
    (p >>= g).run.run f = (g b).run.run f' := by
  have both : (p >>= g).run.run f =
      StateT.run (ExceptT.bindCont g (p.run.run f).1) (p.run.run f).2 := rfl
  rw [both, h]
  rfl

theorem run_bind_error (h : p.run.run f = (.error e, f')) (g : β → Filing α γ) :
    (p >>= g).run.run f = (.error e, f') := by
  have both : (p >>= g).run.run f =
      StateT.run (ExceptT.bindCont g (p.run.run f).1) (p.run.run f).2 := rfl
  rw [both, h]
  rfl

theorem run_bind_inv {g : β → Filing α γ} {c : γ} (h : (p >>= g).run.run f = (.ok c, f')) :
    ∃ b f₁, p.run.run f = (.ok b, f₁) ∧ (g b).run.run f₁ = (.ok c, f') := by
  cases e : p.run.run f with
  | mk r f₁ =>
    cases r with
    | ok b => exact ⟨b, f₁, rfl, (run_bind_ok e g).symm.trans h⟩
    | error fault => cases (run_bind_error e g).symm.trans h

theorem run_tryCatch_error (h : p.run.run f = (.error e, f')) (g : Fault → Filing α β) :
    (tryCatch p g).run.run f = (g e).run.run f' := by
  have both : (tryCatch p g).run.run f =
      StateT.run (ExceptT.tryCatch (ExceptT.mk (pure (p.run.run f).1)) g) (p.run.run f).2 := rfl
  rw [both, h]
  rfl

theorem run_get : (get : Filing α (Files α)).run.run f = (.ok f, f) := rfl

theorem run_mk {r : Except Fault β} : (ExceptT.mk (pure r) : Filing α β).run.run f = (r, f) := rfl

end Running

theorem run_makeDirectory_taken (way : f.placeOf path = .ok place)
    (taken : (f.at? place).isSome = true) :
    (makeDirectory path).run.run f = (.error (.file .taken (String.ofList path)), f) := by
  rw [makeDirectory, run_bind_ok run_get, way, run_bind_ok run_mk]
  simp only [taken, if_true]
  rfl

/-- A directory that is there need not be made, and nothing above it. -/
theorem makeDirectories_of_isDirectory (h : f.isDirectory path = true) :
    (makeDirectories path).run.run f = (.ok (), f) := by
  obtain ⟨place, way, directory⟩ := isDirectory_iff.1 h
  have made : (do
      try makeDirectory path
      catch fault => if !(← get).isDirectory path then throw fault : Filing α Unit).run.run f =
        (.ok (), f) := by
    have taken := run_makeDirectory_taken way (by rw [directory]; rfl)
    rw [run_tryCatch_error taken, run_bind_ok run_get, h]
    rfl
  rw [makeDirectories]
  split
  · next head last parent =>
    obtain ⟨some, front, names⟩ := Path.names_of_parent? parent
    obtain ⟨above, way', last⟩ := placeOf_above way some front names
    have found : f.find? head = Option.some .directory := find?_of_directory way' (at?_of_step last)
    rw [run_bind_ok run_get]
    simp only [found, Option.isNone_some, Bool.false_eq_true, if_false]
    exact made
  · exact made

/-! ## Writing a file -/

/-- The files with one at a place. -/
def wrote (f : Files α) (place : List String) (content : α) : Files α :=
  { f with nodes := f.nodes.put place (.file content) }

/-- A path leads to where a file is or can be made. -/
def Writable (f : Files α) (path : List Char) (place : List String) : Prop :=
  f.placeOf path = .ok place ∧ f.at? place ≠ some .directory

/-- A file can be written just where no directory stands. -/
theorem run_write_ok_iff {content : α} : (write path content).run.run f = (.ok (), f') ↔
    ∃ place, f.Writable path place ∧ f' = f.wrote place content := by
  constructor
  · intro h
    obtain ⟨_, _, got, h⟩ := run_bind_inv h
    cases got
    obtain ⟨place, _, way, h⟩ := run_bind_inv h
    obtain ⟨leads, rfl⟩ := Prod.mk.inj (run_mk.symm.trans way)
    split at h
    · cases h
    · next free =>
      cases h
      exact ⟨place, ⟨leads, free⟩, rfl⟩
  · rintro ⟨place, ⟨way, free⟩, rfl⟩
    rw [write, run_bind_ok run_get, way, run_bind_ok run_mk]
    split
    · next directory => exact absurd directory free
    · rfl

section Wrote

variable (free : f.at? place ≠ some .directory) (content : α)
include free

/-- Writing a file changes what stands at its place, and nothing else. -/
theorem at?_wrote (other : List String) :
    (f.wrote place content).at? other = if other = place then some (.file content)
      else f.at? other := by
  have off : place.isPrefixOf f.here = false := by
    cases here : place.isPrefixOf f.here with
    | false => rfl
    | true => exact absurd (if_pos here) free
  split
  · next e =>
    subst e
    exact (if_neg (by simp [wrote, off])).trans (Table.get?_put_self _ _ _)
  · next apart =>
    rw [at?, at?, wrote, Table.get?_put_of_ne apart]

/-- No way is lost when a file is written. -/
theorem placeOf_wrote {other : List String} (way : f.placeOf path = .ok other) :
    (f.wrote place content).placeOf path = .ok other := by
  have step_wrote (p : List String) (name : String) (q : List String) (h : f.step p name = .ok q) :
      (f.wrote place content).step p name = .ok q := by
    have directory : (f.wrote place content).at? p = some .directory := by
      rw [at?_wrote free, if_neg]
      · exact at?_of_step h
      · rintro rfl
        exact free (at?_of_step h)
    rw [step, at?_of_step h] at h
    rw [step, directory]
    exact h
  obtain ⟨whole, some, short, way⟩ := placeOf_eq_ok_iff.1 way
  refine placeOf_eq_ok_iff.2 ⟨whole, some, short, ?_⟩
  have begins : (f.wrote place content).start path = f.start path := rfl
  rw [begins]
  generalize f.start path = p at way ⊢
  generalize Path.names path = names at way ⊢
  -- on the names, as each is a step from a directory
  induction names generalizing p with
  | nil => exact way
  | cons name names ih =>
    rw [List.foldlM_cons] at way ⊢
    obtain ⟨q, first, way⟩ := ok_of_bind way
    rw [step_wrote p name q first]
    exact ih q way

theorem Writable.wrote {other : List String} (h : f.Writable path other) :
    (f.wrote place content).Writable path other := by
  refine ⟨placeOf_wrote free content h.1, ?_⟩
  rw [at?_wrote free]
  split
  · simp
  · exact h.2

end Wrote

end Files

end PianoRoll
