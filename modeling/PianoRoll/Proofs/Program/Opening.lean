import PianoRoll.Program
import PianoRoll.Proofs.Files.Reports
import PianoRoll.Proofs.Text.Utf8

/-!
The script that the window opens with. A file that holds a text is shown; one that the system
refuses to open is replaced by the starter script, with a message that names its path. Nothing else
is provided for: bytes that are no text, a path that is none, and a report that cannot be written
end the program before there is a window (`script_loads_iff`).
-/

namespace PianoRoll.Program

open Studio Work

/-- A path leads to a text: to the bytes of a string, whose lines may end in any way. -/
def Disk.Holds (disk : Disk) (path text : String) : Prop :=
  ∃ content : String, disk.read path = .ok (Text.encode content) ∧
    text = String.ofList (Text.unifyFeeds content.toList)

def Disk.Refuses (disk : Disk) (path : String) : Prop :=
  ∃ cause named, disk.read path = .error (.file cause named)

/-- Reports can be written: their directory is there or can be made, and no directory stands where
the report of this second goes. -/
def Disk.Reports (disk : Disk) : Prop :=
  ∃ files place, (Files.makeDirectories disk.reports.directory).run.run disk.reports.files =
      (.ok (), files) ∧
    files.Writable (CrashReports.pathOf disk.reports.directory "error" disk.stamp) place

/-- What is provided for: a text, and a refusal that can be reported. -/
def Disk.Serves (disk : Disk) (path : String) : Prop :=
  (∃ text, disk.Holds path text) ∨ disk.Refuses path ∧ disk.Reports

/-- What is to be shown at first: the starter script if no other is asked for, a text that a path
leads to, and else the starter script with a message that names the path. -/
inductive Shows (disk : Disk) (s : Studio) : Option String → String → Studio → Prop
  | unasked {path : Option String} (none : ∀ p, path = some p → p = "") :
    Shows disk s path starterScript s
  | held {path text : String} (asked : path ≠ "") (holds : disk.Holds path text) :
    Shows disk s (some path) text s
  | unheld {path : String} (asked : path ≠ "") (lacks : ∀ text, ¬disk.Holds path text) :
    Shows disk s (some path) starterScript
      { s with desk := s.desk.toast s!"Cannot read {path} (see logs)" 6 }

/-- The faults that nothing catches: bytes that are no text, a path that is none, and what keeps a
refusal from being reported. -/
inductive Escapes (disk : Disk) (path : String) : Fault → Prop
  | bytes {bs : List UInt8} {cause : ByteFault} (read : disk.read path = .ok bs)
    (undecodable : Text.decodeBytes bs = .error cause) : Escapes disk path (.bytes cause)
  | path {f : Fault} (read : disk.read path = .error f) (other : ¬disk.Refuses path) :
    Escapes disk path f
  | report {cause : FileFault} {named : String} {f : Fault}
    (refuses : disk.read path = .error (.file cause named))
    (unreported : disk.report (.ofPath cause named) = .error f) : Escapes disk path f

/-- A failure is reported just if reports can be written. -/
theorem Disk.report_ok_iff {disk : Disk} (f : Failure) :
    (∃ path, disk.report f = .ok path) ↔ disk.Reports := by
  unfold report CrashReports.report
  constructor
  · rintro ⟨path, reported⟩
    obtain ⟨rfl, files, place, made, writable, -⟩ :=
      CrashReports.write_ok_iff.1 (Prod.ext reported rfl)
    exact ⟨files, place, made, writable⟩
  · rintro ⟨files, place, made, writable⟩
    exact ⟨_, congrArg Prod.fst <|
      CrashReports.write_ok_iff.2 ⟨rfl, files, place, made, writable, rfl⟩⟩

theorem Disk.holds_iff {disk : Disk} {path text : String} : disk.Holds path text ↔
    ∃ bs cs, disk.read path = .ok bs ∧ Text.decodeBytes bs = .ok cs ∧
      text = String.ofList (Text.unifyFeeds cs) := by
  constructor
  · rintro ⟨content, read, rfl⟩
    exact ⟨_, content.toList, read, by rw [Text.decodeBytes_eq_ok_iff, String.ofList_toList], rfl⟩
  · rintro ⟨bs, cs, read, decoded, rfl⟩
    rw [Text.decodeBytes_eq_ok_iff] at decoded
    exact ⟨String.ofList cs, decoded ▸ read, by rw [String.toList_ofList]⟩

section Loading

variable {disk : Disk} {path : String} (asked : path ≠ "") (s : Studio)
include asked

/-- The script at a path is what reading it and decoding what was read come to. -/
theorem initialScript_some : initialScript disk (some path) =
    match disk.read path with
    | .error (.file cause named) => scriptUnreadable disk path (.ofPath cause named)
    | .error f => throw f
    | .ok bytes =>
      match Text.decodeBytes bytes with
      | .ok text => return String.ofList (Text.unifyFeeds text)
      | .error cause => throw (.bytes cause) := by
  have some : ¬path.isEmpty = true := by simpa using asked
  exact if_neg some

theorem runAct_held {text : String} (holds : disk.Holds path text) :
    runAct (initialScript disk (some path)) s = some (.ok text, s, []) := by
  obtain ⟨bs, cs, read, decoded, rfl⟩ := Disk.holds_iff.1 holds
  rw [initialScript_some asked, read]
  simp only [decoded]
  rfl

theorem runAct_refused (refuses : disk.Refuses path) (reports : disk.Reports) :
    runAct (initialScript disk (some path)) s = some (.ok starterScript,
      { s with desk := s.desk.toast s!"Cannot read {path} (see logs)" 6 }, []) := by
  obtain ⟨cause, named, read⟩ := refuses
  obtain ⟨written, reported⟩ := (Disk.report_ok_iff (.ofPath cause named)).2 reports
  rw [initialScript_some asked, read]
  simp only [scriptUnreadable, reported]
  rfl

theorem runAct_escapes {f : Fault} (escapes : Escapes disk path f) :
    runAct (initialScript disk (some path)) s = some (.error f, s, []) := by
  rw [initialScript_some asked]
  cases escapes with
  | bytes read undecodable =>
    simp only [read, undecodable]
    rfl
  | path read other =>
    rw [read]
    split
    · next cause named e => exact absurd ⟨cause, named, read.trans e⟩ other
    · next e =>
      cases e
      rfl
    · next e => cases e
  | report refuses unreported =>
    simp only [refuses, scriptUnreadable, unreported]
    rfl

end Loading

/-- Whatever a path leads to is provided for or escapes. -/
theorem Disk.serves_or_escapes (disk : Disk) (path : String) :
    disk.Serves path ∨ ∃ f, Escapes disk path f := by
  cases read : disk.read path with
  | ok bs =>
    cases decoded : Text.decodeBytes bs with
    | ok cs => exact .inl (.inl ⟨_, Disk.holds_iff.2 ⟨bs, cs, read, decoded, rfl⟩⟩)
    | error cause => exact .inr ⟨_, .bytes read decoded⟩
  | error f =>
    by_cases refuses : disk.Refuses path
    · by_cases reports : disk.Reports
      · exact .inl (.inr ⟨refuses, reports⟩)
      · obtain ⟨cause, named, refused⟩ := refuses
        cases reported : disk.report (.ofPath cause named) with
        | ok written => exact absurd ((Disk.report_ok_iff _).1 ⟨_, reported⟩) reports
        | error f => exact .inr ⟨f, .report refused reported⟩
    · exact .inr ⟨f, .path read refuses⟩

/-- What is refused holds no text. -/
theorem Disk.Refuses.lacks {disk : Disk} {path : String} (refuses : disk.Refuses path)
    (text : String) : ¬disk.Holds path text := by
  rintro ⟨content, read, -⟩
  obtain ⟨cause, named, refused⟩ := refuses
  cases read.symm.trans refused

/-- What is to be shown at first is loaded just if every script that is asked for is provided for.
Else one of the faults that nothing catches is raised, and nothing else happens. -/
theorem script_loads_iff (disk : Disk) (path : Option String) (s : Studio) :
    ((∃ text s', runAct (initialScript disk path) s = some (.ok text, s', []) ∧
        Shows disk s path text s') ↔ ∀ p, path = some p → p ≠ "" → disk.Serves p) ∧
    ∀ p, path = some p → p ≠ "" → ¬disk.Serves p →
      ∃ f, Escapes disk p f ∧ runAct (initialScript disk path) s = some (.error f, s, []) := by
  have raised (p : String) (h : path = some p) (asked : p ≠ "") (not : ¬disk.Serves p) :
      ∃ f, Escapes disk p f ∧ runAct (initialScript disk path) s = some (.error f, s, []) := by
    subst h
    obtain ⟨f, escapes⟩ := (disk.serves_or_escapes p).resolve_left not
    exact ⟨f, escapes, runAct_escapes asked s escapes⟩
  refine ⟨⟨?_, fun served => ?_⟩, raised⟩
  · rintro ⟨text, s', done, -⟩ p h asked
    by_contra not
    obtain ⟨f, -, failed⟩ := raised p h asked not
    cases done.symm.trans failed
  · cases path with
    | none => exact ⟨_, s, rfl, .unasked nofun⟩
    | some p =>
      by_cases asked : p = ""
      · subst asked
        exact ⟨_, s, rfl, .unasked fun p h => (Option.some.inj h).symm⟩
      · obtain ⟨text, holds⟩ | ⟨refuses, reports⟩ := served p rfl asked
        · exact ⟨text, s, runAct_held asked s holds, .held asked holds⟩
        · exact ⟨_, _, runAct_refused asked s refuses reports, .unheld asked refuses.lacks⟩

/-- A script that is no text, where reports can be written. -/
def garbled : Disk :=
  let files : Files (List UInt8) := { nodes := [(["logs"], .directory)] }
  .ofReports { files := files.place "script.txt".toList [0xFF] } ⟨20240101, 1⟩

/-- A script that is no text is not replaced by the starter script. -/
theorem garbled_script : garbled.Reports ∧
    runAct (initialScript garbled (some "script.txt")) {} =
      some (.error (.bytes (.start 0xFF 0)), {}, []) := by
  have read : garbled.read "script.txt" = .ok [0xFF] := rfl
  have reports : garbled.Reports := by
    refine ⟨garbled.reports.files, ["logs", "error-20240101-000001.txt"], ?_, rfl, nofun⟩
    exact Files.makeDirectories_of_isDirectory (by decide +kernel)
  exact ⟨reports, runAct_escapes (by decide) {} (.bytes read rfl)⟩

end PianoRoll.Program
