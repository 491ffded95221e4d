import Mathlib.Data.List.Basic
import PianoRoll.CrashReports
import PianoRoll.Proofs.Files.Ways

/-!
What becomes of reports. A report is a file of its own in the directory for reports, named for its
kind and its second (`Request.name_eq_iff`), and writing one leaves the others alone, unless they
have its name. So of the reports of one kind that fall into one second the last one stays
(`reports_kept_iff`).
-/

namespace PianoRoll

/-! ## Names of reports -/

namespace Number

theorem ofDigitChars_digits (width n : Nat) : Nat.ofDigitChars 10 (digits width n) 0 = n := by
  rw [digits, Nat.ofDigitChars_append, Nat.ofDigitChars_replicate_zero, Nat.mul_zero,
    Nat.ofDigitChars_ten_toDigits]

theorem digits_injective (width : Nat) : Function.Injective (digits width) := fun n m h => by
  rw [← ofDigitChars_digits width n, h, ofDigitChars_digits]

theorem isDigit_of_mem_digits {width n : Nat} {c : Char} (h : c ∈ digits width n) :
    c.isDigit = true := by
  obtain zeros | digit := List.mem_append.1 h
  · rw [List.eq_of_mem_replicate zeros]
    rfl
  · exact Nat.isDigit_of_mem_toDigits (by omega) (by omega) digit

theorem not_mem_digits {width n : Nat} {c : Char} (other : c.isDigit = false) :
    c ∉ digits width n := fun h => by
  rw [isDigit_of_mem_digits h] at other
  cases other

end Number

namespace Stamp

theorem toList_text (s : Stamp) :
    s.text.toList = Number.digits 8 s.date ++ '-' :: Number.digits 6 s.time := by
  rw [text, String.toList_ofList]

theorem text_injective : Function.Injective text := fun s t h => by
  have same := congrArg String.toList h
  rw [toList_text, toList_text, List.append_cons_inj_of_notMem (Number.not_mem_digits rfl)
    (Number.not_mem_digits rfl)] at same
  obtain ⟨date, -, time⟩ := same
  cases s
  cases t
  cases Number.digits_injective 8 date
  cases Number.digits_injective 6 time
  rfl

theorem slash_not_mem_text (s : Stamp) : '/' ∉ s.text.toList := by
  simp [toList_text, Number.not_mem_digits]

end Stamp

namespace CrashReports

/-- A report that is asked for: of a failure under a title, or of one that nothing caught. -/
structure Request where
  title : Option String
  failure : Failure
  stamp : Stamp

namespace Request

def kind (q : Request) : String :=
  match q.title with
  | some _ => "error"
  | none => "crash"

def content (q : Request) : String :=
  match q.title with
  | some title => CrashReports.content s!"[{title}] {q.failure.name}: {q.failure.text}" q.failure
  | none => CrashReports.content "UNCAUGHT EXCEPTION" q.failure

def bytes (q : Request) : List UInt8 := Text.encode q.content

def path (directory : List Char) (q : Request) : List Char := pathOf directory q.kind q.stamp

def name (q : Request) : String := s!"{q.kind}-{q.stamp.text}.txt"

/-- Two reports of one kind within one second. -/
def Clashes (q q' : Request) : Prop := q.kind = q'.kind ∧ q.stamp = q'.stamp

instance (q q' : Request) : Decidable (q.Clashes q') := inferInstanceAs (Decidable (_ ∧ _))

/-- Asks for the report. Who asks for one of an uncaught failure is not told where it is. -/
def send (q : Request) (r : CrashReports) : Except Fault (List Char) × CrashReports :=
  match q.title with
  | some title => r.report title q.failure q.stamp
  | none =>
    let (result, r') := r.reportUncaught q.failure q.stamp
    (result.map fun _ => q.path r.directory, r')

theorem kind_cases (q : Request) : q.kind = "error" ∨ q.kind = "crash" := by
  unfold kind
  split
  · exact .inl rfl
  · exact .inr rfl

theorem toList_name (q : Request) :
    q.name.toList = q.kind.toList ++ '-' :: (q.stamp.text.toList ++ ".txt".toList) := by
  have joined : q.name = q.kind ++ "-" ++ q.stamp.text ++ ".txt" := rfl
  simp [joined, String.toList_append]

/-- A name tells the kind and the second. -/
theorem name_eq_iff {q q' : Request} : q.name = q'.name ↔ q.Clashes q' := by
  constructor
  · intro h
    have same := congrArg String.toList h
    rw [toList_name, toList_name] at same
    have kind : q.kind = q'.kind := by
      obtain e | e := q.kind_cases <;> obtain e' | e' := q'.kind_cases
      · rw [e, e']
      · simp [e, e'] at same
      · simp [e, e'] at same
      · rw [e, e']
    rw [kind] at same
    have text := List.append_cancel_right (List.cons.inj (List.append_cancel_left same)).2
    exact ⟨kind, Stamp.text_injective (String.toList_inj.1 text)⟩
  · rintro ⟨kind, stamp⟩
    rw [name, name, kind, stamp]

theorem slash_not_mem_name (q : Request) : '/' ∉ q.name.toList := by
  rw [toList_name]
  obtain e | e := q.kind_cases <;> simp [e, q.stamp.slash_not_mem_text]

theorem two_lt_length_name (q : Request) : 2 < q.name.toList.length := by
  rw [toList_name]
  obtain e | e := q.kind_cases <;> simp [e]

theorem name_ne_nil (q : Request) : q.name.toList ≠ [] :=
  List.ne_nil_of_length_pos (by have := q.two_lt_length_name; omega)

theorem name_ne_dots (q : Request) : q.name ≠ "." ∧ q.name ≠ ".." := by
  have long := q.two_lt_length_name
  constructor
  · intro e
    rw [e] at long
    exact absurd long (by decide)
  · intro e
    rw [e] at long
    exact absurd long (by decide)

theorem endsInSlash_path (directory : List Char) (q : Request) :
    Path.endsInSlash (q.path directory) = false := by
  obtain ⟨front, e⟩ : ∃ front, q.path directory = front ++ q.name.toList := by
    rw [path, pathOf, Path.join]
    split
    · exact ⟨directory, rfl⟩
    · exact ⟨directory ++ ['/'], by simp [name]⟩
  have ends : q.path directory =
      (front ++ q.kind.toList ++ '-' :: q.stamp.text.toList ++ ".tx".toList) ++ ['t'] := by
    simp [e, toList_name]
  rw [Path.endsInSlash, ends, List.getLast?_concat]
  rfl

theorem names_path (directory : List Char) (q : Request) :
    Path.names (q.path directory) = Path.names directory ++ [q.name] := by
  have named : String.ofList q.name.toList = q.name := String.ofList_toList
  rw [path, pathOf, ← named]
  exact Path.names_join q.slash_not_mem_name q.name_ne_nil directory

end Request

/-! ## Writing reports -/

/-- Work on the files succeeds with what it leaves of them. -/
theorem filing_ok_iff {β : Type} {p : Filing (List UInt8) β} {r r' : CrashReports} {b : β} :
    r.filing p = (.ok b, r') ↔
      ∃ files, p.run.run r.files = (.ok b, files) ∧ r' = { r with files } := by
  constructor
  · intro h
    obtain ⟨done, rfl⟩ := Prod.mk.inj h
    exact ⟨_, Prod.ext done rfl, rfl⟩
  · rintro ⟨files, done, rfl⟩
    rw [filing, done]

/-- A report is written just if its directory can be made and nothing stands in its place. -/
theorem write_ok_iff {r r' : CrashReports} {kind content : String} {stamp : Stamp}
    {path : List Char} : r.write kind content stamp = (.ok path, r') ↔
      path = pathOf r.directory kind stamp ∧ ∃ files place,
        (Files.makeDirectories r.directory).run.run r.files = (.ok (), files) ∧
        files.Writable path place ∧
          r' = { r with files := files.wrote place (Text.encode content) } := by
  rw [write, filing_ok_iff]
  constructor
  · rintro ⟨files', done, rfl⟩
    obtain ⟨_, files, made, rest⟩ := Files.run_bind_inv done
    obtain ⟨_, files₁, wrote, done⟩ := Files.run_bind_inv (p := Files.write _ _) rest
    obtain ⟨place, writable, rfl⟩ := Files.run_write_ok_iff.1 wrote
    cases done
    exact ⟨rfl, files, place, made, writable, rfl⟩
  · rintro ⟨rfl, files, place, made, writable, rfl⟩
    refine ⟨_, ?_, rfl⟩
    rw [Files.run_bind_ok made, Files.run_bind_ok (Files.run_write_ok_iff.2 ⟨place, writable, rfl⟩)]
    rfl

/-- Asking for a report is writing its file. -/
theorem Request.send_ok_iff {q : Request} {r r' : CrashReports} {path : List Char}
    (installed : q.title = none → r.installed = true) : q.send r = (.ok path, r') ↔
      r.write q.kind q.content q.stamp = (.ok path, r') := by
  obtain ⟨title, failure, stamp⟩ := q
  cases title with
  | some title => exact Iff.rfl
  | none =>
    let text := CrashReports.content "UNCAUGHT EXCEPTION" failure
    have sent : Request.send ⟨none, failure, stamp⟩ r =
        (((r.write "crash" text stamp).1.map fun _ => ()).map fun _ =>
          pathOf r.directory "crash" stamp, (r.write "crash" text stamp).2) := by
      simp only [send, reportUncaught, installed, if_true]
      rfl
    show _ ↔ r.write "crash" text stamp = _
    rw [sent]
    cases e : r.write "crash" text stamp with
    | mk result r₁ =>
      cases result with
      | error f => simp [Except.map]
      | ok path₁ =>
        obtain ⟨rfl, -⟩ := write_ok_iff.1 e
        simp [Except.map]

/-- Asks for reports one after the other, up to the first that cannot be written. -/
def sendAll : List Request → CrashReports → Except Fault (List (List Char)) × CrashReports
  | [], r => (.ok [], r)
  | q :: qs, r =>
    match q.send r with
    | (.error f, r) => (.error f, r)
    | (.ok path, r) =>
      let (result, r) := sendAll qs r
      (result.map (path :: ·), r)

/-- What reports need: their directory stands at a place, a file can be made there for each of them,
and failures that nothing catches are to be reported if one of them is of such a failure. -/
structure Ready (r : CrashReports) (qs : List Request) (above : List String) : Prop where
  way : r.files.placeOf r.directory = .ok above
  directory : r.files.at? above = some .directory
  writable : ∀ q ∈ qs, r.files.Writable (q.path r.directory) (above ++ [q.name])
  installed : ∀ q ∈ qs, q.title = none → r.installed = true

namespace Ready

variable {r : CrashReports} {q : Request} {qs : List Request} {above : List String}

theorem of_subset {qs' : List Request} (h : Ready r qs above) (sub : qs' ⊆ qs) :
    Ready r qs' above :=
  ⟨h.way, h.directory, fun q' m => h.writable q' (sub m), fun q' m => h.installed q' (sub m)⟩

/-- A report is written into its file, and nothing else happens. -/
theorem send (h : Ready r qs above) (m : q ∈ qs) : q.send r =
    (.ok (q.path r.directory), { r with files := r.files.wrote (above ++ [q.name]) q.bytes }) :=
  (Request.send_ok_iff (h.installed q m)).2 <| write_ok_iff.2 ⟨rfl, r.files, _,
    Files.makeDirectories_of_isDirectory (Files.isDirectory_iff.2 ⟨above, h.way, h.directory⟩),
    h.writable q m, rfl⟩

/-- A report leaves what the others need. -/
theorem wrote (h : Ready r qs above) (m : q ∈ qs) :
    Ready { r with files := r.files.wrote (above ++ [q.name]) q.bytes } qs above := by
  have free := (h.writable q m).2
  refine ⟨Files.placeOf_wrote free _ h.way, ?_, fun q' m' => (h.writable q' m').wrote free _,
    h.installed⟩
  rw [Files.at?_wrote free, if_neg fun e => by simpa using congrArg List.length e]
  exact h.directory

end Ready

/-- What reports leave in the files: every way, what stood in the directory under other names, and
under each name the last report of this name. -/
structure Sent (qs : List Request) (above : List String) (before after : Files (List UInt8)) :
    Prop where
  ways {path : List Char} {place : List String} (h : before.placeOf path = .ok place) :
    after.placeOf path = .ok place
  others {name : String} (h : ∀ q ∈ qs, q.name ≠ name) :
    after.at? (above ++ [name]) = before.at? (above ++ [name])
  last {earlier later : List Request} {q : Request} (split : qs = earlier ++ q :: later)
    (h : ∀ q' ∈ later, ¬q.Clashes q') : after.at? (above ++ [q.name]) = some (.file q.bytes)

/-- All reports are written, one after the other. -/
theorem Ready.sendAll {r : CrashReports} {qs : List Request} {above : List String}
    (h : Ready r qs above) : ∃ files,
      sendAll qs r = (.ok (qs.map (Request.path r.directory)), { r with files }) ∧
      Sent qs above r.files files := by
  induction qs generalizing r with
  | nil => exact ⟨r.files, rfl, fun h => h, fun _ => rfl, fun split => by simp at split⟩
  | cons q qs ih =>
    have sent := h.send List.mem_cons_self
    have free := (h.writable q List.mem_cons_self).2
    have next := (h.wrote List.mem_cons_self).of_subset (List.subset_cons_self q qs)
    obtain ⟨files, rest, left⟩ := ih next
    refine ⟨files, ?_, fun way => left.ways (Files.placeOf_wrote free _ way), fun others => ?_, ?_⟩
    · rw [CrashReports.sendAll, sent]
      simp only [rest]
      rfl
    · rw [left.others fun q' m => others q' (List.mem_cons_of_mem _ m), Files.at?_wrote free,
        if_neg fun e => others q List.mem_cons_self (by simpa using e.symm)]
    · intro earlier later q' split alone
      cases earlier with
      | nil =>
        obtain ⟨rfl, rfl⟩ := List.cons.inj split
        rw [left.others fun q' m e => alone q' m (Request.name_eq_iff.1 e.symm),
          Files.at?_wrote free, if_pos rfl]
      | cons q₀ earlier => exact left.last (List.cons.inj split).2 alone

/-- A directory that can be used for reports: each of them could be written if it were the first,
and failures that nothing catches are to be reported if one of them is of such a failure. -/
structure Usable (r : CrashReports) (qs : List Request) : Prop where
  writes : ∀ q ∈ qs, ∃ path r', q.send r = (.ok path, r')
  installed : ∀ q ∈ qs, q.title = none → r.installed = true

theorem directory_ne_nil (r : CrashReports) : r.directory ≠ [] := by
  unfold directory directoryFor
  split
  · split
    · simp
    · next some => simpa using some
  · simp

theorem Ready.usable {r : CrashReports} {qs : List Request} {above : List String}
    (h : Ready r qs above) : r.Usable qs :=
  ⟨fun _ m => ⟨_, _, h.send m⟩, h.installed⟩

/-- The first report finds the directory or makes it, and the others then find it. -/
theorem Usable.ready {r : CrashReports} {q : Request} {qs : List Request}
    (h : r.Usable (q :: qs)) : ∃ files above, Ready { r with files } (q :: qs) above ∧
      q.send r = q.send { r with files } := by
  have written : ∀ q' ∈ q :: qs, ∃ files place,
      (Files.makeDirectories r.directory).run.run r.files = (.ok (), files) ∧
      files.Writable (q'.path r.directory) place := by
    intro q' m
    obtain ⟨path, r', sent⟩ := h.writes q' m
    obtain ⟨rfl, files, place, made, writable, -⟩ :=
      write_ok_iff.1 ((Request.send_ok_iff (h.installed q' m)).1 sent)
    exact ⟨files, place, made, writable⟩
  have inside {files : Files (List UInt8)} {q' : Request} {place : List String}
      (writable : files.Writable (q'.path r.directory) place) :
      ∃ above, files.placeOf r.directory = .ok above ∧ files.at? above = some .directory ∧
        place = above ++ [q'.name] := by
    obtain ⟨above, way, last⟩ := Files.placeOf_above writable.1 r.directory_ne_nil
      (Path.head_join _ _) (q'.names_path _)
    have directory := Files.at?_of_step last
    refine ⟨above, way, directory, ?_⟩
    rw [Files.step, directory] at last
    simp only [q'.name_ne_dots, if_false] at last
    split at last
    · cases last
    · exact (Except.ok.inj last).symm
  obtain ⟨files, place, made, writable⟩ := written q List.mem_cons_self
  obtain ⟨above, way, directory, -⟩ := inside writable
  have ready : Ready { r with files } (q :: qs) above := by
    refine ⟨way, directory, fun q' m => ?_, h.installed⟩
    obtain ⟨files', place', made', writable'⟩ := written q' m
    cases made.symm.trans made'
    obtain ⟨above', way', -, rfl⟩ := inside writable'
    cases way.symm.trans way'
    exact writable'
  refine ⟨files, above, ready, ?_⟩
  rw [ready.send List.mem_cons_self]
  exact (Request.send_ok_iff (h.installed q List.mem_cons_self)).2
    (write_ok_iff.2 ⟨rfl, files, _, made, ready.writable q List.mem_cons_self, rfl⟩)

/-- A report is kept: it is to be read in full where it was written, and no other one is in its
file. -/
structure Kept (directory : List Char) (files : Files (List UInt8)) (q : Request)
    (others : List Request) : Prop where
  full : files.read (q.path directory) = .ok q.bytes
  own : ∀ q' ∈ others, files.placeOf (q'.path directory) ≠ files.placeOf (q.path directory)

/-- Every report is written where its call says. Afterwards the last report of a kind and second is
to be read in full there, and a report has a file of its own just if it is the only one of its kind
in its second. -/
theorem reports_kept_iff {r : CrashReports} {qs : List Request} (usable : r.Usable qs) :
    ∃ files, sendAll qs r = (.ok (qs.map (Request.path r.directory)), { r with files }) ∧
      ∀ earlier q later, qs = earlier ++ q :: later →
        ((∀ q' ∈ later, ¬q.Clashes q') → files.read (q.path r.directory) = .ok q.bytes) ∧
        (Kept r.directory files q (earlier ++ later) ↔ ∀ q' ∈ earlier ++ later, ¬q.Clashes q') := by
  cases qs with
  | nil => exact ⟨r.files, rfl, fun _ _ _ split => by simp at split⟩
  | cons first qs =>
    obtain ⟨files₀, above, ready, same⟩ := usable.ready
    obtain ⟨files, done, left⟩ := ready.sendAll
    refine ⟨files, by rw [sendAll, same]; exact done, fun earlier q later split => ?_⟩
    have place : ∀ q' ∈ first :: qs, files.placeOf (q'.path r.directory) =
        .ok (above ++ [q'.name]) := fun q' m => left.ways (ready.writable q' m).1
    have here : q ∈ first :: qs := by simp [split]
    have full (alone : ∀ q' ∈ later, ¬q.Clashes q') :
        files.read (q.path r.directory) = .ok q.bytes :=
      Files.read_of_file (place q here) (left.last split alone) (q.endsInSlash_path _)
    refine ⟨full, fun kept q' m clash => kept.own q' m ?_, fun alone => ⟨?_, fun q' m e => ?_⟩⟩
    · rw [Request.path, Request.path, clash.1, clash.2]
    · exact full fun q' m => alone q' (List.mem_append_right _ m)
    · have there : q' ∈ first :: qs := by
        rw [split]
        simp only [List.mem_append, List.mem_cons] at m ⊢
        exact m.imp id .inr
      rw [place q' there, place q here] at e
      have name : q.name = q'.name := by simpa using e.symm
      exact alone q' m (Request.name_eq_iff.1 name)

/-! ## Some reports -/

def prepared : CrashReports := { installed := true, files := { nodes := [(["logs"], .directory)] } }

def unread : Request := ⟨some "load", ⟨"ValueError", "ValueError", "no number"⟩, ⟨20240101, 120000⟩⟩

/-- Another one that was caught within the same second. -/
def unknown : Request := ⟨some "song", ⟨"KeyError", "KeyError", "'Nope'"⟩, ⟨20240101, 120000⟩⟩

/-- A failure within that second that nothing caught. -/
def uncaught : Request := { unread with title := none }

/-- A failure that was caught a second later. -/
def afterwards : Request := { unknown with stamp := ⟨20240101, 120001⟩ }

theorem ready_prepared : Ready prepared [unread, unknown, uncaught, afterwards] ["logs"] := by
  refine ⟨rfl, rfl, fun q m => ?_, fun _ _ _ => rfl⟩
  simp only [List.mem_cons, List.not_mem_nil, or_false] at m
  obtain rfl | rfl | rfl | rfl := m <;> exact ⟨rfl, nofun⟩

/-- Reports that are apart in kind or second are kept. -/
theorem reports_kept_iff_apart : prepared.Usable [unread, uncaught, afterwards] ∧ ∃ files,
    sendAll [unread, uncaught, afterwards] prepared =
      (.ok ["logs/error-20240101-120000.txt".toList, "logs/crash-20240101-120000.txt".toList,
        "logs/error-20240101-120001.txt".toList], { prepared with files }) ∧
    Kept prepared.directory files unread [uncaught, afterwards] ∧
    Kept prepared.directory files uncaught [unread, afterwards] ∧
    Kept prepared.directory files afterwards [unread, uncaught] := by
  have ready : Ready prepared [unread, uncaught, afterwards] ["logs"] :=
    ready_prepared.of_subset (by simp)
  have usable := ready.usable
  obtain ⟨files, done, kept⟩ := reports_kept_iff usable
  refine ⟨usable, files, done, ?_, ?_, ?_⟩
  · exact (kept [] unread [uncaught, afterwards] rfl).2.2 (by decide +kernel)
  · exact (kept [unread] uncaught [afterwards] rfl).2.2 (by decide +kernel)
  · exact (kept [unread, uncaught] afterwards [] rfl).2.2 (by decide +kernel)

/-- A report is lost if another one is written within its second. -/
theorem report_lost : ∃ files, prepared.Usable [unread, unknown] ∧
    sendAll [unread, unknown] prepared =
      (.ok ["logs/error-20240101-120000.txt".toList, "logs/error-20240101-120000.txt".toList],
        { prepared with files }) ∧
    files.read "logs/error-20240101-120000.txt".toList = .ok unknown.bytes ∧
    unknown.content ≠ unread.content ∧ ¬Kept prepared.directory files unread [unknown] := by
  have ready : Ready prepared [unread, unknown] ["logs"] := ready_prepared.of_subset (by simp)
  obtain ⟨files, done, left⟩ := ready.sendAll
  refine ⟨files, ready.usable, done, ?_, by decide +kernel, fun kept => ?_⟩
  · have split : [unread, unknown] = [unread] ++ unknown :: [] := rfl
    exact Files.read_of_file (left.ways rfl) (left.last split (by simp)) rfl
  · exact kept.own unknown (by simp) rfl

end CrashReports

end PianoRoll
