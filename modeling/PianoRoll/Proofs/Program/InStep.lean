import PianoRoll.Proofs.Editor.Typing
import PianoRoll.Proofs.Program.Acts

/-!
What is typed is what is played. Editor and session are in step (`InStep`) once the program has
begun, and whatever the program does keeps them so: either it is apart from both, or it publishes
the text it has edited, which the desk takes over.
-/

namespace PianoRoll

namespace Editor

theorem deleteBefore?_error {e e' : Editor} (h : e.deleteBefore? = some e') :
    e'.error = e.error := by
  unfold deleteBefore? at h
  dsimp only at h
  split at h
  · cases h; rfl
  · split at h <;> cases h
    rfl

theorem deleteAfter?_error {e e' : Editor} (h : e.deleteAfter? = some e') :
    e'.error = e.error := by
  unfold deleteAfter? at h
  dsimp only at h
  split at h
  · cases h; rfl
  · split at h <;> cases h
    rfl

/-- A key that does not edit leaves the text, and no key touches the error. -/
theorem press_keeps (k : Key) (e : Editor) : (e.press k).1.error = e.error ∧
    ((e.press k).2 = false → (e.press k).1.rows = e.rows) := by
  cases k with
  | backspace =>
    cases h : e.deleteBefore? with
    | none => simp [press, h]
    | some e' => simp [press, h, deleteBefore?_error h]
  | delete =>
    cases h : e.deleteAfter? with
    | none => simp [press, h]
    | some e' => simp [press, h, deleteAfter?_error h]
  | up =>
    dsimp only [press]
    split <;> exact ⟨rfl, fun _ => rfl⟩
  | down =>
    dsimp only [press]
    split <;> exact ⟨rfl, fun _ => rfl⟩
  | returnKey => exact ⟨rfl, nofun⟩
  | keypadEnter => exact ⟨rfl, nofun⟩
  | _ => exact ⟨rfl, fun _ => rfl⟩

/-- An input that does not edit leaves the text, and no input touches the error. -/
theorem handle_keeps (i : Input) (e : Editor) : (e.handle i).editor.error = e.error ∧
    ((e.handle i).edited = false → (e.handle i).editor.rows = e.rows) := by
  unfold handle
  split
  · dsimp only
    split <;> exact ⟨rfl, fun _ => rfl⟩
  · split
    · exact ⟨rfl, nofun⟩
    · exact ⟨rfl, fun _ => rfl⟩
  · split
    · exact e.press_keeps _
    · exact ⟨rfl, fun _ => rfl⟩
  · exact ⟨rfl, fun _ => rfl⟩
  · exact ⟨rfl, fun _ => rfl⟩

end Editor

/-- The whole extent of some notes is that of all beats. -/
theorem Extent.total_of? {notes : List Note} {r : Extent} (h : Extent.of? notes = some r) :
    r.total = totalBeats notes := by
  cases notes with
  | nil => cases h
  | cons n rest =>
    cases h
    rfl

namespace Program

open Work Studio

def Listens (s : Studio) : Prop := .desk .recompile ∈ s.bus.listeners "text_changed"

/-- Melody, error, extent and view are those of the text in the editor. -/
structure InStep (s : Studio) : Prop where
  notes : s.session.notes = Script.notesOf (String.ofList s.desk.editor.text)
  error : s.desk.editor.error =
    (Script.errorOf? (String.ofList s.desk.editor.text)).map Fault.message
  extent : s.session.extent = Extent.of? (s.session.notes ++ s.session.ghosts)
  viewStart : s.session.viewStart = 0
  viewEnd : s.session.viewEnd = totalBeats (s.session.notes ++ s.session.ghosts)
  total : ∀ r, s.session.extent = some r → s.session.viewEnd = r.total

/-- Editor and session are in step, and the desk listens so that they stay so. -/
structure Tuned (s : Studio) : Prop where
  notes : s.session.notes = Script.notesOf (String.ofList s.desk.editor.text)
  error : s.desk.editor.error =
    (Script.errorOf? (String.ofList s.desk.editor.text)).map Fault.message
  measured : s.session.Measured
  listens : Listens s

theorem Tuned.inStep {s : Studio} (h : Tuned s) : InStep s where
  notes := h.notes
  error := h.error
  extent := h.measured.extent
  viewStart := h.measured.viewStart
  viewEnd := h.measured.viewEnd
  total r hr := by rw [h.measured.viewEnd, Extent.total_of? (h.measured.extent.symm.trans hr)]

theorem Tuned.apart {s s' : Studio} (h : Apart s s') (hs : Tuned s) : Tuned s' := by
  have text : s'.desk.editor.text = s.desk.editor.text := congrArg Text.unrows h.rows
  refine ⟨?_, ?_, h.measured hs.measured, ?_⟩
  · rw [h.notes, text, hs.notes]
  · rw [h.error, text, hs.error]
  · rw [Listens, h.bus]
    exact hs.listens

theorem respectsApart_tuned : RespectsApart fun s s' => Tuned s → Tuned s' where
  apart := Tuned.apart
  trans h h' hs := h' (h hs)

/-- A studio whose text was edited is in step, whatever it was before. -/
theorem tuned_edited {s : Studio} (h : Listens s) (editor : Editor) :
    Tuned (edited editor true s) := by
  unfold edited
  dsimp only
  rw [if_pos ⟨rfl, h⟩]
  refine ⟨?_, ?_, ⟨rfl, rfl, rfl⟩, ?_⟩
  · rw [recompiled_session, recompiled_text]
    rfl
  · rw [recompiled_error, recompiled_text]
  · rw [Listens, recompiled_bus]
    exact h

theorem leads_offer (i : Input) : Leads (fun s s' => Tuned s → Tuned s') (offer i) := by
  intro b r b' h hs
  obtain ⟨b₁, h₁, updated⟩ := offer_on i b
  rw [h₁] at h
  cases h
  rw [updated.part]
  obtain ⟨error, rows⟩ := b.part.desk.editor.handle_keeps i
  cases he : (b.part.desk.editor.handle i).edited with
  | true => exact tuned_edited hs.listens _
  | false =>
    have text : (b.part.desk.editor.handle i).editor.text = b.part.desk.editor.text :=
      congrArg Text.unrows (rows he)
    simp only [edited, Bool.false_eq_true, false_and, if_false]
    refine ⟨?_, ?_, hs.measured, hs.listens⟩
    · rw [text]
      exact hs.notes
    · rw [text, error]
      exact hs.error

theorem leads_holds (f : Studio → PitchSet) :
    Leads (fun s s' => Tuned s → Tuned s') (change fun s => { s with held := f s }) :=
  leads_change _ fun _ hs => ⟨hs.notes, hs.error, hs.measured, hs.listens⟩

theorem handled_tuned : Handled fun s s' => Tuned s → Tuned s' :=
  handled_of_respectsApart respectsApart_tuned leads_offer leads_holds

theorem leads_close : Leads (fun s s' => Tuned s → Tuned s') close :=
  respectsApart_tuned.allowsApart.close fun s =>
    respectsApart_tuned.respectsNeutral.allowsNeutral.releaseAll (handled_tuned.handles s).release

theorem leads_tuned (d : Doing) : Leads (fun s s' => Tuned s → Tuned s') d.act :=
  handled_tuned.leads_act leads_close d

/-! ## From the beginning to the end -/

theorem respectsApart_listens : RespectsApart fun s s' => Listens s → Listens s' where
  apart h hs := by
    rw [Listens, h.bus]
    exact hs
  trans h h' hs := h' (h hs)

/-- Once the window is open, editor and session are in step. -/
theorem tuned_start {disk : Disk} {s s₁ : Studio} {es : List Entry} (listens : Listens s)
    (h : runAct (start disk) s = some (.ok (), s₁, es)) : Tuned s₁ := by
  obtain ⟨⟨r, b⟩, hon, e⟩ := Option.map_eq_some_iff.1 h
  cases e
  rw [start, on_bind_ok (on_look _)] at hon
  rcases on_bind_inv hon with ⟨_, b₁, h₁, hon⟩ | ⟨e, -, he⟩
  · rcases on_bind_inv hon with ⟨text, b₂, h₂, hon⟩ | ⟨e, -, he⟩
    · have hP := respectsApart_listens.respectsNeutral.allowsNeutral
      have listens₁ := hP.loadSong _ h₁ listens
      have listens₂ := hP.initialScript _ _ h₂ listens₁
      obtain ⟨b₃, h₃, updated⟩ := askEditor_on (.setText text) b₂
      rw [show replaceText text = askEditor (.setText text) from rfl, h₃] at hon
      cases hon
      rw [updated.part]
      exact tuned_edited listens₂ _
    · cases he
  · cases he

/-- While the program turns, and when it is closed, editor and session stay in step. -/
theorem tuned_mainLoop {passes : List Pass} {s : Studio} {run : Run} (hs : Tuned s)
    (h : mainLoop passes s = some run) : ∀ shot ∈ run.last :: run.shots, Tuned shot.studio :=
  kept_mainLoop (leads_turn handled_tuned) leads_close hs h

/-- A studio that has just been put together listens. -/
theorem listens_studio (settings : Settings) (renderer : Renderer) :
    Listens (studio settings renderer) := by
  show Listener.desk .recompile ∈ Bus.listeners "text_changed" subscriptions
  decide

/-- What is typed is what is played. Once the window is open, whatever happens in whatever order,
and at every moment of a run, the melody of the session is the one that is written in the editor,
the error is what is wrong with it, and extent and view are those of the melodies. -/
theorem typed_is_played {disk : Disk} {s s₁ : Studio} {es : List Entry} (listens : Listens s)
    (opened : runAct (start disk) s = some (.ok (), s₁, es)) :
    (∀ ds s', enact ds s₁ = some s' → InStep s') ∧
    ∀ passes run, mainLoop passes s₁ = some run →
      ∀ shot ∈ run.last :: run.shots, InStep shot.studio := by
  have tuned : Tuned s₁ := tuned_start listens opened
  refine ⟨fun ds s' h => ?_, fun passes run h shot hs => ?_⟩
  · exact (leads_enact respectsApart_tuned.respectsNeutral leads_tuned h tuned).inStep
  · exact (tuned_mainLoop tuned h shot hs).inStep

def plain : Studio := studio {} {}

def noDisk : Disk := { read := fun path => .error (.file .missing path) }

/-- Somebody clicks on the row of the first note, types another one below it and plays; then a frame
is drawn. -/
def composing : List Doing :=
  [.input (.down 10 100 1), .input (.key .returnKey), .input (.text "D"), .button "PLAY/STOP",
    .frame 0.5]

/-- The studio once the window is open, and after some things have happened. -/
def after (disk : Disk) (ds : List Doing) (s : Studio) : Option (Studio × Studio) := do
  match ← runAct (start disk) s with
  | (.ok (), s₁, _) => return (s₁, ← enact ds s₁)
  | (.error _, _, _) => none

theorem after_inv {disk : Disk} {ds : List Doing} {s s₁ s' : Studio}
    (h : after disk ds s = some (s₁, s')) :
    ∃ es, runAct (start disk) s = some (.ok (), s₁, es) ∧ enact ds s₁ = some s' := by
  obtain ⟨⟨r, s₂, es⟩, opened, h⟩ := Option.bind_eq_some_iff.1 h
  cases r with
  | error e => cases h
  | ok u =>
    obtain ⟨s'', enacted, h⟩ := Option.bind_eq_some_iff.1 h
    cases h
    exact ⟨es, opened, enacted⟩

theorem typed_is_played_composing : ∃ s₁ es s', Listens plain ∧
    runAct (start noDisk) plain = some (.ok (), s₁, es) ∧ enact composing s₁ = some s' ∧
      s'.desk.editor.text = "octave 4\nstep 1/4\nC\nD\nE\nG\nrest\nG\nE\nC".toList ∧ InStep s' := by
  have text : (after noDisk composing plain).map (·.2.desk.editor.text) =
      some "octave 4\nstep 1/4\nC\nD\nE\nG\nrest\nG\nE\nC".toList := by decide +kernel
  obtain ⟨⟨s₁, s'⟩, h, text⟩ := Option.map_eq_some_iff.1 text
  obtain ⟨es, opened, enacted⟩ := after_inv h
  have listens : Listens plain := listens_studio {} {}
  exact ⟨s₁, es, s', listens, opened, enacted, text,
    (typed_is_played listens opened).1 composing s' enacted⟩

end Program

end PianoRoll
