import PianoRoll.Program
import PianoRoll.Proofs.Editor.Caret
import PianoRoll.Proofs.Playback.Sounding
import PianoRoll.Proofs.Script.Grammar

/-!
The editor in its studio. A text that has changed is published once, and a desk that listens takes
it over and does nothing else (`publish_text_on`). So the acts by which the editor is given a text
or an input do to its flat text what they say, and tell of every change of it.
-/

namespace PianoRoll

open Studio Work

def Entry.text? : Entry → Option String
  | .event (.textChanged text) => some text
  | _ => none

def Bench.texts (b : Bench Studio) : List String := b.journal.filterMap Entry.text?

namespace Studio

def recompiled (text : String) (s : Studio) : Studio :=
  { s with
    desk := { s.desk with
      editor := { s.desk.editor with error := (Script.errorOf? text).map Fault.message } }
    session := s.session.setNotes (Script.notesOf text) }

section

variable (s : Studio) (text : String)

@[simp] theorem recompiled_text :
    (s.recompiled text).desk.editor.text = s.desk.editor.text := rfl

@[simp] theorem recompiled_error : (s.recompiled text).desk.editor.error =
    (Script.errorOf? text).map Fault.message := rfl

@[simp] theorem recompiled_session :
    (s.recompiled text).session = s.session.setNotes (Script.notesOf text) := rfl

@[simp] theorem recompiled_bus : (s.recompiled text).bus = s.bus := rfl

@[simp] theorem recompiled_held : (s.recompiled text).held = s.held := rfl

end

/-- A text is read to the end, whether or not it is a script. -/
theorem checkScript_on {σ : Type} (text : String) (b : Bench σ) :
    ∃ b', (checkScript text).on b = some (.ok (Script.notesOf text, Script.errorOf? text), b') ∧
      b'.part = b.part := by
  unfold Script.notesOf Script.errorOf?
  split
  · next notes h => exact (Script.gives_of_ok h b).checkScript
  · next f h => exact (Script.gives_of_error h b).checkScript

theorem changeDesk_on (f : Desk → Desk) (b : Bench Studio) : (changeDesk f).on b =
    some (.ok (), ⟨{ b.part with desk := f b.part.desk }, b.journal⟩) := rfl

theorem writes_checkScript {σ : Type} (text : String) :
    Writes (fun e => e.text? = none)
      (checkScript text : Work σ (List Note × Option Fault)) := by
  refine Writes.bind (writes_forM (fun m : Script.Remark =>
    writes_write (.log ⟨.debug, m.message⟩) rfl) _) fun _ => ?_
  split
  · exact writes_pure _
  · exact writes_pure _

theorem recompile_on (text : String) (b : Bench Studio) :
    ∃ b', (recompile text).on b = some (.ok (), b') ∧ b'.part = b.part.recompiled text ∧
      b'.texts = b.texts := by
  obtain ⟨b₁, h₁, part⟩ := checkScript_on text b
  obtain ⟨es, journal, silent, -⟩ := writes_checkScript text h₁
  refine ⟨⟨b₁.part.recompiled text, b₁.journal⟩, ?_, by rw [part], ?_⟩
  · rw [recompile, on_bind_ok h₁]
    rfl
  · rw [Bench.texts, journal, List.filterMap_append, List.filterMap_eq_nil_iff.2 silent]
    rfl

variable (s : Studio) (text : String)

/-- Of all listeners at the desk only the one for scripts does something with a text. -/
theorem deliver_text_on (l : Listener) (b : Bench Studio) :
    ∃ b', (deliver (deskHooks s) (.textChanged text) l).on b = some (.ok (), b') ∧
      b'.part = (if l = .desk .recompile then b.part.recompiled text else b.part) ∧
      b'.texts = b.texts := by
  unfold deliver
  rw [on_tryCatch]
  cases l with
  | scripted name => exact ⟨b, rfl, rfl, rfl⟩
  | desk r =>
    cases r with
    | recompile =>
      obtain ⟨b', h, part, texts⟩ := recompile_on text b
      refine ⟨b', ?_, part, texts⟩
      show ((recompile text).on b).bind _ = _
      rw [h]
      rfl
    | _ => exact ⟨b, rfl, rfl, rfl⟩

theorem deliver_texts_on (ls : List Listener) (b : Bench Studio) :
    ∃ b', (ls.forM (deliver (deskHooks s) (.textChanged text))).on b = some (.ok (), b') ∧
      b'.part = (if .desk .recompile ∈ ls then b.part.recompiled text else b.part) ∧
      b'.texts = b.texts := by
  induction ls generalizing b with
  | nil => exact ⟨b, rfl, rfl, rfl⟩
  | cons l ls ih =>
    obtain ⟨b₁, h₁, part₁, texts₁⟩ := deliver_text_on s text l b
    obtain ⟨b₂, h₂, part₂, texts₂⟩ := ih b₁
    refine ⟨b₂, by rw [forM_cons, on_bind_ok h₁, h₂], ?_, texts₂.trans texts₁⟩
    rw [part₂, part₁]
    by_cases hl : l = .desk .recompile
    · subst hl
      rw [if_pos rfl, if_pos List.mem_cons_self]
      exact ite_self _
    · simp [hl, Ne.symm hl]

/-- The desk takes over a text that is published, if it listens, and the text is told of once. -/
theorem publish_text_on (b : Bench Studio) :
    ∃ b', (publish (deskHooks s) (.textChanged text)).on b = some (.ok (), b') ∧
      b'.part = (if .desk .recompile ∈ b.part.bus.listeners "text_changed" then
        b.part.recompiled text else b.part) ∧
      b'.texts = List.replicate (b.part.recorded.count "text_changed") text ++ b.texts := by
  obtain ⟨b', h, part, texts⟩ := deliver_texts_on s text (b.part.bus.listeners "text_changed")
    ⟨b.part, shown b.part.recorded (.textChanged text) ++ b.journal⟩
  refine ⟨b', ?_, part, texts.trans ?_⟩
  · rw [publish, on_bind_ok (record_on _ b), on_bind_ok (on_look _)]
    exact h
  · rw [Bench.texts, List.filterMap_append, shown, List.filterMap_replicate]
    rfl

end Studio

namespace Program

/-- The studio with another editor, whose text the desk has taken over if it was edited. -/
def edited (editor : Editor) (edited : Bool) (s : Studio) : Studio :=
  let s := { s with desk := { s.desk with editor } }
  if edited ∧ .desk .recompile ∈ s.bus.listeners "text_changed" then
    s.recompiled (String.ofList editor.text)
  else s

/-- What is left of a bench where the editor has become another: the text is told of once if it was
edited. -/
structure Updated (editor : Editor) (changed : Bool) (b b' : Bench Studio) : Prop where
  part : b'.part = edited editor changed b.part
  texts : b'.texts = (if changed then
      List.replicate (b.part.recorded.count "text_changed") (String.ofList editor.text)
    else []) ++ b.texts

theorem updateEditor_on (editor : Editor) (changed : Bool) (b : Bench Studio) :
    ∃ b', (updateEditor editor changed).on b = some (.ok (), b') ∧ Updated editor changed b b' := by
  unfold updateEditor
  rw [on_bind_ok (changeDesk_on _ b)]
  cases changed with
  | false => exact ⟨_, rfl, by simp [edited], rfl⟩
  | true =>
    rw [if_pos rfl, on_bind_ok (on_look _)]
    obtain ⟨b', h, part, texts⟩ := publish_text_on
      { b.part with desk := { b.part.desk with editor } } (String.ofList editor.text)
      ⟨{ b.part with desk := { b.part.desk with editor } }, b.journal⟩
    refine ⟨b', h, part.trans ?_, texts⟩
    simp [edited]

theorem Updated.editor {editor : Editor} {changed : Bool} {b b' : Bench Studio}
    (h : Updated editor changed b b') :
    ∃ error, b'.part.desk.editor = { editor with error } := by
  rw [h.part, edited]
  dsimp only
  split
  · exact ⟨_, rfl⟩
  · exact ⟨editor.error, rfl⟩

/-- An editor that is offered an input says whether it took it. -/
theorem offer_on (i : Input) (b : Bench Studio) :
    ∃ b', (offer i).on b = some (.ok (b.part.desk.editor.handle i).consumed, b') ∧
      Updated (b.part.desk.editor.handle i).editor (b.part.desk.editor.handle i).edited b b' := by
  obtain ⟨b', h, updated⟩ := updateEditor_on (b.part.desk.editor.handle i).editor
    (b.part.desk.editor.handle i).edited b
  refine ⟨b', ?_, updated⟩
  rw [offer, on_bind_ok (on_look b), on_bind_ok h]
  rfl

/-- The act by which the editor of a studio is asked for something. -/
def askEditor : Editor.Call → Act Unit
  | .setText text => replaceText text
  | .input i => discard (offer i)

theorem askEditor_on (c : Editor.Call) (b : Bench Studio) :
    ∃ b', (askEditor c).on b = some (.ok (), b') ∧
      Updated (c.outcome b.part.desk.editor).editor (c.outcome b.part.desk.editor).edited b b' := by
  cases c with
  | setText text =>
    obtain ⟨b', h, updated⟩ := updateEditor_on (b.part.desk.editor.setText text.toList) true b
    exact ⟨b', (on_bind_ok (on_look b)).trans h, updated⟩
  | input i =>
    obtain ⟨b', h, updated⟩ := offer_on i b
    exact ⟨b', on_bind_ok h, updated⟩

/-- What a call does to the text of the editor and tells of it. -/
structure Follows (c : Editor.Call) (b b' : Bench Studio) : Prop where
  /-- The text changes as the flat text does, and is told of once. -/
  edits : ∀ f, c.edit? b.part.desk.editor = some f → b'.part.desk.editor.flat = f ∧
    b'.texts =
      List.replicate (b.part.recorded.count "text_changed") (String.ofList f.text) ++ b.texts
  /-- A text that does not change is not told of. -/
  rests : c.edit? b.part.desk.editor = none →
    b'.part.desk.editor.text = b.part.desk.editor.text ∧ b'.texts = b.texts
  /-- If there is nothing to delete the caret stays as well. -/
  stays : ∀ k, c = .input (.key k) → k = .backspace ∨ k = .delete →
    c.edit? b.part.desk.editor = none → b'.part.desk.editor.flat = b.part.desk.editor.flat

theorem Updated.follows {c : Editor.Call} {b b' : Bench Studio} (h : b.part.desk.editor.Stands)
    (updated : Updated (c.outcome b.part.desk.editor).editor
      (c.outcome b.part.desk.editor).edited b b') : Follows c b b' := by
  obtain ⟨error, editor⟩ := updated.editor
  have agrees := Editor.call_agrees h c
  refine ⟨fun f hf => ?_, fun hf => ?_, fun k hc hk hf => ?_⟩
  · have flat : (c.outcome b.part.desk.editor).editor.flat = f := agrees.flat hf
    have text : (c.outcome b.part.desk.editor).editor.text = f.text := congrArg Flat.text flat
    rw [hf] at agrees
    exact ⟨by rw [editor]; exact flat, by rw [updated.texts, agrees.edited_eq, text]; rfl⟩
  · have rows := agrees.rows hf
    rw [hf] at agrees
    refine ⟨?_, by rw [updated.texts, agrees.edited_eq]; rfl⟩
    rw [editor]
    exact congrArg Text.unrows rows
  · subst hc
    have same := congrArg Editor.flat (Editor.handle_of_edit?_none h hk hf)
    rw [editor]
    exact same

/-- The line editor is a flat text with a caret, from wherever it is come to. Its caret is in a row
and in the text, and its rows are the pieces of the text between line feeds unless some were typed.
Whatever it is asked for in a studio does to the text what it says, and tells of every change once
and of nothing else. -/
theorem refines_flat_text {types : String → Prop} {e : Editor} (h : e.Reached types) :
    (e.row < e.rows.length ∧ e.col ≤ e.current.length ∧ e.offset ≤ e.text.length) ∧
    ((∀ s, types s → '\n' ∉ s.toList) → e.rows = Text.rows e.text) ∧
    ∀ (c : Editor.Call) (b : Bench Studio), b.part.desk.editor = e →
      ∃ b', (askEditor c).on b = some (.ok (), b') ∧ Follows c b b' ∧
        ((∀ s, c = .input (.text s) → types s) → b'.part.desk.editor.Reached types) := by
  refine ⟨⟨h.stands.row, h.stands.col, h.offset_le⟩, h.rows_eq, fun c b hb => ?_⟩
  subst hb
  obtain ⟨b', asked, updated⟩ := askEditor_on c b
  obtain ⟨error, editor⟩ := updated.editor
  exact ⟨b', asked, updated.follows h.stands, fun ht => editor ▸ .remarked error (.called c h ht)⟩

/-- An editor with a row and an empty one below it, which was clicked on there. -/
def clicked : Editor :=
  let e := Editor.create .fixedWidth ⟨0, 0, 100, 100⟩ ['C', '\n']
  (Editor.Call.input (.down 10 30 1)).outcome e |>.editor

/-- A studio with that editor that writes down which texts it tells of. -/
def clickedStudio : Studio :=
  { bus := subscriptions, recorded := ["text_changed"], desk := { editor := clicked } }

/-- A deletion at the beginning of the lower row takes out the line feed. -/
theorem refines_flat_text_joined : ∃ b',
    (askEditor (.input (.key .backspace))).on ⟨clickedStudio, []⟩ = some (.ok (), b') ∧
      b'.part.desk.editor.flat = ⟨['C'], 1⟩ ∧ b'.texts = ["C"] ∧
        b'.part.desk.editor.rows = [['C']] := by
  have reached : clicked.Reached ('\n' ∉ ·.toList) := .called _ (.created _ _ _) nofun
  obtain ⟨-, -, asked⟩ := refines_flat_text reached
  obtain ⟨b', h, follows, again⟩ := asked (.input (.key .backspace)) ⟨clickedStudio, []⟩ rfl
  obtain ⟨flat, texts⟩ := follows.edits ⟨['C'], 1⟩ rfl
  obtain ⟨-, rows, -⟩ := refines_flat_text (again nofun)
  refine ⟨b', h, flat, texts, ?_⟩
  rw [rows fun _ hs => hs]
  exact congrArg (Text.rows ·.text) flat

end Program

end PianoRoll
