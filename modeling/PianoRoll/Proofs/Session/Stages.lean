import PianoRoll.Proofs.Callback
import PianoRoll.Proofs.Playback.Unbegun
import PianoRoll.Proofs.Queue.Recount
import PianoRoll.Proofs.Playback.Runs

/-!
Sessions stage by stage. A stage is what happens to a studio between two moments at which somebody
may call back, together with what it leaves in the journal: a run begins, strikes a note, ends, or
nothing of the kind happens. Whatever a session is asked for, also by those who hear of it in the
middle of something else, goes through such stages and no others (`Staged.carryOut`). So what no
stage loses is an invariant of sessions, and those who call back may count on it
(`Preserved.inTurn`).
-/

namespace PianoRoll

/-- The commands of a session that leave it to the session what is played. -/
def Command.playsOwn : Command → Bool
  | .startPlayback .. | .togglePlayback .. => false
  | c => c.ofSession

theorem Command.ofSession_of_playsOwn {c : Command} (h : c.playsOwn = true) :
    c.ofSession = true := by
  cases c <;> first | exact h | cases h

/-- What the journal shows of a run: its beginning, its end, and the notes that it strikes. -/
def Entry.ofRun : Entry → Bool
  | .event (.transport _) | .event (.noteOn _ .playback _) => true
  | _ => false

namespace Studio

open Work

/-- A change that leaves alone the run with all that it plays, and the measures of the session. -/
structure Calm (s s' : Studio) : Prop where
  settings : s'.settings = s.settings
  recorded : s'.recorded = s.recorded
  run : SameRun s s'
  bpm : s'.transport.bpm = s.transport.bpm
  notes : s'.transport.notes = s.transport.notes
  extent : s'.transport.extent = s.transport.extent
  marker : s'.transport.marker = s.transport.marker
  ghosts : s'.session.playedGhosts = s.session.playedGhosts
  measured : s.session.Measured → s'.session.Measured

theorem Calm.refl (s : Studio) : Calm s s := ⟨rfl, rfl, .refl s, rfl, rfl, rfl, rfl, rfl, id⟩

theorem Calm.trans {s s' s'' : Studio} (h : Calm s s') (h' : Calm s' s'') : Calm s s'' where
  settings := h'.settings.trans h.settings
  recorded := h'.recorded.trans h.recorded
  run := h.run.trans h'.run
  bpm := h'.bpm.trans h.bpm
  notes := h'.notes.trans h.notes
  extent := h'.extent.trans h.extent
  marker := h'.marker.trans h.marker
  ghosts := h'.ghosts.trans h.ghosts
  measured := h'.measured ∘ h.measured

/-- The audio output, the clock, the loudness, the way the striker swings and the orders of the
monsters have no part in what is played and how it is measured. -/
theorem Calm.around (s : Studio) (audio : Audio) (clock velocity : Float) (swing : Bool)
    (shuffles : List (List Nat)) :
    Calm s { s with
      audio, clock, shuffles, transport := { s.transport with velocity, swing } } :=
  ⟨rfl, rfl, ⟨rfl, rfl, rfl, rfl⟩, rfl, rfl, rfl, rfl, rfl, id⟩

inductive Struck (pitch : Int) (s : Studio) : Studio → Prop
  | marked {r : Extent} {marker : Float} (extent : s.transport.extent = some r)
      (place : markerOf r pitch = .ok marker) :
      Struck pitch s { s with transport := { s.transport with marker } }
  | nowhere (extent : s.transport.extent = none) : Struck pitch s s

def tempoOf (s : Studio) : Float := orTempo (some s.session.bpm) s.settings.tempo

def lanesOf (s : Studio) : Option Extent := Extent.of? (s.session.notes ++ s.session.ghosts)

/-- What a run is begun with: the session is made ready and plays its melody in the extent of both,
or somebody who may ask for it has chosen something else. -/
inductive Chosen (may : Command → Bool) (s : Studio) :
    Studio → List Note → Float → Option Extent → Prop
  | own : Chosen may s s.readied s.session.notes s.tempoOf s.lanesOf
  | other (asked : ∃ c, may c = true ∧ c.playsOwn = false) (notes : List Note) (bpm : Float)
      (extent : Option Extent) : Chosen may s s notes bpm extent

theorem Chosen.sameRun {may : Command → Bool} {s r : Studio} {notes : List Note} {bpm : Float}
    {extent : Option Extent} (h : Chosen may s r notes bpm extent) : SameRun s r := by
  cases h with
  | own => exact ⟨rfl, rfl, rfl, rfl⟩
  | other => exact .refl s

theorem Chosen.recorded {may : Command → Bool} {s r : Studio} {notes : List Note} {bpm : Float}
    {extent : Option Extent} (h : Chosen may s r notes bpm extent) : r.recorded = s.recorded := by
  cases h <;> rfl

/-- Where nobody may choose otherwise, the session plays what it has. -/
theorem Chosen.eq_own {s r : Studio} {notes : List Note} {bpm : Float} {extent : Option Extent}
    (h : Chosen Command.playsOwn s r notes bpm extent) :
    r = s.readied ∧ notes = s.session.notes ∧ extent = s.lanesOf := by
  cases h with
  | own => exact ⟨rfl, rfl, rfl⟩
  | other asked =>
    obtain ⟨c, allowed, other⟩ := asked
    exact absurd (allowed.symm.trans other) nofun

def shownEnd (s : Studio) : List Entry :=
  if s.transport.playing then shown s.recorded (.transport false) else []

/-- A stage of a session of which some commands may be asked, with what it leaves in the journal. -/
inductive Stage (may : Command → Bool) : Studio → List Entry → Studio → Prop
  | calm {s s' : Studio} {es : List Entry} (same : Calm s s')
      (quiet : ∀ e ∈ es, e.ofRun = false) : Stage may s es s'
  | begin {s r : Studio} {notes : List Note} {bpm : Float} {extent : Option Extent}
      {es : List Entry} (chosen : Chosen may s r notes bpm extent)
      (rests : s.transport.playing = false) (some : notes ≠ [])
      (quiet : ∀ e ∈ es, e.ofRun = false) :
      Stage may s (es ++ shown s.recorded (.transport true)) (r.begun notes bpm extent)
  /-- Something was to be played, but there is no tempo. -/
  | fail {s r : Studio} {notes : List Note} {bpm : Float} {extent : Option Extent}
      (chosen : Chosen may s r notes bpm extent) (rests : s.transport.playing = false) :
      Stage may s [] (r.prepared notes bpm extent)
  | stop {s : Studio} {es : List Entry} (a : Audio) (quiet : ∀ e ∈ es, e.ofRun = false) :
      Stage may s (es ++ s.shownEnd) (s.stopped a)
  /-- A cancelled timer leaves the queue. -/
  | pass {s : Studio} {now : Float} {serial : Nat} {ts : Timers Task}
      (due : s.timers.takeDue? now = some (serial, ts))
      (dead : ∀ t, s.timers.get? serial = some t → t.cancelled = true) :
      Stage may s [] { s with timers := ts }
  /-- A note ends, or a note was to begin and its sound failed. -/
  | play {s s₁ s' : Studio} {es : List Entry} {serial : Nat} {t : Trigger} (ht : t ≠ .finish)
      (fires : Fires s serial t s₁) (same : Calm s₁ s') (quiet : ∀ e ∈ es, e.ofRun = false) :
      Stage may s es s'
  /-- A note begins. -/
  | strike {s s₁ s₂ s' : Studio} {es : List Entry} {serial : Nat} {n : Note}
      (fires : Fires s serial (.noteOn n) s₁) (same : Calm s₁ s₂) (struck : Struck n.pitch s₂ s')
      (quiet : ∀ e ∈ es, e.ofRun = false) :
      Stage may s (es ++ shown s.recorded (.noteOn n.pitch .playback none)) s'
  /-- The run has come to its end. -/
  | finish {s s₁ : Studio} {es : List Entry} {serial : Nat} (a : Audio)
      (fires : Fires s serial .finish s₁) (quiet : ∀ e ∈ es, e.ofRun = false) :
      Stage may s (es ++ s₁.shownEnd) (s₁.stopped a)

inductive Stages (may : Command → Bool) : Studio → List Entry → Studio → Prop
  | still (s : Studio) : Stages may s [] s
  | step {s s' s'' : Studio} {es es' : List Entry} :
      Stages may s es s' → Stage may s' es' s'' → Stages may s (es ++ es') s''

variable {may : Command → Bool}

theorem Stage.stages {s s' : Studio} {es : List Entry} (h : Stage may s es s') :
    Stages may s es s' :=
  (Stages.still s).step h

theorem Stages.trans {s s' s'' : Studio} {es es' : List Entry} (h : Stages may s es s')
    (h' : Stages may s' es' s'') : Stages may s (es ++ es') s'' := by
  induction h' with
  | still => rwa [List.append_nil]
  | step _ last ih =>
    rw [← List.append_assoc]
    exact ih.step last

theorem Struck.sameRun {p : Int} {s s' : Studio} (h : Struck p s s') : SameRun s s' := by
  cases h with
  | marked => exact ⟨rfl, rfl, rfl, rfl⟩
  | nowhere => exact .refl s

theorem SameRun.prepared (s : Studio) (notes : List Note) (bpm : Float) (extent : Option Extent) :
    SameRun s (s.prepared notes bpm extent) := ⟨rfl, rfl, rfl, rfl⟩

/-- A stage is part of a course. -/
theorem Stage.course {s s' : Studio} {es : List Entry} (h : Stage may s es s') :
    ∃ ds, Course s ds s' := by
  have note {s s₁ s' : Studio} {serial : Nat} {t : Trigger} (ht : t ≠ .finish)
      (fires : Fires s serial t s₁) (same : SameRun s₁ s') : ∃ ds, Course s ds s' :=
    ⟨_, (Move.play serial t 0 false ht fires same).course⟩
  cases h with
  | calm same => exact ⟨_, (Move.aside same.run).course⟩
  | begin chosen rests some =>
    have resting := chosen.sameRun.playing.trans rests
    exact ⟨_, (Move.aside chosen.sameRun).course.trans (Move.begin _ _ _ resting some).course⟩
  | fail chosen =>
    exact ⟨_, (Move.aside (chosen.sameRun.trans (.prepared _ _ _ _))).course⟩
  | stop a => exact ⟨_, (Move.stop a).course⟩
  | pass due dead => exact ⟨_, (Move.pass _ _ _ due dead).course⟩
  | play ht fires same => exact note ht fires same.run
  | strike fires same struck =>
    exact note (t := .noteOn _) nofun fires (same.run.trans struck.sameRun)
  | finish a fires => exact ⟨_, (Move.finish _ a fires).course⟩

theorem Stage.onlyPlayback {s s' : Studio} {es : List Entry} (h : Stage may s es s')
    (hs : OnlyPlayback s.timers) : OnlyPlayback s'.timers := by
  obtain ⟨ds, course⟩ := h.course
  exact onlyPlayback_course course hs

theorem Stages.onlyPlayback {s s' : Studio} {es : List Entry} (h : Stages may s es s')
    (hs : OnlyPlayback s.timers) : OnlyPlayback s'.timers := by
  induction h with
  | still => exact hs
  | step _ last ih => exact last.onlyPlayback ih

/-- What is not lost at any stage of a session, whatever that leaves in the journal. -/
def Preserved (may : Command → Bool) (I : List Entry → Studio → Prop) : Prop :=
  ∀ {past es s s'}, I past s → Stage may s es s' → I (past ++ es) s'

theorem Preserved.stages {I : List Entry → Studio → Prop} (kept : Preserved may I)
    {past es : List Entry} {s s' : Studio} (hs : I past s) (h : Stages may s es s') :
    I (past ++ es) s' := by
  induction h with
  | still => rwa [List.append_nil]
  | step _ last ih =>
    rw [← List.append_assoc]
    exact kept ih last

/-! ## Benches and acts -/

def Evolves (may : Command → Bool) (b b' : Bench Studio) : Prop :=
  ∃ es, b'.journal = es.reverse ++ b.journal ∧ Stages may b.part es b'.part

/-- What holds of benches all along the way through stages: that playing alone has timers, and
whatever else is not lost. -/
class Lasting (may : Command → Bool) (I : Bench Studio → Prop) : Prop where
  timers {b : Bench Studio} : I b → OnlyPlayback b.part.timers
  kept {b b' : Bench Studio} : I b → Evolves may b b' → I b'

/-- Whatever the act comes to where the invariant holds, it went through stages. -/
def Staged (may : Command → Bool) (I : Bench Studio → Prop) {α : Type} (p : Act α) : Prop :=
  ∀ ⦃b r b'⦄, I b → p.on b = some (r, b') → Evolves may b b'

variable {α β : Type} {b b' b'' : Bench Studio}

theorem Evolves.refl (b : Bench Studio) : Evolves may b b := ⟨[], rfl, .still _⟩

theorem Evolves.trans (h : Evolves may b b') (h' : Evolves may b' b'') : Evolves may b b'' := by
  obtain ⟨es, he, stages⟩ := h
  obtain ⟨es', he', stages'⟩ := h'
  refine ⟨es ++ es', ?_, stages.trans stages'⟩
  rw [he', he, List.reverse_append, List.append_assoc]

/-- One stage that leaves entries in the journal, the latest one first. -/
theorem Stage.evolves (es : List Entry) (h : Stage may b.part es.reverse b'.part)
    (journal : b'.journal = es ++ b.journal) : Evolves may b b' :=
  ⟨_, by rw [List.reverse_reverse, journal], h.stages⟩

theorem evolves_calm (same : Calm b.part b'.part) (es : List Entry)
    (journal : b'.journal = es ++ b.journal) (quiet : ∀ e ∈ es, e.ofRun = false) :
    Evolves may b b' :=
  Stage.evolves es (.calm same fun e he => quiet e (List.mem_reverse.1 he)) journal

/-- Nothing that an output leaves is of the run. -/
theorem quiet_of_heard {a : Audio} {c : SoundCall} {es : List Entry}
    (h : es.filter Entry.audible = a.heard c) : ∀ e ∈ es, e.ofRun = false := by
  intro e he
  rcases Audio.silent_or_called h he with silent | rfl
  · cases e <;> first | rfl | cases silent
  · rfl

namespace Staged

variable {I : Bench Studio → Prop}

theorem change (f : Studio → Studio) (hf : ∀ s, Calm s (f s)) : Staged may I (change f) := by
  intro b r b' _ hon
  cases hon
  exact evolves_calm (hf _) [] rfl (by simp)

/-- A change of the session that keeps it measured and leaves alone the ghosts of the run. -/
theorem changeSession (f : Session → Session) (hf : ∀ s, (f s).playedGhosts = s.playedGhosts ∧
    (s.Measured → (f s).Measured)) : Staged may I (changeSession f) :=
  change _ fun s => ⟨rfl, rfl, ⟨rfl, rfl, rfl, rfl⟩, rfl, rfl, rfl, rfl, (hf s.session).1,
    (hf s.session).2⟩

theorem setNotes (notes : List Note) : Staged may I (Studio.changeSession (·.setNotes notes)) :=
  changeSession _ fun _ => ⟨rfl, fun _ => ⟨rfl, rfl, rfl⟩⟩

theorem setGhosts (ghosts : List Note) : Staged may I (Studio.changeSession (·.setGhosts ghosts)) :=
  changeSession _ fun _ => ⟨rfl, fun _ => ⟨rfl, rfl, rfl⟩⟩

theorem write {e : Entry} (he : e.ofRun = false) : Staged may I (write e : Act Unit) := by
  intro b r b' _ hon
  cases hon
  exact evolves_calm (.refl _) [e] rfl (by simp [he])

theorem pure (a : α) : Staged may I (pure a : Act α) := by
  intro b r b' _ hon
  cases hon
  exact .refl b

theorem giveUp : Staged may I (unfinished : Act α) := fun _ _ _ _ hon => by cases hon

/-- What alters nothing of the run and writes nothing of it. -/
theorem ofAlters {p : Act α} (alters : Alters Calm (fun e => e.ofRun = false) p) :
    Staged may I p := by
  intro b r b' _ hon
  obtain ⟨same, es, journal, quiet⟩ := alters hon
  exact evolves_calm same es journal quiet

variable [Lasting may I]

theorem bind {p : Act α} {f : α → Act β} (hp : Staged may I p) (hf : ∀ a, Staged may I (f a)) :
    Staged may I (p >>= f) := by
  intro b r b' hb hon
  rcases on_bind_inv hon with ⟨a, b₁, h₁, h₂⟩ | ⟨e, h₁, -⟩
  · have first := hp hb h₁
    exact first.trans (hf a (Lasting.kept hb first) h₂)
  · exact hp hb h₁

theorem rescue {p : Act α} {f : Fault → Act α} (hp : Staged may I p)
    (hf : ∀ e, Staged may I (f e)) : Staged may I (tryCatch p f) := by
  intro b r b' hb hon
  rcases on_tryCatch_inv hon with ⟨a, h₁, -⟩ | ⟨e, b₁, h₁, h₂⟩
  · exact hp hb h₁
  · have first := hp hb h₁
    exact first.trans (hf e (Lasting.kept hb first) h₂)

theorem compositional : Compositional (Staged may I) where
  pure := pure
  bind := bind
  fail e := by
    intro b r b' _ hon
    cases hon
    exact .refl b
  rescue := rescue
  look := by
    intro b r b' _ hon
    cases hon
    exact .refl b
  write e quiet := write <| by cases e <;> first | rfl | cases quiet

theorem react (r : Reaction) (e : Event) : Staged may I (react r e) :=
  compositional.react (fun _ => change _ fun _ => ⟨rfl, rfl, ⟨rfl, rfl, rfl, rfl⟩, rfl, rfl, rfl,
    rfl, rfl, id⟩) setNotes r e

/-! ## Sessions -/

theorem setScript (text : String) : Staged may I (setScript text) :=
  (compositional.readScript text).bind fun notes => (setNotes notes).bind fun _ => pure _

theorem loadSong (name : Option String) : Staged may I (loadSong name) :=
  bind (changeSession _ fun _ => ⟨rfl, fun h => ⟨h.1, h.2, h.3⟩⟩) fun _ =>
    bind (compositional.songNotes name) fun ghosts => bind (setGhosts ghosts) fun _ =>
      compositional.log _ _

theorem setBpm (bpm : TempoText) : Staged may I (setBpm bpm) :=
  bind (compositional.orFail _) fun _ => bind compositional.look fun _ =>
    bind (changeSession _ fun _ => ⟨rfl, fun h => ⟨h.1, h.2, h.3⟩⟩) fun _ =>
      bind compositional.look fun _ => pure _

theorem shuffle : Staged may I shuffle :=
  bind compositional.look fun _ =>
    bind (change _ fun _ => .around _ _ _ _ _ _) fun _ =>
      bind (changeSession _ fun _ => ⟨rfl, fun h => ⟨h.1, h.2, h.3⟩⟩) fun _ => pure _

/-! ## Publishing -/

section Heard

variable {h : Hooks} (hears : ∀ l e, Staged may I (h.hear l e))
include hears

theorem delivers {e : Event} {ls : List Listener} (d : Delivers h e ls b b')
    (hb : I b) : Evolves may b b' := by
  induction d with
  | done b => exact .refl b
  | @hears l ls r b b₁ b' hl _ ih =>
    have first := hears l e hb hl
    have noting : Evolves may b₁ (noted e l r b₁) := by
      cases r with
      | ok _ => exact .refl b₁
      | error _ => exact evolves_calm (.refl _) [_] rfl (by simp [Entry.ofRun])
    have sofar := first.trans noting
    exact sofar.trans (ih (Lasting.kept hb sofar))

theorem publish {e : Event} (he : (Entry.event e).ofRun = false) : Staged may I (publish h e) :=
  compositional.publish (write he) fun l => hears l e

/-- A stage that ends with an event goes on with the stages of those who hear it. -/
theorem told {e : Event} {s : Studio} {r : Except Fault Unit} (es : List Entry)
    (stage : Stage may b.part (es.reverse ++ shown b.part.recorded e) s)
    (recorded : s.recorded = b.part.recorded) (hb : I b)
    (hon : (Studio.publish h e).on ⟨s, es ++ b.journal⟩ = some (r, b')) : Evolves may b b' := by
  obtain ⟨-, delivers⟩ := publish_on_iff.1 hon
  have first : Evolves may b (announced e ⟨s, es ++ b.journal⟩) := by
    refine ⟨_, ?_, stage.stages⟩
    simp [announced, recorded, shown]
  exact first.trans (Staged.delivers hears delivers (Lasting.kept hb first))

/-! ## Playing -/

/-- A stage that stops a run goes on with what is told of that. -/
theorem toldEnd {es : List Entry} {s : Studio} (s' : Studio) {r : Except Fault Unit}
    (stage : ∀ line : List Entry, (∀ e ∈ line, e.ofRun = false) →
      Stage may b.part (es.reverse ++ line ++ s.shownEnd) s')
    (recorded : s.recorded = b.part.recorded) (same : s'.recorded = s.recorded)
    (hb : I b)
    (hon : (publishEnd h s.transport.playing).on ⟨s', es ++ b.journal⟩ = some (r, b')) :
    Evolves may b b' := by
  unfold shownEnd at stage
  cases hplay : s.transport.playing with
  | false =>
    rw [hplay] at hon stage
    cases hon
    have silent := stage [] (by simp)
    rw [List.append_nil] at silent
    exact ⟨_, by simp, silent.stages⟩
  | true =>
    rw [hplay] at hon stage
    change (log _ _ >>= fun _ => Studio.publish h _).on _ = _ at hon
    rw [log, on_bind_ok (on_write _ _)] at hon
    have line := stage [.log ⟨.info, "playback stopped"⟩] (by simp [Entry.ofRun])
    rw [if_pos rfl, recorded] at line
    exact told hears (_ :: es) (by rwa [List.reverse_cons]) (same.trans recorded) hb hon

theorem stopPlayback : Staged may I (stopPlayback h) := by
  intro b r b' hb hon
  obtain ⟨a, es, hstop, -, hes, -⟩ := stopPlayback_on h b
  rw [hstop] at hon
  refine toldEnd hears (s := b.part) (b.part.stopped a) (fun line hline => ?_) rfl rfl hb hon
  refine .stop a fun e he => ?_
  rcases List.mem_append.1 he with he | he
  · exact quiet_of_heard hes e (List.mem_reverse.1 he)
  · exact hline e he

/-- A run is begun with what was chosen, or the attempt fails. -/
theorem startChosen {s : Studio} {notes : List Note} {bpm : Option Float} {extent : Option Extent}
    {r : Except Fault Bool}
    (chosen : Chosen may b.part s notes (orTempo bpm s.settings.tempo) extent)
    (idle : (s.transport.playing || notes.isEmpty) = false) (hb : I b)
    (hon : (startPlayback h notes bpm extent).on ⟨s, b.journal⟩ = some (r, b')) :
    Evolves may b b' := by
  obtain ⟨resting, some⟩ : s.transport.playing = false ∧ notes ≠ [] := by simpa using idle
  have rests : b.part.transport.playing = false := chosen.sameRun.playing.symm.trans resting
  cases ht : orTempo bpm s.settings.tempo == 0 with
  | true =>
    rw [startPlayback_on_fault h (b := ⟨s, b.journal⟩) _ idle ht] at hon
    cases hon
    exact Stage.evolves [] (.fail chosen rests) rfl
  | false =>
    rw [startPlayback_on h (b := ⟨s, b.journal⟩) _ idle ht] at hon
    obtain ⟨r₁, hpublish⟩ := on_bind_pure_inv hon
    have quiet : ∀ e ∈ [startedLine notes (orTempo bpm s.settings.tempo)], e.ofRun = false := by
      simp [startedLine, Entry.ofRun]
    exact told hears [_] (.begin chosen rests some quiet) chosen.recorded hb hpublish

theorem play : Staged may I (play h) := by
  intro b r b' hb hon
  cases idle : b.part.transport.playing || b.part.session.notes.isEmpty with
  | true =>
    rw [play_on_refused h idle] at hon
    cases hon
    exact .refl b
  | false =>
    rw [play_on h idle] at hon
    exact startChosen hears .own idle hb hon

theorem startPlayback (asked : ∃ c, may c = true ∧ c.playsOwn = false) (notes : List Note)
    (bpm : Option Float) (extent : Option Extent) :
    Staged may I (startPlayback h notes bpm extent) := by
  intro b r b' hb hon
  cases idle : b.part.transport.playing || notes.isEmpty with
  | true =>
    rw [startPlayback_on_refused h bpm extent idle] at hon
    cases hon
    exact .refl b
  | false => exact startChosen hears (.other asked notes _ extent) idle hb hon

/-! ## Pumping -/

omit hears in
/-- Striking moves the marker to its place, and fails where there is none. -/
theorem strike_cases {p : Int} {r : Except Fault Unit} (hon : (strike p).on b = some (r, b')) :
    ∃ s, Calm b.part s ∧ b'.journal = b.journal ∧
      ((r = .ok () ∧ Struck p s b'.part) ∨ ((∃ e, r = .error e) ∧ b'.part = s)) := by
  let s : Studio :=
    { b.part with transport := { b.part.transport with swing := !b.part.transport.swing } }
  have calm : Calm b.part s := .around _ _ _ _ _ _
  unfold strike at hon
  rw [on_bind_ok (on_changeTransport _ b), on_bind_ok (on_look _)] at hon
  split at hon
  · next extent =>
    cases hon
    exact ⟨s, calm, rfl, .inl ⟨rfl, .nowhere extent⟩⟩
  · next lanes extent =>
    rcases on_orFail_bind_inv hon with ⟨marker, place, hon⟩ | ⟨e, -, rfl, rfl⟩
    · cases hon
      exact ⟨s, calm, rfl, .inl ⟨rfl, .marked extent place⟩⟩
    · exact ⟨s, calm, rfl, .inr ⟨⟨e, rfl⟩, rfl⟩⟩

omit hears in
/-- A sound that fails, or on which nothing of the run follows, is a stage of its own. -/
theorem sounded {s s' : Studio} {serial : Nat} {t : Trigger} (fires : Fires b.part serial t s)
    (ht : t ≠ .finish) {a : Audio} (same : Calm { s with audio := a } s')
    {es : List Entry} (quiet : ∀ e ∈ es, e.ofRun = false) :
    Evolves may b ⟨s', es ++ b.journal⟩ := by
  have sounding : Calm s { s with audio := a } := .around _ _ _ _ _ _
  refine Stage.evolves es (.play ht fires (sounding.trans same) fun e he => ?_) rfl
  exact quiet e (List.mem_reverse.1 he)

theorem trigger_noteOff {s : Studio} {serial : Nat} {n : Note} {r : Except Fault Unit}
    (fires : Fires b.part serial (.noteOff n) s) (hb : I b)
    (hon : (trigger h (.noteOff n)).on ⟨s, b.journal⟩ = some (r, b')) : Evolves may b b' := by
  rcases on_bind_inv hon with ⟨_, b₁, h₁, h₂⟩ | ⟨e, h₁, -⟩
  · obtain ⟨a, es, rfl, -, hes, -⟩ := sound_inv h₁
    have first : Evolves may b ⟨{ s with audio := a }, es ++ b.journal⟩ :=
      sounded fires (by simp) (.refl _) (quiet_of_heard hes)
    exact first.trans (publish hears rfl (Lasting.kept hb first) h₂)
  · obtain ⟨a, es, rfl, -, hes, -⟩ := sound_inv h₁
    exact sounded fires (by simp) (.refl _) (quiet_of_heard hes)

/-- A note that begins is struck, unless its sound fails or there is no place for it. -/
theorem trigger_noteOn {s : Studio} {serial : Nat} {n : Note} {r : Except Fault Unit}
    (fires : Fires b.part serial (.noteOn n) s) (recorded : s.recorded = b.part.recorded)
    (hb : I b)
    (hon : (trigger h (.noteOn n)).on ⟨s, b.journal⟩ = some (r, b')) : Evolves may b b' := by
  rw [trigger, on_bind_ok (on_look _)] at hon
  rcases on_bind_inv hon with ⟨_, b₁, h₁, h₂⟩ | ⟨e, h₁, -⟩
  · obtain ⟨a, es, rfl, -, hes, -⟩ := sound_inv h₁
    have quiet := quiet_of_heard hes
    rcases on_bind_inv h₂ with ⟨_, ⟨s', j⟩, h₂, h₃⟩ | ⟨e, h₃, -⟩
    · obtain ⟨s₂, calm, journal, ⟨-, struck⟩ | ⟨⟨e, he⟩, -⟩⟩ := strike_cases h₂
      · obtain rfl : j = es ++ b.journal := journal
        have sounding : Calm s { s with audio := a } := .around _ _ _ _ _ _
        have same := sounding.trans calm
        have shows : s'.recorded = s₂.recorded := by cases struck <;> rfl
        refine told hears es (.strike fires same struck fun e he => ?_) ?_ hb h₃
        · exact quiet e (List.mem_reverse.1 he)
        · rw [shows, same.recorded, recorded]
      · cases he
    · obtain ⟨s₂, calm, journal, ⟨ok, -⟩ | ⟨-, rfl⟩⟩ := strike_cases h₃
      · cases ok
      · obtain ⟨s', j⟩ := b'
        obtain rfl : j = es ++ b.journal := journal
        exact sounded fires (by simp) calm quiet
  · obtain ⟨a, es, rfl, -, hes, -⟩ := sound_inv h₁
    exact sounded fires (by simp) (.refl _) (quiet_of_heard hes)

theorem trigger_finish {s : Studio} {serial : Nat} {r : Except Fault Unit}
    (fires : Fires b.part serial .finish s) (recorded : s.recorded = b.part.recorded)
    (hb : I b)
    (hon : (trigger h .finish).on ⟨s, b.journal⟩ = some (r, b')) : Evolves may b b' := by
  rw [trigger, log, on_bind_ok (on_write _ _)] at hon
  obtain ⟨a, es, hstop, -, hes, -⟩ := stopPlayback_on h ⟨s, _ :: b.journal⟩
  rw [hstop] at hon
  change (publishEnd h s.transport.playing).on ⟨s.stopped a, es ++ _ :: b.journal⟩ = _ at hon
  rw [List.append_cons] at hon
  refine toldEnd hears (s := s) (s.stopped a) (fun line hline => ?_) recorded rfl hb hon
  refine .finish a fires fun e he => ?_
  rcases List.mem_append.1 he with he | he
  · rcases List.mem_append.1 (List.mem_reverse.1 he) with he | he
    · exact quiet_of_heard hes e he
    · rw [List.mem_singleton.1 he]
      rfl
  · exact hline e he

theorem drain (now : Float) (n fired : Nat) : Staged may I (drain h now n fired) := by
  induction n generalizing fired with
  | zero => exact giveUp
  | succ n ih =>
    intro b r b' hb hon
    rcases drain_cases hon with ⟨-, -, rfl⟩ | ⟨serial, ts, due, dead, rest⟩ |
      ⟨serial, ts, timer, due, here, alive, rest⟩
    · exact .refl b'
    · have first : Evolves may b (left ts b) := Stage.evolves [] (.pass due dead) rfl
      exact first.trans (ih fired (Lasting.kept hb first) rest)
    · obtain ⟨t, task⟩ := @Lasting.timers may I _ b hb timer (Array.mem_of_getElem? here)
      have fires : Fires b.part serial t (taken serial { b.part with timers := ts }) :=
        ⟨⟨now, ts, due, rfl⟩, timer, here, alive, task⟩
      have does {r₁ : Except Fault Unit} {b₁ : Bench Studio}
          (h₁ : (runTask h serial timer.task).on (left (ts.markFired serial) b) = some (r₁, b₁)) :
          Evolves may b b₁ := by
        rw [task] at h₁
        change (trigger h t).on ⟨taken serial { b.part with timers := ts }, b.journal⟩ = _ at h₁
        cases t with
        | noteOn n => exact trigger_noteOn hears fires rfl hb h₁
        | noteOff n => exact trigger_noteOff hears fires hb h₁
        | finish => exact trigger_finish hears fires rfl hb h₁
      rcases on_bind_inv rest with ⟨_, b₁, h₁, h₂⟩ | ⟨e, h₁, -⟩
      · exact (does h₁).trans (ih _ (Lasting.kept hb (does h₁)) h₂)
      · exact does h₁

theorem pump (now : Option Float) : Staged may I (pump h now) :=
  (compositional.moment now).bind fun _ => drain hears _ _ _

/-- Whatever a session is asked for goes through stages. -/
theorem carryOut {c : Command} (hc : c.ofSession = true) (allowed : may c = true) :
    Staged may I (carryOut h c) := by
  cases c with
  | advance seconds =>
    exact bind (change _ fun _ => .around _ _ _ _ _ _) fun _ =>
      bind compositional.look fun _ => pure _
  | pump now => exact (pump hears now).bind fun _ => pure _
  | tick now => exact (pump hears now).bind fun _ => pure _
  | countTimers => exact compositional.look.bind fun _ => pure _
  | stopPlayback => exact (stopPlayback hears).bind fun _ => pure _
  | stop => exact (stopPlayback hears).bind fun _ => pure _
  | beatsToMs beats bpm =>
    exact compositional.look.bind fun _ => (compositional.orFail _).bind fun _ => pure _
  | elapsed now =>
    exact compositional.look.bind fun _ => (compositional.moment now).bind fun _ => pure _
  | elapsedBeats now =>
    exact compositional.look.bind fun _ => (compositional.moment now).bind fun _ =>
      (compositional.orFail _).bind fun _ => pure _
  | setVelocity velocity =>
    exact bind (change _ fun _ => .around _ _ _ _ _ _) fun _ => pure _
  | setNotes melody =>
    exact (compositional.readMelody melody).bind fun notes => (setNotes notes).bind fun _ => pure _
  | setGhosts melody =>
    exact (compositional.readMelody melody).bind fun notes => (setGhosts notes).bind fun _ => pure _
  | setScript text => exact (setScript text).bind fun _ => pure _
  | loadSong name => exact (loadSong name).bind fun _ => pure _
  | listSongs => exact pure _
  | setBpm bpm => exact (setBpm bpm).bind fun _ => pure _
  | play => exact (play hears).bind fun _ => pure _
  | playStop =>
    exact (compositional.look.bind fun _ => compositional.ite (stopPlayback hears)
      (compositional.discard (play hears))).bind fun _ => pure _
  | replay => exact ((stopPlayback hears).bind fun _ => play hears).bind fun _ => pure _
  | shuffle => exact shuffle.bind fun _ => pure _
  | frame now => exact (compositional.frame now).bind fun _ => pure _
  | render now =>
    refine bind ((compositional.discard (pump hears now)).bind fun _ =>
      (compositional.frame now).bind fun f => ?_) fun _ => pure _
    cases f with
    | none => exact pure _
    | some f => exact (write rfl).bind fun _ => pure _
  | startPlayback melody bpm extent =>
    exact (compositional.readMelody melody).bind fun notes =>
      (startPlayback hears ⟨_, allowed, rfl⟩ notes bpm extent).bind fun _ => pure _
  | togglePlayback melody bpm =>
    exact (compositional.readMelody melody).bind fun notes =>
      (compositional.look.bind fun _ => compositional.ite (stopPlayback hears)
        (compositional.discard (startPlayback hears ⟨_, allowed, rfl⟩ notes bpm none))).bind
          fun _ => pure _
  | _ => cases hc

end Heard

end Staged

/-! ## Lasting -/

/-- What holds at a bench, with what the journal said before and says there. -/
def HoldsAt (I : List Entry → Studio → Prop) (past : List Entry) (b : Bench Studio) : Prop :=
  OnlyPlayback b.part.timers ∧ I (past ++ b.journal.reverse) b.part

theorem Preserved.lasting {I : List Entry → Studio → Prop} (kept : Preserved may I)
    (past : List Entry) : Lasting may (HoldsAt I past) where
  timers h := h.1
  kept {b b'} h := by
    rintro ⟨es, journal, stages⟩
    refine ⟨stages.onlyPlayback h.1, ?_⟩
    rw [journal, List.reverse_append, List.reverse_reverse, ← List.append_assoc]
    exact kept.stages h.2 stages

/-! ## Listeners -/

/-- What those may do who listen to a session of which some commands may be asked: ask for more of
them, and leave alone what plays and how it was measured otherwise. They may count on some things
when they look at the studio. -/
def Scope.consulting (may : Command → Bool) (expected : Studio → Prop) : Scope where
  changes := Calm
  chains := ⟨.refl, .trans⟩
  writes e := e.ofRun = false
  expects := expected
  publishes e := (Entry.event e).ofRun = false
  asks c := may c = true

section Asked

variable (ofSession : ∀ {c}, may c = true → c.ofSession = true) {expected : Studio → Prop}
include ofSession

theorem Callback.staged {I : Bench Studio → Prop} [Lasting may I]
    (met : ∀ {b}, I b → expected b.part) {p : Act α}
    (callback : Callback (.consulting may expected) p) : Staged may I p := by
  induction callback with
  | act alters => exact Staged.ofAlters alters
  | bind _ _ ihp ihf => exact ihp.bind ihf
  | rescue _ _ ihp ihf => exact ihp.rescue ihf
  | look _ ih =>
    intro b r b' hb hon
    rw [on_bind_ok (on_look b)] at hon
    exact ih b.part (met hb) hb hon
  | react r e => exact Staged.react r e
  | publish h _ e he ih => exact Staged.publish ih he
  | ask h _ _ c allowed ih => exact Staged.carryOut ih (ofSession allowed) allowed

/-- What is not lost at any stage holds after whatever a session is asked for in turn, also by those
who expect it to hold whenever they look. -/
theorem Preserved.inTurn {I : List Entry → Studio → Prop} (kept : Preserved may I)
    (met : ∀ {past s}, I past s → expected s) {h : Hooks}
    (hears : ∀ l e, Callback (.consulting may expected) (h.hear l e)) {cs : List Command}
    (hcs : ∀ c ∈ cs, may c = true) (past : List Entry) {s : Studio}
    (timers : OnlyPlayback s.timers) (hs : I past s) {steps : List Step}
    (hrun : inTurn h cs s = some steps) :
    I (past ++ steps.flatMap Step.entries) (s.after steps) := by
  induction cs generalizing past s steps with
  | nil =>
    cases hrun
    rwa [List.flatMap_nil, List.append_nil]
  | cons c cs ih =>
    obtain ⟨step, rest, rfl, hrest, hon⟩ := inTurn_cons_inv hrun
    have allowed := hcs c List.mem_cons_self
    have lasting := kept.lasting past
    have begins : HoldsAt I past ⟨s, []⟩ := by
      refine ⟨timers, ?_⟩
      rwa [List.reverse_nil, List.append_nil]
    have listens (l : Listener) (e : Event) : Staged may (HoldsAt I past) (h.hear l e) :=
      (hears l e).staged ofSession fun hb => met hb.2
    have staged := Staged.carryOut listens (ofSession allowed) allowed
    obtain ⟨timers', hs'⟩ := lasting.kept begins (staged begins hon)
    rw [List.reverse_reverse] at hs'
    rw [after_cons, List.flatMap_cons, ← List.append_assoc]
    exact ih (fun c hc => hcs c (List.mem_cons_of_mem _ hc)) _ timers' hs' hrest

end Asked

/-! ## A session that is revised meanwhile -/

/-- A listener that hands over another script and other ghosts whenever it hears a note begin. -/
def revising : Hooks := prompted fun
  | .noteOn .. => [.setScript "octave 7\nC", .setGhosts (.notes [])]
  | _ => []

def consulting_revising {expected : Studio → Prop}
    (allows : ∀ c : Command, c.playsOwn = true → may c = true) (l : Listener) (e : Event) :
    Callback (.consulting may expected) (revising.hear l e) :=
  .give _ fun c hc => allows c <| by
    cases e <;> revert c <;> simp [Command.playsOwn, Command.ofSession]

/-- A studio on whose bus somebody listens to notes, and whose runs are recorded. -/
def revisedStudio : Studio :=
  { bus := [("note_on", .scripted "revision")]
    recorded := ["transport", "note_on"] }

theorem fresh_revisedStudio : Fresh revisedStudio := ⟨rfl, rfl, rfl, rfl⟩

/-- A melody of which one note is played beside a ghost. -/
def revision : List Command :=
  [.setScript "C\nE", .setGhosts (.notes [⟨72, "C5", 0, 1⟩]), .play, .advance 0.6, .tick none]

end Studio

end PianoRoll
