import PianoRoll.Proofs.Callback
import PianoRoll.Proofs.Editing.Interference
import PianoRoll.Proofs.Editor.Typing
import PianoRoll.Proofs.Playback.Onward
import PianoRoll.Proofs.Program.Tempo
import PianoRoll.Proofs.Session.Frames
import PianoRoll.Proofs.Session.Scripted

/-!
What sessions show. Whatever a session is asked for, also by those who listen to it in the middle of
something else, it has measured what it shows, and its tempo is the first one or one within the
limits (`Showing`). So the first tempo decides: every frame is exact, and there is one unless the
session is at rest with nothing to be shown, if a beat lasts at that tempo, and only then
(`frames_exact`).
-/

namespace PianoRoll

open Number Work

/-! ## Melodies that are handed over -/

def Note.ends (n : Note) : Bool := content n.finish != .nan

/-- A melody whose notes end, as those of every script do. -/
def Melody.ends : Melody → Bool
  | .notes ns => ns.all Note.ends
  | .script _ => true

/-- The commands of a session that hand over no melody without an end, and leave it to the session
what is played, in which extent and at which tempo. -/
def Command.shows : Command → Bool
  | .startPlayback .. | .togglePlayback .. => false
  | .setNotes melody | .setGhosts melody => melody.ends
  | c => c.ofSession

def PlaybackSettings.Lasting (p : PlaybackSettings) : Prop :=
  ∀ bpm, Lasts p.referenceBpm (clamp p.minBpm p.maxBpm bpm)

theorem PlaybackSettings.Sensible.lasting {p : PlaybackSettings} (hp : p.Sensible) : p.Lasting :=
  fun bpm => hp.beat_lasts (hp.allows_clamp bpm)

def Melody.read : Melody → List Note
  | .notes ns => ns
  | .script text => Script.notesOf text

theorem numeric_of_content {x : Float} (h : content x ≠ .nan) : Numeric x := by
  rcases numeric_or_not x with hx | hx
  · exact hx
  · rw [content_eq, hx] at h
    exact absurd rfl h

theorem Script.numeric_notesOf (text : String) : ∀ n ∈ notesOf text, Numeric n.finish :=
  fun n hn => (numeric_of_le (notesOf_written text n hn).inTime.2).2

theorem Melody.numeric_read {melody : Melody} (h : melody.ends = true) :
    ∀ n ∈ melody.read, Numeric n.finish := by
  cases melody with
  | notes ns =>
    intro n hn
    exact numeric_of_content (by simpa [Note.ends] using List.all_eq_true.1 h n hn)
  | script text => exact Script.numeric_notesOf text

namespace Studio

theorem readMelody_on (melody : Melody) (b : Bench Studio) :
    ∃ b', (readMelody melody).on b = some (.ok melody.read, b') ∧ b'.part = b.part := by
  cases melody with
  | notes ns => exact ⟨b, rfl, rfl⟩
  | script text => exact on_readScript text b

/-! ## Studios that show what they have measured -/

/-- A studio that shows what it has measured, at a tempo at which a beat lasts. -/
structure Showing (p : PlaybackSettings) (s : Studio) : Prop where
  settings : s.settings = p
  tempo : Lasts p.referenceBpm s.session.bpm
  running : Lasts p.referenceBpm s.transport.bpm
  shows : s.session.Shows s.transport

namespace Showing

variable {p : PlaybackSettings} {s : Studio} (h : Showing p s)
include h

theorem onward {s' : Studio} (on : Onward s s') : Showing p s' where
  settings := on.settings.trans h.settings
  tempo := by rw [on.session]; exact h.tempo
  running := by rw [on.bpm]; exact h.running
  shows := by
    refine ⟨by rw [on.session]; exact h.shows.standing, fun plays => ?_⟩
    rw [on.session, on.notes, on.extent]
    exact h.shows.run (on.playing plays)

theorem setNotes {notes : List Note} (ends : ∀ n ∈ notes, Numeric n.finish) :
    Showing p { s with session := s.session.setNotes notes } :=
  have ghosts := (List.forall_mem_append.1 h.shows.standing.ends).2
  have standing : Measures notes s.session.ghosts (Extent.of? (notes ++ s.session.ghosts)) :=
    ⟨List.forall_mem_append.2 ⟨ends, ghosts⟩, rfl⟩
  ⟨h.settings, h.tempo, h.running, standing, h.shows.run⟩

theorem setGhosts {ghosts : List Note} (ends : ∀ n ∈ ghosts, Numeric n.finish) :
    Showing p { s with session := s.session.setGhosts ghosts } :=
  have notes := (List.forall_mem_append.1 h.shows.standing.ends).1
  have standing : Measures s.session.notes ghosts (Extent.of? (s.session.notes ++ ghosts)) :=
    ⟨List.forall_mem_append.2 ⟨notes, ends⟩, rfl⟩
  ⟨h.settings, h.tempo, h.running, standing, h.shows.run⟩

/-- At rest it does not matter what ghosts the last run had. -/
theorem changeGhosts (rests : s.transport.playing = false) (ghosts : List Note) :
    Showing p { s with session := { s.session with playedGhosts := ghosts } } :=
  ⟨h.settings, h.tempo, h.running, h.shows.standing, fun plays => absurd plays (by simp [rests])⟩

/-- A run in the extent of its melodies begins. -/
theorem begun {notes : List Note} (hne : notes ≠ []) {bpm : Float}
    (lasts : Lasts p.referenceBpm bpm)
    (ends : ∀ n ∈ notes ++ s.session.playedGhosts, Numeric n.finish) :
    Showing p (s.begun notes bpm (Extent.of? (notes ++ s.session.playedGhosts))) := by
  refine ⟨h.settings, h.tempo, lasts, h.shows.standing, fun _ => ⟨hne, ends, ?_⟩⟩
  cases notes with
  | nil => exact absurd rfl hne
  | cons n rest => rfl

end Showing

/-! ## Acts that keep to what is shown -/

abbrev KeepsShowing {α : Type} (p : PlaybackSettings) (act : Act α) : Prop :=
  Leads (fun s s' => Showing p s → Showing p s') act

namespace KeepsShowing

variable {p : PlaybackSettings} {α : Type}

theorem onward : RespectsOnward fun s s' => Showing p s → Showing p s' :=
  respectsOnward_of_onward fun h on => h.onward on

theorem readMelody_bind {melody : Melody} {f : List Note → Act α}
    (hf : KeepsShowing p (f melody.read)) : KeepsShowing p (readMelody melody >>= f) := by
  intro b r b' hon hb
  obtain ⟨b₁, hread, hpart⟩ := readMelody_on melody b
  rw [on_bind_ok hread] at hon
  exact hf hon (hpart ▸ hb)

theorem setNotes {notes : List Note} (ends : ∀ n ∈ notes, Numeric n.finish) :
    KeepsShowing p (changeSession (·.setNotes notes)) :=
  leads_change _ fun _ h => h.setNotes ends

theorem setGhosts {ghosts : List Note} (ends : ∀ n ∈ ghosts, Numeric n.finish) :
    KeepsShowing p (changeSession (·.setGhosts ghosts)) :=
  leads_change _ fun _ h => h.setGhosts ends

theorem setScript (text : String) : KeepsShowing p (setScript text) :=
  have taken : KeepsShowing p (changeSession (·.setNotes (Script.notesOf text))) :=
    setNotes (Script.numeric_notesOf text)
  show KeepsShowing p (readMelody (.script text) >>= _) from
    readMelody_bind (onward.bind taken fun _ => onward.pure _)

theorem loadSong (name : Option String) : KeepsShowing p (loadSong name) := by
  have named : KeepsShowing p (changeSession fun s => { s with song := name }) :=
    leads_change _ fun _ h => h.onward ⟨rfl, rfl, rfl, rfl, rfl, id⟩
  refine onward.bind named fun _ b r b' hon hb => ?_
  rcases on_bind_inv hon with ⟨ghosts, b₁, hread, hon⟩ | ⟨e, hread, -⟩
  · obtain ⟨hpart, script, rfl⟩ := songNotes_inv hread
    have taken := setGhosts (p := p) (Script.numeric_notesOf script)
    exact onward.bind taken (fun _ => onward.write _) hon (hpart ▸ hb)
  · exact onward.compositional.songNotes name hread hb

theorem setBpm (limits : p.Lasting) (bpm : TempoText) : KeepsShowing p (setBpm bpm) := by
  refine onward.bind (onward.orFail _) fun x => leads_look_bind fun s hs => ?_
  rw [hs.settings]
  have held : KeepsShowing p (changeSession (·.setBpm p x)) := leads_change _ fun s hs =>
    ⟨hs.settings, limits x, hs.running, hs.shows.standing, hs.shows.run⟩
  exact onward.bind held fun _ => onward.bind onward.look fun _ => onward.pure _

theorem react (r : Reaction) (e : Event) : KeepsShowing p (react r e) := by
  have aside (f : Studio → Desk) : KeepsShowing p (Work.change fun s => { s with desk := f s }) :=
    onward.change _ fun _ => ⟨rfl, rfl, rfl⟩
  unfold Studio.react
  split
  · exact aside _
  · exact aside _
  · exact aside _
  · exact aside _
  · next text =>
    intro b r b' hon hb
    obtain ⟨b₁, h₁, hpart, -⟩ := recompile_on text b
    rw [h₁] at hon
    cases hon
    rw [hpart]
    exact (hb.setNotes (Script.numeric_notesOf text)).onward ⟨rfl, rfl, rfl, rfl, rfl, id⟩
  · exact onward.pure _

section Called

variable {h : Hooks} (called : CallsAlong (fun s s' => Showing p s → Showing p s') h)
include called

theorem startPlayback {notes : List Note} {bpm : Float} {b b' : Bench Studio}
    {r : Except Fault Bool} (hb : Showing p b.part) (rests : b.part.transport.playing = false)
    (hne : notes ≠ []) (lasts : Lasts p.referenceBpm bpm)
    (ends : ∀ n ∈ notes ++ b.part.session.playedGhosts, Numeric n.finish)
    (hon : (startPlayback h notes (some bpm)
      (Extent.of? (notes ++ b.part.session.playedGhosts))).on b = some (r, b')) :
    Showing p b'.part := by
  have starts : (b.part.transport.playing || notes.isEmpty) = false := by simp [rests, hne]
  have tempo := orTempo_of_moves lasts.moves b.part.settings.tempo
  rw [startPlayback_on h _ starts (by rw [tempo, lasts.moves]), tempo] at hon
  exact onward.bind (onward.publish called _) (fun _ => onward.pure _) hon
    (hb.begun hne lasts ends)

/-- A run begins with the melody and the ghosts that the session has at that moment, and in the
extent of both. -/
theorem play : KeepsShowing p (play h) := by
  intro b r b' hon hb
  unfold Studio.play at hon
  rw [on_bind_ok (on_look b)] at hon
  split at hon
  · cases hon
    exact hb
  · next starts =>
    obtain ⟨rests, hne⟩ : b.part.transport.playing = false ∧ b.part.session.notes ≠ [] := by
      simpa using starts
    rcases on_bind_inv hon with ⟨_, b₁, hshuffle, hon⟩ | ⟨e, hshuffle, -⟩
    · -- only the monsters are in another order
      have on := respectsOnward_onward.compositional.discard respectsOnward_onward.shuffle hshuffle
      have rests₁ : b₁.part.transport.playing = false :=
        Bool.eq_false_iff.2 fun plays => absurd (on.playing plays) (by simp [rests])
      have ghosts : b₁.part.session.ghosts = b.part.session.ghosts := by rw [on.session]
      let b₂ : Bench Studio := ⟨{ b₁.part with session :=
        { b₁.part.session with playedGhosts := b₁.part.session.ghosts } }, b₁.journal⟩
      have hchange : (changeSession fun s => { s with playedGhosts := s.ghosts }).on b₁ =
        some (.ok (), b₂) := rfl
      rw [on_bind_ok hchange, ← ghosts] at hon
      have ends : ∀ n ∈ b.part.session.notes ++ b₂.part.session.playedGhosts, Numeric n.finish := by
        change ∀ n ∈ b.part.session.notes ++ b₁.part.session.ghosts, _
        rw [ghosts]
        exact hb.shows.standing.ends
      have taken : Showing p b₂.part := (hb.onward on).changeGhosts rests₁ _
      exact startPlayback called taken rests₁ hne hb.tempo ends hon
    · exact onward.compositional.discard onward.shuffle hshuffle hb

theorem carryOut (limits : p.Lasting) {c : Command} (hc : c.shows = true) :
    KeepsShowing p (carryOut h c) := by
  cases c with
  | setNotes melody =>
    exact readMelody_bind <| onward.bind (setNotes (melody.numeric_read hc)) fun _ =>
      onward.pure _
  | setGhosts melody =>
    exact readMelody_bind <| onward.bind (setGhosts (melody.numeric_read hc)) fun _ =>
      onward.pure _
  | setScript text => exact onward.bind (setScript text) fun _ => onward.pure _
  | loadSong name => exact onward.bind (loadSong name) fun _ => onward.pure _
  | setBpm bpm => exact onward.bind (setBpm limits bpm) fun _ => onward.pure _
  | play => exact onward.bind (play called) fun _ => onward.pure _
  | playStop =>
    exact onward.bind (onward.bind onward.look fun _ =>
      leads_ite (onward.stopPlayback called) (onward.compositional.discard (play called)))
        fun _ => onward.pure _
  | replay =>
    exact onward.bind (onward.bind (onward.stopPlayback called) fun _ => play called)
      fun _ => onward.pure _
  | startPlayback | togglePlayback => cases hc
  | _ => exact onward.carryOut called hc

end Called

end KeepsShowing

/-! ## Listeners -/

/-- What those may do who listen to a session that is to show what it has measured: ask for more,
and leave settings, session and transport alone otherwise. -/
def Scope.showings : Scope where
  changes s s' := s'.settings = s.settings ∧ s'.session = s.session ∧ s'.transport = s.transport
  chains := ⟨fun _ => ⟨rfl, rfl, rfl⟩,
    fun h h' => ⟨h'.1.trans h.1, h'.2.1.trans h.2.1, h'.2.2.trans h.2.2⟩⟩
  asks c := c.shows = true
  runs := True

theorem Callback.keepsShowing {p : PlaybackSettings} (limits : p.Lasting) {α : Type} {act : Act α}
    (callback : Callback .showings act) : KeepsShowing p act := by
  refine Callback.leads KeepsShowing.onward.toChains ?_ KeepsShowing.react (fun _ => trivial)
    (fun _ => id) (fun hears runs may => KeepsShowing.carryOut ⟨hears, runs trivial⟩ limits may)
    callback
  rintro s s' ⟨settings, session, transport⟩ hs
  exact hs.onward ⟨settings, by rw [session], by rw [transport], by rw [transport],
    by rw [transport], by rw [transport]; exact id⟩

/-! ## Frames -/

/-- A session that was built on some settings and has nothing to show yet. -/
structure EmptyOn (p : PlaybackSettings) (s : Studio) : Prop extends BuiltOn p s where
  rests : s.transport.playing = false
  notes : s.session.notes = []
  ghosts : s.session.ghosts = []
  extent : s.session.extent = none

theorem EmptyOn.showing {p : PlaybackSettings} {s : Studio} (empty : EmptyOn p s)
    (lasts : Lasts p.referenceBpm p.tempo) : Showing p s where
  settings := empty.settings
  tempo := empty.session ▸ lasts
  running := empty.transport ▸ lasts
  shows :=
    { standing := ⟨by simp [empty.notes, empty.ghosts],
        by rw [empty.notes, empty.ghosts, empty.extent]; rfl⟩
      run := fun plays => absurd plays (by simp [empty.rests]) }

/-- At every moment there is a frame and it is exact, unless the studio is at rest with nothing to
be shown: then there is none. -/
def ShowsExactly (s : Studio) : Prop :=
  ∀ (journal : List Entry) (now : Option Float), ∃ f,
    (frame now).on ⟨s, journal⟩ = some (.ok f, ⟨s, journal⟩) ∧
    (f = none ↔ s.transport.playing = false ∧ s.session.notes = [] ∧ s.session.ghosts = []) ∧
    ∀ x ∈ f, x.Exact

theorem Showing.showsExactly {p : PlaybackSettings} {s : Studio} (h : Showing p s) :
    ShowsExactly s := by
  intro journal now
  obtain ⟨f, hf, frames⟩ := h.shows.frame? h.running (now.getD s.clock)
  refine ⟨f, ?_, frames⟩
  rw [frame_on, h.settings, hf]

/-- A studio with a melody has no frame unless a beat lasts. -/
theorem ShowsExactly.lasts {s : Studio} (h : ShowsExactly s) (hne : s.session.notes ≠ []) :
    Lasts s.settings.referenceBpm s.transport.bpm := by
  obtain ⟨f, hf, hnone, -⟩ := h [] none
  rw [frame_on] at hf
  cases f with
  | none => exact absurd (hnone.1 rfl).2.1 hne
  | some f => exact Session.lasts_of_frame? (congrArg Prod.fst (Option.some.inj hf))

/-- The first tempo decides. Whatever a session is asked for that takes over no times that are no
numbers, its frames are exact, and there is one unless it is at rest with nothing to be shown, if a
beat lasts at the tempo that it was built on, and only then. At the usual reference that is every
tempo but zero and the infinite ones. -/
theorem frames_exact {p : PlaybackSettings} (limits : p.Lasting) {h : Hooks}
    (hears : ∀ l e, Callback .showings (h.hear l e))
    (runs : ∀ name program, Callback .showings (h.run name program)) {s : Studio}
    (empty : EmptyOn p s) :
    (Lasts p.referenceBpm p.tempo ↔
      ∀ cs, (∀ c ∈ cs, c.shows = true) → ∀ steps, inTurn h cs s = some steps →
        ShowsExactly (s.after steps)) ∧
    (p.referenceBpm = 120 → (Lasts p.referenceBpm p.tempo ↔
      (p.tempo == 0) = false ∧ ∀ negative, content p.tempo ≠ .infinite negative)) := by
  refine ⟨⟨fun lasts cs hcs steps hrun => ?_, fun always => ?_⟩, fun usual => ?_⟩
  · have called : CallsAlong (fun s s' => Showing p s → Showing p s') h :=
      ⟨fun l e => (hears l e).keepsShowing limits,
        fun name program => (runs name program).keepsShowing limits⟩
    have last := leads_inTurn KeepsShowing.onward.toChains
      (fun c hc => KeepsShowing.carryOut called limits (hcs c hc)) hrun (empty.showing lasts)
    exact last.showsExactly
  · -- one note is enough for a frame to be needed
    let melody : List Note := [⟨60, "C4", 0, 1⟩]
    have exact := always [.setNotes (.notes melody)] (by decide) _ rfl
    have lasts := exact.lasts (List.cons_ne_nil _ _)
    change Lasts s.settings.referenceBpm s.transport.bpm at lasts
    rwa [empty.settings, empty.transport] at lasts
  · rw [usual]
    exact lasts_iff p.tempo

/-- A listener that hands over another script and plays from the beginning whenever it hears a note
begin. -/
def encore : Hooks := prompted fun
  | .noteOn .. => [.setScript "step 1/8\nG\nrest\nE", .replay]
  | _ => []

def showings_encore (l : Listener) (e : Event) : Callback .showings (encore.hear l e) :=
  .give _ (by cases e <;> simp [Scope.showings, Command.shows, Command.ofSession])

def demanding : Studio := { bus := [("note_on", .scripted "encore")] }

/-- A melody that is played beside a ghost, taken away, and followed by another one. -/
def demanded : List Command :=
  [.setScript "C\nD", .setGhosts (.notes [⟨64, "E4", 0, 1⟩]), .play, .setNotes (.notes []),
    .advance 0.6, .tick none, .setGhosts (.notes [])]

theorem frames_exact_encore : ∃ steps, inTurn encore demanded demanding = some steps ∧
    (demanding.after steps).transport.playing = true ∧ ShowsExactly (demanding.after steps) := by
  have limits : ({} : PlaybackSettings).Lasting := (PlaybackSettings.sensible_default _).lasting
  have empty : EmptyOn {} demanding := ⟨⟨rfl, rfl, rfl⟩, rfl, rfl, rfl, rfl⟩
  obtain ⟨always, lasts⟩ := frames_exact limits showings_encore (fun _ _ => .pure ()) empty
  obtain ⟨steps, hrun, plays⟩ : ∃ steps, inTurn encore demanded demanding = some steps ∧
      (demanding.after steps).transport.playing = true := by
    have played : ((inTurn encore demanded demanding).map fun steps =>
      (demanding.after steps).transport.playing) = some true := by decide +kernel
    exact Option.map_eq_some_iff.1 played
  refine ⟨steps, hrun, plays, always.1 ((lasts rfl).2 ?_) _ (by decide +kernel) steps hrun⟩
  exact ⟨by decide +kernel, by decide +kernel⟩

end Studio

namespace Program

open Studio

/-- The tempo of the command line may be infinite. Then there is a melody, and no frame of it. -/
theorem frames_exact_infinite : ∃ settings, CommandLine.read ["--bpm", "inf"] = .ok settings ∧
    EmptyOn settings.playback (studio settings {}) ∧ (settings.playback.tempo == 0) = false ∧
    (inTurn (deskHooks (studio settings {})) [.setScript "C", .frame none]
      (studio settings {})).map
        (·.map fun step => match step.outcome with
          | .ok _ => none
          | .error f => some f) =
      some [none, some .realDivision] := by
  refine ⟨{ playback := { bpm := .value (infinity false) } }, rfl,
    ⟨builtOn_studio _ _, rfl, rfl, rfl, rfl⟩, ?_, ?_⟩
  · decide +kernel
  · decide +kernel

end Program

end PianoRoll
