import PianoRoll.Proofs.Callback
import PianoRoll.Proofs.Playback.Onward
import PianoRoll.Proofs.Playback.Runs
import PianoRoll.Proofs.Session.Scripted

/-!
Songs and their ghosts. Loading a song that is known takes its name and its melody; loading one that
nobody knows takes the name alone and fails (`loadSong_cases`). So whatever a session is asked for
that hands over no ghosts itself, its ghosts are the melody of its song while that is known, and
otherwise those of the last song that was (`ghosts_follow_songs`).
-/

namespace PianoRoll

open Work

/-- The ghosts of a song, if it is known; no song has none. -/
def ghostsOf? : Option String → Option (List Note)
  | none => some []
  | some name => if name.isEmpty then some [] else (songs.lookup name).map Script.notesOf

/-- The commands of a session that hand over no ghosts but those of a song. -/
def Command.keepsToSongs : Command → Bool
  | .setGhosts _ => false
  | c => c.ofSession

/-- The name of a song and ghosts, after a command was carried out that keeps to songs. -/
def Command.sing : Option String × List Note → Command → Option String × List Note
  | (_, ghosts), .loadSong name => (name, (ghostsOf? name).getD ghosts)
  | known, _ => known

namespace Studio

/-- A studio whose ghosts are the melody of its song, if that is known. -/
def InTune (s : Studio) : Prop :=
  ∀ ghosts, ghostsOf? s.session.song = some ghosts → s.session.ghosts = ghosts

/-! ## Loading songs -/

theorem songNotes_on_known {name : Option String} {ghosts : List Note}
    (known : ghostsOf? name = some ghosts) (b : Bench Studio) :
    ∃ b', (songNotes name).on b = some (.ok ghosts, b') ∧ b'.part = b.part := by
  cases name with
  | none =>
    cases known
    exact ⟨b, rfl, rfl⟩
  | some name =>
    unfold ghostsOf? at known
    unfold songNotes
    dsimp only at known ⊢
    by_cases blank : name.isEmpty = true
    · rw [if_pos blank] at known ⊢
      cases known
      exact ⟨b, rfl, rfl⟩
    · rw [if_neg blank] at known ⊢
      obtain ⟨script, found, rfl⟩ := Option.map_eq_some_iff.1 known
      rw [songScript, found]
      exact on_readScript script b

theorem songNotes_on_unknown {name : Option String} (unknown : ghostsOf? name = none)
    (b : Bench Studio) : ∃ n, name = some n ∧
      (songNotes name).on b = some (.error (.unknownSong n), b) := by
  cases name with
  | none => cases unknown
  | some n =>
    refine ⟨n, rfl, ?_⟩
    unfold ghostsOf? at unknown
    unfold songNotes
    dsimp only at unknown ⊢
    by_cases blank : n.isEmpty = true
    · rw [if_pos blank] at unknown
      cases unknown
    · rw [if_neg blank] at unknown ⊢
      rw [songScript, Option.map_eq_none_iff.1 unknown]
      rfl

/-- A song that is known brings its ghosts, and extent and view follow. -/
theorem loadSong_on_known {name : Option String} {ghosts : List Note}
    (known : ghostsOf? name = some ghosts) (b : Bench Studio) :
    ∃ b', (loadSong name).on b = some (.ok (), b') ∧ b'.part =
      { b.part with session := { b.part.session with song := name }.setGhosts ghosts } := by
  let b₁ : Bench Studio :=
    ⟨{ b.part with session := { b.part.session with song := name } }, b.journal⟩
  have named : (changeSession fun s => { s with song := name }).on b = some (.ok (), b₁) := rfl
  obtain ⟨b₂, hread, hpart⟩ := songNotes_on_known known b₁
  unfold loadSong
  rw [on_bind_ok named, on_bind_ok hread]
  exact ⟨_, rfl,
    congrArg (fun s : Studio => { s with session := s.session.setGhosts ghosts }) hpart⟩

/-- Of a song that nobody knows the name is taken over, and nothing else. -/
theorem loadSong_on_unknown {name : Option String} (unknown : ghostsOf? name = none)
    (b : Bench Studio) : ∃ n, name = some n ∧ (loadSong name).on b = some
      (.error (.unknownSong n),
        ⟨{ b.part with session := { b.part.session with song := name } }, b.journal⟩) := by
  let b₁ : Bench Studio :=
    ⟨{ b.part with session := { b.part.session with song := name } }, b.journal⟩
  have named : (changeSession fun s => { s with song := name }).on b = some (.ok (), b₁) := rfl
  obtain ⟨n, rfl, hfail⟩ := songNotes_on_unknown unknown b₁
  unfold loadSong
  exact ⟨n, rfl, (on_bind_ok named).trans (on_bind_error hfail)⟩

/-- Loading takes the name of a song in any case, and its ghosts if it is known. -/
theorem loadSong_sings {name : Option String} {b b' : Bench Studio} {r : Except Fault Unit}
    (hon : (loadSong name).on b = some (r, b')) : b'.part.session.song = name ∧
      b'.part.session.ghosts = (ghostsOf? name).getD b.part.session.ghosts := by
  cases known : ghostsOf? name with
  | some ghosts =>
    obtain ⟨b₁, hload, hpart⟩ := loadSong_on_known known b
    rw [hload] at hon
    cases hon
    rw [hpart]
    exact ⟨rfl, rfl⟩
  | none =>
    obtain ⟨n, rfl, hload⟩ := loadSong_on_unknown known b
    rw [hload] at hon
    cases hon
    exact ⟨rfl, rfl⟩

/-! ## Acts that do not load songs -/

/-- Two studios whose sessions have the same song and the same ghosts. -/
structure SameSong (s s' : Studio) : Prop where
  song : s'.session.song = s.session.song
  ghosts : s'.session.ghosts = s.session.ghosts

theorem SameSong.refl (s : Studio) : SameSong s s := ⟨rfl, rfl⟩

theorem SameSong.trans {s s' s'' : Studio} (h : SameSong s s') (h' : SameSong s' s'') :
    SameSong s s'' :=
  ⟨h'.song.trans h.song, h'.ghosts.trans h.ghosts⟩

theorem InTune.same {s s' : Studio} (h : s.InTune) (same : SameSong s s') : s'.InTune := by
  intro ghosts known
  rw [same.song] at known
  rw [same.ghosts]
  exact h ghosts known

/-- A relation that can be followed and holds as long as neither song nor ghosts change. -/
structure RespectsSong (R : Studio → Studio → Prop) : Prop extends Chains R where
  same {s s' : Studio} : SameSong s s' → R s s'

theorem respectsSong_sameSong : RespectsSong SameSong := ⟨⟨.refl, .trans⟩, id⟩

theorem respectsSong_inTune : RespectsSong fun s s' => InTune s → InTune s' :=
  ⟨⟨fun _ => id, fun h h' => h' ∘ h⟩, fun same h => h.same same⟩

namespace RespectsSong

variable {R : Studio → Studio → Prop} (hR : RespectsSong R)
include hR

theorem respectsUnsung : RespectsUnsung R :=
  ⟨hR.toChains, fun unsung => hR.same ⟨unsung.song, by rw [unsung.session]⟩⟩

theorem compositional : Compositional (Leads R) := compositional_leads hR.toChains

theorem change (f : Studio → Studio) (hf : ∀ s, SameSong s (f s)) : Leads R (change f) :=
  leads_change f fun s => hR.same (hf s)

theorem changeSession (f : Session → Session)
    (hf : ∀ s, (f s).song = s.song ∧ (f s).ghosts = s.ghosts) : Leads R (changeSession f) :=
  hR.change _ fun s => ⟨(hf s.session).1, (hf s.session).2⟩

theorem changeTransport (f : Transport → Transport) : Leads R (changeTransport f) :=
  hR.change _ fun _ => ⟨rfl, rfl⟩

theorem scheduleAll (start : Float) (plan : List (Float × Trigger)) :
    Leads R (scheduleAll start plan) := by
  induction plan with
  | nil => exact hR.pure _
  | cons m plan ih =>
    have first : Leads R (scheduleTrigger start m.1 m.2) :=
      hR.bind hR.look fun _ => hR.bind (hR.orFail _) fun _ => hR.bind hR.look fun _ =>
        hR.bind (hR.change _ fun _ => ⟨rfl, rfl⟩) fun _ => hR.pure _
    exact hR.bind first fun _ => hR.bind ih fun _ => hR.pure _

theorem setScript (text : String) : Leads R (setScript text) :=
  hR.bind (hR.compositional.readScript text) fun _ =>
    hR.bind (hR.changeSession _ fun _ => ⟨rfl, rfl⟩) fun _ => hR.pure _

theorem setBpm (bpm : TempoText) : Leads R (setBpm bpm) :=
  hR.bind (hR.orFail _) fun _ => hR.bind hR.look fun _ =>
    hR.bind (hR.changeSession _ fun _ => ⟨rfl, rfl⟩) fun _ => hR.bind hR.look fun _ => hR.pure _

theorem react (r : Reaction) (e : Event) : Leads R (react r e) :=
  hR.compositional.react (fun _ => hR.change _ fun _ => ⟨rfl, rfl⟩)
    (fun _ => hR.changeSession _ fun _ => ⟨rfl, rfl⟩) r e

theorem callsAlong_desk (s : Studio) : CallsAlong R (deskHooks s) where
  hears l e := by
    cases l with
    | desk r => exact hR.react r e
    | scripted name => exact hR.pure _
  runs _ _ := hR.pure _

section Called

variable {h : Hooks} (called : CallsAlong R h)
include called

theorem startPlayback (notes : List Note) (bpm : Option Float) (extent : Option Extent) :
    Leads R (startPlayback h notes bpm extent) :=
  hR.bind hR.look fun _ => leads_ite (hR.pure _) <| hR.bind (hR.changeTransport _) fun _ =>
    hR.bind (hR.scheduleAll _ _) fun _ => hR.bind (hR.changeTransport _) fun _ =>
      hR.bind (hR.write _) fun _ => hR.bind (hR.respectsUnsung.publish called _) fun _ => hR.pure _

theorem play : Leads R (play h) :=
  hR.bind hR.look fun _ => leads_ite (hR.pure _) <|
    hR.bind (hR.compositional.discard hR.respectsUnsung.shuffle) fun _ =>
      hR.bind (hR.changeSession _ fun _ => ⟨rfl, rfl⟩) fun _ => hR.startPlayback called _ _ _

/-- What loads no song and hands over no ghosts leaves both alone; and a relation that holds along
loading, too, holds along everything that keeps to songs. -/
theorem carryOut {c : Command} (hc : c.keepsToSongs = true)
    (loads : ∀ name, c = .loadSong name → Leads R (loadSong name)) : Leads R (carryOut h c) := by
  cases c with
  | startPlayback melody bpm extent =>
    exact hR.bind (hR.compositional.readMelody melody) fun _ =>
      hR.bind (hR.startPlayback called _ _ _) fun _ => hR.pure _
  | togglePlayback melody bpm =>
    exact hR.bind (hR.compositional.readMelody melody) fun _ => hR.bind (hR.bind hR.look fun _ =>
      leads_ite (hR.respectsUnsung.stopPlayback called)
        (hR.compositional.discard (hR.startPlayback called _ _ _))) fun _ => hR.pure _
  | setNotes melody =>
    exact hR.bind (hR.compositional.readMelody melody) fun _ =>
      hR.bind (hR.changeSession _ fun _ => ⟨rfl, rfl⟩) fun _ => hR.pure _
  | setScript text => exact hR.bind (hR.setScript text) fun _ => hR.pure _
  | loadSong name => exact hR.bind (loads name rfl) fun _ => hR.pure _
  | setBpm bpm => exact hR.bind (hR.setBpm bpm) fun _ => hR.pure _
  | play => exact hR.bind (hR.play called) fun _ => hR.pure _
  | playStop =>
    exact hR.bind (hR.bind hR.look fun _ => leads_ite (hR.respectsUnsung.stopPlayback called)
      (hR.compositional.discard (hR.play called))) fun _ => hR.pure _
  | replay =>
    exact hR.bind (hR.bind (hR.respectsUnsung.stopPlayback called) fun _ => hR.play called) fun _ =>
      hR.pure _
  | setGhosts => cases hc
  | _ => exact hR.respectsUnsung.carryOut called hc

end Called

end RespectsSong

/-! ## Listeners -/

/-- What those may do who listen to a session that is to stay in tune: ask for more but hand over no
ghosts, and leave song and ghosts alone otherwise. -/
def Scope.songs : Scope where
  changes := SameSong
  chains := respectsSong_sameSong.toChains
  asks c := c.keepsToSongs = true
  runs := True

/-- Such a listener is followed along by what can be followed through loading. -/
theorem Callback.sings {R : Studio → Studio → Prop} (hR : RespectsSong R)
    (loads : ∀ name, Leads R (loadSong name)) {α : Type} {act : Act α}
    (callback : Callback .songs act) : Leads R act :=
  Callback.leads hR.toChains hR.same hR.react (fun _ => trivial) (fun _ => id)
    (fun hears runs may => hR.carryOut ⟨hears, runs trivial⟩ may fun name _ => loads name) callback

/-! ## Whole sessions -/

/-- Loading leaves a studio in tune, whether the song is known or not. -/
theorem inTune_loadSong (name : Option String) :
    Leads (fun s s' => InTune s → InTune s') (loadSong name) := by
  intro b r b' hon _ ghosts known
  obtain ⟨song, sung⟩ := loadSong_sings hon
  rw [song] at known
  rw [sung, known, Option.getD_some]

/-- What one command does to song and ghosts. -/
theorem carryOut_sings {h : Hooks} (called : CallsAlong SameSong h) {c : Command}
    (hc : c.keepsToSongs = true) {b b' : Bench Studio} {r : Except Fault Answer}
    (hon : (carryOut h c).on b = some (r, b')) :
    (b'.part.session.song, b'.part.session.ghosts) =
      Command.sing (b.part.session.song, b.part.session.ghosts) c := by
  by_cases loads : ∃ name, c = .loadSong name
  · obtain ⟨name, rfl⟩ := loads
    obtain ⟨r₁, hload⟩ := on_bind_pure_inv hon
    obtain ⟨song, ghosts⟩ := loadSong_sings hload
    rw [song, ghosts]
    rfl
  · -- no other command that keeps to songs touches either
    have same := respectsSong_sameSong.carryOut called hc (fun name e => absurd ⟨name, e⟩ loads) hon
    rw [same.song, same.ghosts]
    cases c with
    | loadSong name => exact absurd ⟨name, rfl⟩ loads
    | _ => rfl

theorem inTurn_sings {h : Hooks} (called : CallsAlong SameSong h) {cs : List Command}
    (hcs : ∀ c ∈ cs, c.keepsToSongs = true) {s : Studio} {steps : List Step}
    (hrun : inTurn h cs s = some steps) :
    ((s.after steps).session.song, (s.after steps).session.ghosts) =
      cs.foldl Command.sing (s.session.song, s.session.ghosts) := by
  induction cs generalizing s steps with
  | nil =>
    cases hrun
    rfl
  | cons c cs ih =>
    obtain ⟨step, rest, rfl, hrest, hon⟩ := inTurn_cons_inv hrun
    rw [after_cons, ih (fun c hc => hcs c (List.mem_cons_of_mem _ hc)) hrest, List.foldl_cons,
      ← carryOut_sings called (hcs c List.mem_cons_self) hon]

/-- Loading a song fails just if nobody knows it, and then nothing has changed but the name of the
song. Whatever else a session is asked for that hands over no ghosts, also by its listeners, its
ghosts are the melody of its song if that is known. If the listeners leave songs alone, the song is
the last one that was asked for, and the ghosts are those of the last one that was known. -/
theorem ghosts_follow_songs (h : Hooks) :
    (∀ name ghosts, ghostsOf? name = some ghosts → ∀ b : Bench Studio,
      ∃ b', (loadSong name).on b = some (.ok (), b') ∧ b'.part =
        { b.part with session := { b.part.session with song := name }.setGhosts ghosts }) ∧
    (∀ name, ghostsOf? name = none → ∀ b : Bench Studio,
      ∃ n, name = some n ∧ (loadSong name).on b = some (.error (.unknownSong n),
        ⟨{ b.part with session := { b.part.session with song := name } }, b.journal⟩)) ∧
    ∀ cs s steps, (∀ c ∈ cs, c.keepsToSongs = true) → inTurn h cs s = some steps →
      ((∀ l e, Callback .songs (h.hear l e)) →
        (∀ name program, Callback .songs (h.run name program)) →
        s.InTune → (s.after steps).InTune) ∧
      (CallsAlong SameSong h → ((s.after steps).session.song, (s.after steps).session.ghosts) =
        cs.foldl Command.sing (s.session.song, s.session.ghosts)) := by
  refine ⟨fun _ _ known b => loadSong_on_known known b,
    fun _ unknown b => loadSong_on_unknown unknown b, fun cs s steps hcs hrun => ⟨?_, ?_⟩⟩
  · intro hears runs tune
    have called : CallsAlong (fun s s' => InTune s → InTune s') h :=
      ⟨fun l e => (hears l e).sings respectsSong_inTune inTune_loadSong,
        fun name program => (runs name program).sings respectsSong_inTune inTune_loadSong⟩
    refine leads_inTurn respectsSong_inTune.toChains (fun c hc => ?_) hrun tune
    exact respectsSong_inTune.carryOut called (hcs c hc) fun name _ => inTune_loadSong name
  · exact fun called => inTurn_sings called hcs hrun

/-- A listener that asks for another song whenever it hears a note begin. -/
def jukebox : Hooks := prompted fun
  | .noteOn pitch _ _ => [.loadSong (some (if pitch = 60 then "Ode to Joy" else "Nope"))]
  | _ => []

def songs_jukebox (l : Listener) (e : Event) : Callback .songs (jukebox.hear l e) :=
  .give _ (by cases e <;> simp [Scope.songs, Command.keepsToSongs, Command.ofSession])

def listening : Studio := { bus := [("note_on", .scripted "jukebox")] }

theorem ghosts_follow_songs_jukebox :
    (∃ steps, inTurn jukebox [.loadSong (some "Nope"), .setScript "C", .play, .advance 0.6,
        .tick none] listening = some steps ∧
      (listening.after steps).session.song = some "Ode to Joy" ∧ (listening.after steps).InTune) ∧
    ∃ steps, inTurn (deskHooks {}) [.loadSong (some "Scale"), .setScript "C", .play,
        .loadSong (some "Nope")] {} = some steps ∧
      (Studio.after {} steps).session.song = some "Nope" ∧
      ghostsOf? (some "Scale") = some (Studio.after {} steps).session.ghosts := by
  constructor
  · obtain ⟨steps, hrun, song⟩ : ∃ steps, inTurn jukebox [.loadSong (some "Nope"),
        .setScript "C", .play, .advance 0.6, .tick none] listening = some steps ∧
        (listening.after steps).session.song = some "Ode to Joy" := by
      have played : ((inTurn jukebox [.loadSong (some "Nope"), .setScript "C", .play,
          .advance 0.6, .tick none] listening).map fun steps =>
            (listening.after steps).session.song) = some (some "Ode to Joy") := by
        decide +kernel
      exact Option.map_eq_some_iff.1 played
    have tune : listening.InTune := fun ghosts known => Option.some.inj known
    obtain ⟨-, -, always⟩ := ghosts_follow_songs jukebox
    exact ⟨steps, hrun, song, (always _ _ _ (by simp [Command.keepsToSongs, Command.ofSession])
      hrun).1 songs_jukebox (fun _ _ => .pure ()) tune⟩
  · obtain ⟨steps, hrun⟩ : ∃ steps, inTurn (deskHooks {}) [.loadSong (some "Scale"),
        .setScript "C", .play, .loadSong (some "Nope")] {} = some steps :=
      Option.isSome_iff_exists.1 (by decide +kernel)
    obtain ⟨scale, known⟩ : ∃ scale, ghostsOf? (some "Scale") = some scale :=
      Option.isSome_iff_exists.1 (by decide +kernel)
    have unknown : ghostsOf? (some "Nope") = none := by decide +kernel
    obtain ⟨-, -, always⟩ := ghosts_follow_songs (deskHooks {})
    have sung := (always _ _ _ (by simp [Command.keepsToSongs, Command.ofSession]) hrun).2
      (respectsSong_sameSong.callsAlong_desk _)
    simp only [List.foldl_cons, List.foldl_nil, Command.sing, known, unknown, Option.getD_some,
      Option.getD_none, Prod.mk.injEq] at sung
    exact ⟨steps, hrun, sung.1, by rw [known, sung.2]⟩

/-- A song that nobody knows stands beside the ghosts of the one before it. -/
theorem ghosts_outlive_song :
    (inTurn (deskHooks {}) [.loadSong (some "Scale"), .loadSong (some "Nope")] {}).map
        (·.map fun step => (match step.outcome with
          | .ok _ => none
          | .error f => some f, step.studio.session.song, step.studio.session.ghosts.length)) =
      some [(none, some "Scale", 8), (some (.unknownSong "Nope"), some "Nope", 8)] ∧
    ghostsOf? (some "Nope") = none := by
  constructor <;> decide +kernel

end Studio

end PianoRoll
