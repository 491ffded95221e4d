import PianoRoll.Proofs.Renderer.Stripes
import PianoRoll.Proofs.Renderer.Within
import PianoRoll.Proofs.Session.Frames
import PianoRoll.Proofs.Session.Stages

/-!
Notes in their lanes. Whatever a session is asked for, what it shows at rest is measured on its
melodies, and what it shows of a run on the melodies that the run began with (`Laned`). So in every
frame each note lies on the stripe that the grid has for its pitch, and at rest between the edges of
the roll (`notes_in_roll`).
-/

namespace PianoRoll

open Number Renderer

def Frame.Timed (f : Frame) : Prop :=
  ∀ n ∈ f.notes ++ f.ghosts, isFinite n.start = true ∧ isFinite n.finish = true

def Frame.placeIn (f : Frame) (box : Box) (beat : Float) : Float :=
  Layout.beatX f.viewStart f.viewEnd (ofWhole box.x) (ofWhole box.w) beat

/-- What a frame shows lies in the lanes of a box, which are the stripes of its grid, and at rest
between the edges. -/
structure Frame.InRoll (f : Frame) (box : Box) : Prop where
  lanes : ∃ height, laneHeight box f.extent = .ok height ∧
    (∀ b u b', (drawGrid box f.extent).on b = some (.ok u, b') →
      rectsIn b'.journal = (stripes box f.extent height).reverse ++ rectsIn b.journal) ∧
    ∀ n ∈ f.notes ++ f.ghosts, ∃ row, InLane f.extent box height n.pitch row
  apart : ∀ n ∈ f.notes ++ f.ghosts, ∀ m ∈ f.notes ++ f.ghosts,
    Layout.laneRow f.extent n.pitch = Layout.laneRow f.extent m.pitch ↔ n.pitch = m.pitch
  edges : f.playing = false → f.Timed → 0 < f.viewEnd → 0 ≤ box.w →
    ∀ n ∈ f.notes ++ f.ghosts, 0 ≤ n.start → n.start ≤ n.finish →
      ofWhole box.x ≤ f.placeIn box n.start ∧
        f.placeIn box n.start ≤ f.placeIn box n.finish ∧
          f.placeIn box n.finish ≤ ofWhole box.right

/-- A frame whose extent was measured on what it shows, and whose view was as well if it is at
rest. -/
structure Frame.Fitted (f : Frame) : Prop where
  extent : Extent.of? (f.notes ++ f.ghosts) = some f.extent
  view : f.playing = false → f.viewStart = 0 ∧ f.viewEnd = totalBeats (f.notes ++ f.ghosts)

namespace Frame.Fitted

variable {f : Frame} (h : f.Fitted)
include h

theorem rows_pos : 0 < f.extent.rows := by
  obtain ⟨low, hlow, high, -, hr, covers⟩ := Extent.of?_inv h.extent
  have le := (covers low hlow).2
  rw [hr, Extent.rows, Extent.span]
  show 0 < high.pitch - low.pitch + 1
  omega

/-- Nothing that is shown ends behind the view. -/
theorem finish_le (rests : f.playing = false) (timed : f.Timed) {n : Note}
    (hn : n ∈ f.notes ++ f.ghosts) : isFinite f.viewEnd = true ∧ n.finish ≤ f.viewEnd := by
  rw [(h.view rests).2]
  obtain ⟨last, hlast, ends⟩ := exists_finish_eq_total (List.ne_nil_of_mem hn)
  refine ⟨ends ▸ (timed last hlast).2, finish_le_total (fun m hm => ?_) hn⟩
  exact (worth_finite (timed m hm).2).1

theorem inRoll {box : Box} (hbox : Fits box) : f.InRoll box := by
  have covers := Extent.covers_of? h.extent
  refine ⟨?_, fun n hn m hm => covers.laneRow_inj hn hm,
    fun rests timed pos wide n hn low order => ?_⟩
  · have small : Renderer.Small box.h := by
      have := hbox.h
      unfold Renderer.Small
      omega
    obtain ⟨height, tall⟩ := small.quotient h.rows_pos.ne'
    exact ⟨height, tall, fun b u b' drawn => rectsIn_drawGrid tall drawn,
      fun n hn => ⟨_, covers.inLane hn box height⟩⟩
  · obtain ⟨finite, high⟩ := h.finish_le rests timed hn
    unfold Frame.placeIn
    rw [(h.view rests).1]
    exact beatX_within hbox wide finite pos low order high

end Frame.Fitted

namespace Studio

/-- What is shown was measured: the melodies, and as long as a run is under way, what it began
with. -/
structure Laned (s : Studio) : Prop where
  measured : s.session.Measured
  run : s.transport.playing = true →
    s.transport.extent = Extent.of? (s.transport.notes ++ s.session.playedGhosts)

namespace Laned

variable {s s' : Studio}

/-- At rest nothing is asked of a run. -/
theorem resting (measured : s.session.Measured) (rests : s.transport.playing = false) :
    Laned s :=
  ⟨measured, fun plays => absurd plays (by simp [rests])⟩

theorem calm (h : Calm s s') (hs : Laned s) : Laned s' where
  measured := h.measured hs.measured
  run plays := by
    rw [h.extent, h.notes, h.ghosts]
    exact hs.run (h.run.playing.symm.trans plays)

theorem begun (hs : Laned s) (some : s.session.notes ≠ []) (bpm : Float) :
    Laned (s.readied.begun s.session.notes bpm s.lanesOf) where
  measured := ⟨hs.measured.extent, hs.measured.viewStart, hs.measured.viewEnd⟩
  run _ := by
    show s.lanesOf.or (Extent.of? s.session.notes) = s.lanesOf
    cases lanes : s.lanesOf with
    | some r => rfl
    | none =>
      have empty := Extent.of?_eq_none_iff.1 lanes
      exact absurd (List.append_eq_nil_iff.1 empty).1 some

theorem fires {serial : Nat} {t : Trigger} (h : Fires s serial t s') (hs : Laned s) :
    Laned s' := by
  obtain ⟨now, ts, -, rfl⟩ := h.due
  exact ⟨hs.measured, hs.run⟩

theorem struck {pitch : Int} (h : Struck pitch s s') (hs : Laned s) : Laned s' := by
  cases h with
  | marked => exact ⟨hs.measured, hs.run⟩
  | nowhere => exact hs

/-- Whatever happens at a stage, what is shown stays measured. -/
theorem stage {es : List Entry} (h : Stage Command.playsOwn s es s') (hs : Laned s) : Laned s' := by
  cases h with
  | calm same => exact hs.calm same
  | begin chosen _ some =>
    obtain ⟨rfl, rfl, rfl⟩ := chosen.eq_own
    exact hs.begun some _
  | fail chosen rests =>
    obtain ⟨rfl, -, -⟩ := chosen.eq_own
    exact resting ⟨hs.measured.extent, hs.measured.viewStart, hs.measured.viewEnd⟩ rests
  | stop => exact resting hs.measured rfl
  | pass => exact ⟨hs.measured, hs.run⟩
  | play _ fires same => exact (hs.fires fires).calm same
  | strike fires same struck => exact ((hs.fires fires).calm same).struck struck
  | finish _ fires => exact resting (hs.fires fires).measured rfl

theorem preserved : Preserved Command.playsOwn fun _ => Laned := fun hs stage => hs.stage stage

/-- The frames of such a session are fitted to what they show. -/
theorem frame (hs : Laned s) {p : PlaybackSettings} {now : Float} {f : Frame}
    (hf : s.session.frame? s.transport p now = .ok (some f)) : f.Fitted := by
  have tells := Session.tells_of_frame? hf
  cases plays : s.transport.playing with
  | true =>
    obtain ⟨notes, ghosts, extent⟩ := tells.run plays
    refine ⟨?_, fun rests => ?_⟩
    · rw [notes, ghosts, ← hs.run plays]
      exact extent
    · rw [tells.playing, plays] at rests
      cases rests
  | false =>
    obtain ⟨notes, ghosts, extent⟩ := tells.rest plays
    refine ⟨?_, fun _ => ⟨tells.view.1.trans hs.measured.viewStart, ?_⟩⟩
    · rw [notes, ghosts, ← hs.measured.extent]
      exact extent
    · rw [notes, ghosts, ← hs.measured.viewEnd]
      exact tells.view.2

end Laned

/-- At every moment, what is shown lies in the lanes of the roll and, at rest, between its
edges. -/
def ShowsInRoll (s : Studio) : Prop :=
  ∀ now f, s.session.frame? s.transport s.settings now = .ok (some f) →
    ∀ box, Fits box → f.InRoll box

theorem Laned.showsInRoll {s : Studio} (hs : Laned s) : ShowsInRoll s :=
  fun _ _ hf _ hbox => (hs.frame hf).inRoll hbox

/-- Whatever a session is asked for, the notes that it shows lie in their own lanes, on the stripes
of the grid, and at rest they do not reach beyond the roll. Those who look at it in the middle of
something else may expect the same. -/
theorem notes_in_roll {h : Hooks}
    (hears : ∀ l e, Callback (.consulting Command.playsOwn ShowsInRoll) (h.hear l e))
    {cs : List Command} (hcs : ∀ c ∈ cs, c.playsOwn = true) {s : Studio} (fresh : Fresh s)
    (measured : s.session.Measured) {steps : List Step} (hrun : inTurn h cs s = some steps) :
    ShowsInRoll (s.after steps) := by
  have laned : Laned (s.after steps) :=
    Laned.preserved.inTurn Command.ofSession_of_playsOwn Laned.showsInRoll hears hcs []
      fresh.onlyPlayback (.resting measured fresh.playing) hrun
  exact laned.showsInRoll

/-- How many notes and ghosts a studio shows at rest, if everything has its time and lies in
view. -/
def seenAtRest (s : Studio) : Option (Nat × Nat) :=
  match s.session.frame? s.transport s.settings s.clock with
  | .ok (some f) =>
    if f.playing = false ∧ 0 < f.viewEnd ∧ ∀ n ∈ f.notes ++ f.ghosts,
        (isFinite n.start = true ∧ isFinite n.finish = true) ∧ 0 ≤ n.start ∧ n.start ≤ n.finish then
      some (f.notes.length, f.ghosts.length)
    else none
  | _ => none

/-- A run that is stopped after its script and its ghosts were replaced from outside and from
inside. -/
def replacement : List Command :=
  revision ++ [.stop, .setScript "C\nE", .loadSong (some "Scale")]

theorem notes_in_roll_revision : ∃ steps f,
    inTurn revising replacement revisedStudio = some steps ∧
    (revisedStudio.after steps).session.frame? (revisedStudio.after steps).transport
      (revisedStudio.after steps).settings (revisedStudio.after steps).clock = .ok (some f) ∧
    f.notes.length = 2 ∧ f.ghosts.length = 8 ∧ f.InRoll ⟨300, 36, 900, 500⟩ ∧
    ∀ n ∈ f.notes ++ f.ghosts,
      ofWhole 300 ≤ f.placeIn ⟨300, 36, 900, 500⟩ n.start ∧
        f.placeIn ⟨300, 36, 900, 500⟩ n.start ≤ f.placeIn ⟨300, 36, 900, 500⟩ n.finish ∧
          f.placeIn ⟨300, 36, 900, 500⟩ n.finish ≤ ofWhole 1200 := by
  have seen : ((inTurn revising replacement revisedStudio).map fun steps =>
      seenAtRest (revisedStudio.after steps)) = some (some (2, 8)) := by decide +kernel
  obtain ⟨steps, hrun, seen⟩ := Option.map_eq_some_iff.1 seen
  unfold seenAtRest at seen
  split at seen
  · next f hf =>
    have inRoll := notes_in_roll (consulting_revising fun _ => id) (by decide) fresh_revisedStudio
      ⟨rfl, rfl, rfl⟩ hrun _ f hf ⟨300, 36, 900, 500⟩ ⟨by decide, by decide, by decide, by decide⟩
    split at seen
    · next stands =>
      obtain ⟨rests, pos, timed⟩ := stands
      obtain ⟨notes, ghosts⟩ := Prod.mk.inj (Option.some.inj seen)
      refine ⟨steps, f, hrun, hf, notes, ghosts, inRoll, fun n hn => ?_⟩
      exact inRoll.edges rests (fun m hm => (timed m hm).1) pos (by decide) n hn
        (timed n hn).2.1 (timed n hn).2.2
    · cases seen
  · cases seen

end Studio

end PianoRoll
