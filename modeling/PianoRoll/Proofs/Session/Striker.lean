import PianoRoll.Proofs.Number.Nearest
import PianoRoll.Proofs.Session.Punctual
import PianoRoll.Proofs.Session.Roll

/-!
The striker stands in the lane of the note that it hits. Its place and the lanes are computed apart
from each other, but from the same extent, which is that of the run however its melodies are edited
meanwhile. So whatever a session is asked for, the striker never leaves the roll, and once a run has
struck a note it stands in the lane of the last one (`striker_in_lane`).
-/

namespace PianoRoll

open Number

/-! ## Striking -/

/-- What is known of the note struck last after an entry: a run that begins or ends has struck none
yet. -/
def struckBy : Option Int → Entry → Option Int
  | _, .event (.transport _) => none
  | _, .event (.noteOn pitch .playback _) => some pitch
  | last, _ => last

/-- The pitch of the note that the current run has struck last, if it has struck one. -/
def lastStruck (es : List Entry) : Option Int := es.foldl struckBy none

theorem struckBy_quiet {e : Entry} (h : e.ofRun = false) (last : Option Int) :
    struckBy last e = last := by
  cases e with
  | event e =>
    cases e with
    | transport => cases h
    | noteOn pitch source =>
      cases source with
      | playback => cases h
      | _ => rfl
    | _ => rfl
  | _ => rfl

theorem lastStruck_quiet {past es : List Entry} (h : ∀ e ∈ es, e.ofRun = false) :
    lastStruck (past ++ es) = lastStruck past := by
  rw [lastStruck, List.foldl_append, ← lastStruck]
  induction es with
  | nil => rfl
  | cons e es ih =>
    rw [List.foldl_cons, struckBy_quiet (h e List.mem_cons_self)]
    exact ih fun e he => h e (List.mem_cons_of_mem _ he)

/-- What is recorded of an event tells what the event tells, however often it is written. -/
theorem lastStruck_shown {past : List Entry} {recorded : List String} {e : Event}
    {last : Option Int} (h : e.kind ∈ recorded)
    (tells : ∀ before, struckBy before (.event e) = last) :
    lastStruck (past ++ Studio.shown recorded e) = last := by
  obtain ⟨n, hn⟩ := Nat.exists_eq_succ_of_ne_zero (List.count_pos_iff.2 h).ne'
  rw [lastStruck, List.foldl_append, Studio.shown, hn, List.replicate_succ', List.foldl_append]
  exact tells _

/-! ## Markers -/

/-- The place of the striker at a pitch of an extent is a fraction of the height. -/
theorem marker_bounds {r : Extent} {pitch : Int} (low : r.low ≤ pitch) (high : pitch ≤ r.high)
    {marker : Float} (place : markerOf r pitch = .ok marker) : 0 ≤ marker ∧ marker ≤ 1 := by
  have rows : r.rows = r.high - r.low + 1 := rfl
  exact quotient_unit (by omega) (by omega) (by omega) place

/-- The striker stands in the lane of a pitch: its place is the double nearest to the fraction of
the height at which the lane lies, and that fraction leads exactly to the edge of the lane. -/
structure Frame.StrikesAt (f : Frame) (pitch : Int) : Prop where
  place : markerOf f.extent pitch = .ok f.marker
  nearest : worth f.marker = fit (((f.extent.high - pitch : Int) / f.extent.rows : ℝ) : EReal)
  lane : ∀ top height : ℚ,
    Layout.markerTopOf top height ((f.extent.high - pitch : Int) / f.extent.rows) =
      Layout.laneTopOf top (Layout.laneHeightOf height f.extent.rows)
        (Layout.laneRow f.extent pitch : ℚ)

theorem Frame.strikesAt {f : Frame} {pitch : Int} (low : f.extent.low ≤ pitch)
    (high : pitch ≤ f.extent.high) (place : markerOf f.extent pitch = .ok f.marker) :
    f.StrikesAt pitch := by
  have rows : f.extent.rows = f.extent.high - f.extent.low + 1 := rfl
  refine ⟨place, ?_, fun top height => ?_⟩
  · exact worth_quotient (by omega) (by omega) (by omega) place
  · have row : Layout.laneRow f.extent pitch = f.extent.high - pitch := by
      rw [Layout.laneRow, Extent.span]
      omega
    rw [row, Layout.markerTopOf, Layout.laneTopOf, Layout.laneHeightOf, div_mul_eq_mul_div,
      mul_div_assoc]

namespace Studio

def OnRoll (s : Studio) : Prop := 0 ≤ s.transport.marker ∧ s.transport.marker ≤ 1

theorem OnRoll.same {s s' : Studio} (h : OnRoll s)
    (marker : s'.transport.marker = s.transport.marker) : OnRoll s' := by
  unfold OnRoll
  rwa [marker]

/-- A session that is measured and on schedule, whose striker is on the roll, and in the lane of the
note that the run has struck last. -/
structure Aimed (past : List Entry) (s : Studio) : Prop where
  punctual : Punctual s
  laned : Laned s
  recorded : "transport" ∈ s.recorded ∧ "note_on" ∈ s.recorded
  onRoll : OnRoll s
  inLane : s.transport.playing = true → ∀ pitch, lastStruck past = some pitch →
    ∃ r, s.transport.extent = some r ∧ markerOf r pitch = .ok s.transport.marker ∧
      r.low ≤ pitch ∧ pitch ≤ r.high

namespace Aimed

variable {past es : List Entry} {s s' : Studio}

/-- A note of a run lies in the extent of the run. -/
theorem covered (hs : Aimed past s) (plays : s.transport.playing = true) {n : Note}
    (hn : n ∈ s.transport.notes) :
    ∃ r, s.transport.extent = some r ∧ r.low ≤ n.pitch ∧ n.pitch ≤ r.high := by
  have measured := hs.laned.run plays
  cases lanes : s.transport.extent with
  | none =>
    have empty := Extent.of?_eq_none_iff.1 (measured.symm.trans lanes)
    rw [(List.append_eq_nil_iff.1 empty).1] at hn
    cases hn
  | some r =>
    have covers := Extent.covers_of? (measured.symm.trans lanes)
    exact ⟨r, rfl, covers n (List.mem_append_left _ hn)⟩

theorem struck (hs : Aimed past s) {serial : Nat} {n : Note} {s₁ s₂ : Studio}
    (fires : Fires s serial (.noteOn n) s₁) (same : Calm s₁ s₂) (struck : Struck n.pitch s₂ s') :
    ∃ r, s'.transport.extent = some r ∧ markerOf r n.pitch = .ok s'.transport.marker ∧
      r.low ≤ n.pitch ∧ n.pitch ≤ r.high := by
  obtain ⟨plays, hn⟩ := hs.punctual.mem_notes_of_fires fires
  obtain ⟨r, lanes, low, high⟩ := hs.covered plays hn
  obtain ⟨now, ts, -, rfl⟩ := fires.due
  have lanes' : s₂.transport.extent = some r := same.extent.trans lanes
  cases struck with
  | marked extent place =>
    obtain rfl := Option.some.inj (extent.symm.trans lanes')
    exact ⟨_, extent, place, low, high⟩
  | nowhere extent =>
    rw [lanes'] at extent
    cases extent

/-- Whatever happens at a stage, the striker stays in its lane or goes to that of the next note. -/
theorem stage (h : Stage Command.playsOwn s es s') (hs : Aimed past s) : Aimed (past ++ es) s' := by
  have punctual := hs.punctual.stage h
  have laned := hs.laned.stage h
  have resting (recorded : s'.recorded = s.recorded)
      (marker : s'.transport.marker = s.transport.marker)
      (rests : s'.transport.playing = false) : Aimed (past ++ es) s' :=
    ⟨punctual, laned, recorded ▸ hs.recorded, hs.onRoll.same marker,
      fun plays => absurd (rests.symm.trans plays) nofun⟩
  -- where the run goes on and strikes nothing, all is as it was
  have going (recorded : s'.recorded = s.recorded)
      (marker : s'.transport.marker = s.transport.marker)
      (extent : s'.transport.extent = s.transport.extent)
      (plays : s'.transport.playing = s.transport.playing)
      (quiet : ∀ e ∈ es, e.ofRun = false) : Aimed (past ++ es) s' := by
    refine ⟨punctual, laned, recorded ▸ hs.recorded, hs.onRoll.same marker, ?_⟩
    rw [lastStruck_quiet quiet, marker, extent, plays]
    exact hs.inLane
  cases h with
  | calm same quiet => exact going same.recorded same.marker same.extent same.run.playing quiet
  | begin chosen _ _ _ =>
    obtain ⟨rfl, -, -⟩ := chosen.eq_own
    refine ⟨punctual, laned, hs.recorded, hs.onRoll, fun _ pitch hp => ?_⟩
    rw [← List.append_assoc, lastStruck_shown hs.recorded.1 fun _ => rfl] at hp
    cases hp
  | fail chosen rests =>
    obtain ⟨rfl, -, -⟩ := chosen.eq_own
    exact resting rfl rfl rests
  | stop => exact resting rfl rfl rfl
  | pass => exact going rfl rfl rfl rfl (by simp)
  | play _ fires same quiet =>
    obtain ⟨now, ts, -, rfl⟩ := fires.due
    exact going same.recorded same.marker same.extent same.run.playing quiet
  | strike fires same struck _ =>
    obtain ⟨r, extent, place, low, high⟩ := hs.struck fires same struck
    have recorded : s'.recorded = s.recorded := by
      obtain ⟨now, ts, -, rfl⟩ := fires.due
      have kept := same.recorded
      cases struck <;> exact kept
    refine ⟨punctual, laned, recorded ▸ hs.recorded, marker_bounds low high place, ?_⟩
    intro _ pitch hp
    rw [← List.append_assoc, lastStruck_shown hs.recorded.2 fun _ => rfl] at hp
    obtain rfl := Option.some.inj hp
    exact ⟨r, extent, place, low, high⟩
  | finish _ fires =>
    obtain ⟨now, ts, -, rfl⟩ := fires.due
    exact resting rfl rfl rfl

theorem preserved : Preserved Command.playsOwn Aimed := fun hs stage => hs.stage stage

/-- The frames of a run that has struck a note show the striker in its lane. -/
theorem frame (hs : Aimed past s) (plays : s.transport.playing = true) {pitch : Int}
    (last : lastStruck past = some pitch) {p : PlaybackSettings} {now : Float} {f : Frame}
    (hf : s.session.frame? s.transport p now = .ok (some f)) : f.StrikesAt pitch := by
  have tells := Session.tells_of_frame? hf
  obtain ⟨-, -, extent⟩ := tells.run plays
  obtain ⟨r, extent', place, low, high⟩ := hs.inLane plays pitch last
  obtain rfl := Option.some.inj (extent.symm.trans extent')
  exact Frame.strikesAt low high (tells.marker ▸ place)

end Aimed

/-- A new session whose striker stands at the top of the roll, and whose runs are recorded. -/
structure Poised (s : Studio) : Prop extends Fresh s where
  measured : s.session.Measured
  marker : s.transport.marker = 0
  recorded : "transport" ∈ s.recorded ∧ "note_on" ∈ s.recorded

theorem Poised.aimed {s : Studio} (h : Poised s) : Aimed [] s where
  punctual := .fresh h.toFresh
  laned := .resting h.measured h.playing
  recorded := h.recorded
  onRoll := by
    unfold OnRoll
    rw [h.marker]
    decide +kernel
  inLane plays := absurd plays (by simp [h.playing])

/-- Whatever a session is asked for, also by those who edit what it shows while it plays, the
striker stays on the roll, as they may expect themselves. Once the current run has struck a note,
every frame shows the striker in the lane of the last one. -/
theorem striker_in_lane {h : Hooks}
    (hears : ∀ l e, Callback (.consulting Command.playsOwn OnRoll) (h.hear l e)) {cs : List Command}
    (hcs : ∀ c ∈ cs, c.playsOwn = true) {s : Studio} (poised : Poised s) {steps : List Step}
    (hrun : inTurn h cs s = some steps) :
    OnRoll (s.after steps) ∧ ((s.after steps).transport.playing = true →
      ∀ pitch, lastStruck (steps.flatMap Step.entries) = some pitch →
        ∀ now f, (s.after steps).session.frame? (s.after steps).transport (s.after steps).settings
          now = .ok (some f) → f.StrikesAt pitch) := by
  have aimed : Aimed (steps.flatMap Step.entries) (s.after steps) :=
    Aimed.preserved.inTurn Command.ofSession_of_playsOwn Aimed.onRoll hears hcs []
      poised.onlyPlayback poised.aimed hrun
  exact ⟨aimed.onRoll, fun plays pitch last now f hf => aimed.frame plays last hf⟩

theorem poised_revisedStudio : Poised revisedStudio :=
  ⟨fresh_revisedStudio, ⟨rfl, rfl, rfl⟩, rfl, by decide⟩

/-- The note that was struck last while a run is under way of which there is a frame, with the
pitches that the session has taken over meanwhile. -/
def struckMeanwhile (steps : List Step) (s : Studio) : Option (Int × List Int) :=
  match s.session.frame? s.transport s.settings s.clock, s.transport.playing with
  | .ok (some _), true => (lastStruck (steps.flatMap Step.entries)).map fun pitch =>
      (pitch, s.session.notes.map Note.pitch)
  | _, _ => none

theorem striker_in_lane_revision : ∃ steps f, inTurn revising revision revisedStudio = some steps ∧
    struckMeanwhile steps (revisedStudio.after steps) = some (60, [96]) ∧
    (revisedStudio.after steps).session.frame? (revisedStudio.after steps).transport
      (revisedStudio.after steps).settings (revisedStudio.after steps).clock = .ok (some f) ∧
    f.StrikesAt 60 := by
  have struck : ((inTurn revising revision revisedStudio).map fun steps =>
      struckMeanwhile steps (revisedStudio.after steps)) = some (some (60, [96])) := by
    decide +kernel
  obtain ⟨steps, hrun, struck⟩ := Option.map_eq_some_iff.1 struck
  have lane :=
    (striker_in_lane (consulting_revising fun _ => id) (by decide) poised_revisedStudio hrun).2
  have seen := struck
  unfold struckMeanwhile at seen
  split at seen
  · next f hf plays =>
    obtain ⟨pitch, last, eq⟩ := Option.map_eq_some_iff.1 seen
    obtain ⟨rfl, -⟩ := Prod.mk.inj eq
    exact ⟨steps, f, hrun, struck, hf, lane plays _ last _ f hf⟩
  · cases seen

end Studio

end PianoRoll
