import PianoRoll.Proofs.Melody.Extents
import PianoRoll.Proofs.Script.Grammar
import PianoRoll.Proofs.Script.Written

/-!
Sessions that show what scripts have written. Loading a script and a song, whichever comes first,
makes a session one (`scripted_of_loaded`). What it shows at rest begins with beat zero, ends behind
it, and lies on keys (`Session.Scripted.frame`).
-/

namespace PianoRoll

open Number Work

structure Extent.Written (r : Extent) : Prop where
  low : 0 ≤ r.low
  ordered : r.low ≤ r.high
  high : r.high ≤ 119

theorem Extent.written_of? {notes : List Note} (h : ∀ n ∈ notes, n.Written) {r : Extent}
    (hr : Extent.of? notes = some r) : r.Written := by
  obtain ⟨low, hlow, high, hhigh, rfl, covers⟩ := of?_inv hr
  exact
    { low := (h low hlow).pitch_bounds.1
      ordered := (covers high hhigh).1
      high := (h high hhigh).pitch_bounds.2 }

theorem totalBeats_pos {notes : List Note} (h : ∀ n ∈ notes, n.Written) (hne : notes ≠ []) :
    0 < totalBeats notes := by
  obtain ⟨n, hn⟩ := List.exists_mem_of_ne_nil notes hne
  have hle := finish_le_totalBeats (fun m hm => (h m hm).inTime) hn
  have hpos := (h n hn).finish
  exact (lt_iff numeric_zero (numeric_of_le hle).2).2 ((worth_lt hpos).trans_le (worth_le hle))

/-- A session that shows what scripts have written, in the extent and the view of all of it. -/
structure Session.Scripted (s : Session) : Prop where
  written : ∀ n ∈ s.notes ++ s.ghosts, n.Written
  extent : s.extent = Extent.of? (s.notes ++ s.ghosts)
  viewStart : s.viewStart = 0
  viewEnd : s.viewEnd = totalBeats (s.notes ++ s.ghosts)

theorem Session.scripted_measure {s : Session} (hnotes : ∀ n ∈ s.notes, n.Written)
    (hghosts : ∀ n ∈ s.ghosts, n.Written) : s.measure.Scripted where
  written n hn := (List.mem_append.1 hn).elim (hnotes n) (hghosts n)
  extent := rfl
  viewStart := rfl
  viewEnd := rfl

structure Frame.InView (f : Frame) : Prop where
  start : f.viewStart = 0
  finish : 0 < f.viewEnd

theorem Frame.InView.pos {f : Frame} (h : f.InView) : 0 < worth f.viewEnd := by
  have hlt := worth_lt h.finish
  rwa [worth_zero] at hlt

structure Frame.Standing (f : Frame) : Prop where
  playing : f.playing = false
  view : f.InView
  extent : f.extent.Written

theorem Session.Scripted.frame {s : Session} (h : s.Scripted) {t : Transport}
    {p : PlaybackSettings} {now : Float} {f : Frame} (hf : s.frame? t p now = .ok (some f))
    (hrest : f.playing = false) : f.Standing := by
  unfold Session.frame? at hf
  split at hf
  · cases hf
  · next notes ghosts extent hshown =>
    cases hbeats : t.elapsedBeats p.referenceBpm now with
    | error e =>
      rw [hbeats] at hf
      cases hf
    | ok beats =>
      rw [hbeats] at hf
      cases hf
      have hstill : t.playing = false := hrest
      rw [Session.shown, hstill, h.extent] at hshown
      obtain ⟨-, -, hextent⟩ : s.notes = notes ∧ s.ghosts = ghosts ∧
        Extent.of? (s.notes ++ s.ghosts) = some extent := by simpa using hshown
      have hne : s.notes ++ s.ghosts ≠ [] := fun hnil => by
        rw [hnil] at hextent
        cases hextent
      exact
        { playing := hstill
          view := ⟨h.viewStart, h.viewEnd ▸ totalBeats_pos h.written hne⟩
          extent := Extent.written_of? h.written hextent }

namespace Studio

theorem on_readScript {σ : Type} (text : String) (b : Bench σ) : ∃ b' : Bench σ,
    (readScript text).on b = some (.ok (Script.notesOf text), b') ∧ b'.part = b.part := by
  cases h : (Script.compile text).notes with
  | ok notes =>
    rw [Script.notesOf, h]
    exact (Script.gives_of_ok h b).readScript
  | error f =>
    rw [Script.notesOf, h]
    exact (Script.gives_of_error h b).readScript

/-- The session after a script was taken over. -/
theorem setScript_inv {text : String} {b b' : Bench Studio} {r : Except Fault (List Note)}
    (h : (setScript text).on b = some (r, b')) :
    b'.part.session = b.part.session.setNotes (Script.notesOf text) := by
  obtain ⟨b₁, hread, hpart⟩ := on_readScript text b
  rw [setScript, on_bind_ok hread] at h
  cases h
  rw [← hpart]

/-- The ghost melody of a song is that of a script. -/
theorem songNotes_inv {name : Option String} {b b' : Bench Studio} {ghosts : List Note}
    (h : (songNotes name).on b = some (.ok ghosts, b')) :
    b'.part = b.part ∧ ∃ script, ghosts = Script.notesOf script := by
  have silent : [] = Script.notesOf "" := rfl
  cases name with
  | none =>
    cases h
    exact ⟨rfl, "", silent⟩
  | some name =>
    unfold songNotes at h
    dsimp only at h
    split at h
    · cases h
      exact ⟨rfl, "", silent⟩
    · rcases on_orFail_bind_inv h with ⟨script, -, h⟩ | ⟨e, -, he, -⟩
      · obtain ⟨b₁, hread, hpart⟩ := on_readScript script b
        rw [hread] at h
        cases h
        exact ⟨hpart, script, rfl⟩
      · cases he

/-- The session after a song was loaded. -/
theorem loadSong_inv {name : Option String} {b b' : Bench Studio}
    (h : (loadSong name).on b = some (.ok (), b')) : ∃ script,
      b'.part.session =
        { b.part.session with song := name }.setGhosts (Script.notesOf script) := by
  obtain ⟨_, b₁, h₁, h⟩ | ⟨e, -, he⟩ := on_bind_inv h
  · cases h₁
    obtain ⟨ghosts, b₂, h₂, h⟩ | ⟨e, -, he⟩ := on_bind_inv h
    · obtain ⟨hpart, script, rfl⟩ := songNotes_inv h₂
      cases h
      exact ⟨script,
        congrArg (fun s : Studio => s.session.setGhosts (Script.notesOf script)) hpart⟩
    · cases he
  · cases he

def loadings (text : String) (name : Option String) : List (Act Unit) :=
  [do loadSong name; discard (setScript text), do discard (setScript text); loadSong name]

theorem scripted_of_loaded {text : String} {name : Option String} {load : Act Unit}
    (hload : load ∈ loadings text name) {b b' : Bench Studio}
    (h : load.on b = some (.ok (), b')) : b'.part.session.Scripted := by
  have hnotes := Script.notesOf_written text
  rcases List.mem_cons.1 hload with rfl | hload
  · obtain ⟨_, b₁, h₁, h⟩ | ⟨e, -, he⟩ := on_bind_inv h
    · obtain ⟨script, hsession⟩ := loadSong_inv h₁
      obtain ⟨r, h⟩ := on_bind_pure_inv h
      rw [setScript_inv h, hsession]
      exact Session.scripted_measure hnotes (Script.notesOf_written script)
    · cases he
  · obtain rfl := List.mem_singleton.1 hload
    obtain ⟨_, b₁, h₁, h⟩ | ⟨e, -, he⟩ := on_bind_inv h
    · obtain ⟨script, hsession⟩ := loadSong_inv h
      obtain ⟨r, h₁⟩ := on_bind_pure_inv h₁
      rw [hsession, setScript_inv h₁]
      exact Session.scripted_measure hnotes (Script.notesOf_written script)
    · cases he

end Studio

end PianoRoll
