import PianoRoll.Proofs.Melody.Extents
import PianoRoll.Proofs.Playback.BeatLength
import PianoRoll.Session

/-!
Frames that show their extent exactly. A session that measures its melodies as it takes them over,
and those of a run as it begins, has an exact extent for whatever it shows. So where beats can be
counted, there is a frame unless there is nothing to be shown, and it is exact
(`Session.Shows.frame?`).
-/

namespace PianoRoll

open Number

theorem lt_of_mem_struckGhosts {tolerance : Float} {ghosts notes : List Note} {i : ℕ}
    (h : i ∈ struckGhosts tolerance ghosts notes) : i < ghosts.length := by
  obtain ⟨⟨g, j⟩, hmem, rfl⟩ := List.mem_map.1 h
  exact (List.mem_zipIdx' (List.mem_filter.1 hmem).1).1

structure Frame.Exact (f : Frame) : Prop where
  extent : f.extent.Exact (f.notes ++ f.ghosts)
  rows : 1 ≤ f.extent.rows
  struck : ∀ i ∈ f.struck, i < f.ghosts.length

/-- Melodies whose notes end, and the extent that was measured on both. -/
structure Measures (notes ghosts : List Note) (extent : Option Extent) : Prop where
  ends : ∀ n ∈ notes ++ ghosts, Numeric n.finish
  extent : extent = Extent.of? (notes ++ ghosts)

namespace Measures

variable {notes ghosts : List Note} {extent : Option Extent} (h : Measures notes ghosts extent)
include h

theorem eq_none_iff : extent = none ↔ notes = [] ∧ ghosts = [] := by
  rw [h.extent, Extent.of?_eq_none_iff, List.append_eq_nil_iff]

theorem exact {r : Extent} (hr : extent = some r) : r.Exact (notes ++ ghosts) :=
  Extent.exact_of? h.ends (h.extent ▸ hr)

end Measures

/-- A session that has measured what it shows, at rest and, while one is under way, of the run. -/
structure Session.Shows (s : Session) (t : Transport) : Prop where
  standing : Measures s.notes s.ghosts s.extent
  run : t.playing = true → t.notes ≠ [] ∧ Measures t.notes s.playedGhosts t.extent

namespace Session.Shows

variable {s : Session} {t : Transport} (h : s.Shows t)
include h

theorem shown {notes ghosts : List Note} {extent : Option Extent}
    (hs : s.shown t = (notes, ghosts, extent)) : Measures notes ghosts extent ∧
      (extent = none ↔ t.playing = false ∧ s.notes = [] ∧ s.ghosts = []) := by
  rw [Session.shown] at hs
  cases hplay : t.playing with
  | true =>
    obtain ⟨hne, measures⟩ := h.run hplay
    rw [hplay] at hs
    cases hs
    exact ⟨measures, measures.eq_none_iff.trans (iff_of_false (fun hnil => hne hnil.1) nofun)⟩
  | false =>
    rw [hplay] at hs
    cases hs
    exact ⟨h.standing, h.standing.eq_none_iff.trans (and_iff_right rfl).symm⟩

theorem frame? {p : PlaybackSettings} (lasts : Lasts p.referenceBpm t.bpm) (now : Float) :
    ∃ f, s.frame? t p now = .ok f ∧
      (f = none ↔ t.playing = false ∧ s.notes = [] ∧ s.ghosts = []) ∧ ∀ x ∈ f, x.Exact := by
  obtain ⟨beats, counted⟩ := Transport.elapsedBeats_of_lasts lasts now
  rcases hs : s.shown t with ⟨notes, ghosts, extent⟩
  obtain ⟨measures, hnone⟩ := h.shown hs
  rw [Session.frame?, hs]
  cases extent with
  | none => exact ⟨none, rfl, iff_of_true rfl (hnone.1 rfl), nofun⟩
  | some r =>
    have exact := measures.exact rfl
    dsimp only
    rw [counted]
    refine ⟨_, rfl, iff_of_false nofun fun hrest => ?_, fun f hf => ?_⟩
    · cases hnone.2 hrest
    · cases hf
      exact ⟨exact, exact.rows_pos, fun i => lt_of_mem_struckGhosts⟩

end Session.Shows

structure Frame.Tells (f : Frame) (s : Session) (t : Transport) (p : PlaybackSettings)
    (now : Float) : Prop where
  shown : s.shown t = (f.notes, f.ghosts, some f.extent)
  playing : f.playing = t.playing
  counted : t.elapsedBeats p.referenceBpm now = .ok f.elapsedBeats
  view : f.viewStart = s.viewStart ∧ f.viewEnd = s.viewEnd
  startDelay : f.startDelay = p.startDelay
  marker : f.marker = t.marker

theorem Session.tells_of_frame? {s : Session} {t : Transport} {p : PlaybackSettings} {now : Float}
    {f : Frame} (hf : s.frame? t p now = .ok (some f)) : f.Tells s t p now := by
  unfold Session.frame? at hf
  split at hf
  · cases hf
  · next notes ghosts extent shown =>
    cases counted : t.elapsedBeats p.referenceBpm now with
    | error e =>
      rw [counted] at hf
      cases hf
    | ok beats =>
      rw [counted] at hf
      cases hf
      exact ⟨shown, rfl, counted, ⟨rfl, rfl⟩, rfl, rfl⟩

/-- While a run is under way, a frame shows it. -/
theorem Frame.Tells.run {f : Frame} {s : Session} {t : Transport} {p : PlaybackSettings}
    {now : Float} (h : f.Tells s t p now) (plays : t.playing = true) :
    f.notes = t.notes ∧ f.ghosts = s.playedGhosts ∧ t.extent = some f.extent := by
  have shown := h.shown
  rw [Session.shown, plays] at shown
  simp only [if_true, Prod.mk.injEq] at shown
  exact ⟨shown.1.symm, shown.2.1.symm, shown.2.2⟩

/-- At rest a frame shows the melodies. -/
theorem Frame.Tells.rest {f : Frame} {s : Session} {t : Transport} {p : PlaybackSettings}
    {now : Float} (h : f.Tells s t p now) (rests : t.playing = false) :
    f.notes = s.notes ∧ f.ghosts = s.ghosts ∧ s.extent = some f.extent := by
  have shown := h.shown
  rw [Session.shown, rests] at shown
  simp only [Bool.false_eq_true, if_false, Prod.mk.injEq] at shown
  exact ⟨shown.1.symm, shown.2.1.symm, shown.2.2⟩

/-- There is no frame unless beats can be counted. -/
theorem Session.lasts_of_frame? {s : Session} {t : Transport} {p : PlaybackSettings} {now : Float}
    {f : Frame} (hf : s.frame? t p now = .ok (some f)) : Lasts p.referenceBpm t.bpm := by
  by_contra lasts
  have counted := Transport.elapsedBeats_of_not_lasts lasts now
  unfold Session.frame? at hf
  split at hf
  · cases hf
  · rw [counted] at hf
    cases hf

end PianoRoll
