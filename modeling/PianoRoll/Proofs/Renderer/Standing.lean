import PianoRoll.Proofs.Editing.Interference
import PianoRoll.Proofs.Renderer.Beats
import PianoRoll.Proofs.Renderer.Lineless

/-!
Drawing a frame at rest. The lines that are drawn are those of the loop over the beats, and drawing
ends where the loop does, for all other parts end and have no lines (`ruled_or_endless`).
-/

namespace PianoRoll.Renderer

open Number Work

/-- From one journal to another the lines of the first `m` whole beats were drawn, and no others,
from left to right. -/
def Rules (f : Frame) (box : Box) (m : ℕ) (before after : List Entry) : Prop :=
  ∃ beats, List.Forall₂ Counts beats (List.range m) ∧
    linesIn after = (beats.map (gridLine f box)).reverse ++ linesIn before

theorem linesIn_gridEntries (f : Frame) (box : Box) (beats : List Float) :
    linesIn (beats.map (gridEntry f box)).reverse = (beats.map (gridLine f box)).reverse := by
  induction beats with
  | nil => rfl
  | cons beat beats ih =>
    rw [List.map_cons, List.map_cons, List.reverse_cons, List.reverse_cons, linesIn_append, ih]
    rfl

section Drawing

variable {f : Frame} (hf : f.Standing)
include hf

/-- A view that ends before `2 ^ 53` has so many whole beats that they can be counted, and the loop
may take one step more. -/
theorem exists_beats (hnear : worth f.viewEnd < (2 ^ 53 : ℕ)) :
    ∃ m, f.HasBeats m ∧ m ≤ 2 ^ 53 ∧ beatsToPass f.viewStart f.viewEnd = m + 1 := by
  have hfin : worth f.viewEnd < ⊤ := hnear.trans (EReal.coe_lt_top _)
  obtain ⟨n, htrunc, hn⟩ := hf.view.exists_hasBeats hfin
  have hsmall : n < 2 ^ 53 := Nat.cast_lt.1 (((hn n).1 n.lt_succ_self).trans_lt hnear)
  exact ⟨n + 1, hn, hsmall, beatsToPass_of_near hf.view htrunc hsmall⟩

section Box

variable {box : Box} (hbox : Fits box)
include hbox

/-- The loop needs one step more than there are beats. -/
theorem drawBeats_ends_iff {m : ℕ} (hm : f.HasBeats m) (hsmall : m ≤ 2 ^ 53) (n : ℕ)
    (b : Bench Renderer) : ((drawBeats f box n 0).on b).isSome = true ↔ m < n := by
  have hy := hbox.top.ofWhole?
  have hb := hbox.bottom.ofWhole?
  rcases Nat.lt_or_ge m n with hlt | hge
  · rw [on_drawBeats hf.view hy hb hm hsmall counts_zero (Nat.zero_le m) (by omega)]
    exact iff_of_true rfl hlt
  · rw [on_drawBeats_short hf.view hy hb hm hsmall counts_zero (by omega)]
    exact iff_of_false Bool.false_ne_true (Nat.not_lt.2 hge)

theorem drawBeats_endless (hfar : ((2 ^ 53 : ℕ) : EReal) ≤ worth f.viewEnd) (n : ℕ)
    (b : Bench Renderer) : (drawBeats f box n 0).on b = none :=
  drawBeats_stuck hf.view hbox.top.ofWhole? hbox.bottom.ofWhole? hfar counts_zero
    (Nat.zero_le _) n b

theorem on_drawStanding {m : ℕ} (hm : f.HasBeats m) (hsmall : m ≤ 2 ^ 53)
    (hpass : beatsToPass f.viewStart f.viewEnd = m + 1) (b : Bench Renderer) :
    ∃ b', (drawStanding f box).on b = some (.ok (), b') ∧
      Rules f box m b.journal b'.journal := by
  obtain ⟨height, hheight⟩ := exists_laneHeight hbox hf.extent
  have hloop := on_drawBeats hf.view hbox.top.ofWhole? hbox.bottom.ofWhole? hm hsmall counts_zero
    (Nat.zero_le m) (by omega : m < 0 + (m + 1)) b
  have hcounts := counts_iterate counts_zero (by omega : 0 + m ≤ 2 ^ 53)
  have notes := lineless_forM (lineless_drawStill hf.extent box height ⟨80, 200, 120⟩ 0) f.notes
  have ghosts := lineless_forM (fun g : Note × Nat =>
    lineless_drawStill hf.extent box height (ghostColour f g.2) 1 g.1) f.ghosts.zipIdx
  obtain ⟨_, b', hrest, hlines⟩ := (ghosts.bind fun _ => notes).on
    ⟨b.part, ((List.iterate (· + 1) 0 (m - 0)).map (gridEntry f box)).reverse ++ b.journal⟩
  refine ⟨b', ?_, List.iterate (· + 1) 0 m, ?_, ?_⟩
  · rw [drawStanding, hheight, on_bind_ok (on_orFail _ b), hpass, on_bind_ok hloop]
    exact hrest
  · rw [List.range_eq_range']
    exact hcounts
  · rw [hlines, linesIn_append, linesIn_gridEntries, Nat.sub_zero]

theorem on_drawStanding_far (hfar : ((2 ^ 53 : ℕ) : EReal) ≤ worth f.viewEnd)
    (b : Bench Renderer) : (drawStanding f box).on b = none := by
  obtain ⟨height, hheight⟩ := exists_laneHeight hbox hf.extent
  rw [drawStanding, hheight, on_bind_ok (on_orFail _ b), beatsToPass_of_far hf.view hfar, on_bind]
  rfl

end Box

variable {b : Bench Renderer} (hr : b.part.Sized)
include hr

/-- What comes before the roll has no line, and after it only the clipping box is set again. -/
theorem on_drawFrame : ∃ b₁, linesIn b₁.journal = linesIn b.journal ∧ (drawFrame f).on b =
    (((drawStanding f b.part.rollBox).on b₁).bind fun (r, b') =>
      (setClip b.part.clip >>= fun _ => orFail r).on b') := by
  have hbox := hr.rollBox
  obtain ⟨_, b₁, h₁, l₁⟩ := (lineless_drawGrid hbox hf.extent).on b
  have inside : ∀ box ∈ some b.part.rollBox, Fits box := fun _ h => Option.some.inj h ▸ hbox
  obtain ⟨_, b₂, h₂, l₂⟩ := (lineless_setClip inside).on b₁
  refine ⟨b₂, l₂.trans l₁, ?_⟩
  rw [drawFrame, on_bind_ok (on_look b), on_bind_ok h₁, on_bind_ok h₂, on_ensuring, hf.playing]
  rfl

theorem drawFrame_near {m : ℕ} (hm : f.HasBeats m) (hsmall : m ≤ 2 ^ 53)
    (hpass : beatsToPass f.viewStart f.viewEnd = m + 1) :
    ∃ b', (drawFrame f).on b = some (.ok (), b') ∧
      Rules f b.part.rollBox m b.journal b'.journal := by
  obtain ⟨b₁, hlines, hframe⟩ := on_drawFrame hf hr
  obtain ⟨b₂, hroll, beats, hcounts, hruled⟩ := on_drawStanding hf hr.rollBox hm hsmall hpass b₁
  obtain ⟨_, b₃, hclip, hkept⟩ := (lineless_setClip hr.clip).on b₂
  refine ⟨b₃, ?_, beats, hcounts, ?_⟩
  · rw [hframe, hroll]
    exact on_bind_ok hclip
  · rw [hkept, hruled, hlines]

theorem drawFrame_far (hfar : ((2 ^ 53 : ℕ) : EReal) ≤ worth f.viewEnd) :
    (drawFrame f).on b = none := by
  obtain ⟨b₁, -, hframe⟩ := on_drawFrame hf hr
  rw [hframe, on_drawStanding_far hf hr.rollBox hfar]
  rfl

end Drawing

/-! ## Frames of scripts -/

theorem standing_of_loaded {text : String} {name : Option String} {load : Act Unit}
    (hload : load ∈ Studio.loadings text name) {now : Option Float} {b b' : Bench Studio}
    {f : Frame} (hf : (load >>= fun _ => Studio.frame now).on b = some (.ok (some f), b'))
    (hrest : f.playing = false) : f.Standing := by
  obtain ⟨_, b₁, h₁, h⟩ | ⟨e, -, he⟩ := on_bind_inv hf
  · rw [Studio.frame_on] at h
    exact (Studio.scripted_of_loaded hload h₁).frame (congrArg Prod.fst (Option.some.inj h)) hrest
  · cases he

/-- A frame at rest of a script and a song, loaded in either order, is drawn to its end if its view
ends before `2 ^ 53`: the loop over the beats takes one step more than there are whole beats in
view, and just the lines of these are drawn. If the view ends later, no number of steps is
enough. -/
theorem ruled_or_endless {text : String} {name : Option String} {load : Act Unit}
    (hload : load ∈ Studio.loadings text name) {now : Option Float} {b b' : Bench Studio}
    {f : Frame} (hf : (load >>= fun _ => Studio.frame now).on b = some (.ok (some f), b'))
    (hrest : f.playing = false) {r : Renderer} (hr : r.Sized) (journal : List Entry) :
    (worth f.viewEnd < (2 ^ 53 : ℕ) → ∃ m, f.HasBeats m ∧
      (∀ n b, ((drawBeats f r.rollBox n 0).on b).isSome = true ↔ m < n) ∧
      ∃ b', (drawFrame f).on ⟨r, journal⟩ = some (.ok (), b') ∧
        Rules f r.rollBox m journal b'.journal) ∧
    ((2 ^ 53 : ℕ) ≤ worth f.viewEnd → (drawFrame f).on ⟨r, journal⟩ = none ∧
      ∀ n b, (drawBeats f r.rollBox n 0).on b = none) := by
  have standing := standing_of_loaded hload hf hrest
  constructor
  · intro hnear
    obtain ⟨m, hm, hsmall, hpass⟩ := exists_beats standing hnear
    exact ⟨m, hm, drawBeats_ends_iff standing hr.rollBox hm hsmall,
      drawFrame_near (b := ⟨r, journal⟩) standing hr hm hsmall hpass⟩
  · intro hfar
    exact ⟨drawFrame_far (b := ⟨r, journal⟩) standing hr hfar,
      drawBeats_endless standing hr.rollBox hfar⟩

theorem exists_frame {a : Act (Option Frame)} {b : Bench Studio} {p : Frame → Bool}
    (h : (a.on b).any (fun q => match q.1 with
      | .ok (some f) => p f
      | _ => false) = true) : ∃ f b', a.on b = some (.ok (some f), b') ∧ p f = true := by
  obtain ⟨⟨r, b'⟩, hon, hp⟩ := (Option.any_eq_true _ _).1 h
  dsimp only at hp
  split at hp
  · next f => exact ⟨f, b', hon, hp⟩
  · cases hp

theorem sized_default : Sized {} where
  windowWidth := by decide
  windowHeight := by decide
  editorWidth := by decide
  pianoHeight := by decide
  clip := nofun

/-- A short script beside a song. -/
theorem ruled_or_endless_scale : ∃ load ∈ Studio.loadings "C" (some "Scale"), ∃ f b',
    (load >>= fun _ => Studio.frame none).on ⟨{}, []⟩ = some (.ok (some f), b') ∧
    f.playing = false ∧ ∃ m, f.HasBeats m ∧ ∃ b'', (drawFrame f).on ⟨{}, []⟩ = some (.ok (), b'') ∧
      Rules f (rollBox {}) m [] b''.journal := by
  let load : Act Unit := do Studio.loadSong (some "Scale"); discard (Studio.setScript "C")
  have hload : load ∈ Studio.loadings "C" (some "Scale") := List.mem_cons_self
  obtain ⟨f, b', hf, hgood⟩ := exists_frame (a := load >>= fun _ => Studio.frame none)
    (b := ⟨{}, []⟩) (p := fun f => !f.playing && decide (f.viewEnd < 9007199254740992))
    (by decide +kernel)
  obtain ⟨hrest, hend⟩ := Bool.and_eq_true_iff.1 hgood
  have hrest : f.playing = false := by simpa using hrest
  have hnear := (worth_lt (of_decide_eq_true hend)).trans_eq counts_last.worth
  obtain ⟨m, hm, -, hdrawn⟩ := (ruled_or_endless hload hf hrest sized_default []).1 hnear
  exact ⟨load, hload, f, b', hf, hrest, m, hm, hdrawn⟩

/-- A step so long that the beats in view cannot be counted. -/
theorem ruled_or_endless_far : ∃ load ∈ Studio.loadings "step 1e300\nC" none, ∃ f b',
    (load >>= fun _ => Studio.frame none).on ⟨{}, []⟩ = some (.ok (some f), b') ∧
    f.playing = false ∧ Sized {} ∧ (drawFrame f).on ⟨{}, []⟩ = none ∧
    ∀ n b, (drawBeats f (rollBox {}) n 0).on b = none := by
  let load : Act Unit := do Studio.loadSong none; discard (Studio.setScript "step 1e300\nC")
  have hload : load ∈ Studio.loadings "step 1e300\nC" none := List.mem_cons_self
  obtain ⟨f, b', hf, hgood⟩ := exists_frame (a := load >>= fun _ => Studio.frame none)
    (b := ⟨{}, []⟩) (p := fun f => !f.playing && decide (9007199254740992 ≤ f.viewEnd))
    (by decide +kernel)
  obtain ⟨hrest, hend⟩ := Bool.and_eq_true_iff.1 hgood
  have hrest : f.playing = false := by simpa using hrest
  have hfar := counts_last.worth.symm.trans_le (worth_le (of_decide_eq_true hend))
  have standing := standing_of_loaded hload hf hrest
  exact ⟨load, hload, f, b', hf, hrest, sized_default,
    drawFrame_far (b := ⟨{}, []⟩) standing sized_default hfar,
    drawBeats_endless standing sized_default.rollBox hfar⟩

end PianoRoll.Renderer
