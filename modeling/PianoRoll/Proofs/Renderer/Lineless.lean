import PianoRoll.Proofs.Number.Quotient
import PianoRoll.Proofs.Session.Scripted
import PianoRoll.Renderer

/-!
The parts of a frame that have no lines: lanes, labels, notes at rest, and the box outside which
nothing is drawn. In a window of a size that windows can have, and over an extent that scripts can
write, they are drawn to their end (`Lineless`).
-/

namespace PianoRoll

open Number Work

def Entry.line? : Entry → Option (Spot × Spot)
  | .drawn (.line _ start finish _) => some (start, finish)
  | _ => none

def linesIn (journal : List Entry) : List (Spot × Spot) := journal.filterMap Entry.line?

theorem linesIn_append (es es' : List Entry) : linesIn (es ++ es') = linesIn es ++ linesIn es' :=
  List.filterMap_append

namespace Renderer

/-! ## Work that draws no line -/

/-- Work that ends well and draws no line. -/
structure Lineless {α : Type} (p : Work Renderer α) : Prop where
  succeeds : Succeeds p
  writes : Writes (fun e => e.line? = none) p

theorem Lineless.on {α : Type} {p : Work Renderer α} (h : Lineless p) (b : Bench Renderer) :
    ∃ a b', p.on b = some (.ok a, b') ∧ linesIn b'.journal = linesIn b.journal := by
  obtain ⟨a, b', hp⟩ := h.succeeds b
  obtain ⟨es, hes, none_of, -⟩ := h.writes hp
  refine ⟨a, b', hp, ?_⟩
  rw [hes, linesIn_append, linesIn, List.filterMap_eq_nil_iff.2 none_of, List.nil_append]

theorem lineless_pure {α : Type} (a : α) : Lineless (pure a) := ⟨succeeds_pure a, writes_pure a⟩

theorem lineless_look : Lineless look := ⟨succeeds_look, writes_look⟩

theorem lineless_change (f : Renderer → Renderer) : Lineless (change f) :=
  ⟨succeeds_change f, writes_change f⟩

theorem lineless_orFail {α : Type} {r : Except Fault α} (h : ∃ a, r = .ok a) :
    Lineless (orFail r) := by
  obtain ⟨a, rfl⟩ := h
  exact ⟨succeeds_orFail a, writes_orFail _⟩

theorem lineless_draw (s : Shape) (h : (Entry.drawn s).line? = none) : Lineless (draw s) :=
  ⟨succeeds_write _, writes_write _ h⟩

theorem Lineless.bind {α β : Type} {p : Work Renderer α} {f : α → Work Renderer β}
    (hp : Lineless p) (hf : ∀ a, Lineless (f a)) : Lineless (p >>= f) :=
  ⟨hp.succeeds.bind fun a => (hf a).succeeds, hp.writes.bind fun a => (hf a).writes⟩

theorem lineless_forM {α : Type} {f : α → Work Renderer Unit} (hf : ∀ a, Lineless (f a))
    (xs : List α) : Lineless (xs.forM f) :=
  ⟨succeeds_forM (fun a => (hf a).succeeds) xs, writes_forM (fun a => (hf a).writes) xs⟩

theorem lineless_ite {α : Type} {c : Prop} [Decidable c] {p q : Work Renderer α}
    (hp : Lineless p) (hq : Lineless q) : Lineless (if c then p else q) :=
  ⟨succeeds_ite hp.succeeds hq.succeeds, writes_ite hp.writes hq.writes⟩

/-! ## Sizes -/

def Small (n : Int) : Prop := n.natAbs < 2 ^ 40

theorem Small.log2_le {n : Int} (h : Small n) : n.natAbs.log2 ≤ 1022 := by
  rcases Nat.eq_zero_or_pos n.natAbs with h0 | h0
  · rw [h0]
    decide
  · have hlog := (Nat.log2_lt h0.ne').2 h
    omega

theorem Small.ofWhole? {n : Int} (h : Small n) : ofWhole? n = .ok (ofWhole n) :=
  ofWhole?_ok h.log2_le

theorem Small.quotient {a b : Int} (h : Small a) (hb : b ≠ 0) : ∃ x, quotient a b = .ok x :=
  quotient_ok hb (h.log2_le.trans (Nat.le_add_left _ _))

theorem lineless_coordinate {n : Int} (h : Small n) : Lineless (coordinate n) :=
  lineless_orFail ⟨_, h.ofWhole?⟩

/-- A box whose place and sizes are whole numbers of thirty-three bits. -/
structure Fits (box : Box) : Prop where
  x : box.x.natAbs < 2 ^ 33
  y : box.y.natAbs < 2 ^ 33
  w : box.w.natAbs < 2 ^ 33
  h : box.h.natAbs < 2 ^ 33

theorem Fits.top {box : Box} (h : Fits box) : Small box.y := by
  have hy := h.y
  unfold Small
  omega

theorem Fits.bottom {box : Box} (h : Fits box) : Small box.bottom := by
  have hy := h.y
  have hh := h.h
  unfold Small Box.bottom
  omega

/-- A renderer whose sizes are whole numbers of thirty-two bits, as the sizes of windows are, and
whose clipping box is a box of such a window. -/
structure Sized (r : Renderer) : Prop where
  windowWidth : r.settings.windowWidth.natAbs < 2 ^ 31
  windowHeight : r.settings.windowHeight.natAbs < 2 ^ 31
  editorWidth : r.settings.editorWidth.natAbs < 2 ^ 31
  pianoHeight : r.settings.pianoHeight.natAbs < 2 ^ 31
  clip : ∀ box ∈ r.clip, Fits box

theorem Sized.rollBox {r : Renderer} (h : r.Sized) : Fits r.rollBox := by
  obtain ⟨hw, hh, he, hp, -⟩ := h
  have hstatus : statusHeight = 36 := rfl
  constructor <;> simp only [Renderer.rollBox, hstatus] <;> omega

/-! ## The parts of a frame -/

theorem lineless_area {box : Box} (h : Fits box) : Lineless (area box) := by
  obtain ⟨hx, hy, hw, hh⟩ := h
  have small {n : Int} (h : n.natAbs < 2 ^ 33) : Lineless (coordinate n) :=
    lineless_coordinate (by unfold Small; omega)
  exact (small hx).bind fun _ => (small hy).bind fun _ => (small hw).bind fun _ =>
    (small hh).bind fun _ => lineless_pure _

theorem lineless_drawText (words : String) (colour : Colour) {x y : Int} (hx : Small x)
    (hy : Small y) : Lineless (drawText words colour x y) :=
  ((lineless_coordinate hx).bind fun _ => (lineless_coordinate hy).bind fun _ =>
    lineless_pure _).bind fun _ => lineless_draw _ rfl

theorem lineless_setClip {clip : Option Box} (h : ∀ box ∈ clip, Fits box) :
    Lineless (setClip clip) := by
  have areas : Lineless (clip.mapM area) := by
    cases clip with
    | none => exact lineless_pure _
    | some box =>
      rw [Option.mapM_some, map_eq_pure_bind]
      exact (lineless_area (h box rfl)).bind fun _ => lineless_pure _
  exact areas.bind fun _ => (lineless_draw _ rfl).bind fun _ => lineless_change _

section Parts

variable {box : Box} (hbox : Fits box)
include hbox

theorem lineless_drawLane (height : Float) (pitch : Int) (row : Nat) :
    Lineless (drawLane box height pitch row) := by
  have hx := hbox.x
  have hw := hbox.w
  have left : Lineless (coordinate box.x) := lineless_coordinate (by unfold Small; omega)
  have width : Lineless (coordinate box.w) := lineless_coordinate (by unfold Small; omega)
  have inside : Lineless (coordinate (box.x + 4)) := lineless_coordinate (by unfold Small; omega)
  refine left.bind fun _ => width.bind fun _ => (lineless_draw _ rfl).bind fun _ => ?_
  exact lineless_ite (inside.bind fun _ => lineless_draw _ rfl) (lineless_pure ())

variable {r : Extent} (hr : r.Written)
include hr

theorem exists_laneHeight : ∃ height, laneHeight box r = .ok height := by
  have hh : Small box.h := by have := hbox.h; unfold Small; omega
  have hrows : r.rows ≠ 0 := by
    have := hr.ordered
    unfold Extent.rows Extent.span
    omega
  exact hh.quotient hrows

theorem lineless_drawGrid : Lineless (drawGrid box r) := by
  obtain ⟨hx, hy, hw, hh⟩ := id hbox
  refine (lineless_orFail (exists_laneHeight hbox hr)).bind fun height => ?_
  refine (lineless_forM (fun row => lineless_drawLane hbox _ _ row) _).bind fun _ => ?_
  refine lineless_look.bind fun screen => ?_
  have high := screen.face.width_lt r.highLabel
  have low := screen.face.width_lt r.lowLabel
  have tall := screen.face.height_lt
  refine (lineless_drawText _ _ ?_ ?_).bind fun _ => lineless_drawText _ _ ?_ ?_
  all_goals
    simp only [Small, Box.right, Box.bottom]
    omega

end Parts

theorem lineless_drawStill {f : Frame} (hr : f.extent.Written) (box : Box) (height : Float)
    (colour : Colour) (width : Int) (n : Note) :
    Lineless (drawStill f box height colour width n) := by
  have hrow : Small (Layout.laneRow f.extent n.pitch) := by
    have hlow := hr.low
    have hordered := hr.ordered
    have hhigh := hr.high
    unfold Small Layout.laneRow Extent.span
    omega
  have htop : ∃ y, Layout.laneTop (ofWhole box.y) height (Layout.laneRow f.extent n.pitch) =
      .ok y := ⟨_, by rw [Layout.laneTop, hrow.ofWhole?]; rfl⟩
  exact (lineless_orFail htop).bind fun _ => lineless_draw _ rfl

end Renderer

end PianoRoll
