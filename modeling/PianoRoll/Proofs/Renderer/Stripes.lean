import PianoRoll.Proofs.Melody.Extents
import PianoRoll.Proofs.Work
import PianoRoll.Renderer

/-!
The stripes of the roll, one for each pitch of its extent. The lanes of the notes are counted from
the same end and lie on them: the edge of a lane is computed apart from the stripes, and comes to
the same number (`Extent.Covers.inLane`).
-/

namespace PianoRoll

open Number Work

def Entry.rect? : Entry → Option Shape
  | .drawn (.rect colour area width radius) => some (.rect colour area width radius)
  | _ => none

def rectsIn (journal : List Entry) : List Shape := journal.filterMap Entry.rect?

theorem ofWhole?_inv {n : Int} {x : Float} (h : ofWhole? n = .ok x) : x = ofWhole n := by
  unfold ofWhole? at h
  dsimp only at h
  split at h <;> cases h
  rfl

namespace Renderer

def stripeTop (box : Box) (height : Float) (row : Nat) : Float :=
  Layout.laneTopOf (ofWhole box.y) height (ofWhole row)

/-- The stripe of the pitch that lies so many rows below the highest one. -/
def stripe (box : Box) (r : Extent) (height : Float) (row : Nat) : Shape :=
  .rect (if isBlack (r.high - row) then ⟨24, 24, 30⟩ else ⟨30, 30, 36⟩)
    ⟨ofWhole box.x, stripeTop box height row, ofWhole box.w, height⟩ 0 (-1)

/-- The stripes of an extent, from the highest pitch to the lowest. -/
def stripes (box : Box) (r : Extent) (height : Float) : List Shape :=
  (List.range r.rows.toNat).map (stripe box r height)

section Drawing

variable {box : Box} {b b' : Bench Renderer} {u : Unit}

theorem coordinate_inv {α : Type} {n : Int} {f : Float → Work Renderer α} {a : α}
    (h : (coordinate n >>= f).on b = some (.ok a, b')) :
    (f (ofWhole n)).on b = some (.ok a, b') := by
  rcases on_orFail_bind_inv h with ⟨x, hx, hon⟩ | ⟨e, -, he, -⟩
  · rwa [ofWhole?_inv hx] at hon
  · cases he

theorem rectsIn_drawText {words : String} {colour : Colour} {x y : Int}
    (h : (drawText words colour x y).on b = some (.ok u, b')) :
    rectsIn b'.journal = rectsIn b.journal := by
  rcases on_bind_inv h with ⟨corner, b₁, placed, written⟩ | ⟨e, -, he⟩
  · have there := coordinate_inv (coordinate_inv placed)
    cases there
    cases written
    rfl
  · cases he

theorem rectsIn_drawLane {r : Extent} {height : Float} {row : Nat}
    (h : (drawLane box height (r.high - row) row).on b = some (.ok u, b')) :
    rectsIn b'.journal = stripe box r height row :: rectsIn b.journal := by
  have hon := coordinate_inv (coordinate_inv h)
  rw [draw, on_bind_ok (on_write _ _)] at hon
  split at hon
  · have named := coordinate_inv hon
    cases named
    rfl
  · cases hon
    rfl

theorem rectsIn_drawLanes {r : Extent} {height : Float} {rows : List Nat}
    (h : (rows.forM fun row => drawLane box height (r.high - row) row).on b =
      some (.ok u, b')) :
    rectsIn b'.journal = (rows.map (stripe box r height)).reverse ++ rectsIn b.journal := by
  induction rows generalizing b with
  | nil =>
    cases h
    rfl
  | cons row rows ih =>
    rw [forM_cons] at h
    rcases on_bind_inv h with ⟨_, b₁, h₁, h₂⟩ | ⟨e, -, he⟩
    · rw [ih h₂, rectsIn_drawLane h₁, List.map_cons, List.reverse_cons, List.append_assoc]
      rfl
    · cases he

/-- The rectangles of the grid are the stripes of its extent. -/
theorem rectsIn_drawGrid {r : Extent} {height : Float} (tall : laneHeight box r = .ok height)
    (h : (drawGrid box r).on b = some (.ok u, b')) :
    rectsIn b'.journal = (stripes box r height).reverse ++ rectsIn b.journal := by
  rw [drawGrid, tall, on_bind_ok (on_orFail _ b)] at h
  rcases on_bind_inv h with ⟨_, b₁, lanes, h⟩ | ⟨e, -, he⟩
  · rw [on_bind_ok (on_look b₁)] at h
    rcases on_bind_inv h with ⟨_, b₂, highest, lowest⟩ | ⟨e, -, he⟩
    · rw [rectsIn_drawText lowest, rectsIn_drawText highest]
      exact rectsIn_drawLanes lanes
    · cases he
  · cases he

end Drawing

/-! ## Lanes -/

theorem laneTop_eq (top height : Float) (row : Int) :
    Layout.laneTop top height row =
      (ofWhole? row).map fun _ => Layout.laneTopOf top height (ofWhole row) := by
  rw [Layout.laneTop]
  cases found : ofWhole? row with
  | error e =>
    change Except.error e = Except.error e
    rfl
  | ok x =>
    change Except.ok (Layout.laneTopOf top height x) = Except.ok _
    rw [ofWhole?_inv found]

/-- A pitch that lies on the stripe of its own: the row is counted from the highest pitch without
being held back, and the edge of its lane is that of the stripe, unless there is no double for the
row at all. -/
structure InLane (r : Extent) (box : Box) (height : Float) (pitch : Int) (row : Nat) : Prop where
  inside : row < r.rows.toNat
  own : r.high - row = pitch
  unclamped : Layout.laneRow r pitch = row
  top : Layout.laneTop (ofWhole box.y) height (Layout.laneRow r pitch) =
    (ofWhole? row).map fun _ => stripeTop box height row

end Renderer

open Renderer

/-- The pitches of notes within an extent have lanes of their own. -/
theorem Extent.Covers.inLane {notes : List Note} {r : Extent} (h : r.Covers notes) {n : Note}
    (hn : n ∈ notes) (box : Box) (height : Float) :
    InLane r box height n.pitch (r.high - n.pitch).toNat := by
  obtain ⟨low, high⟩ := h n hn
  have row : Layout.laneRow r n.pitch = ((r.high - n.pitch).toNat : Int) := by
    rw [Layout.laneRow, Extent.span]
    omega
  refine ⟨?_, by omega, row, ?_⟩
  · rw [Extent.rows, Extent.span]
    omega
  · rw [row]
    exact laneTop_eq _ _ _

/-- Notes of different pitches have different lanes. -/
theorem Extent.Covers.laneRow_inj {notes : List Note} {r : Extent} (h : r.Covers notes)
    {n m : Note} (hn : n ∈ notes) (hm : m ∈ notes) :
    Layout.laneRow r n.pitch = Layout.laneRow r m.pitch ↔ n.pitch = m.pitch := by
  obtain ⟨low, high⟩ := h n hn
  obtain ⟨low', high'⟩ := h m hm
  rw [Layout.laneRow, Layout.laneRow, Extent.span]
  omega

end PianoRoll
