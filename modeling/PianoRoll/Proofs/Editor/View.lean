import PianoRoll.Proofs.Editor.Caret
import PianoRoll.Proofs.Number.Quotient

/-!
What the editor shows and where it is clicked. The view may have been left behind by any distance
when rows were set, joined or deleted; drawing brings the caret back into it. What is drawn then
shows the caret once, and each row stands in the band of pixels where a click leads to its end
(`clicks_meet_rows`).
-/

namespace PianoRoll

/-- Whether a shape is a line. In the panel only the caret is one. -/
def Shape.isLine : Shape → Bool
  | .line .. => true
  | _ => false

structure Box.Drawable (b : Box) : Prop where
  x : b.x.natAbs.log2 ≤ 1022
  y : b.y.natAbs.log2 ≤ 1022
  w : b.w.natAbs.log2 ≤ 1022
  h : b.h.natAbs.log2 ≤ 1022

namespace Editor

variable {e : Editor}

/-! ## Rows in view -/

theorem mem_shownRows {i : Nat} :
    i ∈ e.shownRows ↔ e.scroll ≤ i ∧ i < min e.rows.length (e.scroll + e.visible) := by
  simp only [shownRows, List.mem_map, List.mem_range]
  constructor
  · rintro ⟨k, hk, rfl⟩
    omega
  · rintro ⟨hlo, hhi⟩
    exact ⟨i - e.scroll, by omega, by omega⟩

theorem nodup_shownRows : e.shownRows.Nodup :=
  List.nodup_range.map fun _ _ => Nat.add_left_cancel

theorem visible_pos : 0 < e.visible := by
  unfold visible
  omega

structure InView (e : Editor) : Prop where
  low : e.scroll ≤ e.row
  high : e.row < e.scroll + e.visible

theorem scrollToCaret_inView (e : Editor) : e.scrollToCaret.InView := by
  have pos := e.visible_pos
  unfold scrollToCaret
  split
  · exact ⟨le_rfl, Nat.lt_add_of_pos_right pos⟩
  · split
    · refine ⟨?_, ?_⟩
      · change e.row + 1 - e.visible ≤ e.row
        omega
      · change e.row < e.row + 1 - e.visible + e.visible
        omega
    · constructor <;> omega

/-! ## The caret -/

def caret (e : Editor) : Shape :=
  let x := e.box.x + 36 + e.face.width (String.ofList (e.current.take e.col))
  let y := e.rowTop e.row
  .line ⟨240, 240, 240⟩ (spot x y) (spot x (y + e.lineHeight - 2)) 1

/-- A row has a line if the caret is in it. -/
theorem lines_drawRow (e : Editor) (i : Nat) :
    (e.drawRow i).filter Shape.isLine = if e.focused && i == e.row then [e.caret] else [] := by
  unfold drawRow
  rw [List.filter_append]
  split
  · next here =>
    obtain ⟨-, rfl⟩ : e.focused = true ∧ i = e.row := by simpa using here
    rfl
  · rfl

/-- Of distinct elements only one has something to contribute. -/
theorem flatMap_of_nodup {α β : Type} {xs : List α} (nodup : xs.Nodup) {x : α} (hx : x ∈ xs)
    {f : α → List β} (others : ∀ y, y ≠ x → f y = []) : xs.flatMap f = f x := by
  obtain ⟨before, after, rfl⟩ := List.append_of_mem hx
  obtain ⟨-, nodup, apart⟩ := List.nodup_append.1 nodup
  have none (ys : List α) (h : x ∉ ys) : ys.flatMap f = [] :=
    List.flatMap_eq_nil_iff.2 fun y hy => others y fun e => h (e ▸ hy)
  rw [List.flatMap_append, List.flatMap_cons, none after (List.nodup_cons.1 nodup).1,
    none before fun h => apart x h x List.mem_cons_self rfl, List.nil_append, List.append_nil]

/-- The caret is drawn once if the editor has the focus, and there are no other lines. -/
theorem lines_shapes (shown : e.row ∈ e.shownRows) (area : Area) :
    (e.shapes area).filter Shape.isLine = if e.focused then [e.caret] else [] := by
  have rows : (e.shownRows.flatMap e.drawRow).filter Shape.isLine =
      if e.focused then [e.caret] else [] := by
    rw [List.filter_flatMap, flatMap_of_nodup nodup_shownRows shown, lines_drawRow]
    · simp
    · intro i hi
      rw [lines_drawRow, if_neg (by simp [hi])]
  unfold shapes
  rw [List.filter_append, List.filter_append, rows]
  have words (message : String) (spot : Spot) : List.filter Shape.isLine
      (if message.isEmpty then [] else [.text message ⟨231, 76, 60⟩ spot]) = [] := by
    split <;> rfl
  cases e.error with
  | none => exact List.append_nil _
  | some message =>
    dsimp only
    rw [words, List.append_nil]
    rfl

theorem drawRow_subset {i : Nat} (shown : i ∈ e.shownRows) (area : Area) :
    e.drawRow i ⊆ e.shapes area := fun _ hs =>
  List.mem_append_left _ (List.mem_append_right _ (List.mem_flatMap.2 ⟨i, shown, hs⟩))

/-! ## Clicks -/

theorem lineHeight_pos (e : Editor) : 0 < e.lineHeight :=
  Int.natCast_pos.2 e.face.lineHeight_pos

/-- Below the upper edge of a row, by less than the height of a row, the rows above are counted. -/
theorem fdiv_row {row height y : Int} (pos : 0 < height) (low : row * height ≤ y)
    (high : y < row * height + height) : y.fdiv height = row := by
  rw [Int.fdiv_eq_ediv_of_nonneg _ pos.le, Int.ediv_eq_iff_of_pos pos]
  exact ⟨low, high⟩

/-- A click into the band of a row in view leads to the end of that row. -/
theorem click_row {i : Nat} (shown : i ∈ e.shownRows) {x y : Int} (inside : e.box.holds x y = true)
    (low : e.rowTop i ≤ y) (high : y < e.rowTop i + e.lineHeight) :
    e.handle (.down x y 1) =
      ⟨{ e with focused := true, row := i, col := (e.rows[i]?.getD []).length }, true, false⟩ := by
  obtain ⟨above, below⟩ := mem_shownRows.1 shown
  rw [rowTop] at low high
  have number : (y - e.box.y - 6).fdiv e.lineHeight = (i : Int) - e.scroll :=
    fdiv_row e.lineHeight_pos (by omega) (by omega)
  have row :
      min (e.scroll + (y - e.box.y - 6).fdiv e.lineHeight).toNat (e.rows.length - 1) = i := by
    rw [number]
    omega
  have placed : placeCaret y { e with focused := true } =
      { e with focused := true, row := i, col := (e.rows[i]?.getD []).length } := by
    unfold placeCaret
    change (let row := min (e.scroll + (y - e.box.y - 6).fdiv e.lineHeight).toNat _
      ({ e with focused := true, row, col := (e.rows[row]?.getD []).length } : Editor)) = _
    rw [row]
  simp only [handle, inside, ↓reduceIte, placed]

/-! ## Drawing -/

theorem drawn_ok (h : e.box.Drawable) : ∃ e' shapes, e.drawn = .ok (e', shapes) := by
  have area : ∃ area, e.area? = .ok area := by
    unfold area?
    dsimp only
    rw [Number.ofWhole?_ok h.x, Number.ofWhole?_ok h.y, Number.ofWhole?_ok h.w,
      Number.ofWhole?_ok h.h]
    exact ⟨_, rfl⟩
  obtain ⟨area, drawable⟩ := area
  exact ⟨_, _, by rw [drawn, drawable]; rfl⟩

/-- What is drawn is the editor with its caret in view. -/
theorem drawn_inv {e' : Editor} {shapes : List Shape} (h : e.drawn = .ok (e', shapes)) :
    e' = e.scrollToCaret ∧ ∃ area, shapes = e'.shapes area := by
  unfold drawn at h
  cases drawable : e.area? with
  | error f =>
    rw [drawable] at h
    cases h
  | ok area =>
    rw [drawable] at h
    cases h
    exact ⟨rfl, area, rfl⟩

/-- Drawing brings the caret of an editor among the rows that are drawn, and shows it once if the
editor has the focus. A click into the panel in the band of a row that was drawn leads to the end of
that row. -/
theorem clicks_meet_rows {types : String → Prop} (h : e.Reached types) :
    (e.box.Drawable → ∃ e' shapes, e.drawn = .ok (e', shapes)) ∧
    ∀ e' shapes, e.drawn = .ok (e', shapes) →
      (∃ scroll, e' = { e with scroll }) ∧
      e'.scroll ≤ e'.row ∧ e'.row < e'.scroll + e'.visible ∧ e'.row ∈ e'.shownRows ∧
      shapes.filter Shape.isLine = (if e'.focused then [e'.caret] else []) ∧
      ∀ i ∈ e'.shownRows, e'.drawRow i ⊆ shapes ∧
        ∀ x y, e'.box.holds x y = true → e'.rowTop i ≤ y → y < e'.rowTop i + e'.lineHeight →
          e'.handle (.down x y 1) =
            ⟨{ e' with focused := true, row := i, col := (e'.rows[i]?.getD []).length },
              true, false⟩ := by
  refine ⟨drawn_ok, fun e' shapes drawn => ?_⟩
  obtain ⟨rfl, area, rfl⟩ := drawn_inv drawn
  have inView := e.scrollToCaret_inView
  have shown : e.scrollToCaret.row ∈ e.scrollToCaret.shownRows := by
    have := h.scrolled.stands.row
    exact mem_shownRows.2 ⟨inView.low, by have := inView.high; omega⟩
  exact ⟨e.scrollToCaret_eq, inView.low, inView.high, shown, lines_shapes shown area,
    fun i hi => ⟨drawRow_subset hi area, fun x y => click_row hi⟩⟩

/-- An editor of three rows in a panel that shows one. It is clicked while its first row is in view
and the caret stands in the last one, and the caret goes on to the second row. -/
def overtaken : Editor :=
  let opened := create .fixedWidth ⟨0, 36, 300, 60⟩ "C\nD\nE".toList
  let clicked := (Call.outcome opened (.input (.down 10 45 1))).editor
  (Call.outcome clicked (.input (.key .down))).editor

theorem clicks_meet_rows_overtaken : overtaken.row = 1 ∧ overtaken.scroll = 0 ∧
    ∃ e' shapes, overtaken.drawn = .ok (e', shapes) ∧ e'.scroll = 1 ∧ e'.row ∈ e'.shownRows ∧
      shapes.filter Shape.isLine = (if e'.focused then [e'.caret] else []) ∧
      e'.handle (.down 10 45 1) =
        ⟨{ e' with focused := true, row := 1, col := 1 }, true, false⟩ := by
  have reached : overtaken.Reached fun _ => True :=
    .called _ (.called _ (.created _ _ _) fun _ _ => trivial) fun _ _ => trivial
  have box : overtaken.box.Drawable := ⟨by decide, by decide, by decide, by decide⟩
  obtain ⟨drawable, agrees⟩ := clicks_meet_rows reached
  obtain ⟨e', shapes, drawn⟩ := drawable box
  obtain ⟨⟨scroll, rfl⟩, low, high, shown, lines, clicked⟩ := agrees e' shapes drawn
  have one : overtaken.visible = 1 := by decide
  have row : overtaken.row = 1 := by decide
  obtain rfl : scroll = 1 := by
    change scroll ≤ overtaken.row at low
    change overtaken.row < scroll + overtaken.visible at high
    omega
  refine ⟨row, by decide, _, shapes, drawn, rfl, shown, lines, ?_⟩
  exact (clicked 1 (row ▸ shown)).2 10 45 (by decide) (by decide) (by decide)

end Editor

end PianoRoll
