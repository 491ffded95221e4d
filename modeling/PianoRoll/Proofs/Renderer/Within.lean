import PianoRoll.Proofs.Number.Bounds
import PianoRoll.Proofs.Renderer.Lineless

/-!
The beats of a standing roll lie inside it. The place of a beat is the left edge and a share of the
width. Each operation that leads there keeps the order, so an earlier beat lies no further right,
and one within the view lies between the edges (`beatX_within`).
-/

namespace PianoRoll

namespace Number

open Float.Model Float.Model.UnpackedFloat

/-! ## Differences -/

/-- Taking away zero changes nothing. -/
theorem unpack_sub_zero {x : Float} (hx : Numeric x) :
    (x - 0).toModel.unpack = x.toModel.unpack := by
  have keeps (u : UnpackedFloat) : sub .binary64 u (.zero .positive) = u := by
    cases u with
    | zero s => cases s <;> rfl
    | _ => rfl
  change repacked (sub .binary64 x.toModel.unpack (.zero .positive)) = _
  rw [keeps, hx.repacked]

theorem numeric_sub_zero {x : Float} (hx : Numeric x) : Numeric (x - 0) := by
  unfold Numeric
  rw [unpack_sub_zero hx]
  exact hx

theorem worth_sub_zero {x : Float} (hx : Numeric x) : worth (x - 0) = worth x := by
  rw [worth, unpack_sub_zero hx]
  rfl

theorem sub_zero_mono {x y : Float} (h : x ≤ y) : x - 0 ≤ y - 0 := by
  obtain ⟨numeric, numeric'⟩ := numeric_of_le h
  refine (le_iff (numeric_sub_zero numeric) (numeric_sub_zero numeric')).2 ?_
  rw [worth_sub_zero numeric, worth_sub_zero numeric']
  exact worth_le h

theorem le_sub_zero {x y : Float} (h : x ≤ y) : x ≤ y - 0 := by
  obtain ⟨numeric, numeric'⟩ := numeric_of_le h
  refine (le_iff numeric (numeric_sub_zero numeric')).2 ?_
  rw [worth_sub_zero numeric']
  exact worth_le h

theorem lt_sub_zero {x y : Float} (h : x < y) : x < y - 0 := by
  obtain ⟨numeric, numeric'⟩ := numeric_of_lt h
  refine (lt_iff numeric (numeric_sub_zero numeric')).2 ?_
  rw [worth_sub_zero numeric']
  exact worth_lt h

theorem isFinite_sub_zero {x : Float} (h : isFinite x = true) : isFinite (x - 0) = true := by
  obtain ⟨numeric, above, below⟩ := worth_finite h
  rw [← worth_sub_zero numeric] at above below
  exact isFinite_of_worth (numeric_sub_zero numeric) above below

/-! ## Sums -/

/-- Adding to the same finite number keeps the order. -/
theorem float_add_mono {x y z : Float} (hx : isFinite x = true) (h : y ≤ z) : x + y ≤ x + z := by
  have numeric := (worth_finite hx).1
  have apart := not_opposite_of_finite hx
  obtain ⟨numeric_y, numeric_z⟩ := numeric_of_le h
  refine (le_iff (numeric_add numeric numeric_y (apart _))
    (numeric_add numeric numeric_z (apart _))).2 ?_
  rw [worth_add numeric numeric_y (apart _), worth_add numeric numeric_z (apart _)]
  exact fit_mono (add_le_add le_rfl (worth_le h))

/-- Adding what is not below zero leads to nothing smaller, from any finite number. -/
theorem float_le_add_of_nonneg {x y : Float} (hx : isFinite x = true) (h : 0 ≤ y) : x ≤ x + y := by
  have numeric := (worth_finite hx).1
  have apart := not_opposite_of_finite hx (worth 0)
  have same : worth (x + 0) = worth x := by
    rw [worth_add numeric numeric_zero apart, worth_zero, add_zero]
    exact numeric.fit_value
  have le : x ≤ x + 0 := (le_iff numeric (numeric_add numeric numeric_zero apart)).2 same.ge
  exact float_le_trans le (float_add_mono hx h)

/-! ## Shares -/

/-- A whole that is finite and above zero, and a width that is finite and not below it. -/
structure Scale (whole width : Float) : Prop where
  ends : isFinite whole = true
  pos : 0 < whole
  finite : isFinite width = true
  nonneg : 0 ≤ width

namespace Scale

variable {whole width : Float} (h : Scale whole width)
include h

theorem worth_pos : 0 < worth whole := by
  have lt := worth_lt h.pos
  rwa [worth_zero] at lt

theorem worth_quotient (part : Float) : worth (part / whole) = fit (worth part / worth whole) :=
  worth_div part h.worth_pos

/-- Parts of the whole keep their order when they are divided by it. -/
theorem quotient_mono {part part' : Float} (le : part ≤ part') : part / whole ≤ part' / whole := by
  obtain ⟨numeric, numeric'⟩ := numeric_of_le le
  have below := (worth_finite h.ends).2.2
  refine (le_iff (numeric_div numeric h.worth_pos below)
    (numeric_div numeric' h.worth_pos below)).2 ?_
  rw [h.worth_quotient, h.worth_quotient]
  exact fit_mono (EReal.div_le_div_right_of_nonneg h.worth_pos.le (worth_le le))

theorem worth_zero_quotient : worth (0 / whole) = 0 := by
  rw [h.worth_quotient, worth_zero, EReal.zero_div, fit_zero]

theorem worth_whole_quotient : worth (whole / whole) = 1 := by
  have below := (worth_finite h.ends).2.2
  rw [h.worth_quotient, EReal.div_self h.worth_pos.ne_bot below.ne h.worth_pos.ne', fit_one]

/-- A part of the whole is between none of it and all of it. -/
theorem quotient_bounds {part : Float} (low : 0 ≤ part) (high : part ≤ whole) :
    isFinite (part / whole) = true ∧ 0 ≤ worth (part / whole) ∧ worth (part / whole) ≤ 1 := by
  have nonneg := worth_le (h.quotient_mono low)
  have most := worth_le (h.quotient_mono high)
  rw [h.worth_zero_quotient] at nonneg
  rw [h.worth_whole_quotient] at most
  have numeric := (numeric_of_le (h.quotient_mono low)).2
  have below : worth (part / whole) < ⊤ := most.trans_lt (EReal.coe_lt_top 1)
  exact ⟨isFinite_of_worth numeric (EReal.bot_lt_zero.trans_le nonneg) below, nonneg, most⟩

/-- A larger part gets no smaller share of the width. -/
theorem share_mono {part part' : Float} (low : 0 ≤ part) (le : part ≤ part')
    (high : part' ≤ whole) : part / whole * width ≤ part' / whole * width := by
  obtain ⟨finite, -⟩ := h.quotient_bounds low (float_le_trans le high)
  obtain ⟨finite', -⟩ := h.quotient_bounds (float_le_trans low le) high
  have nonneg := worth_le h.nonneg
  rw [worth_zero] at nonneg
  refine (le_iff (numeric_mul finite h.finite) (numeric_mul finite' h.finite)).2 ?_
  rw [worth_mul, worth_mul]
  exact fit_mono (mul_le_mul_of_nonneg_right (worth_le (h.quotient_mono le)) nonneg)

/-- No share is below zero, and none is more than the width. -/
theorem share_bounds {part : Float} (low : 0 ≤ part) (high : part ≤ whole) :
    0 ≤ part / whole * width ∧ part / whole * width ≤ width := by
  obtain ⟨finite, nonneg, most⟩ := h.quotient_bounds low high
  have numeric := numeric_mul finite h.finite
  have numeric_width := (worth_finite h.finite).1
  have nonneg' := worth_le h.nonneg
  rw [worth_zero] at nonneg'
  constructor
  · refine (le_iff numeric_zero numeric).2 ?_
    rw [worth_zero, worth_mul]
    exact fit_nonneg (mul_nonneg nonneg nonneg')
  · refine (le_iff numeric numeric_width).2 ?_
    calc worth (part / whole * width) = fit (worth (part / whole) * worth width) := worth_mul _ _
      _ ≤ fit (1 * worth width) := fit_mono (mul_le_mul_of_nonneg_right most nonneg')
      _ = worth width := by rw [one_mul, worth, numeric_width.fit_value]

end Scale

end Number

namespace Renderer

open Number

/-! ## Edges -/

/-- The left edge and the width lead to the right edge exactly. -/
theorem Fits.add_width_le {box : Box} (h : Fits box) :
    ofWhole box.x + ofWhole box.w ≤ ofWhole box.right := by
  have hx := h.x
  have hw := h.w
  obtain ⟨numeric_x, worth_x⟩ := worth_ofWhole (n := box.x) (by omega)
  obtain ⟨numeric_w, worth_w⟩ := worth_ofWhole (n := box.w) (by omega)
  obtain ⟨numeric, worth_right⟩ := worth_ofWhole (n := box.right) (by unfold Box.right; omega)
  have apart := not_opposite_of_finite (isFinite_ofWhole (n := box.x) (by omega))
    (worth (ofWhole box.w))
  refine (le_iff (numeric_add numeric_x numeric_w apart) numeric).2 (le_of_eq ?_)
  have sum : worth (ofWhole box.x) + worth (ofWhole box.w) = worth (ofWhole box.right) := by
    rw [worth_right, worth_x, worth_w, ← EReal.coe_add, Box.right, Int.cast_add]
  rw [worth_add numeric_x numeric_w apart, sum]
  exact numeric.fit_value

/-- Beats within a view that begins with zero lie between the edges of a box that is no narrower
than nothing, an earlier one no further right. -/
theorem beatX_within {box : Box} (h : Fits box) (wide : 0 ≤ box.w) {viewEnd start finish : Float}
    (finite : isFinite viewEnd = true) (pos : 0 < viewEnd) (low : 0 ≤ start)
    (order : start ≤ finish) (high : finish ≤ viewEnd) :
    let place := Layout.beatX 0 viewEnd (ofWhole box.x) (ofWhole box.w)
    ofWhole box.x ≤ place start ∧ place start ≤ place finish ∧
      place finish ≤ ofWhole box.right := by
  have hx := h.x
  have hw := h.w
  have finite_x : isFinite (ofWhole box.x) = true := isFinite_ofWhole (by omega)
  have finite_w : isFinite (ofWhole box.w) = true := isFinite_ofWhole (by omega)
  have nonneg_w : 0 ≤ ofWhole box.w := by
    obtain ⟨numeric, eq⟩ := worth_ofWhole (n := box.w) (by omega)
    refine (le_iff numeric_zero numeric).2 ?_
    rw [worth_zero, eq]
    exact EReal.coe_nonneg.2 (by exact_mod_cast wide)
  have scale : Scale (viewEnd - 0) (ofWhole box.w) :=
    ⟨isFinite_sub_zero finite, lt_sub_zero pos, finite_w, nonneg_w⟩
  have place (beat : Float) : Layout.beatX 0 viewEnd (ofWhole box.x) (ofWhole box.w) beat =
      ofWhole box.x + (beat - 0) / (viewEnd - 0) * ofWhole box.w :=
    if_neg fun le => not_lt_of_ge (worth_le le) (worth_lt pos)
  have low' : 0 ≤ start - 0 := le_sub_zero low
  have order' : start - 0 ≤ finish - 0 := sub_zero_mono order
  have high' : finish - 0 ≤ viewEnd - 0 := sub_zero_mono high
  obtain ⟨first, -⟩ := scale.share_bounds low' (float_le_trans order' high')
  obtain ⟨-, last⟩ := scale.share_bounds (float_le_trans low' order') high'
  dsimp only
  rw [place start, place finish]
  refine ⟨float_le_add_of_nonneg finite_x first, ?_, ?_⟩
  · exact float_add_mono finite_x (scale.share_mono low' order' high')
  · exact float_le_trans (float_add_mono finite_x last) h.add_width_le

end Renderer

end PianoRoll
