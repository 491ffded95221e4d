import PianoRoll.Number.Binary

/-!
The place of a double within a repeating band: the exact remainder, moved by one period where
its sign is not the period's.
-/

namespace PianoRoll.Number

/-- The remainder of `x` by `period` with the sign of `period`, a nonzero number. -/
def wrap (x period : Float) : Float :=
  match content x, content period with
  | .finite negative n e, .finite downward m f =>
    let g := min e f
    let rest := n * pow 2 (e - g).toNat % (m * pow 2 (f - g).toNat)
    if rest = 0 then nearest downward 0 1
    else
      let r := nearestScaled negative rest g
      if negative = downward then r else r + period
  | .finite negative n _, .infinite downward =>
    if n = 0 then nearest downward 0 1
    else if negative = downward then x
    else period
  | _, _ => notANumber

end PianoRoll.Number
