/-!
Capitals, as far as they are letters without accents. A few characters outside that alphabet have
their capitals in it, some of them two or three.
-/

namespace PianoRoll.Text

/-- The characters outside the alphabet whose capitals are in it. -/
def capitalsOutside : List (Char × String) :=
  [('ß', "SS"), ('ı', "I"), ('ſ', "S"), ('ﬀ', "FF"), ('ﬁ', "FI"), ('ﬂ', "FL"), ('ﬃ', "FFI"),
   ('ﬄ', "FFL"), ('ﬅ', "ST"), ('ﬆ', "ST")]

/-- The capitals of a character. One with no capital in the alphabet is left as it is. -/
def capital (c : Char) : List Char :=
  match capitalsOutside.lookup c with
  | some s => s.toList
  | none => [c.toUpper]

/-- A text in capitals. -/
def capitals (s : String) : String := String.ofList (s.toList.flatMap capital)

end PianoRoll.Text
