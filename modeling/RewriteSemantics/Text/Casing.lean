/-
# Capital initials

The uppercase form of a character, which may be several characters (`ß` becomes `SS`), and of the
first character of a text.
-/
import RewriteSemantics.Text.CharClass

namespace RewriteSemantics.Text

/-- The uppercase form of a character, itself when it has none. -/
def uppercase (c : Char) : List Char :=
  if c.toNat < 128 then [c.toUpper]
  else match uppercaseExpansions.lookup c.toNat with
    | some image => image.map Char.ofNat
    | none => match uppercaseMaps.find? (·.contains c.toNat) with
      | some run => [Char.ofNat (run.image + (c.toNat - run.first))]
      | none => [c]

/-- The text with its first character in uppercase form. -/
def capitalize (text : String) : String :=
  match text.toList with
  | [] => ""
  | c :: rest => String.ofList (uppercase c ++ rest)

end RewriteSemantics.Text
