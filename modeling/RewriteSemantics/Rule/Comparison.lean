/-
# Comparing rules

Two rules are the same up to generated names if their texts agree after the number behind each
generated name has been replaced by `#`. A generated name is a whole word: one of the two stems and
digits, with no letter, digit or underscore on either side. Only ASCII characters make words here.
-/
import RewriteSemantics.Rule.AnonymousVariables
import RewriteSemantics.Rule.Concretization

namespace RewriteSemantics

namespace GeneratedNames

/-- Letters, digits and the underscore. -/
def isWordChar (c : Char) : Bool :=
  c.isAlphanum || c == '_'

/-- The number of digits behind a stem, if the text goes on with the stem, digits and the end of a
word. -/
def digitsBehind? (stem : String) (cs : List Char) : Option Nat :=
  let digits := (cs.drop stem.length).takeWhile Char.isDigit
  if stem.toList.isPrefixOf cs && !digits.isEmpty &&
      !((cs.drop (stem.length + digits.length)).head?.any isWordChar) then
    some digits.length
  else none

/-- The stem of the generated name that a text goes on with, and the number of its digits. -/
def stemHere? (cs : List Char) : Option (String × Nat) :=
  [generatedStem, Concretization.dotStem].findSome? fun stem =>
    (digitsBehind? stem cs).map (stem, ·)

/-- Replaces the number of each generated name. The first argument counts the characters to be
skipped, and the second tells whether the text before this place ends in a word. -/
def normalizeFrom : Nat → Bool → List Char → List Char
  | _, _, [] => []
  | skipped + 1, _, c :: cs => normalizeFrom skipped (isWordChar c) cs
  | 0, inWord, c :: cs =>
    match if inWord then none else stemHere? (c :: cs) with
    | some (stem, digits) =>
      stem.toList ++ '#' :: normalizeFrom (stem.length + digits - 1) (isWordChar c) cs
    | none => c :: normalizeFrom 0 (isWordChar c) cs

/-- A text with `#` for the number of each generated name. -/
def normalize (text : String) : String :=
  String.ofList (normalizeFrom 0 false text.toList)

end GeneratedNames

namespace Rule

/-- A condition of a rule in the text to compare. -/
def comparedCondition (keyword : String) : Option Term → String
  | some t => " " ++ keyword ++ " " ++ GeneratedNames.normalize t.shown
  | none => ""

/-- The text by which rules are compared. Attributes do not count. -/
def comparedText (r : Rule) : String :=
  GeneratedNames.normalize r.body.shown ++ comparedCondition "requires" r.requires ++
    comparedCondition "ensures" r.ensures

/-- Whether two rules are the same up to generated names. -/
def sameUpToNames (a b : Rule) : Bool :=
  a.comparedText == b.comparedText

end Rule

end RewriteSemantics
