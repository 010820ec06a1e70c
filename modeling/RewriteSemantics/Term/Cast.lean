/-
# Semantic casts

A cast `t:S` is kept as the application of the label `#SemanticCastToS` to `t`.
-/
import RewriteSemantics.Term.Basic

namespace RewriteSemantics.Label

/-- What the labels of casts start with. -/
def castStem : String := "#SemanticCastTo"

/-- The label of the cast to a sort. -/
def cast (sort : SortName) : String :=
  castStem ++ sort.name

/-- What a text goes on with behind another, if it starts with that. -/
def behind? (stem text : String) : Option String :=
  (stem.toList.isPrefixOf? text.toList).map String.ofList

/-- The sort that a label casts to. -/
def castSort? (label : String) : Option SortName :=
  (behind? castStem label).map SortName.mk

end RewriteSemantics.Label
