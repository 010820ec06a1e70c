/-
# The strategy cell

Where heating and cooling are steered by a strategy, every rule also matches on the strategy cell:
heating and cooling rules on their markers, and any other rule on whatever the strategy is.
-/
import RewriteSemantics.CellTree
import RewriteSemantics.Rule.AnonymousVariables

namespace RewriteSemantics

namespace StrategyCell

/-- The name of the strategy cell. -/
def cellName : String := "s"

/-- The marker that heating rules wait for. -/
def heatMarker : String := "#heat"

/-- The marker that cooling rules wait for. -/
def coolMarker : String := "#cool"

/-- What a rule matches in the strategy cell. -/
def content (r : Rule) : Term :=
  if r.isHeat then .constant heatMarker
  else if r.isCool then .constant coolMarker
  else .ofName ((FreshNames.avoiding r.variableNames).fresh generatedStem).1

/-- The rule with the strategy cell, unless it writes one or belongs to a function. -/
def addToRule (d : Definition) (r : Rule) : Rule :=
  if d.isFunctionRule r || r.body.mentionsCell cellName then r
  else { r with body := r.body.beside (.openCell cellName (content r)) }

/-- The definition with the strategy cell in all rules, if strategies are enabled and the cell is
declared. -/
def add (enabled : Bool) (d : Definition) : Except PassError Definition :=
  if enabled then do
    let tree ← (CellTree.ofModule d d.main).mapError .wrongDefinition
    if tree.contains cellName then d.mapRules fun r => .ok (addToRule d r) else .ok d
  else .ok d

/-- What is reported of adding the strategy cell. -/
def report (enabled : Bool) (d : Definition) : List LogEntry :=
  match CellTree.ofModule d d.main with
  | .error _ => []
  | .ok tree =>
    if enabled && !tree.contains cellName then
      [⟨.warn, "Heat/cool strategies requested but the configuration has no " ++
        cellLabel cellName ++ " cell"⟩]
    else []

end StrategyCell

/-- Adds the strategy cell to rules. -/
def Pass.addStrategyCell (enabled : Bool) : Pass :=
  ⟨"add-strategy-cell", StrategyCell.add enabled, StrategyCell.report enabled⟩

end RewriteSemantics
