/-
# The computation cell

A rule that mentions no cell rewrites the front of the computation, so its body belongs into the
computation cell, which goes on to the right. Items beside the cells of a rule belong there too, if
the rule does not write that cell itself. Rules of functions stay as they are.
-/
import RewriteSemantics.CellTree
import RewriteSemantics.Pass.Basic

namespace RewriteSemantics

namespace ComputationCell

/-- A body placed into the computation cell, as far as it is not in cells yet. -/
def wrap (cell : String) (body : Term) : Term :=
  if body.hasCells then
    match body with
    | .bag items =>
      let others := items.filter (!·.isCell)
      if items.any (·.isCellNamed cell) || others.isEmpty then .bag items
      else .bag (.openCell cell (.sequence others) :: items.filter (·.isCell))
    | t => t
  else .openCell cell body

/-- The rule with its body placed into the computation cell. -/
def addToRule (cell : String) (d : Definition) (r : Rule) : Rule :=
  if d.isFunctionRule r then r else { r with body := wrap cell r.body }

/-- Whether a configuration of just the computation cell has to be declared: there is none, and the
default one has another cell. -/
def needsConfiguration (cell : String) (d : Definition) : Bool :=
  (d.configuration? d.main).isNone && cell != CellTree.computationCell

/-- The definition with all rules placed into cells. -/
def add (cell : String) (d : Definition) : Except PassError Definition := do
  let wrapped ← d.mapRules fun r => .ok (addToRule cell d r)
  if needsConfiguration cell d then
    wrapped.appendToMain [.configuration ⟨CellTree.defaultConfiguration cell, ∅⟩]
  else .ok wrapped

/-- What is reported of declaring a configuration. -/
def report (cell : String) (d : Definition) : List LogEntry :=
  if needsConfiguration cell d then
    [⟨.debug, "Declaring configuration " ++ cellLabel cell ++ " in " ++ d.main⟩]
  else []

end ComputationCell

/-- Places rules without cells into the computation cell. -/
def Pass.addComputationCell (cell : String) : Pass :=
  ⟨"add-implicit-computation-cell", ComputationCell.add cell, ComputationCell.report cell⟩

end RewriteSemantics
