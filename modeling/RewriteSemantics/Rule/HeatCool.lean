/-
# Heating and cooling conditions

A heating rule takes a term out for evaluation only if it is no result yet, and a cooling rule puts
it back only if it is one.
-/
import RewriteSemantics.Context.Strict

namespace RewriteSemantics

namespace HeatCool

/-- The label of negation. -/
def notLabel : String := "notBool"

/-- The condition that the term at the hole is a result. -/
def holeIsResult : Term :=
  .app resultPredicate [.ofName Variable.hole]

/-- The condition that a heating or cooling rule needs. -/
def condition? (r : Rule) : Option Term :=
  if r.isHeat then some (.app notLabel [holeIsResult])
  else if r.isCool then some holeIsResult
  else none

/-- A rule with the condition it needs. -/
def resolveRule (r : Rule) : Except PassError Rule :=
  match condition? r with
  | none => .ok r
  | some condition =>
    if Variable.hole ∈ r.body.variableNames then
      .ok { r with requires := some (.andBool r.requires condition) }
    else .error (.missingHole r)

end HeatCool

/-- Adds the conditions of heating and cooling rules. -/
def Pass.resolveHeatCool : Pass :=
  .silent "resolve-heat-cool" (·.mapRules HeatCool.resolveRule)

end RewriteSemantics
