/-
# Anonymous variables

Every occurrence of the anonymous variable stands for a value of its own. Each gets a name that is
used nowhere else in its rule or context, and keeps its sort.
-/
import RewriteSemantics.FreshNames
import RewriteSemantics.Pass.Basic

namespace RewriteSemantics

/-- What the names of generated variables start with. -/
def generatedStem : String := "_Gen"

namespace AnonymousVariables

/-- Names a variable if it is anonymous. -/
def nameVariable (v : Variable) (names : FreshNames) : Variable × FreshNames :=
  if v.isAnonymous then
    let (name, names) := names.fresh generatedStem
    (⟨name, v.sort⟩, names)
  else (v, names)

/-- The rule with its anonymous variables named, from left to right through its terms. -/
def resolveRule (r : Rule) : Rule :=
  let names := FreshNames.avoiding r.variableNames
  let (body, names) := r.body.threadVariables nameVariable names
  let (requires, names) := Term.threadVariables? nameVariable r.requires names
  let (ensures, _) := Term.threadVariables? nameVariable r.ensures names
  ⟨body, requires, ensures, r.attributes⟩

/-- The context with its anonymous variables named. -/
def resolveContext (c : Context) : Context :=
  let names := FreshNames.avoiding c.variableNames
  let (body, names) := c.body.threadVariables nameVariable names
  let (requires, _) := Term.threadVariables? nameVariable c.requires names
  ⟨body, requires, c.attributes⟩

end AnonymousVariables

/-- Names the anonymous variables of rules and contexts. -/
def Pass.resolveAnonymous : Pass :=
  .silent "resolve-anon-vars"
    (·.mapRulesAndContexts AnonymousVariables.resolveRule AnonymousVariables.resolveContext)

end RewriteSemantics
