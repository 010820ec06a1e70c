/-
# Unbound variables

Every variable on the right-hand side of a rule or in its promise is bound on the left-hand side or
in the side condition, and every variable in the side condition of a context is bound in its body.
Variables whose value is made up and variables that may be unbound are exempt.
-/
import RewriteSemantics.Module
import RewriteSemantics.Validation.Violation

namespace RewriteSemantics.RhsVariables

/-- The name of the check. -/
def checkName : String := "rhs-variables"

/-- Whether a name may be used without being bound. -/
def isExempt (name : String) : Bool :=
  Variable.isExistentialName name || Variable.isFreshName name

/-- The names that are used, not bound and not exempt. -/
def unboundAmong (used bound : OrderedSet String) : OrderedSet String :=
  used.filter fun name => name ∉ bound && !isExempt name

/-- The names of the variables of an optional term. -/
def variablesOf : Option Term → OrderedSet String
  | some t => t.variableNames
  | none => ∅

/-- The unbound variables of a rule. -/
def unboundInRule (r : Rule) : OrderedSet String :=
  unboundAmong (r.body.rhs.variableNames ∪ variablesOf r.ensures)
    (r.body.lhs.variableNames ∪ variablesOf r.requires)

/-- The unbound variables of a context. -/
def unboundInContext (c : Context) : OrderedSet String :=
  unboundAmong (variablesOf c.requires) c.body.variableNames

/-- What is said of an unbound variable of a rule. The name is proposed as that of a variable that
may be unbound, without its leading underscores. -/
def ruleMessage (name : String) : String :=
  "Found variable " ++ name ++ " on right hand side of rule, not bound on left hand side. " ++
    "Did you mean \"?" ++ String.ofList (name.toList.dropWhile (· == '_')) ++ "\"?"

/-- What is said of an unbound variable of a context. -/
def contextMessage (name : String) : String :=
  "Found variable " ++ name ++ " in side condition of context, not bound in its body"

/-- The error about a sentence of a module. -/
def violation (m : Module) (attributes : Attributes) (message : String) : Violation :=
  ⟨checkName, .error, message, some m.name, attributes.sourceName, attributes.place⟩

/-- The errors of a sentence of a module. -/
def check (m : Module) : Sentence → List Violation
  | .rule r => (unboundInRule r).toList.map fun name => violation m r.attributes (ruleMessage name)
  | .context c =>
    (unboundInContext c).toList.map fun name => violation m c.attributes (contextMessage name)
  | _ => []

end RewriteSemantics.RhsVariables
