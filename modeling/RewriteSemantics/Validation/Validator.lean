/-
# Validation

A validator is a list of checks. It looks at the sentences of all modules, in the order of the
module names, and puts every check to each of them.
-/
import RewriteSemantics.Definition.Basic
import RewriteSemantics.Log
import RewriteSemantics.Validation.RhsVariables

namespace RewriteSemantics

/-- A check of the sentences of modules. -/
structure SentenceCheck where
  name : String
  check : Module → Sentence → List Violation

/-- The checks to be made. -/
structure Validator where
  checks : List SentenceCheck

namespace Validator

/-- The check that the variables of right-hand sides are bound. -/
def rhsVariables : SentenceCheck :=
  ⟨RhsVariables.checkName, RhsVariables.check⟩

/-- The validator without checks. -/
def empty : Validator :=
  ⟨[]⟩

/-- The checks that are made before a compilation. -/
def standard : Validator :=
  ⟨[rhsVariables]⟩

/-- The validator with one more check. -/
def withCheck (v : Validator) (check : SentenceCheck) : Validator :=
  ⟨v.checks ++ [check]⟩

/-- The names of the checks. -/
def names (v : Validator) : List String :=
  v.checks.map (·.name)

/-- What the checks find in a definition. -/
def validate (v : Validator) (d : Definition) : List Violation :=
  d.modules.values.flatMap fun m => m.sentences.flatMap fun s => v.checks.flatMap (·.check m s)

/-- What is reported of a validation. -/
def report (v : Validator) (d : Definition) : LogEntry :=
  ⟨.debug, "Validated " ++ toString d.modules.size ++ " modules: " ++
    toString (v.validate d).length ++ " violations"⟩

end Validator

end RewriteSemantics
