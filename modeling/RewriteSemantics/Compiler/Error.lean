/-
# Errors of a compilation

Why a compilation or the compilation of a rule fails.
-/
import RewriteSemantics.ParseError
import RewriteSemantics.Pipeline
import RewriteSemantics.Registry
import RewriteSemantics.Validation.Violation

namespace RewriteSemantics

/-- Why a compilation fails. -/
inductive CompileError where
  | parse (fault : ParseError)
  /-- A check found errors. The findings may also hold warnings. -/
  | invalid (violations : List Violation)
  | pass (failure : PassFailure)
  | missingMainModule
  | registry (fault : RegistryError)
  | definition (fault : DefinitionError)
  deriving DecidableEq, Inhabited

namespace CompileError

/-- The name of the kind of an error. -/
def kind : CompileError → String
  | parse _ => "Parse"
  | invalid _ => "StructuralErrors"
  | pass _ => "Pass"
  | missingMainModule => "MissingMainModule"
  | registry _ => "Registry"
  | definition _ => "Definition"

/-- The number of errors among the findings of a validation. -/
def errorCount (violations : List Violation) : Nat :=
  (Violation.errors violations).length

/-- The wording of an error. -/
def message : CompileError → String
  | parse fault => "Parse error: " ++ fault.message
  | invalid violations =>
    "Had " ++ toString (errorCount violations) ++ " structural errors.\n" ++
      Violation.shownAll violations
  | pass failure => "Pass '" ++ failure.pass ++ "' failed: " ++ failure.cause.message
  | missingMainModule => "No main module configured"
  | registry fault => "Registry error: " ++ fault.message
  | definition fault => "Definition error: " ++ fault.message

/-- Whether ordinals can no longer be trusted. -/
def isCritical : CompileError → Bool
  | registry fault => fault.isCritical
  | _ => false

end CompileError

end RewriteSemantics
