/-
# Violations

What a check has against a sentence. An error stands in the way of a compilation; a warning is only
reported.
-/
import RewriteSemantics.Json.Basic
import RewriteSemantics.Position

namespace RewriteSemantics

/-- Whether a violation stands in the way of a compilation. -/
inductive Severity where
  | error
  | warning
  deriving DecidableEq, Repr, Inhabited

/-- A finding of a check. -/
structure Violation where
  /-- The name of the check. -/
  check : String
  severity : Severity
  message : String
  /-- The module that holds the sentence. -/
  module : Option String
  /-- The text that the sentence was read from. -/
  source : Option String
  location : Option Location
  deriving DecidableEq, Repr, Inhabited

namespace Violation

/-- Whether a violation is an error. -/
def isError (v : Violation) : Bool :=
  v.severity = .error

/-- A part of a violation as it is shown, if it is known. -/
def shownPart (lead : String) : Option String → String
  | some part => lead ++ part
  | none => ""

/-- A violation as it is shown: `[check] module M in file at line 1, column 2: message`. -/
def shown (v : Violation) : String :=
  "[" ++ v.check ++ "]" ++ shownPart " module " v.module ++ shownPart " in " v.source ++
    shownPart " at " (v.location.map (·.text)) ++ ": " ++ v.message

/-- The document of a violation. -/
def toJson (v : Violation) : Json :=
  .obj [("check", .str v.check), ("error", .bool v.isError), ("message", .str v.message),
    ("module", .optional .str v.module), ("source", .optional .str v.source),
    ("location", .optional (fun l => .arr [.nat l.line, .nat l.column]) v.location)]

/-- The errors among some violations. -/
def errors (violations : List Violation) : List Violation :=
  violations.filter (·.isError)

/-- The warnings among some violations. -/
def warnings (violations : List Violation) : List Violation :=
  violations.filter (!·.isError)

/-- Whether some violation is an error. -/
def anyError (violations : List Violation) : Bool :=
  violations.any (·.isError)

/-- Violations as they are shown, one to a line. -/
def shownAll (violations : List Violation) : String :=
  "\n".intercalate (violations.map (·.shown))

end Violation

end RewriteSemantics
