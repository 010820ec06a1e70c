/-
# Log entries

What a compilation has to tell besides its result: warnings, errors and steps done.
-/

namespace RewriteSemantics

/-- How grave a log entry is. -/
inductive LogLevel where
  | error
  | warn
  | debug
  deriving DecidableEq, Repr, Inhabited

namespace LogLevel

/-- The name of a level. -/
def name : LogLevel → String
  | error => "ERROR"
  | warn => "WARN"
  | debug => "DEBUG"

end LogLevel

/-- An entry of the log. -/
structure LogEntry where
  level : LogLevel
  message : String
  deriving DecidableEq, Repr, Inhabited

namespace LogEntry

/-- An entry as a line. -/
def line (e : LogEntry) : String :=
  e.level.name ++ " " ++ e.message

end LogEntry

end RewriteSemantics
