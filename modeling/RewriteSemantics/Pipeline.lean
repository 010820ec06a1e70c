/-
# Pipelines

A pipeline runs passes one after the other, each on the result of the one before. The first pass
that cannot go on ends the run.
-/
import RewriteSemantics.Pass.Basic

namespace RewriteSemantics

/-- A pass that ended a run, and why. -/
structure PassFailure where
  pass : String
  cause : PassError
  deriving DecidableEq, Inhabited

/-- What a run of passes leaves behind. -/
structure PipelineRun where
  /-- The names of the passes that were completed. -/
  finished : List String
  log : List LogEntry
  result : Except PassFailure Definition

namespace Pipeline

/-- The announcement of a pass. -/
def announcement (p : Pass) : LogEntry :=
  ⟨.debug, "Running " ++ p.name⟩

/-- The run of some passes on a definition. -/
def run : List Pass → Definition → PipelineRun
  | [], d => ⟨[], [], .ok d⟩
  | p :: passes, d =>
    let log := announcement p :: p.report d
    match p.run d with
    | .error e => ⟨[], log, .error ⟨p.name, e⟩⟩
    | .ok d =>
      let others := run passes d
      ⟨p.name :: others.finished, log ++ others.log, others.result⟩

end Pipeline

end RewriteSemantics
