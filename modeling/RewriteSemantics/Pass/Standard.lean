/-
# The standard passes

The twelve passes of a compilation, in their order. Contexts are turned into rules before casts are
resolved, casts before sort predicates are generated, and all rules are final before their cells are
placed into the configuration.
-/
import RewriteSemantics.Configuration.Streams
import RewriteSemantics.Context.Freezer
import RewriteSemantics.Definition.Semantics
import RewriteSemantics.Module.SortPredicates
import RewriteSemantics.Options
import RewriteSemantics.Rule.ComputationCell
import RewriteSemantics.Rule.Concretization
import RewriteSemantics.Rule.FreshConstants
import RewriteSemantics.Rule.HeatCool
import RewriteSemantics.Rule.SemanticCasts
import RewriteSemantics.Rule.StrategyCell

namespace RewriteSemantics.Pass

/-- The passes of a compilation with some options. -/
def standard (o : Options) : List Pass :=
  [resolveStreams, resolveStrict, resolveAnonymous, resolveContexts, resolveHeatCool,
   resolveCasts o.skipSortPredicates, generateSortPredicates,
   resolveFreshConstants o.computationCell, addComputationCell o.computationCell,
   addStrategyCell o.heatCoolStrategies, concretizeCells, addSemantics]

/-- The standard pass of a name. -/
def standard? (o : Options) (name : String) : Option Pass :=
  (standard o).find? (·.name = name)

end RewriteSemantics.Pass
