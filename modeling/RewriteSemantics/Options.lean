/-
# Options

What can be chosen for a compilation. Options are stored as an object; a missing field keeps its
default.
-/
import RewriteSemantics.CellTree
import RewriteSemantics.Sorts.Json

namespace RewriteSemantics

/-- The options of a compilation. -/
structure Options where
  /-- The main module when none is given. -/
  mainModule : Option String := none
  /-- The sort of programs, instead of the one that the configuration tells. -/
  programStartSort : Option SortName := none
  /-- Whether rules match on the strategy cell. -/
  heatCoolStrategies : Bool := false
  /-- Whether casts are removed without a condition in their place. -/
  skipSortPredicates : Bool := false
  /-- The cell for rules without cells. -/
  computationCell : String := CellTree.computationCell
  deriving DecidableEq, Inhabited

namespace Options

/-- The options when nothing is chosen. -/
def default : Options :=
  {}

/-- The names of the stored fields, in order. -/
def fieldNames : List String :=
  ["main_module", "program_start_sort", "heat_cool_strategies", "skip_sort_predicates",
   "computation_cell"]

/-- The document of some options. -/
def toJson (o : Options) : Json :=
  .obj [("main_module", .optional .str o.mainModule),
    ("program_start_sort", .optional SortName.toJson o.programStartSort),
    ("heat_cool_strategies", .bool o.heatCoolStrategies),
    ("skip_sort_predicates", .bool o.skipSortPredicates),
    ("computation_cell", .str o.computationCell)]

/-- The options a document holds. -/
def ofJson? (json : Json) : Option Options := do
  match ← Json.fields fieldNames json with
  | [main, start, strategies, skip, cell] =>
    some {
      mainModule := ← Json.withDefault none (Json.asOptional Json.asText) main
      programStartSort := ← Json.withDefault none (Json.asOptional SortName.ofJson?) start
      heatCoolStrategies := ← Json.withDefault false Json.asBool strategies
      skipSortPredicates := ← Json.withDefault false Json.asBool skip
      computationCell := ← Json.withDefault CellTree.computationCell Json.asText cell }
  | _ => none

end Options

end RewriteSemantics
