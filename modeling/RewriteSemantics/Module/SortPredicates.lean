/-
# Membership predicates

Every sort gets a membership predicate `is<S>` in the module that defines it, unless that module
already sees a label of this name, or a module it imports defines the sort too and so has the
predicate. Sorts that only serve to read programs get none.
-/
import RewriteSemantics.Pass.Basic

namespace RewriteSemantics

namespace SortPredicates

/-- The production of the membership predicate of a sort. -/
def production (sort : SortName) : Production where
  sort := .bool
  label := some sort.predicateLabel
  params := [.k]
  attributes := ((∅ : Attributes).withMarker Attributes.function).insert Attributes.predicate
    (.text sort.name)

/-- The sorts that the modules a module imports define. -/
def importedSorts (d : Definition) (m : Module) : OrderedSet SortName :=
  .ofList (((d.closure m.name).filter (·.name ≠ m.name)).flatMap (·.definedSorts.toList))

/-- The labels that a module sees. -/
def visibleLabels (d : Definition) (m : Module) : List String :=
  (d.visibleProductions m.name).filterMap (·.label)

/-- The sorts of a module that lack a membership predicate. -/
def missing (d : Definition) (m : Module) : List SortName :=
  m.definedSorts.toList.filter fun sort =>
    !sort.isParserSort && sort ∉ importedSorts d m && sort.predicateLabel ∉ visibleLabels d m

/-- The definition with the missing predicates added to their modules. -/
def generate (d : Definition) : Except PassError Definition :=
  d.mapModules .wrongDefinition fun _ m =>
    .ok (m.append ((missing d m).map fun sort => .production (production sort)))

/-- What is reported of adding predicates. -/
def report (d : Definition) : List LogEntry :=
  d.modules.values.filterMap fun m =>
    let count := (missing d m).length
    if count = 0 then none
    else some ⟨.debug, toString count ++ " sort predicates added to " ++ m.name⟩

end SortPredicates

/-- Adds the missing membership predicates. -/
def Pass.generateSortPredicates : Pass :=
  ⟨"generate-sort-predicates", SortPredicates.generate, SortPredicates.report⟩

end RewriteSemantics
