/-
# The semantics module

The last step of a compilation adds two modules. One imports the main module and injects every sort
it sees into the general sort of terms; it becomes the main module. The other joins the main module
with the built-in modules for reading programs.
-/
import RewriteSemantics.Definition.Builtin
import RewriteSemantics.Pass.Basic

namespace RewriteSemantics

namespace Semantics

/-- Whether a sort is injected: it has terms that are rewritten, and is none of the two sorts that
everything belongs to. -/
def isInjected (sort : SortName) : Bool :=
  !sort.isParserSort && sort ≠ .k && sort ≠ .kitem

/-- The sorts to inject: those that the main module or a module it imports defines. -/
def injectedSorts (d : Definition) : OrderedSet SortName :=
  (OrderedSet.ofList ((d.closure d.main).flatMap (·.definedSorts.toList))).filter isInjected

/-- The module that injects the sorts. -/
def semanticsModule (d : Definition) : Module where
  name := Builtin.semanticsModule
  imports := [d.main]
  sentences := (injectedSorts d).toList.map fun sort => .production (.subsort .kitem sort)
  attributes := ∅

/-- The module for reading programs. -/
def languageModule (d : Definition) : Module where
  name := Builtin.languageModule
  imports := [d.main, Builtin.termModule, Builtin.programModule]
  sentences := []
  attributes := ∅

/-- The first built-in module that is missing. -/
def missingModule? (d : Definition) : Option String :=
  [Builtin.termModule, Builtin.programModule].find? fun name => (d.module? name).isNone

/-- The definition with the two modules. -/
def add (d : Definition) : Except PassError Definition :=
  match missingModule? d with
  | some name => .error (.missingModule name)
  | none => (do
      let d₁ ← d.withModule (semanticsModule d)
      let d₂ ← d₁.withModule (languageModule d)
      d₂.withMain Builtin.semanticsModule).mapError .wrongDefinition

/-- What is reported of adding the modules. -/
def report (d : Definition) : List LogEntry :=
  match missingModule? d with
  | some _ => []
  | none => [⟨.debug, toString (injectedSorts d).toList.length ++ " sorts injected into " ++
      SortName.kitem.name⟩]

end Semantics

/-- Adds the semantics module. -/
def Pass.addSemantics : Pass :=
  ⟨"add-semantics-module", Semantics.add, Semantics.report⟩

end RewriteSemantics
