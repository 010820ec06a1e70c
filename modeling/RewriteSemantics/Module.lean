/-
# Modules

A named group of sentences that imports other modules by name.
-/
import RewriteSemantics.Sentence

namespace RewriteSemantics

/-- A module. -/
structure Module where
  name : String
  imports : List String
  sentences : List Sentence
  attributes : Attributes
  deriving DecidableEq, Inhabited

namespace Module

/-- The module of a name that holds nothing. -/
def ofName (name : String) : Module :=
  ⟨name, [], [], ∅⟩

/-- The module under another name. -/
def withName (name : String) (m : Module) : Module :=
  ⟨name, m.imports, m.sentences, m.attributes⟩

/-- The module with sentences added behind its own. -/
def append (m : Module) (extra : List Sentence) : Module :=
  ⟨m.name, m.imports, m.sentences ++ extra, m.attributes⟩

/-- The module with each sentence replaced by its images under a function that may fail. -/
def mapSentences {ε : Type} (f : Sentence → Except ε (List Sentence)) (m : Module) :
    Except ε Module := do
  let images ← m.sentences.mapM f
  .ok ⟨m.name, m.imports, images.flatten, m.attributes⟩

/-- The productions of the module itself. -/
def productions (m : Module) : List Production :=
  m.sentences.filterMap Sentence.asProduction?

/-- The rules of the module itself. -/
def rules (m : Module) : List Rule :=
  m.sentences.filterMap Sentence.asRule?

/-- The contexts of the module itself. -/
def contexts (m : Module) : List Context :=
  m.sentences.filterMap Sentence.asContext?

/-- The configurations of the module itself. -/
def configurations (m : Module) : List Configuration :=
  m.sentences.filterMap Sentence.asConfiguration?

/-- The sorts that the module itself declares or produces. -/
def sorts (m : Module) : OrderedSet SortName :=
  .ofList (m.sentences.filterMap Sentence.sort?)

/-- The sorts the module itself defines: those it declares, and those it has productions of that
are not sort predicates. -/
def definedSorts (m : Module) : OrderedSet SortName :=
  .ofList (m.sentences.filterMap fun
    | .sort decl => some decl.sort
    | .production p => if p.isPredicate then none else some p.sort
    | _ => none)

end Module

end RewriteSemantics
