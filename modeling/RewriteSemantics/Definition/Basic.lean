/-
# Definitions

A definition is a set of modules of which one is the main module. Its modules have distinct names,
every import names one of them, and the imports form no cycle. This is part of the type: a
definition is only built by a check that looks for a fault, and every change of a definition goes
through the check again. No change renames a module, so each stays entered under its own name.
-/
import RewriteSemantics.Definition.Imports

namespace RewriteSemantics

/-- A definition. -/
structure Definition where
  /-- The name of the main module. -/
  main : String
  modules : ModuleMap
  attributes : Attributes
  named : modules.Named
  sound : modules.fault? main = none

namespace Definition

/-! ## Building -/

/-- The definition of some modules by name, unless they have a fault. -/
def ofMap (main : String) (modules : ModuleMap) (attributes : Attributes) (named : modules.Named) :
    Except DefinitionError Definition :=
  if h : modules.fault? main = none then .ok ⟨main, modules, attributes, named, h⟩
  else .error ((modules.fault? main).get (Option.isSome_iff_ne_none.2 h))

/-- Collects modules by name, unless a name comes a second time. -/
def collect (modules : { modules : ModuleMap // modules.Named }) :
    List Module → Except DefinitionError { modules : ModuleMap // modules.Named }
  | [] => .ok modules
  | m :: rest =>
    if modules.1.contains m.name then .error (.duplicateModule m.name)
    else collect ⟨modules.1.insert m.name m, modules.2.insert m⟩ rest

/-- The definition of some modules, unless they have a fault. A repeated name is found first. -/
def ofModules (main : String) (modules : List Module) (attributes : Attributes) :
    Except DefinitionError Definition := do
  let collected ← collect ⟨∅, ModuleMap.named_empty⟩ modules
  ofMap main collected.1 attributes collected.2

/-! ## Changing -/

/-- The definition with a module added, in place of any module of the same name. -/
def withModule (d : Definition) (m : Module) : Except DefinitionError Definition :=
  ofMap d.main (d.modules.insert m.name m) d.attributes (d.named.insert m)

/-- The definition with another main module. -/
def withMain (d : Definition) (name : String) : Except DefinitionError Definition :=
  ofMap name d.modules d.attributes d.named

/-- The definition with every module replaced by its image under a function of its name and
content that may fail. The modules come in the order of their names, and keep them. -/
def mapModules {ε : Type} (lift : DefinitionError → ε) (f : String → Module → Except ε Module)
    (d : Definition) : Except ε Definition := do
  let modules ← d.modules.tryMapValues f
  (ofMap d.main (ModuleMap.relabelled modules) d.attributes
    (ModuleMap.named_relabelled modules)).mapError lift

/-! ## Modules -/

/-- The module of a name. -/
def module? (d : Definition) (name : String) : Option Module :=
  d.modules.get? name

/-- The main module. The check for faults has found it, so the other case does not arise. -/
def mainModule (d : Definition) : Module :=
  (d.module? d.main).getD (.ofName d.main)

/-- A module and everything it imports, directly or not. -/
def closure (d : Definition) (name : String) : List Module :=
  d.modules.closure name

/-- The sentences of a module and of everything it imports. -/
def sentencesOf (d : Definition) (name : String) : List Sentence :=
  (d.closure name).flatMap (·.sentences)

/-- The productions that a module sees. -/
def visibleProductions (d : Definition) (name : String) : List Production :=
  (d.sentencesOf name).filterMap Sentence.asProduction?

/-- The sorts that a module and everything it imports declare or produce. -/
def visibleSorts (d : Definition) (name : String) : OrderedSet SortName :=
  .ofList ((d.closure name).flatMap (·.sorts.toList))

/-- The sorts that a module itself declares or produces. -/
def localSorts (d : Definition) (name : String) : OrderedSet SortName :=
  match d.module? name with
  | some m => m.sorts
  | none => ∅

/-- The first configuration that a module sees. -/
def configuration? (d : Definition) (name : String) : Option Configuration :=
  (d.sentencesOf name).findSome? Sentence.asConfiguration?

/-! ## All modules -/

/-- The productions of all modules, in the order of the module names. -/
def productions (d : Definition) : List Production :=
  d.modules.values.flatMap (·.productions)

/-- The rules of all modules, in the order of the module names. -/
def rules (d : Definition) : List Rule :=
  d.modules.values.flatMap (·.rules)

/-- The configurations of all modules, in the order of the module names. -/
def configurations (d : Definition) : List Configuration :=
  d.modules.values.flatMap (·.configurations)

/-! ## Labels -/

/-- The productions of a label in all modules. -/
def productionsFor (d : Definition) (label : String) : List Production :=
  d.productions.filter (·.label = some label)

/-- The signatures a label is declared with. -/
def signaturesOf (d : Definition) (label : String) : OrderedSet Signature :=
  .ofList ((d.productionsFor label).map (·.signature))

/-- The attributes of all productions of a label together, later ones winning, without those that
tell where a production was read. -/
def attributesOf (d : Definition) (label : String) : Attributes :=
  let merged :=
    (d.productionsFor label).foldl (fun all p => all.merge p.attributes) (∅ : Attributes)
  (merged.erase Attributes.source).erase Attributes.location

/-- Every sort that is declared, produced or a parameter of a production. -/
def allSorts (d : Definition) : OrderedSet SortName :=
  .ofList (d.modules.values.flatMap fun m => m.sorts.toList ++ m.productions.flatMap (·.params))

/-- Every label that a production declares. -/
def labels (d : Definition) : OrderedSet String :=
  .ofList (d.productions.filterMap (·.label))

/-- Whether some production declares a label as a function. -/
def isFunctionLabel (d : Definition) (label : String) : Bool :=
  (d.productionsFor label).any (·.isFunction)

/-- Whether the left-hand side of a rule is headed by a function. -/
def isFunctionRule (d : Definition) (r : Rule) : Bool :=
  match r.body.lhs.topLabel? with
  | some label => d.isFunctionLabel label
  | none => false

end Definition

end RewriteSemantics
