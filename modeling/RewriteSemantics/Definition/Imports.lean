/-
# The import graph

Modules import one another by name. Two walks of this graph are needed: one that lists what a
module sees, and one that looks for a cycle. Both end because no module name is entered twice: the
names that can still be entered, `unvisited`, get fewer along the walk.
-/
import RewriteSemantics.Module

namespace RewriteSemantics

/-- Why a set of modules is no definition, or a configuration no tree of cells. -/
inductive DefinitionError where
  | duplicateModule (name : String)
  | unknownMainModule (name : String)
  | unresolvedImport (module imported : String)
  | importCycle (name : String)
  | malformedConfiguration (reason : String)
  deriving DecidableEq, Repr, Inhabited

namespace DefinitionError

/-- The name of the kind of an error. -/
def kind : DefinitionError → String
  | duplicateModule _ => "DuplicateModule"
  | unknownMainModule _ => "UnknownMainModule"
  | unresolvedImport .. => "UnresolvedImport"
  | importCycle _ => "ImportCycle"
  | malformedConfiguration _ => "MalformedConfiguration"

/-- The wording of an error. -/
def message : DefinitionError → String
  | duplicateModule name => "Duplicate module '" ++ name ++ "'"
  | unknownMainModule name => "Main module '" ++ name ++ "' is not defined"
  | unresolvedImport module imported =>
    "Module '" ++ module ++ "' imports unknown module '" ++ imported ++ "'"
  | importCycle name => "Import cycle through module '" ++ name ++ "'"
  | malformedConfiguration reason => "Malformed configuration: " ++ reason

end DefinitionError

/-- Modules by name. -/
abbrev ModuleMap := OrderedMap String Module

namespace ModuleMap

/-! ## Names -/

/-- Every module is entered under its own name. -/
def Named (modules : ModuleMap) : Prop :=
  ∀ e ∈ modules.entries, e.2.name = e.1

theorem named_empty : Named ∅ :=
  fun _ h => nomatch h

theorem Named.insert {modules : ModuleMap} (h : modules.Named) (m : Module) :
    Named (modules.insert m.name m) := by
  intro e he
  rcases OrderedMap.mem_of_mem_insertSorted he with rfl | he
  · rfl
  · exact h e he

/-- The modules under the names they are entered under. -/
def relabelled (modules : ModuleMap) : ModuleMap :=
  modules.mapValues fun name m => m.withName name

theorem named_relabelled (modules : ModuleMap) : Named (relabelled modules) := by
  intro e he
  obtain ⟨a, -, rfl⟩ := List.mem_map.1 he
  rfl

/-- The names a module imports, none if there is no such module. -/
def importsOf (modules : ModuleMap) (name : String) : List String :=
  match modules.get? name with
  | some m => m.imports
  | none => []

/-! ## Progress of a walk -/

/-- How many modules a walk has not entered yet. -/
def unvisited (modules : ModuleMap) (seen : List String) : Nat :=
  (modules.keys.filter (· ∉ seen)).length

theorem length_filter_notMem_cons_lt {l seen : List String} {name : String} (hl : name ∈ l)
    (hs : name ∉ seen) :
    (l.filter (· ∉ name :: seen)).length < (l.filter (· ∉ seen)).length := by
  have h : l.filter (· ∉ name :: seen) = (l.filter (· ∉ seen)).filter (· ≠ name) := by
    rw [List.filter_filter]
    congr 1
    funext x
    by_cases hx : x = name <;> simp [hx]
  rw [h]
  exact List.length_filter_lt_length_iff_exists.2 ⟨name, by simp [hl, hs], by simp⟩

theorem unvisited_cons_lt {modules : ModuleMap} {name : String} {seen : List String}
    (h : modules.contains name = true) (hs : name ∉ seen) :
    unvisited modules (name :: seen) < unvisited modules seen :=
  length_filter_notMem_cons_lt (OrderedMap.mem_keys_of_get? (OrderedMap.get?_eq_some_get h)) hs

/-! ## What a module sees -/

/-- The modules met on a walk that enters the first name of the agenda, unless it has been entered
before, and puts its imports in front of the rest of the agenda. -/
def walk (modules : ModuleMap) (seen : List String) : List String → List Module
  | [] => []
  | name :: agenda =>
    if hs : name ∈ seen then walk modules seen agenda
    else if h : modules.contains name then
      have := unvisited_cons_lt h hs
      modules.get name h :: walk modules (name :: seen) ((modules.get name h).imports ++ agenda)
    else walk modules seen agenda
termination_by agenda => (unvisited modules seen, agenda.length)

/-- A module and everything it imports, directly or not, each module once: the module itself, then
what its first import sees, then what its second import adds, and so on. -/
def closure (modules : ModuleMap) (name : String) : List Module :=
  modules.walk [] [name]

/-! ## Cycles -/

mutual

/-- Enters a name that is reached through the modules on the path, and answers the names found to
lead to no cycle, `clear` among them. -/
def enter (modules : ModuleMap) (path clear : List String) (name : String) :
    Except DefinitionError (List String) :=
  if name ∈ clear then .ok clear
  else if hs : name ∈ path then .error (.importCycle name)
  else if h : modules.contains name then
    have := unvisited_cons_lt h hs
    do
      let clear ← enterAll modules (name :: path) clear (modules.get name h).imports
      .ok (name :: clear)
  else .ok (name :: clear)
termination_by (unvisited modules path, 0)

/-- Enters some names one after the other. -/
def enterAll (modules : ModuleMap) (path clear : List String) :
    List String → Except DefinitionError (List String)
  | [] => .ok clear
  | name :: names => do
    let clear ← enter modules path clear name
    enterAll modules path clear names
termination_by names => (unvisited modules path, names.length + 1)

end

/-- The first import, in the order of the module names, that names no module. -/
def unresolvedImport? (modules : ModuleMap) : Option DefinitionError :=
  modules.entries.findSome? fun (_, m) =>
    (m.imports.find? fun name => !modules.contains name).map fun name =>
      .unresolvedImport m.name name

/-- The cycle found first by a search from each module, in the order of the names. -/
def cycle? (modules : ModuleMap) : Option DefinitionError :=
  match enterAll modules [] [] modules.keys with
  | .ok _ => none
  | .error e => some e

/-- Why modules with a main module are no definition: the main module is missing, an import names
no module, or the imports form a cycle. The first of these that holds is the answer. -/
def fault? (modules : ModuleMap) (main : String) : Option DefinitionError :=
  if modules.contains main then modules.unresolvedImport? <|> modules.cycle?
  else some (.unknownMainModule main)

end ModuleMap

end RewriteSemantics
