/-
# Symbol tables

The symbols of a compiled definition by label: one for every label that the main module sees a
production of, and one for every cell of the configuration. Labels are numbered in their order, and
cells behind them in the order of their names.
-/
import RewriteSemantics.CellTree
import RewriteSemantics.Registry
import RewriteSemantics.Text.Casing

namespace RewriteSemantics

/-- Symbols by label. -/
abbrev SymbolTable := OrderedMap String Symbol

namespace SymbolTable

/-- The labels of the productions that a module sees, in order. -/
def declaredLabels (d : Definition) (name : String) : List String :=
  (OrderedSet.ofList ((d.visibleProductions name).filterMap (·.label))).toList

/-- The sort of the cell of a name: `k` has the sort `KCell`. -/
def cellSort (name : String) : SortName :=
  ⟨Text.capitalize name ++ "Cell"⟩

/-- The key of the label of a cell. -/
def cellKey (name : String) : SymbolKey :=
  ⟨cellLabel name, .ofList [⟨[.k], cellSort name⟩], (∅ : Attributes).withMarker Attributes.cell⟩

/-- The keys of a table: those of the declared labels, and then those of the cells. -/
def keys (d : Definition) (tree : CellTree) : List SymbolKey :=
  (declaredLabels d d.main).map (Registry.keyIn d) ++ tree.cells.keys.map cellKey

/-- Interns some keys one after the other and enters the symbols into a table by label. -/
def internAll (sorts : OrderedSet SortName) (table : SymbolTable) (r : Registry) :
    List SymbolKey → SymbolTable × Registry
  | [] => (table, r)
  | key :: rest =>
    let (s, r) := r.intern key sorts
    internAll sorts (table.insert key.label s) r rest

/-- The symbol table of a compiled definition with its configuration. -/
def build (d : Definition) (tree : CellTree) (r : Registry) : SymbolTable × Registry :=
  internAll d.allSorts ∅ r (keys d tree)

/-- The symbols of a table in the order of their labels. -/
def symbols (table : SymbolTable) : List Symbol :=
  table.values

/-- The stored forms of the symbols of a table. -/
def records (table : SymbolTable) : List SymbolRecord :=
  table.values.map (·.toRecord)

end SymbolTable

end RewriteSemantics
