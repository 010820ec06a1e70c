/-
# Cell trees

A configuration lays out cells inside one another. Its cell tree records for each cell its parent,
its children in their order, its attributes and, for a leaf, its initial content. A configuration is
a cell, or a bag of just one; the content of a cell is one cell, a bag of cells, or anything free of
cells at its top; and no name is declared twice.
-/
import RewriteSemantics.Definition.Basic
import RewriteSemantics.Term.Cast

namespace RewriteSemantics

/-- A declared cell. -/
structure CellInfo where
  name : String
  parent : Option String
  /-- The names of the children in their order; a leaf has none. -/
  children : List String
  /-- The initial content of a leaf. -/
  initializer : Option Term
  attributes : Attributes
  deriving DecidableEq, Inhabited

/-- The cells of a configuration. -/
structure CellTree where
  /-- The name of the outermost cell. -/
  top : String
  cells : OrderedMap String CellInfo
  deriving DecidableEq, Inhabited

namespace CellTree

/-! ## Reading a configuration -/

/-- Cells by name. -/
abbrev Cells := OrderedMap String CellInfo

/-- Records a cell, unless its name is taken. -/
def declareCell (parent : Option String) (tag : CellTag) (children : List String)
    (initializer : Option Term) (cells : Cells) : Except DefinitionError Cells :=
  if cells.contains tag.name then
    .error (.malformedConfiguration ("cell " ++ cellLabel tag.name ++ " declared twice"))
  else
    .ok (cells.insert tag.name ⟨tag.name, parent, children, initializer, tag.attributes⟩)

/-- The names of the cells among some terms. -/
def cellNames (items : List Term) : List String :=
  items.filterMap fun
    | .cell tag _ => some tag.name
    | _ => none

mutual

/-- Records a cell with the given content and every cell inside it. -/
def addCell (parent : Option String) (tag : CellTag) (cells : Cells) :
    Term → Except DefinitionError Cells
  | .cell inner body => do
    let cells ← declareCell parent tag [inner.name] none cells
    addCell (some tag.name) inner cells body
  | .bag items => do
    if items.all Term.isCell then
      let initializer := if items.isEmpty then some (.bag items) else none
      let cells ← declareCell parent tag (cellNames items) initializer cells
      addCells tag.name cells items
    else if items.any Term.isCell ∧ ¬ cells.contains tag.name then
      .error (.malformedConfiguration ("cell " ++ cellLabel tag.name ++ " mixes cells and content"))
    else declareCell parent tag [] (some (.bag items)) cells
  | content => declareCell parent tag [] (some content) cells

/-- Records the cells among the children of a cell, in their order. -/
def addCells (parent : String) (cells : Cells) : List Term → Except DefinitionError Cells
  | [] => .ok cells
  | .cell tag body :: rest => do
    let cells ← addCell (some parent) tag cells body
    addCells parent cells rest
  | _ :: rest => addCells parent cells rest

end

/-- The outermost cell of a configuration: its tags and its content. -/
def topCell? : Term → Option (CellTag × Term)
  | .cell tag body => some (tag, body)
  | .bag [.cell tag body] => some (tag, body)
  | _ => none

/-- The cell tree of a configuration. -/
def ofTerm (body : Term) : Except DefinitionError CellTree :=
  match topCell? body with
  | none => .error (.malformedConfiguration "top level must be a single cell")
  | some (tag, content) => do
    let cells ← addCell none tag ∅ content
    .ok ⟨tag.name, cells⟩

/-- The cell for computations when nothing else is said. -/
def computationCell : String := "k"

/-- The configuration in the absence of a declared one: one cell with the program. -/
def defaultConfiguration (cell : String) : Term :=
  .closedCell cell (.sortedVar Variable.pgm .k)

/-- The cell tree of the first configuration that a module sees, or of the default one. -/
def ofModule (d : Definition) (name : String) : Except DefinitionError CellTree :=
  match d.configuration? name with
  | some configuration => ofTerm configuration.body
  | none => ofTerm (defaultConfiguration computationCell)

/-! ## Cells of a tree -/

/-- The label of the outermost cell. -/
def topLabel (tree : CellTree) : String :=
  cellLabel tree.top

/-- The cell of a name. -/
def cell? (tree : CellTree) (name : String) : Option CellInfo :=
  tree.cells.get? name

/-- Whether a cell of a name is declared. -/
def contains (tree : CellTree) (name : String) : Bool :=
  tree.cells.contains name

/-- The parent of a cell. -/
def parent? (tree : CellTree) (name : String) : Option String :=
  (tree.cell? name).bind (·.parent)

/-- The children of a cell in their order. -/
def children (tree : CellTree) (name : String) : List String :=
  match tree.cell? name with
  | some info => info.children
  | none => []

/-- Whether a cell has no children. -/
def isLeaf (tree : CellTree) (name : String) : Bool :=
  (tree.children name).isEmpty

/-- The names met on the way up from a cell, the lowest last. A cell that has been met is taken out,
so the way ends. -/
def climb (cells : Cells) (name : String) : List String :=
  if h : cells.contains name then
    have := OrderedMap.size_erase_lt h
    match (cells.get name h).parent with
    | none => [name]
    | some parent => climb (cells.erase name) parent ++ [name]
  else []
termination_by cells.size

/-- The names of the cells from the outermost one down to a cell, none if it is not declared. -/
def path (tree : CellTree) (name : String) : List String :=
  climb tree.cells name

/-! ## The sort of the program -/

/-- The sort that a label casts to if it stands before the program variable. -/
def programCast? : Term → Option SortName
  | .app label (.var v :: _) => if v.name = Variable.pgm then Label.castSort? label else none
  | _ => none

/-- The sort an initial content gives the program: the annotation of the program variable where it
first occurs, or else the first cast of it. -/
def programSortIn? (content : Term) : Option SortName :=
  ((content.occurrences.find? (·.name = Variable.pgm)).bind (·.sort)) <|>
    content.subterms.findSome? programCast?

/-- The sort of the program, by the first cell in the order of the names that tells. -/
def programSort? (tree : CellTree) : Option SortName :=
  (tree.cells.values.filterMap (·.initializer)).findSome? programSortIn?

end CellTree

end RewriteSemantics
