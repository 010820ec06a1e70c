/-
# Concretization

A rule writes only the cells that matter to it. Concretization places them into the configuration:
the body becomes the outermost cell, with every cell on the way down to a written one around it.
Where a cell has children that the rule does not write, one variable stands for all of them; where
the content of a written cell goes on, a variable stands for the rest.

The work has two halves. The first reads the cells that a rule gives content to, and the variables
it writes beside cells. The second builds the body down the cell tree. On the way down it takes out
each cell it has passed, so it ends whatever the tree is.
-/
import RewriteSemantics.CellTree
import RewriteSemantics.FreshNames
import RewriteSemantics.Pass.Basic

namespace RewriteSemantics

namespace Concretization

/-- What the names of variables for unwritten content start with. -/
def dotStem : String := "DotVar"

/-! ## What a rule writes -/

/-- What is still to be placed, and the names that are free for variables. -/
structure Fragments where
  /-- The cells with content, by name. -/
  cells : OrderedMap String (CellTag × Term)
  /-- The variables beside cells, by the name of the cell around them. -/
  rest : OrderedMap String Term
  names : FreshNames

namespace Fragments

/-- Adds a cell with its content, unless the rule has written it before. -/
def addCell (r : Rule) (tag : CellTag) (body : Term) (f : Fragments) :
    Except PassError Fragments :=
  if f.cells.contains tag.name then .error (.repeatedCell tag.name r)
  else .ok { f with cells := f.cells.insert tag.name (tag, body) }

end Fragments

mutual

/-- Reads a cell with the given content: it has content if it is a leaf or holds no cells, and else
the cells inside it are read. -/
def readCell (tree : CellTree) (r : Rule) (tag : CellTag) (f : Fragments) :
    Term → Except PassError Fragments
  | .cell inner body =>
    if tree.contains tag.name then
      if tree.isLeaf tag.name then f.addCell r tag (.cell inner body)
      else readCell tree r inner f body
    else .error (.unknownCell tag.name)
  | .bag items =>
    if tree.contains tag.name then
      if tree.isLeaf tag.name || !items.any Term.isCell then f.addCell r tag (.bag items)
      else readItems tree r tag.name f items
    else .error (.unknownCell tag.name)
  | content =>
    if tree.contains tag.name then f.addCell r tag content
    else .error (.unknownCell tag.name)

/-- Reads the cells and variables inside a cell. Anything else has no place there. -/
def readItems (tree : CellTree) (r : Rule) (parent : String) (f : Fragments) :
    List Term → Except PassError Fragments
  | [] => .ok f
  | .cell tag body :: items => do
    let f ← readCell tree r tag f body
    readItems tree r parent f items
  | .var v :: items =>
    readItems tree r parent { f with rest := f.rest.insert parent (.var v) } items
  | _ :: _ => .error (.noCellStructure r)

end

/-- Reads the outermost cells of a rule. -/
def readTop (tree : CellTree) (r : Rule) (f : Fragments) : List Term → Except PassError Fragments
  | [] => .ok f
  | .cell tag body :: items => do
    let f ← readCell tree r tag f body
    readTop tree r f items
  | _ :: _ => .error (.noCellStructure r)

/-- The outermost items of a body that can be made of cells. -/
def topItems? : Term → Option (List Term)
  | .bag items => some items
  | .cell tag body => some [.cell tag body]
  | _ => none

/-! ## Building the body -/

/-- Whether content is to be placed into a cell or somewhere inside it. -/
def isWritten (f : Fragments) (cells : CellTree.Cells) (name : String) : Bool :=
  f.cells.contains name ||
    if h : cells.contains name then
      have := OrderedMap.size_erase_lt h
      (cells.get name h).children.any fun child => isWritten f (cells.erase name) child
    else false
termination_by cells.size

/-- A variable for unwritten content. -/
def dotVariable (f : Fragments) : Term × Fragments :=
  let (name, names) := f.names.fresh dotStem
  (.ofName name, { f with names := names })

/-- A variable if the content goes on at this side, in a list of at most one. -/
def dotIf (isOpen : Bool) (f : Fragments) : List Term × Fragments :=
  if isOpen then
    let (dot, f) := dotVariable f
    ([dot], f)
  else ([], f)

/-- A written cell with both sides closed. A variable stands for the rest on each open side. -/
def close (tag : CellTag) (body : Term) (f : Fragments) : Term × Fragments :=
  if !tag.leftOpen && !tag.rightOpen then (.cell tag body, f)
  else
    let (left, f) := dotIf tag.leftOpen f
    let (right, f) := dotIf tag.rightOpen f
    (.cell ⟨tag.name, tag.attributes, false, false⟩ (.sequence (left ++ [body] ++ right)), f)

/-- What stands beside the children of a cell: the variable that the rule wrote there, or else a new
one if a child is missing. -/
def besideChildren (name : String) (missing : Bool) (f : Fragments) : List Term × Fragments :=
  match f.rest.get? name with
  | some rest => ([rest], { f with rest := f.rest.erase name })
  | none => dotIf missing f

/-- The content of a cell from what stands in it. -/
def contentOf : List Term → Term
  | [item] => item
  | items => .bag items

mutual

/-- Builds a cell: from its content if it has any, and else from its children. -/
def build (cells : CellTree.Cells) (f : Fragments) (name : String) : Term × Fragments :=
  match f.cells.get? name with
  | some (tag, body) => close tag body { f with cells := f.cells.erase name }
  | none =>
    if h : cells.contains name then
      have := OrderedMap.size_erase_lt h
      let (items, missing, f) := buildChildren (cells.erase name) f (cells.get name h).children
      let (beside, f) := besideChildren name missing f
      (.closedCell name (contentOf (items ++ beside)), f)
    else
      let (beside, f) := besideChildren name false f
      (.closedCell name (contentOf beside), f)
termination_by (cells.size, 0)

/-- Builds those of some children that content is placed into, and tells whether any is missing. -/
def buildChildren (cells : CellTree.Cells) (f : Fragments) :
    List String → List Term × Bool × Fragments
  | [] => ([], false, f)
  | child :: others =>
    if isWritten f cells child then
      let (item, f) := build cells f child
      let (items, missing, f) := buildChildren cells f others
      (item :: items, missing, f)
    else
      let (items, _, f) := buildChildren cells f others
      (items, true, f)
termination_by children => (cells.size, children.length + 1)

end

/-! ## Rules -/

/-- The cells of a rule, read in order. -/
def fragmentsOf (tree : CellTree) (r : Rule) : Except PassError Fragments :=
  match topItems? r.body with
  | none => .error (.noCellStructure r)
  | some items => do
    let f ← readTop tree r ⟨∅, ∅, .avoiding r.variableNames⟩ items
    if f.cells.isEmpty then .error (.noCellStructure r) else .ok f

/-- The rule with its cells placed into the configuration. Rules of functions stay as they are. -/
def resolveRule (tree : CellTree) (d : Definition) (r : Rule) : Except PassError Rule :=
  if d.isFunctionRule r then .ok r
  else do
    let f ← fragmentsOf tree r
    let (body, left) := build tree.cells f tree.top
    if left.cells.isEmpty then .ok { r with body := body }
    else .error (.unplacedCells left.cells.keys r)

/-- The definition with all rules placed into the configuration that the main module sees. -/
def resolve (d : Definition) : Except PassError Definition := do
  let tree ← (CellTree.ofModule d d.main).mapError .wrongDefinition
  d.mapRules (resolveRule tree d)

end Concretization

/-- Places the cells of rules into the configuration. -/
def Pass.concretizeCells : Pass :=
  .silent "concretize-cells" Concretization.resolve

end RewriteSemantics
