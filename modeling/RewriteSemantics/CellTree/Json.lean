/-
# Cell trees as documents

A cell tree is written as an object: its outermost cell, the label of that cell, the sort of the
program, and the cells by name.
-/
import RewriteSemantics.CellTree
import RewriteSemantics.Definition.Json

namespace RewriteSemantics

/-- The document of a cell: name, parent, children, initial content, attributes, and whether the
cell is a leaf. -/
def CellInfo.toJson (c : CellInfo) : Json :=
  .arr [.str c.name, .optional .str c.parent, .list .str c.children,
    .optional Term.toJson c.initializer, c.attributes.toJson, .bool c.children.isEmpty]

namespace CellTree

/-- The members of the document of a cell tree. -/
def members (tree : CellTree) : List (String × Json) :=
  [("top", .str tree.top), ("label", .str tree.topLabel),
   ("program_sort", .optional SortName.toJson tree.programSort?),
   ("cells", .list CellInfo.toJson tree.cells.values)]

/-- The document of a cell tree. -/
def toJson (tree : CellTree) : Json :=
  .obj tree.members

end CellTree

end RewriteSemantics
