/-
# The counter cell

Made-up values are numbered by a counter, which has a cell of its own. The cell is added to the
configuration as the last child of the outermost cell. An outermost cell that holds content instead
of cells gets a new cell around it and the counter. Where there is no configuration, the default one
is declared with the counter beside it.
-/
import RewriteSemantics.CellTree
import RewriteSemantics.Pass.Basic

namespace RewriteSemantics.Counter

/-- The name of the counter cell. -/
def cellName : String := "generatedCounter"

/-- The name of the cell around a configuration that cannot take another cell. -/
def topName : String := "generatedTop"

/-- The counter cell as it is declared. -/
def initialCell : Term :=
  .closedCell cellName (.int 0)

/-- The children of an outermost cell, if it holds cells only. -/
def childCells? : Term → Option (List Term)
  | .bag items => if !items.isEmpty && items.all Term.isCell then some items else none
  | .cell tag body => some [.cell tag body]
  | _ => none

/-- An outermost cell with the counter inside it or beside it. -/
def extendTop : Term → Term
  | .cell tag body =>
    match childCells? body with
    | some children => .cell tag (.bag (children ++ [initialCell]))
    | none => .closedCell topName (.bag [.cell tag body, initialCell])
  | t => t

/-- A configuration with the counter cell, unless it has one. -/
def extend (body : Term) : Term :=
  if body.mentionsCell cellName then body
  else match body with
    | .bag [item] => extendTop item
    | t => extendTop t

/-- The sentences of a module with the counter cell in the first configuration. -/
def extendFirst : List Sentence → List Sentence
  | [] => []
  | .configuration c :: rest => .configuration ⟨extend c.body, c.attributes⟩ :: rest
  | s :: rest => s :: extendFirst rest

/-- Whether a module declares a configuration. -/
def declaresConfiguration (m : Module) : Bool :=
  m.sentences.any (·.asConfiguration?.isSome)

/-- The configuration with a counter where none is declared. -/
def defaultSentence (computationCell : String) : Sentence :=
  .configuration
    ⟨.closedCell topName (.bag [CellTree.defaultConfiguration computationCell, initialCell]), ∅⟩

/-- The definition with a counter cell in the configuration that the main module sees. -/
def declare (computationCell : String) (d : Definition) : Except PassError Definition :=
  match (d.closure d.main).find? declaresConfiguration with
  | some m =>
    (d.withModule { m with sentences := extendFirst m.sentences }).mapError .wrongDefinition
  | none => d.appendToMain [defaultSentence computationCell]

end RewriteSemantics.Counter
