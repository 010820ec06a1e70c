/-
# Streams

A cell of a configuration may be tied to standard input or standard output by its attribute
`stream`. Such a cell gets a list item that stands for the stream at the end of its initial content,
unless it holds a stream already. The productions of the stream items and of lists are added to the
main module as far as it does not see them.
-/
import RewriteSemantics.Pass.Basic

namespace RewriteSemantics

namespace Stream

/-! ## Labels -/

/-- The label of standard input. -/
def inputLabel : String := "#istream"

/-- The label of standard output. -/
def outputLabel : String := "#ostream"

/-- The label of the empty list. -/
def emptyListLabel : String := ".List"

/-- The label of a list of one item. -/
def listItemLabel : String := "ListItem"

/-- The label of a list followed by another. -/
def listConcatLabel : String := "_List_"

/-! ## Stream items -/

/-- The list item of the stream of a name, for a cell that asks for it. -/
def item (cell stream : String) : Except PassError Term :=
  if stream = "stdin" then .ok (.app listItemLabel [.app inputLabel [.int 0]])
  else if stream = "stdout" then .ok (.app listItemLabel [.app outputLabel [.int 1]])
  else .error (.unknownStream cell stream)

/-- Whether a term is headed by a stream. -/
def isStream (t : Term) : Bool :=
  t.topLabel? = some inputLabel || t.topLabel? = some outputLabel

/-- Whether a content is an empty list, or missing. -/
def isEmptyList : Term → Bool
  | .bag items => items.isEmpty
  | .app label args => label = emptyListLabel && args.isEmpty
  | _ => false

/-- The content of a cell with a stream at its end. -/
def attach (cell stream : String) (body : Term) : Except PassError Term :=
  if body.anySubterm isStream then .ok body
  else do
    let item ← item cell stream
    .ok (if isEmptyList body then item else .app listConcatLabel [body, item])

/-- A cell with the stream it asks for; any other term stays as it is. -/
def resolveCell : Term → Except PassError Term
  | .cell tag body => do
    match ← (tag.attributes.text? Attributes.stream).mapError .wrongAttribute with
    | some stream => do .ok (.cell tag (← attach tag.name stream body))
    | none => .ok (.cell tag body)
  | t => .ok t

/-- A sentence with the streams of its cells attached if it is a configuration. -/
def resolveSentence : Sentence → Except PassError (List Sentence)
  | .configuration c => do
    .ok [.configuration ⟨← c.body.tryTransform resolveCell, c.attributes⟩]
  | s => .ok [s]

/-! ## Productions -/

/-- The productions of streams and lists. -/
def productions : List Production :=
  [.labelled .stream inputLabel [.int], .labelled .stream outputLabel [.int],
   .labelled .list emptyListLabel [], .labelled .list listItemLabel [.k],
   .labelled .list listConcatLabel [.list, .list]]

/-- The productions of streams and lists that the main module does not see. -/
def missingProductions (d : Definition) : List Production :=
  productions.filter fun p => !(d.visibleProductions d.main).any (·.label = p.label)

/-! ## The pass -/

/-- Whether a term is a cell that asks for a stream. -/
def isStreamCell : Term → Bool
  | .cell tag _ => (tag.attributes.get? Attributes.stream).any (·.asText?.isSome)
  | _ => false

/-- The number of cells of a definition that ask for a stream. -/
def cellCount (d : Definition) : Nat :=
  (d.configurations.flatMap (·.body.subterms)).countP isStreamCell

/-- The definition with streams attached, and with their productions if there are any streams. -/
def resolve (d : Definition) : Except PassError Definition := do
  let resolved ← d.mapSentences resolveSentence
  if cellCount d = 0 then .ok resolved
  else resolved.appendToMain ((missingProductions resolved).map .production)

/-- What is reported of attaching streams. -/
def report (d : Definition) : List LogEntry :=
  match d.mapSentences resolveSentence with
  | .error _ => []
  | .ok resolved =>
    if cellCount d = 0 then []
    else [⟨.debug, toString (cellCount d) ++ " stream cells, " ++
      toString (missingProductions resolved).length ++ " stream productions added to " ++ d.main⟩]

end Stream

/-- Attaches streams to the cells that ask for them. -/
def Pass.resolveStreams : Pass :=
  ⟨"resolve-io-streams", Stream.resolve, Stream.report⟩

end RewriteSemantics
