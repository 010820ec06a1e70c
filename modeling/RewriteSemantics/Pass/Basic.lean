/-
# Passes

A pass takes a definition to a definition or says why it cannot. Most passes rewrite sentences: each
sentence of each module is replaced by some sentences in its place.
-/
import RewriteSemantics.Definition.Basic
import RewriteSemantics.Log

namespace RewriteSemantics

/-! ## Errors -/

/-- Why a pass cannot go on. -/
inductive PassError where
  /-- A stream that is neither standard input nor standard output. -/
  | unknownStream (cell stream : String)
  /-- A strict position that is not the position of a parameter. -/
  | strictPosition (label : String) (position arity : Nat)
  /-- A strict production without a label. -/
  | unlabelledStrict (key : String) (production : Production)
  /-- A context whose body has not exactly one hole. -/
  | contextHoles (body : Term) (holes : Nat)
  /-- A heating or cooling rule without a hole. -/
  | missingHole (rule : Rule)
  /-- A sort that no function makes up values of. -/
  | missingFreshGenerator (sort : SortName)
  /-- A cell of a rule that is not declared. -/
  | unknownCell (cell : String)
  /-- A rule whose body is not made of cells. -/
  | noCellStructure (rule : Rule)
  /-- A cell that a rule writes twice. -/
  | repeatedCell (cell : String) (rule : Rule)
  /-- Cells that a rule writes beside a cell around them that it has given content already. -/
  | unplacedCells (cells : List String) (rule : Rule)
  | missingModule (name : String)
  /-- An attribute of another kind than the pass needs. -/
  | wrongAttribute (fault : AttributeError)
  /-- The result is no definition, or has no cell tree. -/
  | wrongDefinition (fault : DefinitionError)
  deriving DecidableEq, Inhabited

namespace PassError

/-- The name of the kind of an error. Errors of a form that a pass does not foresee in particular
are malformed input. -/
def kind : PassError → String
  | unknownStream .. => "UnknownStream"
  | strictPosition .. => "StrictPosition"
  | unlabelledStrict .. => "Malformed"
  | contextHoles .. => "ContextHoles"
  | missingHole _ => "MissingHole"
  | missingFreshGenerator _ => "MissingFreshGenerator"
  | unknownCell _ => "UnknownCell"
  | noCellStructure _ => "NoCellStructure"
  | repeatedCell .. => "Malformed"
  | unplacedCells .. => "Malformed"
  | missingModule _ => "MissingModule"
  | wrongAttribute _ => "Attribute"
  | wrongDefinition _ => "Definition"

/-- The wording of an error. -/
def message : PassError → String
  | unknownStream cell stream => "Unknown stream '" ++ stream ++ "' on cell " ++ cellLabel cell
  | strictPosition label position arity =>
    "Strict position " ++ toString position ++ " of '" ++ label ++ "' is out of range 1..=" ++
      toString arity
  | unlabelledStrict key production =>
    key ++ " on a production without a label: " ++ production.shown
  | contextHoles body holes =>
    "Context " ++ body.shown ++ " has " ++ toString holes ++ " holes, expected exactly one"
  | missingHole rule => "Heating/cooling rule " ++ rule.shown ++ " does not mention HOLE"
  | missingFreshGenerator sort => "No freshGenerator function for sort " ++ sort.name
  | unknownCell cell => "Cell " ++ cellLabel cell ++ " is not declared in the configuration"
  | noCellStructure rule => "Rule " ++ rule.shown ++ " has no cell structure"
  | repeatedCell cell rule => "cell " ++ cellLabel cell ++ " appears twice in rule " ++ rule.shown
  | unplacedCells cells rule =>
    ", ".intercalate (cells.map cellLabel) ++ " inside the content of an enclosing cell in rule " ++
      rule.shown
  | missingModule name => "Module " ++ name ++ " is required but not defined"
  | wrongAttribute fault => fault.message
  | wrongDefinition fault => fault.message

end PassError

/-! ## Passes -/

/-- A pass: its name, what it makes of a definition, and what it reports on the way. -/
structure Pass where
  name : String
  run : Definition → Except PassError Definition
  report : Definition → List LogEntry

namespace Pass

/-- A pass that reports nothing. -/
def silent (name : String) (run : Definition → Except PassError Definition) : Pass :=
  ⟨name, run, fun _ => []⟩

end Pass

/-! ## Rewriting sentences -/

namespace Definition

/-- The definition with every sentence replaced by its images. -/
def mapSentences (f : Sentence → Except PassError (List Sentence)) (d : Definition) :
    Except PassError Definition :=
  d.mapModules .wrongDefinition fun _ m => m.mapSentences f

/-- The definition with every rule replaced by its image. -/
def mapRules (f : Rule → Except PassError Rule) (d : Definition) : Except PassError Definition :=
  d.mapSentences fun
    | .rule r => do .ok [.rule (← f r)]
    | s => .ok [s]

/-- The definition with every rule and every context replaced by its image. -/
def mapRulesAndContexts (onRule : Rule → Rule) (onContext : Context → Context) (d : Definition) :
    Except PassError Definition :=
  d.mapSentences fun
    | .rule r => .ok [.rule (onRule r)]
    | .context c => .ok [.context (onContext c)]
    | s => .ok [s]

/-- The definition with sentences added at the end of its main module. -/
def appendToMain (extra : List Sentence) (d : Definition) : Except PassError Definition :=
  (d.withModule (d.mainModule.append extra)).mapError .wrongDefinition

end Definition

end RewriteSemantics
