/-
# Compilation

A definition is validated, run through the standard passes, and given a configuration and a symbol
table. The labels are numbered by a registry that outlives the compilation, so a compilation takes a
registry and hands on the registry with its new symbols. A failed compilation adds none: symbols
are interned last, when nothing can fail any more.

Rules that come up later are compiled one at a time against the compiled definition.
-/
import RewriteSemantics.Compiler.Error
import RewriteSemantics.Definition.Parser
import RewriteSemantics.Pass.Standard
import RewriteSemantics.Symbol.Table
import RewriteSemantics.Validation.Validator

namespace RewriteSemantics

/-- A definition before and after compilation, with what is needed to run programs. -/
structure CompiledDefinition where
  /-- The definition before any pass. -/
  parsed : Definition
  /-- The definition after all passes. -/
  compiled : Definition
  /-- The label of the outermost cell. -/
  topCellLabel : String
  /-- The sort of programs. -/
  programStartSort : SortName
  symbols : SymbolTable
  configuration : CellTree

/-- A compiler: its options and the checks it makes first. -/
structure Compiler where
  options : Options
  validator : Validator

/-- What a compilation leaves behind. -/
structure Compilation where
  /-- The names of the passes that were completed. -/
  finished : List String
  log : List LogEntry
  registry : Registry
  result : Except CompileError CompiledDefinition

namespace Compilation

/-- A compilation that failed before any pass. -/
def failed (log : List LogEntry) (r : Registry) (e : CompileError) : Compilation :=
  ⟨[], log, r, .error e⟩

end Compilation

namespace Compiler

/-- The compiler with some options and the standard checks. -/
def ofOptions (o : Options) : Compiler :=
  ⟨o, .standard⟩

/-! ## Definitions -/

/-- The sort of programs: the one asked for, or else that of the options, or else the one that the
configuration tells, or else that of computations. -/
def startSort (o : Options) (asked : Option SortName) (tree : CellTree) : SortName :=
  (asked <|> o.programStartSort <|> tree.programSort?).getD .k

/-- What is reported of a symbol table. -/
def tableReport (table : SymbolTable) (r : Registry) : LogEntry :=
  ⟨.debug, toString table.size ++ " symbols, " ++ toString r.size ++ " interned in total"⟩

/-- The compiled definition and the registry with its symbols, from the results of the passes. -/
def assemble (o : Options) (asked : Option SortName) (parsed compiled : Definition)
    (tree : CellTree) (r : Registry) : CompiledDefinition × Registry :=
  let (table, r) := SymbolTable.build compiled tree r
  (⟨parsed, compiled, tree.topLabel, startSort o asked tree, table, tree⟩, r)

/-- What is logged of the findings of a validation. -/
def validationLog (c : Compiler) (parsed : Definition) : List LogEntry :=
  c.validator.report parsed ::
    (Violation.warnings (c.validator.validate parsed)).map fun v => ⟨.warn, v.shown⟩

/-- Compiles a definition, with a sort of programs if one is asked for. -/
def compileWith (c : Compiler) (asked : Option SortName) (parsed : Definition) (r : Registry) :
    Compilation :=
  let violations := c.validator.validate parsed
  let log := c.validationLog parsed
  if Violation.anyError violations then .failed log r (.invalid violations)
  else
    let run := Pipeline.run (Pass.standard c.options) parsed
    let log := log ++ run.log
    match run.result with
    | .error failure => ⟨run.finished, log, r, .error (.pass failure)⟩
    | .ok compiled =>
      match CellTree.ofModule compiled compiled.main with
      | .error fault => ⟨run.finished, log, r, .error (.definition fault)⟩
      | .ok tree =>
        let (result, r') := assemble c.options asked parsed compiled tree r
        ⟨run.finished, log ++ Registry.reportSince r r' ++ [tableReport result.symbols r'], r',
          .ok result⟩

/-- Compiles a definition. -/
def compile (c : Compiler) (parsed : Definition) (r : Registry) : Compilation :=
  c.compileWith none parsed r

/-- The definition of a text together with the built-in modules. -/
def parseWithBuiltin (text main : String) : Except CompileError Definition := do
  let builtin ← (Module.parseAll Builtin.text).mapError .parse
  let modules ← (Module.parseAll text).mapError .parse
  (Definition.ofModules main (builtin ++ modules) ∅).mapError .definition

/-- Reads a text together with the built-in modules and compiles it. -/
def run (c : Compiler) (text main : String) (asked : Option SortName) (r : Registry) :
    Compilation :=
  match parseWithBuiltin text main with
  | .error e => .failed [] r e
  | .ok parsed => c.compileWith asked parsed r

/-- Reads a text and compiles it with the main module that the options name. -/
def runConfigured (c : Compiler) (text : String) (r : Registry) : Compilation :=
  match c.options.mainModule with
  | none => .failed [] r .missingMainModule
  | some main => c.run text main none r

/-! ## Rules -/

/-- Compiles a rule against a compiled definition: its anonymous variables are named, its casts
resolved and its cells placed into the configuration. -/
def compileRule (c : Compiler) (compiled : CompiledDefinition) (r : Rule) :
    Except CompileError Rule :=
  let named := AnonymousVariables.resolveRule r
  let sorted := SemanticCasts.resolveRule c.options.skipSortPredicates named
  (Concretization.resolveRule compiled.configuration compiled.compiled sorted).mapError fun e =>
    .pass ⟨Pass.concretizeCells.name, e⟩

/-- Reads a rule, unless it has been read already, and compiles it. -/
def parseAndCompileRule (c : Compiler) (compiled : CompiledDefinition) (text source : String)
    (parsed : Option Rule) : Except CompileError Rule :=
  match parsed with
  | some r => c.compileRule compiled r
  | none => do
    let r ← (Rule.parse text source).mapError .parse
    c.compileRule compiled r

/-! ## Stored symbols -/

/-- What is reported of an attempt to restore symbols. -/
def restoreReport : Except RegistryError (List Symbol) → LogEntry
  | .ok symbols => ⟨.debug, "Restored " ++ toString symbols.length ++ " symbols"⟩
  | .error e => e.report

/-- The symbols that stored ones stand for, with the registry that knows them. -/
def restoreSymbols (records : List SymbolRecord) (r : Registry) :
    Except CompileError (List Symbol) × Registry :=
  let (result, r) := r.canonicalizeAll records
  (result.mapError .registry, r)

end Compiler

end RewriteSemantics
