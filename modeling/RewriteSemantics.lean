import RewriteSemantics.Attribute.Basic
import RewriteSemantics.Attribute.Json
import RewriteSemantics.Attribute.Parser
import RewriteSemantics.CellTree
import RewriteSemantics.CellTree.Json
import RewriteSemantics.Compiler.Basic
import RewriteSemantics.Compiler.Error
import RewriteSemantics.Configuration.Counter
import RewriteSemantics.Configuration.Streams
import RewriteSemantics.Context.Freezer
import RewriteSemantics.Context.Strict
import RewriteSemantics.Definition.Basic
import RewriteSemantics.Definition.Builtin
import RewriteSemantics.Definition.Imports
import RewriteSemantics.Definition.Json
import RewriteSemantics.Definition.Parser
import RewriteSemantics.Definition.Semantics
import RewriteSemantics.FreshNames
import RewriteSemantics.Json.Basic
import RewriteSemantics.Json.Decode
import RewriteSemantics.Json.Reader
import RewriteSemantics.Json.Writer
import RewriteSemantics.Log
import RewriteSemantics.Module
import RewriteSemantics.Module.SortPredicates
import RewriteSemantics.Options
import RewriteSemantics.Ordered.Map
import RewriteSemantics.Ordered.Set
import RewriteSemantics.ParseError
import RewriteSemantics.Pass.Basic
import RewriteSemantics.Pass.Standard
import RewriteSemantics.Pipeline
import RewriteSemantics.Position
import RewriteSemantics.Registry
import RewriteSemantics.Rule.AnonymousVariables
import RewriteSemantics.Rule.Comparison
import RewriteSemantics.Rule.ComputationCell
import RewriteSemantics.Rule.Concretization
import RewriteSemantics.Rule.FreshConstants
import RewriteSemantics.Rule.HeatCool
import RewriteSemantics.Rule.SemanticCasts
import RewriteSemantics.Rule.StrategyCell
import RewriteSemantics.Sentence
import RewriteSemantics.Sentence.Parser
import RewriteSemantics.Sorts
import RewriteSemantics.Sorts.Json
import RewriteSemantics.Symbol.Basic
import RewriteSemantics.Symbol.Record
import RewriteSemantics.Symbol.Table
import RewriteSemantics.Term.Basic
import RewriteSemantics.Term.Cast
import RewriteSemantics.Term.Parser
import RewriteSemantics.Term.Printer
import RewriteSemantics.Term.Traversal
import RewriteSemantics.Text.Casing
import RewriteSemantics.Text.CharClass
import RewriteSemantics.Text.CharTable
import RewriteSemantics.Token.Basic
import RewriteSemantics.Token.Reading
import RewriteSemantics.Token.Scan
import RewriteSemantics.Validation.RhsVariables
import RewriteSemantics.Validation.Validator
import RewriteSemantics.Validation.Violation
import RewriteSemantics.Proofs.Ordered.Map
import RewriteSemantics.Proofs.Registry.Invariant
import RewriteSemantics.Proofs.Registry.History
import RewriteSemantics.Proofs.CellTree.Layout
import RewriteSemantics.Proofs.Concretization.Placement
import RewriteSemantics.Proofs.Concretization.Content
import RewriteSemantics.Proofs.Concretization.Reading
import RewriteSemantics.Proofs.Concretization.Survival
import RewriteSemantics.Proofs.Definition.Rewriting
import RewriteSemantics.Proofs.Related
import RewriteSemantics.Proofs.Definition.AddedRule
import RewriteSemantics.Proofs.Pass.AddedRule
import RewriteSemantics.Proofs.Context.Freezer
import RewriteSemantics.Proofs.Definition.Semantics
import RewriteSemantics.Proofs.Term.Images
import RewriteSemantics.Proofs.Rule.SemanticCasts
import RewriteSemantics.Proofs.Rule.Preparation
import RewriteSemantics.Proofs.Compiler.SingleRule
import RewriteSemantics.Proofs.Concretization.Reversal
import RewriteSemantics.Proofs.Rule.SideCondition
import RewriteSemantics.Proofs.Pass.Standing
import RewriteSemantics.Proofs.Context.Cooling
import RewriteSemantics.Proofs.Registry.Restoration
import RewriteSemantics.Proofs.Definition.Sentences
import RewriteSemantics.Proofs.Validation.Mentions
import RewriteSemantics.Proofs.Context.Labels
import RewriteSemantics.Proofs.Term.Hereditary
import RewriteSemantics.Proofs.Rule.Uncast
import RewriteSemantics.Proofs.Rule.FreshConstants
import RewriteSemantics.Proofs.Rule.Settled
import RewriteSemantics.Proofs.Concretization.Hereditary
import RewriteSemantics.Proofs.Pass.Postconditions
import RewriteSemantics.Proofs.Compiler.Basic
import RewriteSemantics.Proofs.Rule.Clean
import RewriteSemantics.Proofs.Concretization.Stock
import RewriteSemantics.Proofs.Concretization.Shape
import RewriteSemantics.Proofs.Concretization.Rereading
import RewriteSemantics.Proofs.Compiler.CompiledRules
import RewriteSemantics.Proofs.Registry.Adoption
import RewriteSemantics.Proofs.Symbol.Table
import RewriteSemantics.Proofs.Compiler.Restoration
import RewriteSemantics.Proofs.Rule.NewNames
import RewriteSemantics.Proofs.Pass.NewNames
import RewriteSemantics.Proofs.Registry.Flags
import RewriteSemantics.Proofs.Pass.FunctionRules
import RewriteSemantics.Proofs.Term.Cells
import RewriteSemantics.Proofs.Concretization.Nesting
import RewriteSemantics.Proofs.Definition.Imports
import RewriteSemantics.Proofs.Term.Labels
import RewriteSemantics.Proofs.Rule.Labels
import RewriteSemantics.Proofs.Module.SortPredicates
import RewriteSemantics.Proofs.Pass.Demands
import RewriteSemantics.Proofs.Pass.Labels
import RewriteSemantics.Proofs.Definition.Builtin
import RewriteSemantics.Proofs.Compiler.Symbols
import RewriteSemantics.Proofs.Grammar.Term
import RewriteSemantics.Proofs.Token.Reading
import RewriteSemantics.Proofs.Term.Reading
import RewriteSemantics.Proofs.Term.Soundness
import RewriteSemantics.Proofs.Term.Completeness
import RewriteSemantics.Proofs.Attribute.Parser
import RewriteSemantics.Proofs.Sentence.Parser
import RewriteSemantics.Proofs.Definition.Parser
import RewriteSemantics.Proofs.Term.Printer
import RewriteSemantics.Proofs.Term.Places
import RewriteSemantics.Proofs.Rule.CounterRuns
import RewriteSemantics.Proofs.Position
import RewriteSemantics.Proofs.Token.Locality
import RewriteSemantics.Proofs.Token.Spelling
import RewriteSemantics.Proofs.Token.Gap
import RewriteSemantics.Proofs.Token.Notice
import RewriteSemantics.Proofs.Token.Lossless
import RewriteSemantics.Proofs.Registry.Acceptance
import RewriteSemantics.Proofs.Compiler.Recompilation
import RewriteSemantics.Proofs.Sentence.Blocks
import RewriteSemantics.Proofs.Pass.Frame
import RewriteSemantics.Proofs.Registry.Prefix
import RewriteSemantics.Proofs.Definition.Cycles
import RewriteSemantics.Proofs.Definition.Structure
import RewriteSemantics.Proofs.CellTree.Declarations
import RewriteSemantics.Proofs.CellTree.Paths
import RewriteSemantics.Proofs.Compiler.FunctionLabels
import RewriteSemantics.Proofs.Definition.Preorder
import RewriteSemantics.Proofs.Rule.CastSorts
import RewriteSemantics.Proofs.Configuration.Streams
import RewriteSemantics.Proofs.Pass.Idempotence
import RewriteSemantics.Proofs.Token.Concatenation
import RewriteSemantics.Proofs.Definition.Concatenation
import RewriteSemantics.Proofs.Rule.CastRemoval
import RewriteSemantics.Proofs.Definition.Synthesis
import RewriteSemantics.Proofs.Context.Strict
import RewriteSemantics.Proofs.Rule.AnonymousVariables
import RewriteSemantics.Proofs.Token.Size
import RewriteSemantics.Proofs.Term.TextLiterals
import RewriteSemantics.Proofs.Configuration.StreamCells
import RewriteSemantics.Proofs.Configuration.CounterCell
import RewriteSemantics.Proofs.Term.Sides
import RewriteSemantics.Proofs.Rule.GeneratedNames
import RewriteSemantics.Proofs.Rule.Renaming
import RewriteSemantics.Proofs.Rule.Legible
import RewriteSemantics.Proofs.Rule.Comparison
