/-
# Symbols for all labels

Where the main module imports the module of terms, the labels that compiled rules apply are those
of the text and those that have symbols, but for labels that the passes bring in undeclared: the
markers of strategies, membership predicates of sorts that are not seen defined, and generators that
are not seen.
-/
import RewriteSemantics.Proofs.Compiler.Basic
import RewriteSemantics.Proofs.Definition.Builtin
import RewriteSemantics.Proofs.Definition.Semantics
import RewriteSemantics.Proofs.Pass.Labels
import RewriteSemantics.Proofs.Symbol.Table

namespace RewriteSemantics

/-- A label that was applied before any pass, or that has a symbol. -/
def CompiledDefinition.Accounts (c : CompiledDefinition) (label : String) : Prop :=
  c.parsed.Applies label ∨ c.symbols.contains label = true

namespace Compiler

variable {k : Compiler} {text main : String} {asked : Option SortName} {reg : Registry}
  {c : CompiledDefinition} {d e : Definition}

/-- A definition that reads the module of terms declares the functions that passes apply. -/
theorem builtinLabels_of_parseWithBuiltin (hread : parseWithBuiltin text main = .ok d)
    (hterms : d.modules.Reaches d.main Builtin.termModule) (hgrows : d.GrowsTo e) :
    BuiltinLabels (Pass.Known d e) := by
  obtain ⟨ms, -, hms⟩ := parseWithBuiltin_eq_ok.1 hread
  have hfound := Definition.module?_of_ofModules hms List.mem_cons_self
  have hknown : ∀ label ∈ Builtin.terms.productions.filterMap (·.label), Pass.Known d e label := by
    intro label hlabel
    obtain ⟨p, hp, hlabel⟩ := List.mem_filterMap.1 hlabel
    refine Pass.known_of_mem hgrows ?_ hlabel
    exact Definition.mem_visibleProductions_of_reaches hfound hterms (Module.mem_productions.1 hp)
  exact ⟨hknown _ (by decide), hknown _ (by decide), hknown _ (by decide), hknown _ (by decide)⟩

/-- If a text compiles and its main module imports the module of terms, then every label that is
applied by a rule the compiled main module sees was applied in the text, has a symbol, or is brought
in undeclared. -/
theorem accounts_or_undeclared_of_run (hc : (k.run text main asked reg).result = .ok c)
    (hterms : c.parsed.modules.Reaches c.parsed.main Builtin.termModule) :
    ∀ m ∈ c.compiled.closure c.compiled.main, ∀ r ∈ m.rules, ∀ t ∈ r.terms, ∀ label,
      t.Applies label → c.Accounts label ∨
        Pass.Undeclared k.options c.parsed c.configuration c.Accounts label := by
  obtain ⟨hread, hc⟩ := run_eq_ok.1 hc
  obtain ⟨-, hrun, htree, hsymbols⟩ := compileWith_eq_ok hc
  have hpasses : Pass.standard k.options =
      (Pass.standard k.options).dropLast ++ [Pass.addSemantics] := rfl
  rw [hpasses] at hrun
  obtain ⟨e, hrun, hlast⟩ := Pipeline.run_append.1 hrun
  obtain ⟨_, hadd, hlast⟩ := Pipeline.run_cons.1 hlast
  rw [← Pipeline.run_nil.1 hlast] at hadd
  have hknown : ∀ label, Pass.Known c.parsed e label → c.Accounts label := by
    rintro label (hwritten | hdeclared)
    · exact .inl hwritten
    · obtain ⟨p, hp, hlabel⟩ := SymbolTable.mem_declaredLabels_iff.1 hdeclared
      have hp := Semantics.visibleProductions_subset_of_add hadd hp
      refine .inr (hsymbols ▸ SymbolTable.contains_build ?_ _ _)
      exact SymbolTable.mem_declaredLabels_iff.2 ⟨p, hp, hlabel⟩
  have hgrows := Pipeline.growsTo_of_run (fun _ hp => hp) hrun
  have hlabels := Pass.appliesOnly_of_run (builtinLabels_of_parseWithBuiltin hread hterms hgrows)
    hrun ((Semantics.cellTree_of_add hadd).symm.trans htree)
  intro m hm r hr t ht label hlabel
  have hm := Semantics.mem_closure_of_mem_rules hadd hm hr
  exact (hlabels m hm r hr t ht label hlabel).imp (hknown label) fun h => h.mono hknown

/-! ### A context under strategies -/

/-- The text of a module with a strategy cell and a context. -/
def strategyText : String :=
  "module M imports K-TERM configuration <T> <k> .K </k> <s> .K </s> </T> context f(HOLE) endmodule"

/-- The tokens of the text. -/
def strategyTokens : List Token :=
  [(.keyword .module, 0, 6), (.ident "M", 7, 8), (.keyword .imports, 9, 16),
    (.ident "K-TERM", 17, 23), (.keyword .configuration, 24, 37), (.cellOpen "T" [], 38, 41),
    (.cellOpen "k" [], 42, 45), (.ident ".K", 46, 48), (.cellClose "k", 49, 53),
    (.cellOpen "s" [], 54, 57), (.ident ".K", 58, 60), (.cellClose "s", 61, 65),
    (.cellClose "T", 66, 70), (.keyword .context, 71, 78), (.ident "f", 79, 80),
    (.punctuation .leftParen, 80, 81), (.ident "HOLE", 81, 85), (.punctuation .rightParen, 85, 86),
    (.keyword .endModule, 87, 96), (.finish, 96, 96)].map
    fun (kind, start, stop) => ⟨kind, start, stop, 1, start + 1⟩

/-- The module that the text writes. -/
def strategyModule : Module where
  name := "M"
  imports := [Builtin.termModule]
  sentences := [.configuration ⟨.closedCell "T" (.bag [.closedCell "k" (.seq []),
      .closedCell StrategyCell.cellName (.seq [])]), ∅⟩,
    .context ⟨.app "f" [.ofName Variable.hole], none, ∅⟩]
  attributes := ∅

set_option maxRecDepth 100000 in
theorem tokenize_strategyText : tokenize strategyText = .ok strategyTokens := by
  obtain ⟨cs, htext, htokens⟩ : ∃ cs, strategyText = String.ofList cs ∧
      (Scan.tokens (.start cs)).toOption = some strategyTokens :=
    ⟨_, rfl, by decide +kernel⟩
  rw [tokenize, htext, String.toList_ofList]
  exact Except.toOption_eq_some.1 htokens

theorem parseAll_strategyText : Module.parseAll strategyText = .ok [strategyModule] := by
  have hmodules : (Parse.modules strategyTokens).toOption = some [strategyModule] := by cbv
  rw [Module.parseAll, tokenize_strategyText]
  exact Except.toOption_eq_some.1 hmodules

def strategyModules : ModuleMap :=
  ((OrderedMap.insert ∅ Builtin.terms.name Builtin.terms).insert Builtin.programs.name
    Builtin.programs).insert strategyModule.name strategyModule

theorem named_strategyModules : strategyModules.Named :=
  ((ModuleMap.named_empty.insert Builtin.terms).insert Builtin.programs).insert strategyModule

theorem fault?_strategyModules : strategyModules.fault? "M" = none := by cbv

def strategyDefinition : Definition :=
  ⟨"M", strategyModules, ∅, named_strategyModules, fault?_strategyModules⟩

theorem parseWithBuiltin_strategyText :
    parseWithBuiltin strategyText "M" = .ok strategyDefinition := by
  refine parseWithBuiltin_eq_ok.2 ⟨_, parseAll_strategyText, Except.bind_eq_ok.2
    ⟨⟨strategyModules, named_strategyModules⟩, rfl, Definition.ofMap_eq_ok.2 ?_⟩⟩
  exact ⟨fault?_strategyModules, rfl, rfl, rfl⟩

theorem reaches_strategyDefinition :
    strategyDefinition.modules.Reaches strategyDefinition.main Builtin.termModule := by
  have himports : Builtin.termModule ∈ strategyModules.importsOf "M" := by decide
  exact .single himports

/-- The options under which rules match on the strategy cell. -/
def strategies : Options :=
  { heatCoolStrategies := true }

/-- The text compiles to rules that wait for a marker without a symbol. -/
theorem exists_compiled_strategyText : ∃ c,
    ((ofOptions strategies).run strategyText "M" none ∅).result = .ok c ∧
      c.parsed = strategyDefinition ∧
      (∃ m ∈ c.compiled.closure c.compiled.main, ∃ r ∈ m.rules,
        r.body.Applies StrategyCell.heatMarker) ∧
      c.symbols.contains StrategyCell.heatMarker = false := by
  have hcompiles : (((ofOptions strategies).compileWith none strategyDefinition
      ∅).result.toOption.map fun c =>
        (((c.compiled.closure c.compiled.main).flatMap (·.rules)).any fun r =>
            decide (r.body.Applies StrategyCell.heatMarker),
          c.symbols.contains StrategyCell.heatMarker)) = some (true, false) := by cbv
  obtain ⟨c, hc, hmarker⟩ := Option.map_eq_some_iff.1 hcompiles
  have hc := Except.toOption_eq_some.1 hc
  have hparsed := parsed_of_compileWith hc
  obtain ⟨hrule, hsymbol⟩ := Prod.mk.inj hmarker
  obtain ⟨r, hr, happlies⟩ := List.any_eq_true.1 hrule
  obtain ⟨m, hm, hr⟩ := List.mem_flatMap.1 hr
  refine ⟨c, run_eq_ok.2 ⟨?_, ?_⟩, hparsed, ⟨m, hm, r, hr, of_decide_eq_true happlies⟩, hsymbol⟩
  · rw [hparsed, parseWithBuiltin_strategyText]
  · rwa [hparsed]

theorem accounts_or_undeclared_strategyText : ∃ c,
    ((ofOptions strategies).run strategyText "M" none ∅).result = .ok c ∧
      c.parsed.modules.Reaches c.parsed.main Builtin.termModule ∧
      ∀ m ∈ c.compiled.closure c.compiled.main, ∀ r ∈ m.rules, ∀ t ∈ r.terms, ∀ label,
        t.Applies label → c.Accounts label ∨
          Pass.Undeclared strategies c.parsed c.configuration c.Accounts label := by
  obtain ⟨c, hc, hparsed, -⟩ := exists_compiled_strategyText
  have hterms : c.parsed.modules.Reaches c.parsed.main Builtin.termModule :=
    hparsed ▸ reaches_strategyDefinition
  exact ⟨c, hc, hterms, accounts_or_undeclared_of_run hc hterms⟩

/-- The heating rule of the context waits for a marker that the text does not apply and that has no
symbol. -/
theorem exists_unaccounted_strategyText : ∃ c,
    ((ofOptions strategies).run strategyText "M" none ∅).result = .ok c ∧
      c.parsed.modules.Reaches c.parsed.main Builtin.termModule ∧
      ∃ m ∈ c.compiled.closure c.compiled.main, ∃ r ∈ m.rules, ∃ t ∈ r.terms,
        t.Applies StrategyCell.heatMarker ∧ ¬c.Accounts StrategyCell.heatMarker := by
  obtain ⟨c, hc, hparsed, ⟨m, hm, r, hr, happlies⟩, hsymbol⟩ := exists_compiled_strategyText
  refine ⟨c, hc, hparsed ▸ reaches_strategyDefinition, m, hm, r, hr, r.body, List.mem_cons_self,
    happlies, ?_⟩
  have hwritten : ¬strategyDefinition.Applies StrategyCell.heatMarker := by decide +kernel
  rintro (happlies | hcontains)
  · exact hwritten (hparsed ▸ happlies)
  · rw [hsymbol] at hcontains
    cases hcontains

end Compiler

end RewriteSemantics
