/-
# Rules one at a time

A rule that is compiled against a compiled definition takes a short way: its anonymous variables are
named, its casts resolved, and its cells placed. A rule of the definition itself goes through all
passes. The two ways meet if the rule is one that the passes in between leave alone: then the
definition with the rule compiles to the compiled definition with the compiled rule.
-/
import Mathlib
import RewriteSemantics.Proofs.Compiler.Basic
import RewriteSemantics.Proofs.Definition.Cycles
import RewriteSemantics.Proofs.Definition.Semantics
import RewriteSemantics.Proofs.Pass.AddedRule
import RewriteSemantics.Proofs.Rule.Preparation

namespace RewriteSemantics

open Definition

variable {o : Options} {r : Rule} {d d' e' : Definition}

/-! ## Validation -/

/-- The definition with one more rule has no fewer faults. -/
theorem Validator.validate_subset (h : AddsRule r d d') {v : Violation}
    (hv : v ∈ standard.validate d) : v ∈ standard.validate d' := by
  obtain ⟨m, hm, hv⟩ := List.mem_flatMap.1 hv
  obtain ⟨s, hs, hv⟩ := List.mem_flatMap.1 hv
  obtain ⟨x, hx, rfl⟩ := List.mem_map.1 hm
  obtain ⟨y, hy, -, ss, hss, hym⟩ := h.modules.exists_of_mem hx
  have hs' : s ∈ y.2.sentences := by
    rw [hym]
    rw [Rewriting.addsRule] at hss
    split at hss
    · exact hss.mem_of_mem hs
    · rw [hss]
      exact hs
  have hname : y.2.name = x.2.name := by
    rw [hym]
  have hcheck : RhsVariables.check y.2 s = RhsVariables.check x.2 s := by
    cases s with
    | rule r => simp only [RhsVariables.check, RhsVariables.violation, hname]
    | context c => simp only [RhsVariables.check, RhsVariables.violation, hname]
    | _ => rfl
  refine List.mem_flatMap.2 ⟨y.2, List.mem_map_of_mem hy, List.mem_flatMap.2 ⟨s, hs', ?_⟩⟩
  obtain ⟨c, hc, hv⟩ := List.mem_flatMap.1 hv
  refine List.mem_flatMap.2 ⟨c, hc, ?_⟩
  rw [List.mem_singleton.1 hc] at hv ⊢
  show v ∈ RhsVariables.check y.2 s
  rw [hcheck]
  exact hv

theorem Validator.anyError_of_addsRule (h : AddsRule r d d')
    (hd' : Violation.anyError (standard.validate d') = false) :
    Violation.anyError (standard.validate d) = false := by
  rw [Violation.anyError, List.any_eq_false] at hd' ⊢
  exact fun v hv => hd' v (validate_subset h hv)

/-! ## Passes in three parts -/

namespace Pass

/-- The passes that work on rules as they are written. -/
def preparing (o : Options) : List Pass :=
  (standard o).take 8

/-- The passes that put rules into cells. -/
def placing (o : Options) : List Pass :=
  ((standard o).drop 8).take 3

theorem standard_eq (o : Options) : standard o = preparing o ++ (placing o ++ [addSemantics]) :=
  rfl

end Pass

theorem HeatCool.resolveRule_of_unmarked (hheat : r.isHeat = false) (hcool : r.isCool = false) :
    resolveRule r = .ok r := by
  rw [resolveRule, condition?, hheat, hcool]
  rfl

/-- The first passes name the anonymous variables of the rule and resolve its casts. -/
theorem Pass.prepare_addsRule (hheat : r.isHeat = false) (hcool : r.isCool = false)
    (hfresh : ∀ x ∈ r.variableNames, Variable.isFreshName x = false) (h : AddsRule r d d')
    (he' : (Pipeline.run (preparing o) d').result = .ok e') :
    ∃ e, (Pipeline.run (preparing o) d).result = .ok e ∧
      AddsRule (r.prepared o.skipSortPredicates) e e' := by
  simp only [preparing, standard, List.take, Pipeline.run_cons, Pipeline.run_nil] at he' ⊢
  obtain ⟨d₁', h₁', d₂', h₂', d₃', h₃', d₄', h₄', d₅', h₅', d₆', h₆', d₇', h₇', d₈', h₈', rfl⟩ :=
    he'
  obtain ⟨d₁, h₁, hadds₁⟩ := Stream.resolve_addsRule h h₁'
  obtain ⟨d₂, h₂, hadds₂⟩ := Strict.resolve_addsRule hadds₁ h₂'
  obtain ⟨d₃, h₃, hadds₃⟩ := mapRulesAndContexts_addsRule hadds₂ h₃'
  obtain ⟨d₄, h₄, hadds₄⟩ := Freezer.resolve_addsRule hadds₃ h₄'
  have hunmarked := HeatCool.resolveRule_of_unmarked
    (r := AnonymousVariables.resolveRule r) hheat hcool
  obtain ⟨d₅, h₅, hadds₅⟩ := mapRules_addsRule hadds₄ hunmarked h₅'
  obtain ⟨d₆, h₆, hadds₆⟩ := mapRulesAndContexts_addsRule hadds₅ h₆'
  obtain ⟨d₇, h₇, hadds₇⟩ := SortPredicates.generate_addsRule hadds₆ h₇'
  have hnone :
      (FreshConstants.freshVariables (r.prepared o.skipSortPredicates)).isEmpty = true := by
    rw [Rule.freshVariables_prepared hfresh]
    rfl
  obtain ⟨d₈, h₈, hadds₈⟩ := FreshConstants.resolve_addsRule hadds₇ hnone h₈'
  exact ⟨d₈, ⟨d₁, h₁, d₂, h₂, d₃, h₃, d₄, h₄, d₅, h₅, d₆, h₆, d₇, h₇, d₈, h₈, rfl⟩, hadds₈⟩

/-- The next passes place the rule as concretization does it alone. -/
theorem Pass.place_addsRule (ho : o.heatCoolStrategies = false)
    (hbody : r.body.IsCells ∨ d.isFunctionRule r = true) (h : AddsRule r d d')
    (he' : (Pipeline.run (placing o) d').result = .ok e') :
    ∃ e tree r₁, (Pipeline.run (placing o) d).result = .ok e ∧ AddsRule r₁ e e' ∧
      CellTree.ofModule e e.main = .ok tree ∧ Concretization.resolveRule tree e r = .ok r₁ := by
  simp only [placing, standard, List.drop, List.take, Pipeline.run_cons, Pipeline.run_nil] at he' ⊢
  obtain ⟨d₁', h₁', d₂', h₂', d₃', h₃', rfl⟩ := he'
  obtain ⟨d₁, h₁, hadds₁⟩ := ComputationCell.add_addsRule h h₁'
  have hkept : ComputationCell.addToRule o.computationCell d r = r := by
    unfold ComputationCell.addToRule
    split
    · rfl
    · rename_i hfunction
      rcases hbody with hcells | hr
      · rw [ComputationCell.wrap_of_isCells hcells]
      · exact absurd hr hfunction
  rw [hkept] at hadds₁
  rw [ho] at h₂' ⊢
  cases StrategyCell.add_disabled.1 h₂'
  obtain ⟨tree, r₁, e, htree, hr₁, h₃, hadds₃⟩ := Concretization.resolve_addsRule hadds₁ h₃'
  -- Concretization changes rules only, so it may be asked again behind the passes.
  obtain ⟨_, -, hmap⟩ := Except.bind_eq_ok.1 h₃
  refine ⟨e, tree, r₁, ⟨d₁, h₁, d₁, StrategyCell.add_disabled.2 rfl, e, h₃, rfl⟩, hadds₃, ?_, ?_⟩
  · rw [cellTree_of_mapRules hmap]
    exact htree
  · rw [Concretization.resolveRule_congr (isFunctionRule_of_mapRules hmap r)]
    exact hr₁

/-! ## Compilation -/

namespace Compiler

/-- A compilation that succeeds has run all passes on a definition without errors. -/
theorem compile_eq_ok {reg : Registry} {c : CompiledDefinition}
    (h : ((ofOptions o).compile d reg).result = .ok c) :
    Violation.anyError (Validator.standard.validate d) = false ∧
      (Pipeline.run (Pass.standard o) d).result = .ok c.compiled ∧
      CellTree.ofModule c.compiled c.compiled.main = .ok c.configuration := by
  obtain ⟨hvalid, hrun, htree, -⟩ := compileWith_eq_ok h
  exact ⟨hvalid, hrun, htree⟩

/-- A definition without errors on which all passes succeed compiles, if the result has a cell
tree. -/
theorem exists_compile_eq_ok (reg : Registry) {tree : CellTree} {e : Definition}
    (hvalid : Violation.anyError (Validator.standard.validate d) = false)
    (hrun : (Pipeline.run (Pass.standard o) d).result = .ok e)
    (htree : CellTree.ofModule e e.main = .ok tree) :
    ∃ c, ((ofOptions o).compile d reg).result = .ok c ∧ c.compiled = e ∧
      c.configuration = tree := by
  unfold compile compileWith
  dsimp only [ofOptions]
  rw [hvalid, if_neg (by decide), hrun]
  dsimp only
  rw [htree]
  exact ⟨_, rfl, rfl, rfl⟩

/-- A rule may be written at the end of the main module of any definition. -/
theorem exists_appendRule (d : Definition) (r : Rule) :
    ∃ d', d.appendToMain [.rule r] = .ok d' ∧ AddsRule r d d' := by
  obtain ⟨d', hd'⟩ := exists_rewrites_of_total (R := .inModule d.main (· ++ [.rule r]))
    (fun _ _ => ⟨_, rfl⟩) d
  refine ⟨d', appendToMain_eq_ok.2 hd', hd'.mono ?_⟩
  rintro name ss _ rfl
  unfold Rewriting.addsRule
  split
  · have hinserted := InsertedRule.intro (r := r) ss [] fun _ hs => (nomatch hs)
    rwa [List.append_nil] at hinserted
  · rfl

/-- A rule that stands last in the main module is the last rule of what becomes of it. -/
theorem getLast?_rules_of_addsRule {main : String} {m : Module} {e : Definition}
    (h : e.Rewrites (.addsRule main r) e') (hm : e.module? main = some m) :
    (e'.module? main).bind (·.rules.getLast?) = some r := by
  rcases h.modules.get? main with ⟨hnone, -⟩ | ⟨_, _, hm', he', ss, hss, rfl⟩
  · rw [module?, hnone] at hm
    cases hm
  · cases hm.symm.trans hm'
    rw [name_of_module? hm, Rewriting.addsRule, if_pos rfl] at hss
    rw [module?, he', Option.bind_some]
    exact hss.getLast?_rules

/-- Take a rule that is no heating or cooling rule, makes up no values, and either is written in
cells or belongs to a function. If a definition compiles with the rule at the end of its main
module, then it compiles without, and compiling the rule against the result gives the last rule that
the module has in the former case. The registries do not matter. -/
theorem compileRule_eq_getLast?_rules (o : Options) (ho : o.heatCoolStrategies = false)
    (d : Definition) (hsemantics : d.module? Builtin.semanticsModule = none)
    (hlanguage : d.module? Builtin.languageModule = none) (r : Rule) (hheat : r.isHeat = false)
    (hcool : r.isCool = false) (hfresh : ∀ x ∈ r.variableNames, Variable.isFreshName x = false)
    (hbody : r.body.IsCells ∨
      d.isFunctionRule (.ofBody (SemanticCasts.strip ∅ r.body)) = true) :
    ∃ d', d.appendToMain [.rule r] = .ok d' ∧ ∀ reg reg' c',
      ((ofOptions o).compile d' reg').result = .ok c' →
      ∃ c r', ((ofOptions o).compile d reg).result = .ok c ∧
        (ofOptions o).compileRule c r = .ok r' ∧
        (c'.compiled.module? d.main).bind (·.rules.getLast?) = some r' := by
  obtain ⟨d', happend, hadds⟩ := exists_appendRule d r
  refine ⟨d', happend, fun reg reg' c' hc' => ?_⟩
  obtain ⟨hvalid', hrun', htree'⟩ := compile_eq_ok hc'
  rw [Pass.standard_eq, Pipeline.run_append] at hrun'
  obtain ⟨d₁', hprepare', hrun'⟩ := hrun'
  obtain ⟨d₂', hplace', hrun'⟩ := Pipeline.run_append.1 hrun'
  obtain ⟨d₃', hadd', hnil⟩ := Pipeline.run_cons.1 hrun'
  rw [Pipeline.run_nil] at hnil
  subst hnil
  obtain ⟨d₁, hprepare, hadds₁⟩ := Pass.prepare_addsRule hheat hcool hfresh hadds hprepare'
  have hgrows₁ : d.GrowsTo d₁ := Pipeline.growsTo_of_run (o := o)
    (fun p hp => List.mem_of_mem_take (l := (Pass.standard o).dropLast) (i := 8) hp) hprepare
  have hbody₁ : (r.prepared o.skipSortPredicates).body.IsCells ∨
      d₁.isFunctionRule (r.prepared o.skipSortPredicates) = true := by
    rcases hbody with hcells | hfunction
    · exact .inl (Rule.isCells_prepared hcells)
    · rw [Rule.isFunctionRule_prepared]
      exact .inr (hgrows₁.isFunctionRule hfunction)
  obtain ⟨d₂, tree, r', hplace, hadds₂, htree, hr'⟩ :=
    Pass.place_addsRule ho hbody₁ hadds₁ hplace'
  have hgrows₂ : d.GrowsTo d₂ := hgrows₁.trans <| Pipeline.growsTo_of_run (o := o)
    (fun p hp => List.mem_of_mem_drop (l := (Pass.standard o).dropLast) (i := 8) hp) hplace
  -- The generated modules are new, so they leave the main module and what it sees alone.
  have hsemantics₂ := hgrows₂.module?_eq_none hsemantics
  have hlanguage₂ := hgrows₂.module?_eq_none hlanguage
  have hne : ∀ name, d₂.module? name = none → d₂.main ≠ name := by
    rintro name hnone rfl
    rw [d₂.module?_main] at hnone
    cases hnone
  obtain ⟨e, hadd, hadds₃⟩ := Semantics.add_addsRule hadds₂ (hne _ hsemantics₂)
    (hne _ hlanguage₂) hadd'
  have htree₃ : CellTree.ofModule e e.main = .ok tree := by
    rw [Semantics.cellTree_of_add hadd]
    exact htree
  have hrun : (Pipeline.run (Pass.standard o) d).result = .ok e := by
    rw [Pass.standard_eq, Pipeline.run_append]
    exact ⟨d₁, hprepare, Pipeline.run_append.2 ⟨d₂, hplace,
      Pipeline.run_cons.2 ⟨e, hadd, Pipeline.run_nil.2 rfl⟩⟩⟩
  obtain ⟨c, hc, hcompiled, hconfiguration⟩ := exists_compile_eq_ok (o := o) reg
    (Validator.anyError_of_addsRule hadds hvalid') hrun htree₃
  refine ⟨c, r', hc, ?_, ?_⟩
  · have hfunction : e.isFunctionRule (r.prepared o.skipSortPredicates) =
        d₂.isFunctionRule (r.prepared o.skipSortPredicates) := by
      unfold isFunctionRule
      simp only [Semantics.isFunctionLabel_of_add hadd hsemantics₂ hlanguage₂]
    rw [compileRule, hconfiguration, hcompiled, Except.mapError_eq_ok]
    exact (Concretization.resolveRule_congr hfunction).trans hr'
  · rw [← hgrows₂.main]
    have hmain := (Semantics.get?_of_add hadd (hne _ hsemantics₂) (hne _ hlanguage₂)).trans
      d₂.module?_main
    exact getLast?_rules_of_addsRule hadds₃ hmain

/-! ### A rule over two cells -/

/-- A configuration of a computation and an environment. -/
def twoCells : Term :=
  .closedCell "T" (.bag [.closedCell "k" (.sortedVar Variable.pgm .k),
    .closedCell "env" (.constant ".Map")])

def twoCellModule : Module :=
  ⟨"M", [], [.configuration ⟨twoCells, ∅⟩], ∅⟩

/-- The built-in modules, without content, beside the module of the two cells. -/
def twoCellModules : ModuleMap :=
  ((OrderedMap.insert ∅ twoCellModule.name twoCellModule).insert Builtin.termModule
    (.ofName Builtin.termModule)).insert Builtin.programModule (.ofName Builtin.programModule)

theorem named_twoCellModules : twoCellModules.Named :=
  ((ModuleMap.named_empty.insert twoCellModule).insert (.ofName Builtin.termModule)).insert
    (.ofName Builtin.programModule)

theorem fault?_twoCellModules : twoCellModules.fault? "M" = none :=
  ModuleMap.fault?_eq_none_of_imports_eq_nil rfl (by decide)

def twoCellDefinition : Definition :=
  ⟨"M", twoCellModules, ∅, named_twoCellModules, fault?_twoCellModules⟩

/-- The rule `<k> foo(_, X:Int) => bar(X) ...</k>`. -/
def fooRule : Rule :=
  .ofBody (.openCell "k" (.rewrite
    (.app "foo" [.ofName Variable.anonymous, .app (Label.cast .int) [.ofName "X"]])
    (.app "bar" [.ofName "X"])))

theorem compileRule_fooRule : ∃ d' c' c r',
    twoCellDefinition.appendToMain [.rule fooRule] = .ok d' ∧
      ((ofOptions .default).compile d' .empty).result = .ok c' ∧
      ((ofOptions .default).compile twoCellDefinition .empty).result = .ok c ∧
      (ofOptions .default).compileRule c fooRule = .ok r' ∧
      (c'.compiled.module? "M").bind (·.rules.getLast?) = some r' := by
  obtain ⟨d', happend, hrules⟩ := compileRule_eq_getLast?_rules .default rfl twoCellDefinition
    (by cbv) (by cbv) fooRule rfl rfl (by decide) (.inl (.inl rfl))
  have hcompiles : ((twoCellDefinition.appendToMain [.rule fooRule]).toOption.bind fun d' =>
      ((ofOptions .default).compile d' .empty).result.toOption).isSome = true := by cbv
  rw [happend] at hcompiles
  obtain ⟨c', hc'⟩ := Option.isSome_iff_exists.1 hcompiles
  have hc' := Except.toOption_eq_some.1 hc'
  obtain ⟨c, r', hc, hr', hlast⟩ := hrules .empty .empty c' hc'
  exact ⟨d', c', c, r', happend, hc', hc, hr', hlast⟩

end Compiler

end RewriteSemantics
