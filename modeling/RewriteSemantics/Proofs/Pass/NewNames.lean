/-
# The new variables of a definition's rules

A rule of a definition is followed through the passes, up to the one that places its cells. Four of
them bring variables into it, and what each brings is read off the rule as this pass finds it. All
of these variables are distinct, and the rule did not have any of them in the beginning.
-/
import RewriteSemantics.Proofs.Pass.Standing
import RewriteSemantics.Proofs.Rule.NewNames

namespace RewriteSemantics

open Definition

variable {d e : Definition} {r : Rule}

/-! ## Rules through the passes -/

theorem Stream.mem_rules (h : resolve d = .ok e) (hr : r ∈ d.rules) : r ∈ e.rules := by
  obtain ⟨f, hf, h⟩ := Except.bind_eq_ok.1 h
  have hmem : r ∈ f.rules := by
    refine mem_rules_of_mapSentences hf hr fun image himage => ?_
    cases himage
    exact List.mem_cons_self
  split at h
  · cases h
    exact hmem
  · exact mem_rules_of_appendToMain h hmem

theorem Strict.mem_rules (h : d.mapSentences resolveSentence = .ok e) (hr : r ∈ d.rules) :
    r ∈ e.rules := by
  refine mem_rules_of_mapSentences h hr fun image himage => ?_
  cases himage
  exact List.mem_cons_self

theorem Freezer.mem_rules (h : resolve d = .ok e) (hr : r ∈ d.rules) : r ∈ e.rules :=
  Definition.mem_rules.2 ((resolve_eq_ok.1 h).mem_of_mem (Definition.mem_rules.1 hr)
    fun _ _ _ hss hts => mem_resolveFrom hts rfl hss)

theorem SortPredicates.mem_rules (h : generate d = .ok e) (hr : r ∈ d.rules) : r ∈ e.rules := by
  refine Definition.mem_rules.2 ((generate_eq_ok.1 h).mem_of_mem (Definition.mem_rules.1 hr) ?_)
  rintro name ss _ hss rfl
  exact List.mem_append_left _ hss

theorem Counter.mem_rules {cell : String} (h : declare cell d = .ok e) (hr : r ∈ d.rules) :
    r ∈ e.rules := by
  unfold declare at h
  split at h
  · rename_i m hm
    have hmodule := module?_of_mem_closure (List.mem_of_find?_eq_some hm)
    have hrewrites := (withModule_eq_ok hmodule).1 (Except.mapError_eq_ok.1 h)
    refine Definition.mem_rules.2 (hrewrites.mem_of_mem (Definition.mem_rules.1 hr) ?_)
    rintro name ss _ hss rfl
    split
    · exact mem_extendFirst rfl hss
    · exact hss
  · exact mem_rules_of_appendToMain h hr

theorem FreshConstants.exists_mem_rules {cell : String} (h : resolve cell d = .ok e)
    (hr : r ∈ d.rules) : ∃ r', resolveRule d r = .ok r' ∧ r' ∈ e.rules := by
  obtain ⟨f, hf, h⟩ := Except.bind_eq_ok.1 h
  obtain ⟨r', hr', hmem⟩ := exists_mem_rules_of_mapRules hf hr
  split at h
  · cases h
    exact ⟨r', hr', hmem⟩
  · exact ⟨r', hr', Counter.mem_rules h hmem⟩

theorem ComputationCell.mem_rules {cell : String} (h : add cell d = .ok e) (hr : r ∈ d.rules) :
    addToRule cell e r ∈ e.rules := by
  rw [addToRule_congr (isFunctionRule_eq h)]
  obtain ⟨f, hf, h⟩ := Except.bind_eq_ok.1 h
  obtain ⟨_, hr', hmem⟩ := exists_mem_rules_of_mapRules hf hr
  cases hr'
  split at h
  · exact mem_rules_of_appendToMain h hmem
  · cases h
    exact hmem

/-! ### Functions and cells -/

namespace StrategyCell

/-- What becomes of a rule: strategies may be enabled, and the cell declared. -/
def steer (enabled : Bool) (tree : CellTree) (d : Definition) (r : Rule) : Rule :=
  if enabled && tree.contains cellName then addToRule d r else r

theorem steer_congr {enabled : Bool} {tree : CellTree}
    (h : e.isFunctionRule r = d.isFunctionRule r) :
    steer enabled tree e r = steer enabled tree d r := by
  unfold steer addToRule
  rw [h]

variable {enabled : Bool}

theorem eq_or_mapRules (h : add enabled d = .ok e) :
    e = d ∨ d.mapRules (fun r => .ok (addToRule d r)) = .ok e := by
  unfold add at h
  split at h
  · obtain ⟨tree, -, h⟩ := Except.bind_eq_ok.1 h
    split at h
    · exact .inr h
    · cases h
      exact .inl rfl
  · cases h
    exact .inl rfl

theorem isFunctionRule_eq (h : add enabled d = .ok e) (r : Rule) :
    e.isFunctionRule r = d.isFunctionRule r := by
  rcases eq_or_mapRules h with rfl | h
  · rfl
  · exact isFunctionRule_of_mapRules h r

theorem cellTree_eq (h : add enabled d = .ok e) :
    CellTree.ofModule e e.main = CellTree.ofModule d d.main := by
  rcases eq_or_mapRules h with rfl | h
  · rfl
  · exact cellTree_of_mapRules h

theorem mem_rules {tree : CellTree} (h : add enabled d = .ok e)
    (htree : CellTree.ofModule e e.main = .ok tree) (hr : r ∈ d.rules) :
    steer enabled tree e r ∈ e.rules := by
  rw [cellTree_eq h] at htree
  rw [steer_congr (isFunctionRule_eq h r), steer]
  unfold add at h
  cases enabled with
  | false =>
    cases h
    exact hr
  | true =>
    rw [if_pos rfl] at h
    obtain ⟨tree', htree', h⟩ := Except.bind_eq_ok.1 h
    obtain rfl : tree' = tree := Except.ok.inj ((Except.mapError_eq_ok.1 htree').symm.trans htree)
    rw [Bool.true_and]
    split at h
    · rename_i hcontains
      obtain ⟨_, hr', hmem⟩ := exists_mem_rules_of_mapRules h hr
      cases hr'
      rw [if_pos hcontains]
      exact hmem
    · rename_i hcontains
      cases h
      rw [if_neg hcontains]
      exact hr

end StrategyCell

theorem Concretization.cellTree_eq (h : resolve d = .ok e) :
    CellTree.ofModule e e.main = CellTree.ofModule d d.main := by
  obtain ⟨tree, -, h⟩ := Except.bind_eq_ok.1 h
  exact cellTree_of_mapRules h

theorem Concretization.exists_mem_rules {tree : CellTree} (h : resolve d = .ok e)
    (htree : CellTree.ofModule e e.main = .ok tree) (hr : r ∈ d.rules) :
    ∃ r', resolveRule tree e r = .ok r' ∧ r' ∈ e.rules := by
  rw [cellTree_eq h] at htree
  rw [resolveRule_congr (isFunctionRule_eq h)]
  obtain ⟨tree', htree', h⟩ := Except.bind_eq_ok.1 h
  obtain rfl : tree' = tree := Except.ok.inj ((Except.mapError_eq_ok.1 htree').symm.trans htree)
  exact exists_mem_rules_of_mapRules h hr

/-! ## The way of a rule -/

/-- The way of a rule through the passes up to the one that places its cells. Which rules are those
of functions, and what the cells are, does not change while they matter, so they are asked of the
result. -/
structure Rule.Way (o : Options) (d e : Definition) (r : Rule) where
  /-- The definition that values are made up in. -/
  generators : Definition
  /-- The cells of the configuration. -/
  tree : CellTree
  /-- The rule with its anonymous variables named and its condition of heating or cooling. -/
  conditioned : Rule
  /-- The rule without casts. -/
  uncast : Rule
  /-- The rule with its made-up values. -/
  valued : Rule
  /-- The rule in the computation cell. -/
  wrapped : Rule
  /-- The rule with the strategy cell. -/
  steered : Rule
  /-- The rule with its cells placed. -/
  placed : Rule
  /-- The variables that stand for unwritten content. -/
  dots : List String
  generators_run : (Pipeline.run ((Pass.standard o).take 7) d).result = .ok generators
  tree_ofModule : CellTree.ofModule e e.main = .ok tree
  conditioned_eq : HeatCool.resolveRule (AnonymousVariables.resolveRule r) = .ok conditioned
  uncast_eq : uncast = SemanticCasts.resolveRule o.skipSortPredicates conditioned
  valued_eq : FreshConstants.resolveRule generators uncast = .ok valued
  wrapped_eq : wrapped = ComputationCell.addToRule o.computationCell e valued
  steered_eq : steered = StrategyCell.steer o.heatCoolStrategies tree e wrapped
  placed_eq : Concretization.resolveRule tree e steered = .ok placed
  placed_mem : placed ∈ e.rules
  dots_eq : Concretization.Dots tree e steered placed dots

namespace Rule.Way

variable {o : Options}

/-- The variables that come from the strategy cell, if it is added. -/
def strategy (w : Rule.Way o d e r) : List String :=
  if o.heatCoolStrategies && w.tree.contains StrategyCell.cellName then
    StrategyCell.newNames e w.wrapped
  else []

/-- The names of all new variables, in the order of the passes. -/
def newNames (w : Rule.Way o d e r) : List String :=
  AnonymousVariables.newNames r ++ FreshConstants.newNames w.uncast ++ w.strategy ++ w.dots

theorem brings_strategy (w : Rule.Way o d e r) : w.wrapped.Brings w.steered w.strategy := by
  rw [w.steered_eq, StrategyCell.steer, strategy]
  split
  · exact StrategyCell.brings e w.wrapped
  · exact Rule.brings_nil fun x hx _ => hx

/-- What the passes in front of the placing of cells bring in. -/
theorem brings (w : Rule.Way o d e r) : r.Brings w.steered
    (AnonymousVariables.newNames r ++ FreshConstants.newNames w.uncast ++ w.strategy) := by
  have hconditioned := HeatCool.brings w.conditioned_eq
  have huncast : w.conditioned.Brings w.uncast [] :=
    w.uncast_eq ▸ SemanticCasts.brings o.skipSortPredicates w.conditioned
  have hvalued := FreshConstants.brings w.valued_eq
  have hwrapped : w.valued.Brings w.wrapped [] :=
    w.wrapped_eq ▸ ComputationCell.brings o.computationCell e w.valued
  have hnamed := ((AnonymousVariables.brings r).trans_nil hconditioned).trans_nil huncast
  exact ((hnamed.trans hvalued).trans_nil hwrapped).trans w.brings_strategy

end Rule.Way

namespace Pass

variable {o : Options}

/-- Every rule has its way, with dots that are new to the rule they are placed in. -/
theorem exists_way_of_run (h : (Pipeline.run ((standard o).take 11) d).result = .ok e)
    (hr : r ∈ d.rules) : ∃ w : Rule.Way o d e r, w.steered.AreNew w.dots := by
  simp only [standard, List.take, Pipeline.run_cons, Pipeline.run_nil] at h
  obtain ⟨d₁, h₁, d₂, h₂, d₃, h₃, d₄, h₄, d₅, h₅, d₆, h₆, d₇, h₇, d₈, h₈, d₉, h₉, d₁₀, h₁₀, _,
    h₁₁, rfl⟩ := h
  have hrun : (Pipeline.run ((standard o).take 7) d).result = .ok d₇ := by
    simp only [standard, List.take, Pipeline.run_cons, Pipeline.run_nil]
    exact ⟨d₁, h₁, d₂, h₂, d₃, h₃, d₄, h₄, d₅, h₅, d₆, h₆, d₇, h₇, rfl⟩
  -- Functions and cells are asked of the result.
  obtain ⟨tree, htree, -⟩ := Except.bind_eq_ok.1 h₁₁
  have htree₁₀ := Except.mapError_eq_ok.1 htree
  have htree₁₁ := (Concretization.cellTree_eq h₁₁).trans htree₁₀
  obtain ⟨configuration, hconfiguration⟩ := exists_configuration htree₁₀
  have hwrap : ∀ q, ComputationCell.addToRule o.computationCell e q =
      ComputationCell.addToRule o.computationCell d₉ q := fun q =>
    ComputationCell.addToRule_congr
      ((Concretization.isFunctionRule_eq h₁₁).trans (StrategyCell.isFunctionRule_eq h₁₀ q))
  have hsteer : ∀ q, StrategyCell.steer o.heatCoolStrategies tree e q =
      StrategyCell.steer o.heatCoolStrategies tree d₁₀ q := fun q =>
    StrategyCell.steer_congr (Concretization.isFunctionRule_eq h₁₁)
  -- The rule itself.
  have hr₃ := mem_rules_of_mapRulesAndContexts h₃ (Strict.mem_rules h₂ (Stream.mem_rules h₁ hr))
  obtain ⟨conditioned, hconditioned, hr₅⟩ :=
    exists_mem_rules_of_mapRules h₅ (Freezer.mem_rules h₄ hr₃)
  have hr₇ := SortPredicates.mem_rules h₇ (mem_rules_of_mapRulesAndContexts h₆ hr₅)
  obtain ⟨valued, hvalued, hr₈⟩ := FreshConstants.exists_mem_rules h₈ hr₇
  have hr₁₀ := StrategyCell.mem_rules h₁₀ htree₁₀ (ComputationCell.mem_rules h₉ hr₈)
  obtain ⟨placed, hplaced, hr₁₁⟩ := Concretization.exists_mem_rules h₁₁ htree₁₁ hr₁₀
  rw [← hwrap, ← hsteer] at hplaced
  obtain ⟨dots, hdots, hnew⟩ := Concretization.exists_dots hconfiguration hplaced
  exact ⟨⟨d₇, tree, conditioned, _, valued, _, _, placed, dots, hrun, htree₁₁, hconditioned, rfl,
    hvalued, rfl, rfl, hplaced, hr₁₁, hdots⟩, hnew⟩

/-- The passes up to the one that places cells bring variables into a rule: one for each anonymous
occurrence, and those for the counter, the strategy and unwritten content. They are distinct, and
the rule did not have any of them. -/
theorem exists_nodup_newNames (h : (Pipeline.run ((standard o).take 11) d).result = .ok e)
    (hr : r ∈ d.rules) : ∃ w : Rule.Way o d e r,
      (AnonymousVariables.newNames r).length = r.occurrences.countP (·.isAnonymous) ∧
      w.newNames.Nodup ∧ ∀ x ∈ w.newNames, x ∉ r.variableNames := by
  obtain ⟨w, hdots⟩ := exists_way_of_run h hr
  have hnew := w.brings.append hdots
  exact ⟨w, AnonymousVariables.length_newNames r, hnew.nodup, hnew.free⟩

end Pass

/-! ### A rule under a strategy -/

/-- A rule that has an anonymous variable on each side, and also writes a name that looks
generated. -/
def swapRule : Rule :=
  .ofBody (.rewrite (.app "swap" [.ofName Variable.anonymous, .ofName "_Gen0"])
    (.app "swap" [.ofName "_Gen0", .ofName Variable.anonymous]))

example : AnonymousVariables.newNames swapRule = ["_Gen1", "_Gen2"] := by cbv

/-- The rule, in a configuration with the strategy cell and one more beside the computation. -/
def swapModule : Module :=
  ⟨"M", [], [.configuration ⟨.closedCell "T" (.bag [CellTree.defaultConfiguration "k",
      .closedCell StrategyCell.cellName (.seq []), .closedCell "h" (.int 0)]), ∅⟩,
    .rule swapRule], ∅⟩

def swapDefinition : Definition :=
  ⟨"M", .insert ∅ swapModule.name swapModule, ∅, ModuleMap.named_empty.insert swapModule, by cbv⟩

/-- Options under which rules match on the strategy cell. -/
def strategyOptions : Options :=
  { Options.default with heatCoolStrategies := true }

/-- The rule gets variables for its anonymous ones, for the strategy, and for the rest of the cells
and of the configuration. -/
theorem Pass.exists_nodup_newNames_swapRule : ∃ e,
    (Pipeline.run ((standard strategyOptions).take 11) swapDefinition).result = .ok e ∧
    swapRule ∈ swapDefinition.rules ∧ ∃ w : Rule.Way strategyOptions swapDefinition e swapRule,
      (AnonymousVariables.newNames swapRule).length = swapRule.occurrences.countP (·.isAnonymous) ∧
      w.newNames.Nodup ∧ ∀ x ∈ w.newNames, x ∉ swapRule.variableNames := by
  have hrun : ((Pipeline.run ((standard strategyOptions).take 11)
      swapDefinition).result.toOption.map fun e => e.rules.length) = some 1 := by cbv
  obtain ⟨e, he, -⟩ := Option.map_eq_some_iff.1 hrun
  have he := Except.toOption_eq_some.1 he
  have hr : swapRule ∈ swapDefinition.rules := by decide
  exact ⟨e, he, hr, exists_nodup_newNames he hr⟩

end RewriteSemantics
