/-
# What the passes leave behind

Each of the passes up to the one that places cells does away with something: contexts, anonymous
variables, casts, made-up values, rules outside the configuration. None of the later passes brings
it back, although they make new terms, rules and configurations. What a definition is demanded to be
grows from pass to pass, and each pass keeps the demands of those before it.
-/
import RewriteSemantics.Proofs.Concretization.Hereditary
import RewriteSemantics.Proofs.Context.Cooling
import RewriteSemantics.Proofs.Context.Labels
import RewriteSemantics.Proofs.Pass.Demands
import RewriteSemantics.Proofs.Rule.Settled

namespace RewriteSemantics

open Definition

variable {d e : Definition} {P P' : Rule → Prop} {C : Context → Prop}

/-- A label casts to no sort exactly if it does not go on behind the stem of casts. -/
theorem Label.castSort?_eq_none_iff {label : String} :
    castSort? label = none ↔ ∀ text, label ≠ castStem ++ text := by
  rw [castSort?, Option.map_eq_none_iff, Option.eq_none_iff_forall_ne_some]
  exact forall_congr' fun text => not_congr behind?_eq_some_iff

/-- No production declares a cast. -/
theorem Definition.Meets.castSort?_eq_none (h : d.Meets P C) :
    ∀ p ∈ d.productions, ∀ label ∈ p.label, Label.castSort? label = none :=
  fun _ hp => h _ (mem_productions.1 hp)

/-! ## Contexts -/

theorem Stream.meets (h : d.Meets P C) (he : resolve d = .ok e) : e.Meets P C := by
  have hproductions : ∀ p ∈ productions, ∀ label ∈ p.label, Label.castSort? label = none := by
    decide
  exact meets_iff.2 (satisfies (meets_iff.1 h) he fun _ => hproductions)

/-- Strict productions bring contexts in. -/
theorem Strict.meets (h : d.Meets P C) (he : d.mapSentences resolveSentence = .ok e) :
    e.Meets P fun _ => True :=
  meets_iff.2 (satisfies (meets_iff.1 h) (satisfies_trivial e) he (fun _ _ _ => trivial)
    fun _ _ _ _ _ _ _ _ => trivial)

/-- No context is left. -/
theorem Freezer.meets (h : d.Meets P C) (he : resolve d = .ok e)
    (hrules : ∀ c i, C c → holeCount c.body = 1 → P (heatRule c i) ∧ P (coolRule c i)) :
    e.Meets P fun _ => False := by
  refine meets_iff.2 (satisfies (meets_iff.1 h) (satisfies_trivial e) he fun _ c i hc hhole _ => ?_)
  refine ⟨fun label hlabel => ?_, hrules c i hc hhole⟩
  cases Option.mem_some_iff.1 hlabel
  exact castSort?_label

/-- The rules of a context without anonymous variables have none. -/
theorem Freezer.anonymous_notMem_rules {c : Context} {i : Nat}
    (hc : ∀ t ∈ c.terms, Variable.anonymous ∉ t.variableNames) (hhole : holeCount c.body = 1) :
    Variable.anonymous ∉ (heatRule c i).variableNames ∧
      Variable.anonymous ∉ (coolRule c i).variableNames := by
  have hbody := hc c.body List.mem_cons_self
  refine ⟨fun hx => ?_, fun hx => hbody (mem_variableNames_coolRule hhole hx)⟩
  rcases mem_variableNames_heatRule hhole hx with hx | ⟨t, ht, hx⟩
  · exact hbody hx
  · exact hc t (List.mem_cons_of_mem _ (Option.mem_toList.2 ht)) hx

theorem Definition.contexts_eq_nil (h : d.Meets P fun _ => False) : d.contexts = [] := by
  refine List.filterMap_eq_nil_iff.2 fun s hs => ?_
  have hmeets := h s hs
  cases s with
  | context c => exact hmeets.elim
  | _ => rfl

/-! ## Rules -/

theorem SortPredicates.meets (h : d.Meets P C) (he : generate d = .ok e) : e.Meets P C := by
  refine meets_iff.2 (satisfies (meets_iff.1 h) he fun _ sort label hlabel => ?_)
  cases Option.mem_some_iff.1 hlabel
  exact SemanticCasts.castSort?_predicateLabel sort

theorem FreshConstants.meets {cell : String} (h : d.Meets Rule.Clean C)
    (he : resolve cell d = .ok e) : e.Meets Rule.Settled C :=
  meets_iff.2 (satisfies (meets_iff.1 h) he fun _ _ _ hr hr' =>
    settled_resolveRule h.castSort?_eq_none hr hr')

/-! ## Cells -/

theorem ComputationCell.meets {cell : String} (h : d.Meets Rule.Settled C)
    (he : add cell d = .ok e) : e.Meets Rule.Settled C := by
  refine meets_iff.2 (satisfies (meets_iff.1 h) he fun _ r hr => ?_)
  unfold addToRule
  split
  · exact hr
  · exact ⟨wrap_of_hereditary Term.hereditary_settled hr.body, hr.requires, hr.ensures⟩

theorem StrategyCell.meets {enabled : Bool} (h : d.Meets Rule.Settled C)
    (he : add enabled d = .ok e) : e.Meets Rule.Settled C := by
  refine meets_iff.2 (satisfies (meets_iff.1 h) he fun _ _ _ _ _ r hr => ?_)
  unfold addToRule
  split
  · exact hr
  · refine ⟨Term.hereditary_settled.beside.2 ⟨hr.body, ?_⟩, hr.requires, hr.ensures⟩
    exact (Term.hereditary_settled.cell _ _).2 (content_of_hereditary Term.hereditary_settled
      (Term.settled_constant _) (Term.settled_constant _) r)

/-- A rule is placed into a configuration: it belongs to a function, or its body is the outermost
cell. -/
def Rule.IsPlaced (d : Definition) (tree : CellTree) (r : Rule) : Prop :=
  d.isFunctionRule r = true ∨ ∃ tag content, r.body = .cell tag content ∧ tag.name = tree.top

/-- Rules stay settled when their cells are placed into the configuration that the main module
sees. -/
theorem Concretization.meets (h : d.Meets Rule.Settled C) (he : resolve d = .ok e) :
    ∃ tree, CellTree.ofModule e e.main = .ok tree ∧
      e.Meets (fun r => r.Settled ∧ r.IsPlaced e tree) C := by
  have hfunction : ∀ r, e.isFunctionRule r = d.isFunctionRule r := fun r => isFunctionRule_eq he
  obtain ⟨tree, htree, -⟩ := Except.bind_eq_ok.1 he
  have htree := Except.mapError_eq_ok.1 htree
  obtain ⟨configuration, hconfiguration⟩ := exists_configuration htree
  refine ⟨tree, (cellTree_of_resolve he).trans htree,
    meets_iff.2 (satisfies (meets_iff.1 h) he fun tree' htree' _ r r' hr hr' => ?_)⟩
  cases htree.symm.trans htree'
  constructor
  · rcases exists_body_of_resolveRule hconfiguration hr' with ⟨-, rfl⟩ | ⟨l, f, -, hf, rfl⟩
    · exact hr
    · have hstock := fragmentsOf_of_hereditary Term.hereditary_settled hr.body hf
      exact ⟨place_of_hereditary Term.hereditary_settled hstock l f.names, hr.requires, hr.ensures⟩
  · rw [Rule.IsPlaced, hfunction]
    exact exists_topCell hconfiguration hr'

/-! ## The run -/

/-- What is left of a rule: no anonymous variable, no cast over one argument, and no marked variable
on the right-hand side or in the promise; and it is placed into the configuration. -/
structure Rule.Finished (d : Definition) (tree : CellTree) (r : Rule) : Prop where
  named : ∀ t ∈ r.terms, Variable.anonymous ∉ t.variableNames
  uncast : ∀ t ∈ r.terms, ∀ text u, Term.app (Label.castStem ++ text) [u] ∉ t.subterms
  unmarked : ∀ t ∈ r.body.rhs :: r.ensures.toList, ∀ x ∈ t.variableNames,
    Variable.isFreshName x = false
  placed : r.IsPlaced d tree

theorem Rule.Settled.finished {tree : CellTree} {r : Rule} (h : r.Settled)
    (hplaced : r.IsPlaced d tree) : r.Finished d tree := by
  have hclean : ∀ t ∈ r.terms, t.Clean :=
    Rule.forall_mem_terms.2 ⟨h.body.1, h.requires, fun t ht => (h.ensures t ht).1⟩
  refine ⟨fun t ht => (hclean t ht).1, fun t ht text u hu => ?_, fun t ht => ?_, hplaced⟩
  · exact Label.castSort?_eq_none_iff.1 ((hclean t ht).2 _ u hu) text rfl
  · rcases List.mem_cons.1 ht with rfl | ht
    · exact h.body.2
    · exact (h.ensures t (Option.mem_toList.1 ht)).2

/-- If no production declares a cast, the passes up to the one that places cells leave no context
behind, and finished rules. -/
theorem Pass.finished_of_run {o : Options}
    (hlabels : ∀ label ∈ d.labels, ∀ text, label ≠ Label.castStem ++ text)
    (h : (Pipeline.run ((standard o).take 11) d).result = .ok e) :
    e.contexts = [] ∧ ∃ tree, CellTree.ofModule e e.main = .ok tree ∧
      ∀ r ∈ e.rules, r.Finished e tree := by
  have hstart : d.Meets (fun _ => True) fun _ => True := by
    intro s hs
    cases s with
    | production p =>
      intro label hlabel
      refine Label.castSort?_eq_none_iff.2 (hlabels label ?_)
      exact mem_labels.2 ⟨p, mem_productions.2 hs, hlabel⟩
    | _ => trivial
  simp only [standard, List.take, Pipeline.run_cons, Pipeline.run_nil] at h
  obtain ⟨d₁, h₁, d₂, h₂, d₃, h₃, d₄, h₄, d₅, h₅, d₆, h₆, d₇, h₇, d₈, h₈, d₉, h₉, d₁₀, h₁₀, d₁₁,
    h₁₁, rfl⟩ := h
  have hmeets₂ := Strict.meets (Stream.meets hstart h₁) h₂
  have hmeets₃ : d₃.Meets (Variable.anonymous ∉ ·.variableNames)
      fun c => ∀ t ∈ c.terms, Variable.anonymous ∉ t.variableNames :=
    hmeets₂.mapRulesAndContexts h₃
      (fun r _ => AnonymousVariables.anonymous_notMem_resolveRule r)
      fun c _ => AnonymousVariables.anonymous_notMem_resolveContext c
  have hmeets₄ := Freezer.meets hmeets₃ h₄ fun _ _ => Freezer.anonymous_notMem_rules
  have hmeets₅ : d₅.Meets (Variable.anonymous ∉ ·.variableNames) fun _ => False :=
    hmeets₄.mapRules h₅ fun r r' hr hr' hx =>
      hr (HeatCool.mem_variableNames_of_resolveRule hr' hx)
  have hmeets₆ : d₆.Meets Rule.Clean fun _ => False :=
    hmeets₅.mapRulesAndContexts h₆ (fun r hr => SemanticCasts.clean_resolveRule hr)
      fun c hc => hc.elim
  have hmeets₇ := SortPredicates.meets hmeets₆ h₇
  have hmeets₈ := FreshConstants.meets hmeets₇ h₈
  have hmeets₁₀ := StrategyCell.meets (ComputationCell.meets hmeets₈ h₉) h₁₀
  obtain ⟨tree, htree, hmeets₁₁⟩ := Concretization.meets hmeets₁₀ h₁₁
  refine ⟨contexts_eq_nil hmeets₁₁, tree, htree, fun r hr => ?_⟩
  obtain ⟨hsettled, hplaced⟩ := hmeets₁₁ _ (mem_rules.1 hr)
  exact hsettled.finished hplaced

/-! ### The second component of a pair -/

/-- A rule that writes an anonymous variable and a cast. -/
def secondRule : Rule :=
  .ofBody (.rewrite (.app "pair" [.ofName Variable.anonymous, .app (Label.cast .int) [.ofName "X"]])
    (.ofName "X"))

/-- Pairs that are strict in their first component, and the rule. -/
def pairModule : Module :=
  ⟨"M", [], [.production ⟨.kitem, some "pair", [.int, .int],
      (∅ : Attributes).insert Attributes.strict (.positions [1])⟩, .rule secondRule], ∅⟩

def pairDefinition : Definition :=
  ⟨"M", .insert ∅ pairModule.name pairModule, ∅, ModuleMap.named_empty.insert pairModule, by cbv⟩

/-- The rule and the two rules of the strict component are finished. -/
theorem Pass.finished_of_pairDefinition : ∃ e,
    (Pipeline.run ((standard .default).take 11) pairDefinition).result = .ok e ∧
      e.rules.length = 3 ∧ e.contexts = [] ∧
      ∃ tree, CellTree.ofModule e e.main = .ok tree ∧ ∀ r ∈ e.rules, r.Finished e tree := by
  have hrun : ((Pipeline.run ((standard .default).take 11) pairDefinition).result.toOption.map
      fun e => e.rules.length) = some 3 := by cbv
  have hlabels : ∀ label ∈ pairDefinition.labels, Label.castSort? label = none := by decide
  obtain ⟨e, he, hlength⟩ := Option.map_eq_some_iff.1 hrun
  have he := Except.toOption_eq_some.1 he
  exact ⟨e, he, hlength,
    finished_of_run (fun label hlabel => Label.castSort?_eq_none_iff.1 (hlabels label hlabel)) he⟩

end RewriteSemantics
