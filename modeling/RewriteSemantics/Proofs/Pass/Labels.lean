/-
# The labels that passes bring in

A label that a rule applies after the passes was written in the definition, or the main module sees
it declared, or a pass has brought it in without a declaration. Freezers and membership predicates
get productions, and the functions of generated conditions are built in. But the markers of
strategies are declared nowhere, membership predicates are declared where their sorts are defined
and that may be nowhere, and generators are found in any module.
-/
import RewriteSemantics.Proofs.Module.SortPredicates
import RewriteSemantics.Proofs.Pass.Demands
import RewriteSemantics.Proofs.Rule.Labels
import RewriteSemantics.Symbol.Table

namespace RewriteSemantics

open Definition

/-! ## Labels that are accounted for -/

/-- The terms of a sentence. -/
def Sentence.terms : Sentence → List Term
  | .rule r => r.terms
  | .context c => c.terms
  | .configuration c => [c.body]
  | _ => []

/-- A label is applied somewhere in a definition. -/
def Definition.Applies (d : Definition) (label : String) : Prop :=
  ∃ s ∈ d.allSentences, ∃ t ∈ s.terms, t.Applies label

instance (d : Definition) (label : String) : Decidable (d.Applies label) :=
  inferInstanceAs (Decidable (∃ s ∈ d.allSentences, ∃ t ∈ s.terms, t.Applies label))

/-- A label that was written in a definition, or that the main module sees declared after passes. -/
def Pass.Known (d e : Definition) (label : String) : Prop :=
  d.Applies label ∨ label ∈ SymbolTable.declaredLabels e e.main

/-- A label is of a kind if it stands in a module that the main module reaches. -/
def Definition.IfSeen (d : Definition) (Q : String → Prop) (name label : String) : Prop :=
  d.modules.Reaches d.main name → Q label

/-- A label that passes apply although the main module of a definition with given cells need not see
it declared. Casts to the sorts of membership predicates are among given labels. -/
inductive Pass.Undeclared (o : Options) (d : Definition) (cells : CellTree) (K : String → Prop) :
    String → Prop
  /-- The marker that heating rules wait for. -/
  | heat (henabled : o.heatCoolStrategies = true)
      (hcell : cells.contains StrategyCell.cellName = true) :
      Undeclared o d cells K StrategyCell.heatMarker
  /-- The marker that cooling rules wait for. -/
  | cool (henabled : o.heatCoolStrategies = true)
      (hcell : cells.contains StrategyCell.cellName = true) :
      Undeclared o d cells K StrategyCell.coolMarker
  /-- The membership predicate of a sort that serves to read programs, or is not defined where the
  main module sees it. -/
  | predicate (sort : SortName) (hskip : o.skipSortPredicates = false)
      (hneeds : SemanticCasts.needsPredicate sort = true) (hcast : K (Label.cast sort))
      (hsort : sort.isParserSort = true ∨ ∀ m ∈ d.closure d.main, sort ∉ m.definedSorts) :
      Undeclared o d cells K sort.predicateLabel
  /-- The label of a generator that the main module does not see. -/
  | generator (p : Production) (hp : p ∈ d.productions)
      (hmarked : p.attributes.contains Attributes.freshGenerator = true)
      (hunseen : p ∉ d.visibleProductions d.main) {label : String} (hlabel : p.label = some label) :
      Undeclared o d cells K label

theorem Pass.Undeclared.mono {o : Options} {d : Definition} {cells : CellTree}
    {K K' : String → Prop} {label : String} (h : Undeclared o d cells K label)
    (hK : ∀ label, K label → K' label) : Undeclared o d cells K' label := by
  cases h with
  | heat henabled hcell => exact .heat henabled hcell
  | cool henabled hcell => exact .cool henabled hcell
  | predicate sort hskip hneeds hcast hsort =>
    exact .predicate sort hskip hneeds (hK _ hcast) hsort
  | generator p hp hmarked hunseen hlabel => exact .generator p hp hmarked hunseen hlabel

/-! ## Demands on labels -/

/-- The labels that rules apply are of a kind, every production that is marked as a generator is one
of given ones, and contexts have a given property. -/
def Demand.labels (Q : String → Prop) (G : Production → Prop) (C : Context → Prop) : Demand where
  production p := p.attributes.contains Attributes.freshGenerator = true → G p
  rule := Rule.AppliesOnly Q
  context := C

/-- The labels that productions declare are of a kind. -/
def Demand.declares (Q : String → Prop) : Demand where
  production p := ∀ label ∈ p.label, Q label
  rule _ := True
  context _ := True

/-- The functions that generated conditions and counters apply are of a kind. -/
structure BuiltinLabels (Q : String → Prop) : Prop where
  result : Q resultPredicate
  not : Q HeatCool.notLabel
  and : Q "_andBool_"
  plus : Q FreshConstants.plusLabel

variable {o : Options} {d d' e : Definition} {cells : CellTree}

/-! ## What the main module sees -/

theorem SymbolTable.mem_declaredLabels_iff {name label : String} :
    label ∈ declaredLabels d name ↔ ∃ p ∈ d.visibleProductions name, p.label = some label :=
  OrderedSet.mem_ofList.trans List.mem_filterMap

/-- What is seen to be declared before some passes is declared after them. -/
theorem Pass.known_of_mem (h : d'.GrowsTo e) {p : Production}
    (hp : p ∈ d'.visibleProductions d'.main) {label : String} (hlabel : p.label = some label) :
    Known d e label := by
  refine .inr (SymbolTable.mem_declaredLabels_iff.2 ⟨p, ?_, hlabel⟩)
  rw [h.main]
  exact h.visibleProductions hp

/-- The modules that the main module reaches declare what is declared in the end. -/
theorem Pass.declares_of_growsTo (h : d.GrowsTo d') (h' : d'.GrowsTo e) :
    d'.Satisfies fun n => .declares (d.IfSeen (Known d e) n) := by
  intro m hm s hs
  cases s with
  | production p =>
    intro label hlabel hreach
    rw [← h.modules.reaches, ← h.main] at hreach
    refine known_of_mem h' (mem_visibleProductions.2 (List.mem_flatMap.2 ⟨m, ?_, hs⟩)) hlabel
    exact mem_closure_iff.2 ⟨hreach, module?_of_mem_values hm⟩
  | _ => trivial

/-- The labels of a definition as it is written. -/
theorem Pass.labels_written (d e : Definition) : d.Satisfies fun n =>
    .labels (d.IfSeen (Known d e) n) (· ∈ d.productions)
      (Context.AppliesOnly (d.IfSeen (Known d e) n)) := by
  intro m hm s hs
  have hwritten : ∀ t ∈ s.terms, t.AppliesOnly (d.IfSeen (Known d e) m.name) :=
    fun t ht label hlabel _ => .inl ⟨s, mem_allSentences.2 ⟨m, hm, hs⟩, t, ht, hlabel⟩
  cases s with
  | production p => exact fun _ => mem_productions.2 (mem_allSentences.2 ⟨m, hm, hs⟩)
  | rule r => exact hwritten
  | context c => exact hwritten
  | _ => trivial

/-! ## Up to heating and cooling -/

theorem Strict.label_of_ofProduction {p : Production} {label : String} {strictness : Strictness}
    (h : ofProduction p = .ok (some (label, strictness))) : p.label = some label := by
  unfold ofProduction at h
  split at h
  · cases h
  · split at h
    · cases h
    · rename_i found hfound
      obtain ⟨listed, -, h⟩ := Except.bind_eq_ok.1 h
      dsimp only at h
      split at h
      · cases h
      · cases h
        exact hfound

section

variable {Q : String → String → Prop} {G : Production → Prop}
  {C : String → Context → Prop}

/-- The productions of streams are no generators. -/
theorem Stream.labels (h : d.Satisfies fun n => .labels (Q n) G (C n)) (he : resolve d = .ok e) :
    e.Satisfies fun n => .labels (Q n) G (C n) := by
  have hunmarked : ∀ p ∈ productions,
      p.attributes.contains Attributes.freshGenerator = false := by
    decide
  refine satisfies h he fun n p hp hmarked => ?_
  rw [hunmarked p hp] at hmarked
  cases hmarked

theorem Strict.labels (h : d.Satisfies fun n => .labels (Q n) G (Context.AppliesOnly (Q n)))
    (he : d.mapSentences resolveSentence = .ok e) (hbuiltin : ∀ n, BuiltinLabels (Q n))
    (hdeclares : e.Satisfies fun n => .declares (Q n)) :
    e.Satisfies fun n => .labels (Q n) G (Context.AppliesOnly (Q n)) := by
  refine satisfies h hdeclares he (fun _ _ hc => hc) fun n p label strictness hp hstrict => ?_
  exact appliesOnly_contextsFrom (hbuiltin n).result (hbuiltin n).and
    (hp label (label_of_ofProduction hstrict)) _ _ _ _

/-- The production of a freezer is no generator. -/
theorem Freezer.labels (h : d.Satisfies fun n => .labels (Q n) G (Context.AppliesOnly (Q n)))
    (he : resolve d = .ok e) (hdeclares : e.Satisfies fun n => .declares (Q n)) :
    e.Satisfies fun n => .labels (Q n) G fun _ => False := by
  refine satisfies h hdeclares he fun n c i hc _ hp => ?_
  exact ⟨fun hmarked => (nomatch hmarked), appliesOnly_heatRule (hp _ rfl) hc,
    appliesOnly_coolRule (hp _ rfl) hc⟩

/-- The production of a membership predicate is no generator. -/
theorem SortPredicates.labels (h : d.Satisfies fun n => .labels (Q n) G (C n))
    (he : generate d = .ok e) : e.Satisfies fun n => .labels (Q n) G (C n) := by
  refine satisfies h he fun n sort hmarked => ?_
  have hunmarked : (production sort).attributes.contains Attributes.freshGenerator = false := by
    cbv
  rw [hunmarked] at hmarked
  cases hmarked

end

/-- Up to heating and cooling, all labels are known. -/
theorem Pass.labels_of_heated (hbuiltin : BuiltinLabels (Known d e))
    (hrun : (Pipeline.run ((standard o).take 5) d).result = .ok d') (hgrows : d'.GrowsTo e) :
    d'.Satisfies fun n =>
      .labels (d.IfSeen (Known d e) n) (· ∈ d.productions) fun _ => False := by
  simp only [standard, List.take, Pipeline.run_cons, Pipeline.run_nil] at hrun
  obtain ⟨d₁, h₁, d₂, h₂, d₃, h₃, d₄, h₄, d₅, h₅, rfl⟩ := hrun
  have hgrows₅ : d₄.GrowsTo e := (growsTo_of_mapRules h₅).trans hgrows
  have hgrows₃ : d₂.GrowsTo e :=
    (growsTo_of_mapRulesAndContexts h₃).trans ((Freezer.growsTo h₄).trans hgrows₅)
  have hgrows₂ : d.GrowsTo d₂ := (Stream.growsTo h₁).trans (Strict.growsTo h₂)
  have hgrows₄ : d.GrowsTo d₄ :=
    hgrows₂.trans ((growsTo_of_mapRulesAndContexts h₃).trans (Freezer.growsTo h₄))
  have hbuiltin : ∀ n, BuiltinLabels (d.IfSeen (Known d e) n) := fun n =>
    ⟨fun _ => hbuiltin.result, fun _ => hbuiltin.not, fun _ => hbuiltin.and, fun _ => hbuiltin.plus⟩
  have hlabels₁ := Stream.labels (labels_written d e) h₁
  have hlabels₂ := Strict.labels hlabels₁ h₂ hbuiltin (declares_of_growsTo hgrows₂ hgrows₃)
  have hlabels₃ : d₃.Satisfies fun n => .labels (d.IfSeen (Known d e) n) (· ∈ d.productions)
      (Context.AppliesOnly (d.IfSeen (Known d e) n)) :=
    hlabels₂.mapRulesAndContexts h₃ (fun _ _ => AnonymousVariables.appliesOnly_resolveRule)
      fun _ _ => AnonymousVariables.appliesOnly_resolveContext
  have hlabels₄ := Freezer.labels hlabels₃ h₄ (declares_of_growsTo hgrows₄ hgrows₅)
  exact hlabels₄.mapRules h₅ fun n _ _ =>
    HeatCool.appliesOnly_resolveRule (hbuiltin n).result (hbuiltin n).not (hbuiltin n).and

/-! ## Casts, made-up values and cells -/

/-- The predicate of a sort that the main module sees defined is declared where it is seen. -/
theorem Pass.known_predicateLabel {d₆ d₇ : Definition} (h : d.GrowsTo d₆)
    (h₇ : SortPredicates.generate d₆ = .ok d₇) (h' : d₇.GrowsTo e) {sort : SortName}
    (hparser : sort.isParserSort = false) {m : Module} (hm : m ∈ d.closure d.main)
    (hsort : sort ∈ m.definedSorts) : Known d e sort.predicateLabel := by
  obtain ⟨m₆, hm₆, hsort₆⟩ := h.exists_definedSorts hm hsort
  obtain ⟨p, hp, hlabel⟩ := SortPredicates.exists_predicate h₇ hparser hm₆ hsort₆
  have hmain : d₇.main = d.main := (SortPredicates.growsTo h₇).main.trans h.main
  exact known_of_mem h' (hmain ▸ hp) hlabel

/-- A label is known, or brought in undeclared by passes. -/
def Pass.Expected (o : Options) (d e : Definition) (cells : CellTree) (label : String) : Prop :=
  Known d e label ∨ Undeclared o d cells (Known d e) label

/-- A label of a generator is known, or the generator is not seen. -/
theorem Pass.expected_of_generator (h : d.GrowsTo e) {p : Production} (hp : p ∈ d.productions)
    (hmarked : p.attributes.contains Attributes.freshGenerator = true) {label : String}
    (hlabel : p.label = some label) : Expected o d e cells label := by
  by_cases hseen : p ∈ d.visibleProductions d.main
  · exact .inl (known_of_mem h hseen hlabel)
  · exact .inr (.generator p hp hmarked hseen hlabel)

/-- A cast to a sort brings in a label that is known, or the sort is not seen defined. -/
theorem Pass.expected_predicateLabel {d₆ d₇ : Definition} (h : d.GrowsTo d₆)
    (h₇ : SortPredicates.generate d₆ = .ok d₇) (h' : d₇.GrowsTo e) {sort : SortName}
    (hskip : o.skipSortPredicates = false) (hneeds : SemanticCasts.needsPredicate sort = true)
    (hcast : Known d e (Label.cast sort)) : Expected o d e cells sort.predicateLabel := by
  cases hparser : sort.isParserSort with
  | true => exact .inr (.predicate sort hskip hneeds hcast (.inl hparser))
  | false =>
    by_cases hsort : ∃ m ∈ d.closure d.main, sort ∈ m.definedSorts
    · obtain ⟨m, hm, hsort⟩ := hsort
      exact .inl (known_predicateLabel h h₇ h' hparser hm hsort)
    · exact .inr (.predicate sort hskip hneeds hcast (.inr fun m hm hmem => hsort ⟨m, hm, hmem⟩))

/-- In the modules that the main module sees, the rules that the passes leave behind apply labels
that were written, that are declared where it sees them, or that are brought in undeclared. -/
theorem Pass.appliesOnly_of_run (hbuiltin : BuiltinLabels (Known d e))
    (hrun : (Pipeline.run ((standard o).dropLast) d).result = .ok e)
    (hcells : CellTree.ofModule e e.main = .ok cells) :
    ∀ m ∈ e.closure e.main, ∀ r ∈ m.rules, r.AppliesOnly (Expected o d e cells) := by
  have hgrows := Pipeline.growsTo_of_run (fun _ hp => hp) hrun
  have hsplit : (standard o).dropLast = (standard o).take 5 ++ ((standard o).drop 5).take 6 := rfl
  rw [hsplit] at hrun
  obtain ⟨d₅, hheated, hrun⟩ := Pipeline.run_append.1 hrun
  have hgrows₅ : d.GrowsTo d₅ := Pipeline.growsTo_of_run
    (fun p hp => hsplit ▸ List.mem_append_left _ hp) hheated
  have hgrows₅' : d₅.GrowsTo e := Pipeline.growsTo_of_run
    (fun p hp => hsplit ▸ List.mem_append_right _ hp) hrun
  have hlabels₅ := labels_of_heated hbuiltin hheated hgrows₅'
  simp only [standard, List.drop, List.take, Pipeline.run_cons, Pipeline.run_nil] at hrun
  obtain ⟨d₆, h₆, d₇, h₇, d₈, h₈, d₉, h₉, d₁₀, h₁₀, d₁₁, h₁₁, rfl⟩ := hrun
  have hgrows₆ : d.GrowsTo d₆ := hgrows₅.trans (growsTo_of_mapRulesAndContexts h₆)
  have hgrows₇ : d₇.GrowsTo e := (FreshConstants.growsTo h₈).trans
    ((ComputationCell.growsTo h₉).trans ((StrategyCell.growsTo h₁₀).trans
      (Concretization.growsTo h₁₁)))
  have hlabels₆ : d₆.Satisfies fun n =>
      .labels (d.IfSeen (Expected o d e cells) n) (· ∈ d.productions) fun _ => False :=
    hlabels₅.mapRulesAndContexts h₆
      (fun n r hr => SemanticCasts.appliesOnly_resolveRule (fun _ => .inl hbuiltin.and)
        (fun label hlabel hn => .inl (hlabel hn))
        (fun hskip sort hneeds hcast hn =>
          expected_predicateLabel hgrows₆ h₇ hgrows₇ hskip hneeds (hcast hn)) hr)
      fun _ _ hc => hc
  have hlabels₇ := SortPredicates.labels hlabels₆ h₇
  have hlabels₈ := FreshConstants.satisfies hlabels₇ h₈ fun n r r' hr hr' => by
    refine FreshConstants.appliesOnly_resolveRule (fun _ => .inl hbuiltin.plus)
      (fun p hp hmarked label hlabel hn => ?_) hr hr'
    obtain ⟨m, hm, hp⟩ := mem_allSentences.1 (mem_productions.1 hp)
    exact expected_of_generator hgrows (hlabels₇ m hm _ hp hmarked) hmarked hlabel
  have hlabels₉ := ComputationCell.satisfies hlabels₈ h₉ fun n r =>
    ComputationCell.appliesOnly_addToRule
  have hlabels₁₀ := StrategyCell.satisfies hlabels₉ h₁₀ fun tree henabled htree hcell n r => by
    -- The passes behind the strategy cell keep the configuration.
    have hsame := (Concretization.cellTree_of_resolve h₁₁).trans (StrategyCell.cellTree_of_add h₁₀)
    cases (hsame.trans htree).symm.trans hcells
    exact StrategyCell.appliesOnly_addToRule (fun _ => .inr (.heat henabled hcell))
      fun _ => .inr (.cool henabled hcell)
  have hlabels₁₁ := Concretization.satisfies hlabels₁₀ h₁₁ fun tree htree n r r' => by
    obtain ⟨configuration, hconfiguration⟩ := exists_configuration htree
    exact Concretization.appliesOnly_resolveRule hconfiguration
  intro m hm r hr
  obtain ⟨hreach, hm⟩ := mem_closure_iff.1 hm
  rw [hgrows.modules.reaches, hgrows.main] at hreach
  have hvalues : m ∈ e.modules.values := OrderedMap.mem_values_iff.2 ⟨_, hm⟩
  exact (hlabels₁₁ m hvalues _ (Module.mem_rules.1 hr)).mono fun label hlabel => hlabel hreach

end RewriteSemantics
