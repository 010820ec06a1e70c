/-
# The passes on a definition with one more rule

Every pass that succeeds on a definition with one more rule succeeds on the definition without it,
and treats everything but the rule alike: what it looks at besides the sentence at hand are the
productions, the configurations, the number of contexts and the number of rules that make up values.
What happens to the rule is a matter of the rule and the productions alone.
-/
import RewriteSemantics.Proofs.Definition.AddedRule
import RewriteSemantics.Proofs.Pass.Growth
import RewriteSemantics.Proofs.Rule.Variables

namespace RewriteSemantics

open Definition

variable {r : Rule} {d d' e' : Definition}

/-! ## Streams -/

theorem Stream.cellCount_eq (h : AddsRule r d d') : cellCount d' = cellCount d := by
  rw [cellCount, cellCount, h.configurations_eq (Rewriting.addsRule_keeps rfl)]

theorem Stream.missingProductions_eq (h : AddsRule r d d') :
    missingProductions d' = missingProductions d := by
  rw [missingProductions, missingProductions, h.main,
    h.visibleProductions_eq (Rewriting.addsRule_keeps rfl)]

theorem Stream.isInert_productions : ∀ p ∈ productions, (Sentence.production p).IsInert := by
  unfold Sentence.IsInert
  decide

theorem Stream.resolve_addsRule (h : AddsRule r d d') (he' : resolve d' = .ok e') :
    ∃ e, resolve d = .ok e ∧ AddsRule r e e' := by
  obtain ⟨f', hf', he'⟩ := Except.bind_eq_ok.1 he'
  obtain ⟨f, hf, hadds⟩ := h.mapSentences (q := r) rfl (by
    intro s hs image himage t ht
    cases s with
    | configuration c =>
      obtain ⟨body, -, himage⟩ := Except.bind_eq_ok.1 himage
      cases himage
      rw [List.mem_singleton.1 ht]
      trivial
    | production p =>
      cases himage
      rw [List.mem_singleton.1 ht]
      exact hs
    | _ => exact hs.elim) hf'
  rw [cellCount_eq h] at he'
  split at he'
  · rename_i hzero
    cases he'
    exact ⟨f, Except.bind_eq_ok.2 ⟨f, hf, if_pos hzero⟩, hadds⟩
  · rename_i hzero
    rw [missingProductions_eq hadds] at he'
    obtain ⟨e, he, hadds⟩ := hadds.appendToMain (by
      intro s hs
      obtain ⟨p, hp, rfl⟩ := List.mem_map.1 hs
      exact isInert_productions p (List.mem_filter.1 hp).1) he'
    refine ⟨e, Except.bind_eq_ok.2 ⟨f, hf, ?_⟩, hadds⟩
    rw [if_neg hzero]
    exact he

/-! ## Sentence by sentence -/

theorem Strict.resolve_addsRule (h : AddsRule r d d')
    (he' : d'.mapSentences resolveSentence = .ok e') :
    ∃ e, d.mapSentences resolveSentence = .ok e ∧ AddsRule r e e' := by
  refine h.mapSentences_of_kept rfl ?_ he'
  intro s hs
  cases s with
  | configuration c => rfl
  | production p =>
    have hkey : key? p.attributes = none := hs
    rw [resolveSentence, ofProduction, hkey]
    rfl
  | _ => exact hs.elim

/-- A pass that changes rules and contexts only. -/
theorem mapRulesAndContexts_addsRule {onRule : Rule → Rule} {onContext : Context → Context}
    (h : AddsRule r d d') (he' : d'.mapRulesAndContexts onRule onContext = .ok e') :
    ∃ e, d.mapRulesAndContexts onRule onContext = .ok e ∧ AddsRule (onRule r) e e' := by
  refine h.mapSentences_of_kept rfl ?_ he'
  intro s hs
  cases s with
  | configuration c => rfl
  | production p => rfl
  | _ => exact hs.elim

/-- A pass that changes rules only. -/
theorem mapRules_addsRule {f : Rule → Except PassError Rule} {r₁ : Rule} (h : AddsRule r d d')
    (hr : f r = .ok r₁) (he' : d'.mapRules f = .ok e') :
    ∃ e, d.mapRules f = .ok e ∧ AddsRule r₁ e e' := by
  refine h.mapSentences_of_kept ?_ ?_ he'
  · show (do .ok [Sentence.rule (← f r)]) = _
    rw [hr]
    rfl
  · intro s hs
    cases s with
    | configuration c => rfl
    | production p => rfl
    | _ => exact hs.elim

/-- Where all rules have images, the added rule has one. -/
theorem exists_image_of_mapRules {f : Rule → Except PassError Rule} (h : AddsRule r d d')
    (he' : d'.mapRules f = .ok e') : ∃ r₁, f r = .ok r₁ := by
  have hmem : ∃ m, d'.module? d.main = some m ∧ .rule r ∈ m.sentences := by
    rcases h.modules.get? d.main with ⟨hnone, -⟩ | ⟨m, m', hm, hm', ss, hss, rfl⟩
    · have hmain := d.module?_main
      rw [module?, hnone] at hmain
      cases hmain
    · refine ⟨_, hm', ?_⟩
      rw [name_of_module? hm, Rewriting.addsRule, if_pos rfl] at hss
      exact hss.mem
  obtain ⟨m, hm, hr⟩ := hmem
  obtain ⟨image, himage⟩ := exists_image_of_mapSentences he' hm hr
  obtain ⟨r₁, hr₁, -⟩ := Except.bind_eq_ok.1 himage
  exact ⟨r₁, hr₁⟩

/-! ## Contexts -/

theorem Freezer.firstIndex_eq (h : AddsRule r d d') (name : String) :
    firstIndex d' name = firstIndex d name := by
  have hfilter : List.Forall₂ (ModuleMap.RewritesEntry (.addsRule d.main r))
      (d.modules.entries.filter fun e => (compare e.1 name).isLT)
      (d'.modules.entries.filter fun e => (compare e.1 name).isLT) := by
    refine List.rel_filter (fun x y hxy => ?_) h.modules
    show (compare x.1 name).isLT = true ↔ (compare y.1 name).isLT = true
    rw [hxy.1]
  have hcontexts := hfilter.flatMap_eq (f := fun x => x.2.contexts) (g := fun y => y.2.contexts)
    fun x y hxy => (hxy.2.filterMap_eq (Rewriting.addsRule_keeps rfl)).symm
  rw [firstIndex, firstIndex, hcontexts]

theorem Freezer.resolve_addsRule (h : AddsRule r d d') (he' : resolve d' = .ok e') :
    ∃ e, resolve d = .ok e ∧ AddsRule r e e' := by
  have hT' := resolve_eq_ok.1 he'
  simp only [firstIndex_eq h] at hT'
  obtain ⟨e, hT, he⟩ := h.square (q := r) hT' (by
    rintro _ _ ts' ⟨front, back, hback⟩ hts'
    obtain ⟨fronts, rest, hfront, hrest, rfl⟩ := resolveFrom_append.1 hts'
    obtain ⟨first, backs, hfirst, hbacks, rfl⟩ := resolveFrom_cons.1 hrest
    cases hfirst
    have hnoContext : ∀ s ∈ back, s.asContext? = none := by
      intro s hs
      cases s with
      | context c => exact (hback _ hs).elim
      | _ => rfl
    rw [resolveFrom_of_noContext hnoContext] at hbacks
    cases hbacks
    exact ⟨fronts ++ back, resolveFrom_append.2
      ⟨fronts, back, hfront, resolveFrom_of_noContext hnoContext, rfl⟩, .intro fronts back hback⟩)
    fun _ _ _ _ hts => hts
  exact ⟨e, resolve_eq_ok.2 hT, he⟩

/-! ## Sort predicates -/

theorem SortPredicates.importedSorts_eq (h : AddsRule r d d') {m n : Module}
    (hname : n.name = m.name) : importedSorts d' n = importedSorts d m := by
  have hsorts := congrArg (fun l => (l.filter (·.1 ≠ m.name)).flatMap (·.2.toList))
    (h.definedSorts_closure m.name)
  simp only [List.filter_map, List.flatMap_map] at hsorts
  rw [importedSorts, importedSorts, hname]
  exact congrArg OrderedSet.ofList hsorts

theorem SortPredicates.missing_eq (h : AddsRule r d d') {name : String} {ss ss' : List Sentence}
    (hss : Rewriting.addsRule d.main r name ss ss') :
    missing d' ⟨name, [], ss', ∅⟩ = missing d ⟨name, [], ss, ∅⟩ := by
  have hm : Module.Rewrites (.addsRule d.main r) ⟨name, [], ss, ∅⟩ ⟨name, [], ss', ∅⟩ :=
    ⟨ss', hss, rfl⟩
  have hdefined :
      Module.definedSorts ⟨name, [], ss', ∅⟩ = Module.definedSorts ⟨name, [], ss, ∅⟩ := by
    rw [Module.definedSorts, Module.definedSorts, hm.filterMap_eq (Rewriting.addsRule_keeps rfl)]
  have hlabels : visibleLabels d' ⟨name, [], ss', ∅⟩ = visibleLabels d ⟨name, [], ss, ∅⟩ := by
    rw [visibleLabels, visibleLabels, h.visibleProductions_eq (Rewriting.addsRule_keeps rfl)]
  rw [missing, missing, hdefined, hlabels,
    importedSorts_eq h (m := ⟨name, [], ss, ∅⟩) (n := ⟨name, [], ss', ∅⟩) rfl]

theorem SortPredicates.isInert_production (sort : SortName) :
    (Sentence.production (production sort)).IsInert := by
  show Strict.key? (((∅ : Attributes).withMarker Attributes.function).insert Attributes.predicate
    (.text sort.name)) = none
  have hmissing : ∀ key, key ≠ Attributes.predicate → key ≠ Attributes.function →
      (((∅ : Attributes).withMarker Attributes.function).insert Attributes.predicate
        (.text sort.name)).contains key = false := by
    intro key hpredicate hfunction
    simp [OrderedMap.contains, Attributes.withMarker, hpredicate, hfunction]
  rw [Strict.key?, hmissing _ (by decide) (by decide), hmissing _ (by decide) (by decide)]
  rfl

theorem SortPredicates.generate_addsRule (h : AddsRule r d d') (he' : generate d' = .ok e') :
    ∃ e, generate d = .ok e ∧ AddsRule r e e' := by
  obtain ⟨e, hT, he⟩ := h.square (q := r) (T := fun name ss ts =>
      ts = ss ++ (missing d ⟨name, [], ss, ∅⟩).map fun sort => .production (production sort))
    (generate_eq_ok.1 he') (by
      intro ss ss' ts' hss hts'
      have hadded : Rewriting.addsRule d.main r d.main ss ss' := by
        rwa [Rewriting.addsRule, if_pos rfl]
      rw [missing_eq h hadded] at hts'
      rw [hts']
      refine ⟨_, rfl, hss.append fun s hs => ?_⟩
      obtain ⟨sort, -, rfl⟩ := List.mem_map.1 hs
      exact isInert_production sort) (by
      intro name hname ss ts hts
      rwa [missing_eq h (Rewriting.addsRule_of_ne hname r ss)] at hts)
  exact ⟨e, generate_eq_ok.2 hT, he⟩

/-! ## Made-up values -/

namespace FreshConstants

theorem generatorFor_eq (h : AddsRule r d d') (sort : SortName) :
    generatorFor d' sort = generatorFor d sort := by
  rw [generatorFor, generatorFor, h.productions_eq (Rewriting.addsRule_keeps rfl)]

theorem valuesFrom_eq (h : AddsRule r d d') (counter : Term) (offset : Nat)
    (l : List (String × SortName)) :
    valuesFrom d' counter offset l = valuesFrom d counter offset l := by
  induction l generalizing offset with
  | nil => rfl
  | cons e l ih => simp only [valuesFrom, generatorFor_eq h, ih]

theorem resolveRule_eq (h : AddsRule r d d') (s : Rule) : resolveRule d' s = resolveRule d s := by
  simp only [resolveRule, valuesFrom_eq h]

theorem ruleCount_eq (h : AddsRule r d d') (hr : (freshVariables r).isEmpty = true) :
    ruleCount d' = ruleCount d := by
  have hcount : ∀ d : Definition, ruleCount d = (d.modules.values.flatMap (·.sentences.filterMap
      fun s => s.asRule?.filter fun s => !(freshVariables s).isEmpty)).length := by
    intro d
    rw [ruleCount, rules, List.countP_eq_length_filter, List.filter_flatMap]
    simp only [Module.rules, List.filter_filterMap]
  have hskip : Option.filter (fun s => !(freshVariables s).isEmpty) (Sentence.rule r).asRule? =
      none := by
    simp [Sentence.asRule?, hr]
  rw [hcount, hcount, h.filterMap_values (Rewriting.addsRule_keeps hskip)]

end FreshConstants

/-! ### The counter cell -/

namespace Counter

theorem isInert_extendFirst {ss : List Sentence} (h : ∀ s ∈ ss, s.IsInert) :
    ∀ s ∈ extendFirst ss, s.IsInert := by
  induction ss with
  | nil => exact h
  | cons s ss ih =>
    intro t ht
    have hs := h s List.mem_cons_self
    have hss := fun u hu => h u (List.mem_cons_of_mem _ hu)
    cases s with
    | configuration c =>
      rcases List.mem_cons.1 ht with rfl | ht
      · trivial
      · exact hss t ht
    | production p =>
      rcases List.mem_cons.1 ht with rfl | ht
      · exact hs
      · exact ih hss t ht
    | _ => exact hs.elim

theorem extendFirst_inserted {ss ss' : List Sentence} (h : InsertedRule r ss ss') :
    InsertedRule r (extendFirst ss) (extendFirst ss') := by
  obtain ⟨front, back, hback⟩ := h
  rw [extendFirst_append, extendFirst_append]
  split
  · exact .intro (extendFirst front) back hback
  · exact .intro front (extendFirst back) (isInert_extendFirst hback)

theorem declaresConfiguration_eq {main : String} {m m' : Module}
    (hm : m.Rewrites (.addsRule main r) m') :
    declaresConfiguration m = declaresConfiguration m' := by
  have hany : ∀ ss : List Sentence, ss.any (·.asConfiguration?.isSome) =
      !(ss.filterMap Sentence.asConfiguration?).isEmpty := by
    intro ss
    induction ss with
    | nil => rfl
    | cons s ss ih =>
      rw [List.any_cons, List.filterMap_cons, ih]
      cases s.asConfiguration? <;> simp
  rw [declaresConfiguration, declaresConfiguration, hany, hany,
    hm.filterMap_eq (Rewriting.addsRule_keeps rfl)]

theorem declare_addsRule {cell : String} (h : AddsRule r d d') (he' : declare cell d' = .ok e') :
    ∃ e, declare cell d = .ok e ∧ AddsRule r e e' := by
  unfold declare at he' ⊢
  rw [h.main] at he'
  rcases (h.closure d.main).find?_cases fun m m' hm => declaresConfiguration_eq hm with
    ⟨hfind, hfind'⟩ | ⟨m, m', hfind, hfind', hm⟩
  · rw [hfind'] at he'
    rw [hfind]
    exact h.appendToMain (fun s hs => by rw [List.mem_singleton.1 hs]; trivial) he'
  · rw [hfind'] at he'
    rw [hfind]
    have hname : m'.name = m.name := by
      obtain ⟨ss, -, rfl⟩ := hm
      rfl
    have hmodule := module?_of_mem_closure (List.mem_of_find?_eq_some hfind)
    have hmodule' := module?_of_mem_closure (List.mem_of_find?_eq_some hfind')
    have hT' := (withModule_eq_ok hmodule').1 (Except.mapError_eq_ok.1 he')
    rw [hname] at hT'
    obtain ⟨e, hT, he⟩ := h.square (q := r) (T := .inModule m.name extendFirst) hT' (by
      intro ss ss' ts' hss hts'
      refine ⟨_, rfl, ?_⟩
      rw [hts']
      split
      · exact extendFirst_inserted hss
      · exact hss) fun _ _ _ _ hts => hts
    exact ⟨e, Except.mapError_eq_ok.2 ((withModule_eq_ok hmodule).2 hT), he⟩

end Counter

theorem FreshConstants.resolve_addsRule {cell : String} (h : AddsRule r d d')
    (hr : (freshVariables r).isEmpty = true) (he' : resolve cell d' = .ok e') :
    ∃ e, resolve cell d = .ok e ∧ AddsRule r e e' := by
  obtain ⟨f', hf', he'⟩ := Except.bind_eq_ok.1 he'
  have hrules : FreshConstants.resolveRule d' = FreshConstants.resolveRule d :=
    funext fun s => resolveRule_eq h s
  rw [hrules] at hf'
  obtain ⟨f, hf, hadds⟩ := mapRules_addsRule h (resolveRule_of_noFresh hr) hf'
  rw [ruleCount_eq h hr] at he'
  split at he'
  · rename_i hzero
    cases he'
    exact ⟨f, Except.bind_eq_ok.2 ⟨f, hf, if_pos hzero⟩, hadds⟩
  · rename_i hsome
    obtain ⟨e, he, hadds⟩ := Counter.declare_addsRule hadds he'
    refine ⟨e, Except.bind_eq_ok.2 ⟨f, hf, ?_⟩, hadds⟩
    rw [if_neg hsome]
    exact he

/-! ## Cells -/

theorem ComputationCell.addToRule_eq (h : AddsRule r d d') (cell : String) (s : Rule) :
    addToRule cell d' s = addToRule cell d s := by
  rw [addToRule, addToRule, h.isFunctionRule_eq (Rewriting.addsRule_keeps rfl)]

theorem ComputationCell.add_addsRule {cell : String} (h : AddsRule r d d')
    (he' : add cell d' = .ok e') :
    ∃ e, add cell d = .ok e ∧ AddsRule (addToRule cell d r) e e' := by
  obtain ⟨f', hf', he'⟩ := Except.bind_eq_ok.1 he'
  simp only [addToRule_eq h] at hf'
  obtain ⟨f, hf, hadds⟩ := mapRules_addsRule (f := fun s => .ok (addToRule cell d s)) h rfl hf'
  have hneeds : needsConfiguration cell d' = needsConfiguration cell d := by
    rw [needsConfiguration, needsConfiguration, h.main,
      h.configuration?_eq (Rewriting.addsRule_keeps rfl)]
  rw [hneeds] at he'
  split at he'
  · rename_i hneeded
    obtain ⟨e, he, hadds⟩ := hadds.appendToMain
      (fun s hs => by rw [List.mem_singleton.1 hs]; trivial) he'
    refine ⟨e, Except.bind_eq_ok.2 ⟨f, hf, ?_⟩, hadds⟩
    rw [if_pos hneeded]
    exact he
  · rename_i hneeded
    cases he'
    exact ⟨f, Except.bind_eq_ok.2 ⟨f, hf, if_neg hneeded⟩, hadds⟩

theorem Concretization.resolve_addsRule (h : AddsRule r d d') (he' : resolve d' = .ok e') :
    ∃ tree r₁ e, CellTree.ofModule d d.main = .ok tree ∧ resolveRule tree d r = .ok r₁ ∧
      resolve d = .ok e ∧ AddsRule r₁ e e' := by
  obtain ⟨tree, htree, he'⟩ := Except.bind_eq_ok.1 he'
  rw [h.main, h.cellTree_eq (Rewriting.addsRule_keeps rfl), Except.mapError_eq_ok] at htree
  have hrules : resolveRule tree d' = resolveRule tree d :=
    funext fun s => resolveRule_congr (h.isFunctionRule_eq (Rewriting.addsRule_keeps rfl) s)
  rw [hrules] at he'
  obtain ⟨r₁, hr₁⟩ := exists_image_of_mapRules h he'
  obtain ⟨e, he, hadds⟩ := mapRules_addsRule h hr₁ he'
  refine ⟨tree, r₁, e, htree, hr₁, Except.bind_eq_ok.2 ⟨tree, ?_, he⟩, hadds⟩
  rw [htree]
  rfl

end RewriteSemantics
