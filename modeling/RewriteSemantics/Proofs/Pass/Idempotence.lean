/-
# Passes that recognise their own work

Four passes add something to a definition where it is missing: streams to cells, values and a
counter to rules that make values up, the computation cell and the strategy cell to rules. Each of
them looks for what it would add in a way of its own. In its result it finds everything in place, so
run once more it returns the definition it is given.
-/
import Mathlib
import RewriteSemantics.Pass.Standard
import RewriteSemantics.Proofs.Configuration.Streams
import RewriteSemantics.Proofs.Definition.Imports
import RewriteSemantics.Proofs.Pass.Demands
import RewriteSemantics.Proofs.Rule.FreshConstants
import RewriteSemantics.Proofs.Term.Cells

namespace RewriteSemantics

/-! ## Definitions that stay -/

namespace Definition

variable {d e : Definition}

/-- Sentences that are their own images stay. -/
theorem mapSentences_eq_self {f : Sentence → Except PassError (List Sentence)}
    (h : ∀ s ∈ d.allSentences, f s = .ok [s]) : d.mapSentences f = .ok d := by
  refine mapSentences_eq_ok.2 ⟨rfl, rfl, List.forall₂_same.2 fun x hx => ?_⟩
  have hsentences : ∀ s ∈ x.2.sentences, f s = .ok [s] :=
    fun s hs => h s (mem_allSentences.2 ⟨x.2, List.mem_map_of_mem hx, hs⟩)
  refine ⟨rfl, x.2.sentences, ?_, rfl⟩
  generalize x.2.sentences = ss at hsentences
  induction ss with
  | nil => exact .nil
  | cons s ss ih =>
    obtain ⟨hs, hss⟩ := List.forall_mem_cons.1 hsentences
    exact (ih hss).cons hs

theorem mapRules_eq_self {f : Rule → Except PassError Rule} (h : ∀ r ∈ d.rules, f r = .ok r) :
    d.mapRules f = .ok d := by
  refine mapSentences_eq_self fun s hs => ?_
  cases s with
  | rule r => exact Except.bind_eq_ok.2 ⟨r, h r (mem_rules.2 hs), rfl⟩
  | _ => rfl

theorem appendToMain_nil (d : Definition) : d.appendToMain [] = .ok d := by
  refine appendToMain_eq_ok.2 ⟨rfl, rfl, List.forall₂_same.2 fun x _ => ?_⟩
  refine ⟨rfl, x.2.sentences, ?_, rfl⟩
  rw [Rewriting.inModule, List.append_nil, ite_self]

/-- A sentence that is there after some are added was there or is one of them. -/
theorem mem_of_mem_appendToMain {extra : List Sentence} {s : Sentence}
    (h : d.appendToMain extra = .ok e) (hs : s ∈ e.allSentences) :
    s ∈ d.allSentences ∨ s ∈ extra := by
  obtain ⟨m, hm, ts, rfl, hs⟩ := (appendToMain_eq_ok.1 h).exists_of_mem hs
  split at hs
  · rcases List.mem_append.1 hs with hs | hs
    · exact .inl (mem_allSentences.2 ⟨m, hm, hs⟩)
    · exact .inr hs
  · exact .inl (mem_allSentences.2 ⟨m, hm, hs⟩)

/-- The main module sees what is added to it. -/
theorem mem_sentencesOf_appendToMain {extra : List Sentence} {s : Sentence}
    (h : d.appendToMain extra = .ok e) (hs : s ∈ extra) : s ∈ e.sentencesOf e.main := by
  have hrewrites := appendToMain_eq_ok.1 h
  obtain ⟨m, hm, hsentences⟩ := hrewrites.exists_module? d.module?_main
  rw [Rewriting.inModule, if_pos rfl] at hsentences
  rw [hrewrites.main]
  refine List.mem_flatMap.2 ⟨m, mem_closure_self hm, ?_⟩
  rw [hsentences]
  exact List.mem_append_right _ hs

/-- What is demanded of the rules of all modules is true of each rule. -/
theorem Satisfies.of_mem_rules {P : Rule → Prop} {D : Demand} {r : Rule}
    (h : d.Satisfies fun _ => ⟨D.production, P, D.context⟩) (hr : r ∈ d.rules) : P r := by
  obtain ⟨m, hm, hr⟩ := mem_allSentences.1 (mem_rules.1 hr)
  exact h m hm _ hr

end Definition

open Definition

variable {d e : Definition} {cell : String} {r r' : Rule}

/-! ## Streams -/

namespace Stream

/-- The image of a sentence is its own image. -/
theorem resolveSentence_of_mem {s t : Sentence} {image : List Sentence}
    (h : resolveSentence s = .ok image) (ht : t ∈ image) : resolveSentence t = .ok [t] := by
  cases s with
  | configuration c =>
    obtain ⟨body, hbody, himage⟩ := Except.bind_eq_ok.1 h
    cases himage
    rw [List.mem_singleton.1 ht]
    exact Except.bind_eq_ok.2 ⟨body, tryTransform_resolveCell hbody, rfl⟩
  | _ =>
    cases h
    rw [List.mem_singleton.1 ht]
    rfl

/-- Where no cell asks for a stream, every sentence is its own image. -/
theorem eq_of_cellCount_eq_zero (hcount : cellCount d = 0)
    (h : d.mapSentences resolveSentence = .ok e) : e = d := by
  have hself : d.mapSentences resolveSentence = .ok d := by
    refine mapSentences_eq_self fun s hs => ?_
    obtain ⟨image, himage, -⟩ := (images_allSentences h).mem_of_mem hs
    cases s with
    | configuration c =>
      obtain ⟨body, hbody, -⟩ := Except.bind_eq_ok.1 himage
      have hcells : ∀ v ∈ c.body.subterms, isStreamCell v = false := by
        intro v hv
        rw [cellCount, List.countP_eq_zero] at hcount
        obtain ⟨m, hm, hs⟩ := mem_allSentences.1 hs
        refine Bool.eq_false_iff.2 (hcount v (List.mem_flatMap.2 ⟨c, ?_, hv⟩))
        exact List.mem_flatMap.2 ⟨m, hm, List.mem_filterMap.2 ⟨_, hs, rfl⟩⟩
      rw [eq_of_tryTransform_resolveCell hcells hbody] at hbody
      exact Except.bind_eq_ok.2 ⟨c.body, hbody, rfl⟩
    | _ => rfl
  exact Except.ok.inj (h.symm.trans hself)

/-- Once the missing productions are added, none is missing. -/
theorem missingProductions_eq_nil
    (h : d.appendToMain ((missingProductions d).map .production) = .ok e) :
    missingProductions e = [] := by
  refine List.filter_eq_nil_iff.2 fun p hp hmissing => ?_
  rw [Bool.not_eq_true', Bool.eq_false_iff] at hmissing
  have hgrows := growsTo_of_appendToMain h
  by_cases hd : (d.visibleProductions d.main).any (·.label = p.label) = true
  · obtain ⟨q, hq, hlabel⟩ := List.any_eq_true.1 hd
    refine hmissing (List.any_eq_true.2 ⟨q, ?_, hlabel⟩)
    rw [hgrows.main]
    exact hgrows.visibleProductions hq
  · have hadded : p ∈ missingProductions d := List.mem_filter.2 ⟨hp, by simpa using hd⟩
    have hvisible := mem_sentencesOf_appendToMain h (List.mem_map_of_mem hadded)
    exact hmissing (List.any_eq_true.2 ⟨p, mem_visibleProductions.2 hvisible, decide_eq_true rfl⟩)

theorem resolve_of_resolve (h : resolve d = .ok e) : resolve e = .ok e := by
  obtain ⟨f, hf, he⟩ := Except.bind_eq_ok.1 h
  -- Productions come in only if there is a cell to serve. Without one the definition is as before.
  split at he
  · rename_i hcount
    cases he
    rwa [eq_of_cellCount_eq_zero hcount hf] at h ⊢
  · have hself : e.mapSentences resolveSentence = .ok e := by
      refine mapSentences_eq_self fun s hs => ?_
      rcases mem_of_mem_appendToMain he hs with hs | hs
      · obtain ⟨t, -, image, himage, hs⟩ := (images_allSentences hf).exists_of_mem hs
        exact resolveSentence_of_mem himage hs
      · obtain ⟨p, -, rfl⟩ := List.mem_map.1 hs
        rfl
    refine Except.bind_eq_ok.2 ⟨e, hself, ?_⟩
    rw [missingProductions_eq_nil he, List.map_nil, appendToMain_nil, ite_self]

end Stream

/-! ## Made-up values -/

namespace FreshConstants

/-- A rule that has its values makes up none. -/
theorem freshVariables_resolveRule (h : resolveRule d r = .ok r') : freshVariables r' = ∅ :=
  freshVariables_eq_empty_of_rhs (isFreshName_resolveRule h)

theorem resolve_of_resolve (h : resolve cell d = .ok e) : resolve cell e = .ok e := by
  have hempty : ∀ r ∈ e.rules, (freshVariables r).isEmpty = true := by
    have hsatisfies := FreshConstants.satisfies (satisfies_trivial d) h
      (P := fun _ r => (freshVariables r).isEmpty = true) fun _ _ _ _ hr' => by
        rw [freshVariables_resolveRule hr']
        rfl
    exact fun r => hsatisfies.of_mem_rules
  -- With no rule left to serve, no counter is put into the configuration.
  have hcount : ruleCount e = 0 := by
    refine List.countP_eq_zero.2 fun r hr => ?_
    rw [hempty r hr]
    decide
  refine Except.bind_eq_ok.2 ⟨e, mapRules_eq_self fun r hr => ?_, if_pos hcount⟩
  exact resolveRule_of_noFresh (hempty r hr)

end FreshConstants

/-! ## The computation cell -/

namespace ComputationCell

/-- A body stays as it is, or the computation cell stands around it or around its items that are no
cells. -/
theorem wrap_cases (cell : String) (body : Term) : wrap cell body = body ∨
    (∃ content, wrap cell body = .openCell cell content) ∨
    ∃ content cells, wrap cell body = .bag (.openCell cell content :: cells) := by
  unfold wrap
  split
  · split
    · dsimp only
      split
      · exact .inl rfl
      · exact .inr (.inr ⟨_, _, rfl⟩)
    · exact .inl rfl
  · exact .inr (.inl ⟨body, rfl⟩)

/-- A body that is placed into the computation cell is not placed there again. -/
theorem wrap_wrap (cell : String) (body : Term) : wrap cell (wrap cell body) = wrap cell body := by
  rcases wrap_cases cell body with h | ⟨content, h⟩ | ⟨content, cells, h⟩
  · rw [h, h]
  · rw [h]
    rfl
  · have hnamed : (Term.openCell cell content).isCellNamed cell = true := beq_self_eq_true cell
    have hcells : (Term.bag (.openCell cell content :: cells)).hasCells = true := rfl
    rw [h]
    unfold wrap
    rw [if_pos hcells]
    dsimp only
    rw [List.any_cons, hnamed]
    rfl

/-- A rule is not taken for one of a function once it is in cells. -/
theorem isFunctionRule_addToRule (d : Definition) (r : Rule) :
    d.isFunctionRule (addToRule cell d r) = d.isFunctionRule r := by
  rw [addToRule]
  split
  · rfl
  · rename_i hr
    rw [Bool.not_eq_true] at hr
    rw [hr]
    rcases wrap_cases cell r.body with h | ⟨content, h⟩ | ⟨content, cells, h⟩
    · rw [h]
      exact hr
    · rw [h]
      rfl
    · rw [h]
      rfl

theorem addToRule_addToRule (cell : String) (d : Definition) (r : Rule) :
    addToRule cell d (addToRule cell d r) = addToRule cell d r := by
  have hkept : d.isFunctionRule (addToRule cell d r) = d.isFunctionRule r :=
    isFunctionRule_addToRule d r
  by_cases hr : d.isFunctionRule r = true
  · have hself : addToRule cell d r = r := if_pos hr
    rw [hself, hself]
  · have hadd : addToRule cell d r = { r with body := wrap cell r.body } := if_neg hr
    rw [hadd] at hkept ⊢
    rw [addToRule, hkept, if_neg hr, wrap_wrap]

/-- The productions stay, and so does what is a function. -/
theorem isFunctionRule_add (h : add cell d = .ok e) (r : Rule) :
    e.isFunctionRule r = d.isFunctionRule r := by
  obtain ⟨f, hf, he⟩ := Except.bind_eq_ok.1 h
  rw [← isFunctionRule_of_mapRules hf]
  split at he
  · refine (appendToMain_eq_ok.1 he).isFunctionRule_eq ?_ r
    rintro name ss _ rfl
    split
    · rw [List.filterMap_append]
      exact List.append_nil _
    · rfl
  · cases he
    rfl

/-- Where a configuration was missing there is one. -/
theorem needsConfiguration_add (h : add cell d = .ok e) : needsConfiguration cell e = false := by
  obtain ⟨f, hf, he⟩ := Except.bind_eq_ok.1 h
  split at he
  · have hvisible := mem_sentencesOf_appendToMain he (List.mem_singleton_self _)
    have hsome : (e.configuration? e.main).isSome = true :=
      List.findSome?_isSome_iff.2 ⟨_, hvisible, rfl⟩
    rw [needsConfiguration, ← Option.not_isSome, hsome]
    rfl
  · rename_i hneeds
    cases he
    obtain ⟨R, hR, hkeeps⟩ := exists_rewriting_of_mapRules hf
    rw [needsConfiguration, hR.main, hR.configuration?_eq (hkeeps fun _ => rfl)]
    exact Bool.eq_false_iff.2 hneeds

theorem add_of_add (h : add cell d = .ok e) : add cell e = .ok e := by
  have hself : ∀ r ∈ e.rules, addToRule cell e r = r := by
    have hsatisfies := ComputationCell.satisfies (satisfies_trivial d) h
      (P := fun _ r => addToRule cell d r = r) fun _ r _ => addToRule_addToRule cell d r
    intro r hr
    rw [addToRule_congr (isFunctionRule_add h r)]
    exact hsatisfies.of_mem_rules hr
  refine Except.bind_eq_ok.2 ⟨e, mapRules_eq_self fun r hr => congrArg _ (hself r hr), ?_⟩
  rw [needsConfiguration_add h]
  rfl

end ComputationCell

/-! ## The strategy cell -/

namespace StrategyCell

/-- A rule that matches on the strategy cell is left alone. -/
theorem addToRule_addToRule (d : Definition) (r : Rule) :
    addToRule d (addToRule d r) = addToRule d r := by
  by_cases hr : (d.isFunctionRule r || r.body.mentionsCell cellName) = true
  · have hself : addToRule d r = r := if_pos hr
    rw [hself, hself]
  · have hadd : addToRule d r =
        { r with body := r.body.beside (.openCell cellName (content r)) } := if_neg hr
    have hmentions :
        (r.body.beside (.openCell cellName (content r))).mentionsCell cellName = true :=
      Term.mentionsCell_iff.2 (Term.hasCell_beside.2 (.inr (Term.hasCell_cell.2 (.inl rfl))))
    rw [hadd]
    refine if_pos ?_
    rw [hmentions, Bool.or_true]

theorem addToRule_congr {d' : Definition} (h : d'.isFunctionRule r = d.isFunctionRule r) :
    addToRule d' r = addToRule d r := by
  rw [addToRule, addToRule, h]

theorem add_of_add {enabled : Bool} (h : add enabled d = .ok e) : add enabled e = .ok e := by
  cases enabled with
  | false => rfl
  | true =>
    obtain ⟨tree, htree, he⟩ := Except.bind_eq_ok.1 h
    rw [Except.mapError_eq_ok] at htree
    split at he
    · rename_i hcell
      -- Only rules have changed, so the cells of the configuration are the same.
      have htree' : CellTree.ofModule e e.main = .ok tree := (cellTree_of_mapRules he).trans htree
      refine Except.bind_eq_ok.2 ⟨tree, Except.mapError_eq_ok.2 htree', ?_⟩
      rw [if_pos hcell]
      have hsatisfies := (satisfies_trivial d).mapRules he
        (P := fun _ r => addToRule d r = r) fun _ r r' _ hr' => by
          cases hr'
          exact addToRule_addToRule d r
      refine mapRules_eq_self fun r hr => congrArg _ ?_
      rw [addToRule_congr (isFunctionRule_of_mapRules he r)]
      exact hsatisfies.of_mem_rules hr
    · cases he
      exact h

end StrategyCell

/-! ## The four passes -/

namespace Pass

/-- The names of the passes that look for what they add. -/
def supplementing : List String :=
  ["resolve-io-streams", "resolve-fresh-constants", "add-implicit-computation-cell",
   "add-strategy-cell"]

/-- A pass that looks for what it adds returns its result when it is run on it. -/
theorem run_of_run {o : Options} {p : Pass} (hp : p ∈ standard o) (hname : p.name ∈ supplementing)
    (h : p.run d = .ok e) : p.run e = .ok e := by
  simp only [standard, List.mem_cons, List.not_mem_nil, or_false] at hp
  rcases hp with rfl | rfl | rfl | rfl | rfl | rfl | rfl | rfl | rfl | rfl | rfl | rfl
  case inl => exact Stream.resolve_of_resolve h
  case inr.inr.inr.inr.inr.inr.inr.inl => exact FreshConstants.resolve_of_resolve h
  case inr.inr.inr.inr.inr.inr.inr.inr.inl => exact ComputationCell.add_of_add h
  case inr.inr.inr.inr.inr.inr.inr.inr.inr.inl => exact StrategyCell.add_of_add h
  -- The name of each other pass is none of the four.
  all_goals exact absurd hname (by simp [supplementing, silent, resolveStrict, resolveAnonymous,
    resolveContexts, resolveHeatCool, resolveCasts, generateSortPredicates, concretizeCells,
    addSemantics])

/-! ### A definition that lacks all of it -/

/-- A configuration with an input cell and a strategy cell, and a rule that makes up an integer. -/
def bareModule : Module :=
  ⟨"M", [], [.configuration ⟨.closedCell "T" (.bag [.closedCell "k" (.ofName Variable.pgm),
      .cell ⟨"in", (∅ : Attributes).insert Attributes.stream (.text "stdin"), false, false⟩
        (.bag []),
      .closedCell "s" (.constant "#heat")]), ∅⟩,
    .production ⟨.int, some "freshInt", [.int], ((∅ : Attributes).withMarker
      Attributes.function).withMarker Attributes.freshGenerator⟩,
    .rule (.ofBody (.rewrite (.constant "a") (.ofName "!N")))], ∅⟩

def bareDefinition : Definition :=
  ⟨"M", .insert ∅ bareModule.name bareModule, ∅, ModuleMap.named_empty.insert bareModule, by cbv⟩

/-- A pass changes a definition, and does not change what it makes of it. -/
def ChangesOnce (p : Pass) (d : Definition) : Prop :=
  ∃ e, p.run d = .ok e ∧ e.allSentences ≠ d.allSentences ∧ p.run e = .ok e

/-- Each of the four passes finds something to add to the definition. -/
theorem run_of_run_bareDefinition : ChangesOnce resolveStreams bareDefinition ∧
    ChangesOnce (resolveFreshConstants CellTree.computationCell) bareDefinition ∧
    ChangesOnce (addComputationCell CellTree.computationCell) bareDefinition ∧
    ChangesOnce (addStrategyCell true) bareDefinition := by
  have honce : ∀ p ∈ standard { heatCoolStrategies := true }, p.name ∈ supplementing →
      ((p.run bareDefinition).toOption.map
        fun e => decide (e.allSentences = bareDefinition.allSentences)) = some false →
      ChangesOnce p bareDefinition := by
    intro p hp hname hrun
    obtain ⟨e, he, hchanged⟩ := Option.map_eq_some_iff.1 hrun
    have he := Except.toOption_eq_some.1 he
    exact ⟨e, he, of_decide_eq_false hchanged, run_of_run hp hname he⟩
  refine ⟨honce _ ?_ (by decide) (by cbv), honce _ ?_ (by decide) (by cbv),
    honce _ ?_ (by decide) (by cbv), honce _ ?_ (by decide) (by cbv)⟩
  all_goals simp [standard]

end Pass

end RewriteSemantics
