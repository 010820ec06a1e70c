/-
# The variables of rules

Neither the conditions of heating and cooling nor the removal of casts brings variables into a rule,
and a rule without variables that are marked for it makes up no values.
-/
import RewriteSemantics.Proofs.Result
import RewriteSemantics.Proofs.Rule.SemanticCasts
import RewriteSemantics.Rule.FreshConstants
import RewriteSemantics.Rule.HeatCool

namespace RewriteSemantics

theorem Rule.mem_terms {r : Rule} {t : Term} :
    t ∈ r.terms ↔ t = r.body ∨ t ∈ r.requires ∨ t ∈ r.ensures := by
  rw [terms, List.mem_cons, List.mem_append, Option.mem_toList, Option.mem_toList]
  rfl

/-- What holds of all terms of a rule holds of its three parts. -/
theorem Rule.forall_mem_terms {r : Rule} {P : Term → Prop} :
    (∀ t ∈ r.terms, P t) ↔ P r.body ∧ (∀ t ∈ r.requires, P t) ∧ ∀ t ∈ r.ensures, P t := by
  simp only [mem_terms, or_imp, forall_and, forall_eq]

theorem Rule.mem_variableNames {r : Rule} {x : String} :
    x ∈ r.variableNames ↔ ∃ t ∈ r.terms, x ∈ t.variableNames := by
  rw [variableNames, OrderedSet.mem_ofList, List.mem_flatMap]
  rfl

/-- A conjunction has the variables of its sides. What is dropped of it is trivially true and has
none. -/
theorem Term.mem_variableNames_andBool {left : Option Term} {right : Term} {x : String} :
    x ∈ (andBool left right).variableNames ↔
      (∃ t ∈ left, x ∈ t.variableNames) ∨ x ∈ right.variableNames := by
  unfold andBool
  cases left with
  | none => simp
  | some t =>
    dsimp only
    split
    · rename_i htrue
      rw [of_decide_eq_true htrue]
      simp [bool, mem_variableNames, occurrences]
    · simp

/-! ## Conditions -/

namespace HeatCool

variable {r r' : Rule} {condition : Term}

theorem resolveRule_eq_ok (hc : condition? r = some condition) : resolveRule r = .ok r' ↔
    Variable.hole ∈ r.body.variableNames ∧
      r' = ⟨r.body, some (.andBool r.requires condition), r.ensures, r.attributes⟩ := by
  rw [resolveRule, hc]
  dsimp only
  split
  · rename_i hhole
    rw [Except.ok.injEq, eq_comm]
    exact (and_iff_right hhole).symm
  · rename_i hhole
    simp [hhole]

theorem exists_condition? (h : r.isHeat = true ∨ r.isCool = true) :
    ∃ condition, condition? r = some condition := by
  unfold condition?
  split
  · exact ⟨_, rfl⟩
  · rename_i hheat
    rw [if_pos (h.resolve_left hheat)]
    exact ⟨_, rfl⟩

/-- A condition is about the hole only. -/
theorem eq_hole_of_condition? (hc : condition? r = some condition) {x : String}
    (hx : x ∈ condition.variableNames) : x = Variable.hole := by
  have hresult : x ∈ holeIsResult.variableNames → x = Variable.hole := by
    simp [holeIsResult, Term.ofName, eq_comm]
  unfold condition? at hc
  split at hc
  · cases hc
    exact hresult (by simpa using hx)
  · split at hc
    · cases hc
      exact hresult hx
    · cases hc

theorem ensures_of_resolveRule (h : resolveRule r = .ok r') : r'.ensures = r.ensures := by
  cases hc : condition? r with
  | none =>
    rw [resolveRule, hc] at h
    cases h
    rfl
  | some condition =>
    obtain ⟨-, rfl⟩ := (resolveRule_eq_ok hc).1 h
    rfl

/-- The variable of the condition is one of the rule. -/
theorem mem_variableNames_of_resolveRule (h : resolveRule r = .ok r') {x : String}
    (hx : x ∈ r'.variableNames) : x ∈ r.variableNames := by
  cases hc : condition? r with
  | none =>
    rw [resolveRule, hc] at h
    cases h
    exact hx
  | some condition =>
    obtain ⟨hhole, rfl⟩ := (resolveRule_eq_ok hc).1 h
    rw [Rule.mem_variableNames] at hx ⊢
    obtain ⟨t, ht, hx⟩ := hx
    rcases Rule.mem_terms.1 ht with rfl | ht | ht
    · exact ⟨r.body, List.mem_cons_self, hx⟩
    · cases Option.mem_some_iff.1 ht
      rcases Term.mem_variableNames_andBool.1 hx with ⟨t, ht, hx⟩ | hx
      · exact ⟨t, Rule.mem_terms.2 (.inr (.inl ht)), hx⟩
      · rw [eq_hole_of_condition? hc hx]
        exact ⟨r.body, List.mem_cons_self, hhole⟩
    · exact ⟨t, Rule.mem_terms.2 (.inr (.inr ht)), hx⟩

end HeatCool

/-! ## Casts -/

namespace SemanticCasts

/-- The membership predicates are about variables of the left-hand side. -/
theorem mem_variableNames_of_sideCondition {skip : Bool} {requires : Option Term} {lhs t : Term}
    {x : String} (ht : t ∈ sideCondition skip requires lhs) (hx : x ∈ t.variableNames) :
    (∃ u ∈ requires, x ∈ u.variableNames) ∨ x ∈ lhs.variableNames := by
  unfold sideCondition at ht
  split at ht
  · exact .inl ⟨t, ht, hx⟩
  · have hentries : ∀ e ∈ (castsOf [lhs]).entries.filter (needsPredicate ·.2),
        e.1 ∈ lhs.variableNames := by
      intro e he
      have hget := OrderedMap.get?_eq_some_iff.2 (List.mem_filter.1 he).1
      exact mem_variableNames_of_get?_castsOf hget
    generalize (castsOf [lhs]).entries.filter (needsPredicate ·.2) = entries at ht hentries
    induction entries generalizing requires with
    | nil => exact .inl ⟨t, ht, hx⟩
    | cons e entries ih =>
      rcases ih ht fun e' he' => hentries e' (List.mem_cons_of_mem _ he') with ⟨u, hu, hxu⟩ | hxl
      · cases Option.mem_some_iff.1 hu
        rcases Term.mem_variableNames_andBool.1 hxu with hxr | hxm
        · exact .inl hxr
        · have hname : e.1 = x := by simpa [membership, Term.sortedVar] using hxm
          exact .inr (hname ▸ hentries e List.mem_cons_self)
      · exact .inr hxl

/-- A rule without casts has the variables of the rule. -/
theorem mem_variableNames_of_resolveRule {skip : Bool} {r : Rule} {x : String}
    (hx : x ∈ (resolveRule skip r).variableNames) : x ∈ r.variableNames := by
  rw [Rule.mem_variableNames] at hx ⊢
  obtain ⟨t, ht, hx⟩ := hx
  rcases Rule.mem_terms.1 ht with rfl | ht | ht
  · exact ⟨r.body, List.mem_cons_self, mem_variableNames_strip.1 hx⟩
  · rcases mem_variableNames_of_sideCondition ht hx with ⟨u, hu, hx⟩ | hx
    · obtain ⟨w, hw, rfl⟩ := Option.map_eq_some_iff.1 hu
      exact ⟨w, Rule.mem_terms.2 (.inr (.inl hw)), mem_variableNames_strip.1 hx⟩
    · exact ⟨r.body, List.mem_cons_self, Term.mem_variableNames_of_lhs hx⟩
  · obtain ⟨w, hw, rfl⟩ := Option.map_eq_some_iff.1 ht
    exact ⟨w, Rule.mem_terms.2 (.inr (.inr hw)), mem_variableNames_strip.1 hx⟩

end SemanticCasts

/-! ## Made-up values -/

namespace FreshConstants

variable {r : Rule}

/-- A rule that makes up no values stays as it is. -/
theorem resolveRule_of_noFresh {d : Definition} (hr : (freshVariables r).isEmpty = true) :
    resolveRule d r = .ok r := by
  rw [resolveRule]
  exact if_pos hr

/-- What is made of a rule: it makes up no value and stays, or gets values and reads the counter. -/
theorem resolveRule_eq_ok {d : Definition} {r' : Rule} (h : resolveRule d r = .ok r') :
    freshVariables r = ∅ ∧ r' = r ∨
      ∃ values, valuesFrom d (counterOf r) 0 (freshVariables r).entries = .ok values ∧
        r' = ⟨(replace values r.body).beside (counterCell (counterOf r) (freshVariables r).size),
          r.requires.map (replace values), r.ensures.map (replace values), r.attributes⟩ := by
  unfold resolveRule at h
  dsimp only at h
  split at h
  · rename_i hempty
    cases h
    refine .inl ⟨OrderedMap.ext_entries ?_, rfl⟩
    exact List.isEmpty_iff.1 hempty
  · obtain ⟨values, hvalues, h⟩ := Except.bind_eq_ok.1 h
    cases h
    exact .inr ⟨values, hvalues, rfl⟩

/-- A rule without marked variables on its right-hand side and in its promise makes up no values. -/
theorem freshVariables_eq_empty_of_rhs
    (h : ∀ t ∈ r.body.rhs :: r.ensures.toList, ∀ x ∈ t.variableNames,
      Variable.isFreshName x = false) : freshVariables r = ∅ := by
  have hnone : ((r.body.rhs :: r.ensures.toList).flatMap (·.occurrences)).filter (·.isFresh) =
      [] := by
    rw [List.filter_eq_nil_iff]
    intro v hv
    obtain ⟨t, ht, hv⟩ := List.mem_flatMap.1 hv
    rw [Variable.isFresh, Bool.not_eq_true]
    exact h t ht v.name (Term.mem_variableNames.2 ⟨v, hv, rfl⟩)
  rw [freshVariables, hnone]
  rfl

/-- A rule without marked variables in its body and its promise makes up no values. -/
theorem freshVariables_eq_empty
    (hbody : ∀ x ∈ r.body.variableNames, Variable.isFreshName x = false)
    (hensures : ∀ t ∈ r.ensures, ∀ x ∈ t.variableNames, Variable.isFreshName x = false) :
    freshVariables r = ∅ := by
  refine freshVariables_eq_empty_of_rhs fun t ht x hx => ?_
  rcases List.mem_cons.1 ht with rfl | ht
  · exact hbody x (Term.mem_variableNames_of_rhs hx)
  · exact hensures t (Option.mem_toList.1 ht) x hx

end FreshConstants

end RewriteSemantics
