/-
# Made-up values in rules

The values of a rule are terms over its counter. They stand where the marked variables of the
right-hand side and the promise stood, so once a rule has its values, no marked variable is left
there. On the left-hand side and in the side condition only those are replaced that the right-hand
side or the promise has too.
-/
import RewriteSemantics.Proofs.Rule.SideCondition
import RewriteSemantics.Proofs.Term.Hereditary

namespace RewriteSemantics

namespace FreshConstants

open FreshNames (candidate)
open Term

variable {values : List (String × Term)} {t : Term} {x : String}

/-! ## Node by node -/

theorem replace_app (label : String) (args : List Term) :
    replace values (.app label args) = .app label (args.map (replace values)) := by
  rw [replace, transform, transformAll_eq_map]
  rfl

theorem replace_seq (items : List Term) :
    replace values (.seq items) = .seq (items.map (replace values)) := by
  rw [replace, transform, transformAll_eq_map]
  rfl

theorem replace_bag (items : List Term) :
    replace values (.bag items) = .bag (items.map (replace values)) := by
  rw [replace, transform, transformAll_eq_map]
  rfl

/-- A variable has a value, or stays. -/
theorem replace_var (values : List (String × Term)) (v : Variable) :
    (∃ e ∈ values, replace values (.var v) = e.2) ∨
      values.lookup v.name = none ∧ replace values (.var v) = .var v := by
  show (∃ e ∈ values, (values.lookup v.name).getD (.var v) = e.2) ∨
    _ ∧ (values.lookup v.name).getD (.var v) = .var v
  cases hlookup : values.lookup v.name with
  | none => exact .inr ⟨rfl, rfl⟩
  | some u => exact .inl ⟨_, OrderedMap.mem_of_lookup_eq_some hlookup, rfl⟩

/-- The values are put in below every node but a variable. -/
theorem children_replace (values : List (String × Term)) (ht : t.asVariable? = none) :
    (replace values t).asVariable? = none ∧
      (replace values t).children = t.children.map (replace values) := by
  cases t with
  | app label args =>
    rw [replace_app]
    exact ⟨rfl, rfl⟩
  | var v => cases ht
  | token text sort => exact ⟨rfl, rfl⟩
  | rewrite l r => exact ⟨rfl, rfl⟩
  | seq items =>
    rw [replace_seq]
    exact ⟨rfl, rfl⟩
  | bag items =>
    rw [replace_bag]
    exact ⟨rfl, rfl⟩
  | cell tag body => exact ⟨rfl, rfl⟩

/-! ## Values in terms -/

/-- A variable of a term with values has no value, or is one of a value. -/
theorem mem_variableNames_replace (hx : x ∈ (replace values t).variableNames) :
    x ∈ t.variableNames ∧ values.lookup x = none ∨ ∃ e ∈ values, x ∈ e.2.variableNames := by
  induction t using induct_children with
  | step t ih =>
    cases ht : t.asVariable? with
    | some v =>
      rw [eq_var_of_asVariable? ht] at hx ⊢
      rcases replace_var values v with ⟨e, he, hvalue⟩ | ⟨hnone, hvar⟩
      · rw [hvalue] at hx
        exact .inr ⟨e, he, hx⟩
      · rw [hvar] at hx
        rw [mem_variableNames_var.1 hx] at hnone
        exact .inl ⟨hx, hnone⟩
    | none =>
      obtain ⟨hreplace, hchildren⟩ := children_replace values ht
      rw [mem_variableNames_children hreplace, hchildren] at hx
      obtain ⟨_, hmem, hx⟩ := hx
      obtain ⟨c, hc, rfl⟩ := List.mem_map.1 hmem
      rcases ih c hc hx with ⟨hx, hnone⟩ | hvalue
      · exact .inl ⟨(mem_variableNames_children ht).2 ⟨c, hc, hx⟩, hnone⟩
      · exact .inr hvalue

/-- Where every marked variable has a value and no value has one, none is left. -/
theorem isFreshName_replace
    (hvalues : ∀ e ∈ values, ∀ x ∈ e.2.variableNames, Variable.isFreshName x = false)
    (ht : ∀ x ∈ t.variableNames, Variable.isFreshName x = true → x ∈ values.map (·.1)) :
    ∀ x ∈ (replace values t).variableNames, Variable.isFreshName x = false := by
  intro x hx
  rcases mem_variableNames_replace hx with ⟨hx, hnone⟩ | ⟨e, he, hx⟩
  · rw [← Bool.not_eq_true]
    intro hfresh
    exact lookup_eq_none_iff.1 hnone (ht x hx hfresh)
  · exact hvalues e he x hx

/-- Values without casts leave a term without casts. -/
theorem uncast_replace (hvalues : ∀ e ∈ values, e.2.Uncast) (h : t.Uncast) :
    (replace values t).Uncast := by
  induction t using induct_children with
  | step t ih =>
    cases ht : t.asVariable? with
    | some v =>
      rw [eq_var_of_asVariable? ht]
      rcases replace_var values v with ⟨e, he, hvalue⟩ | ⟨-, hvar⟩
      · rw [hvalue]
        exact hvalues e he
      · rw [hvar]
        exact uncast_var v
    | none =>
      obtain ⟨hself, hbelow⟩ := uncast_iff.1 h
      obtain ⟨-, hchildren⟩ := children_replace values ht
      refine uncast_iff.2 ⟨fun label u heq => ?_, ?_⟩
      · cases t with
        | app label' args =>
          rw [replace_app, Term.app.injEq] at heq
          obtain ⟨rfl, hargs⟩ := heq
          obtain ⟨w, rfl, -⟩ := List.map_eq_singleton_iff.1 hargs
          exact hself label' w rfl
        | var v => cases ht
        | seq items =>
          rw [replace_seq] at heq
          cases heq
        | bag items =>
          rw [replace_bag] at heq
          cases heq
        | _ => cases heq
      · rw [hchildren]
        exact List.forall_mem_map.2 fun c hc => ih c hc (hbelow c hc)

/-- Values that rewrite nothing are put into the right-hand side like into the term. -/
theorem rhs_replace (hvalues : ∀ e ∈ values, e.2.rhs = e.2) (t : Term) :
    (replace values t).rhs = replace values t.rhs := by
  have hmap : ∀ ts : List Term, (∀ t ∈ ts, (replace values t).rhs = replace values t.rhs) →
      (ts.map (replace values)).map rhs = (ts.map rhs).map (replace values) := by
    intro ts h
    rw [List.map_map, List.map_map]
    exact List.map_congr_left h
  induction t using induct with
  | app label args ih =>
    rw [replace_app, rhs, rhsAll_eq_map, rhs, rhsAll_eq_map, replace_app, hmap args ih]
  | var v =>
    rw [rhs]
    rcases replace_var values v with ⟨e, he, hvalue⟩ | ⟨-, hvar⟩
    · rw [hvalue, hvalues e he]
    · rw [hvar]
      rfl
  | token text sort => rfl
  | rewrite l r _ ihr => exact ihr
  | seq items ih =>
    rw [replace_seq, rhs, rhsAll_eq_map, rhs, rhsAll_eq_map, replace_seq, hmap items ih]
  | bag items ih =>
    rw [replace_bag, rhs, rhsAll_eq_map, rhs, rhsAll_eq_map, replace_bag, hmap items ih]
  | cell tag body ih =>
    show Term.cell tag (replace values body).rhs = .cell tag (replace values body.rhs)
    rw [ih]

/-! ## The values of a rule -/

section

variable {d : Definition} {r r' : Rule}

/-- Generators are declared, and marked. -/
theorem exists_production_of_generatorFor {sort : SortName} {label : String}
    (h : generatorFor d sort = .ok label) : ∃ p ∈ d.productions, p.label = some label ∧
      p.attributes.contains Attributes.freshGenerator = true := by
  unfold generatorFor at h
  split at h
  · rename_i found hfound
    cases h
    obtain ⟨p, hp, hlabel⟩ := Option.bind_eq_some_iff.1 hfound
    have hmarked := List.find?_some hp
    rw [Bool.and_eq_true] at hmarked
    exact ⟨p, List.mem_of_find?_eq_some hp, hlabel, hmarked.2⟩
  · cases h

/-- Each value is a declared generator over the counter and a number. -/
theorem exists_value_of_mem {counter : Term} {offset : Nat} {l : List (String × SortName)}
    (h : valuesFrom d counter offset l = .ok values) {e : String × Term} (he : e ∈ values) :
    ∃ label n, (∃ p ∈ d.productions, p.label = some label ∧
      p.attributes.contains Attributes.freshGenerator = true) ∧ e.2 = value label counter n := by
  induction l generalizing offset values with
  | nil =>
    cases h
    cases he
  | cons entry l ih =>
    obtain ⟨label, hlabel, h⟩ := Except.bind_eq_ok.1 h
    obtain ⟨others, hothers, h⟩ := Except.bind_eq_ok.1 h
    cases h
    rcases List.mem_cons.1 he with rfl | he
    · exact ⟨label, offset, exists_production_of_generatorFor hlabel, rfl⟩
    · exact ih hothers he

/-- Every marked variable of the right-hand side and the promise is given a value. -/
theorem mem_map_fst_freshVariables (hfresh : Variable.isFreshName x = true) {t : Term}
    (ht : t ∈ r.body.rhs :: r.ensures.toList) (hx : x ∈ t.variableNames) :
    x ∈ (freshVariables r).entries.map (·.1) := by
  obtain ⟨v, hv, rfl⟩ := mem_variableNames.1 hx
  have hmem : v ∈ ((r.body.rhs :: r.ensures.toList).flatMap (·.occurrences)).filter (·.isFresh) :=
    List.mem_filter.2 ⟨List.mem_flatMap.2 ⟨t, ht, hv⟩, hfresh⟩
  have hsome : ((((r.body.rhs :: r.ensures.toList).flatMap (·.occurrences)).filter
      (·.isFresh)).find? (·.name = v.name)).isSome = true := by
    rw [List.find?_isSome]
    exact ⟨v, hmem, decide_eq_true rfl⟩
  obtain ⟨w, hw⟩ := Option.isSome_iff_exists.1 hsome
  have hget : (freshVariables r).get? v.name = some (w.sort.getD .int) := by
    rw [freshVariables, OrderedMap.get?_foldl_insertIfNew, hw]
    rfl
  exact List.mem_map_of_mem (f := (·.1)) (OrderedMap.mem_entries_of_get? hget)

/-- The counter has a generated name. -/
theorem exists_counterOf (r : Rule) :
    ∃ n, counterOf r = .sortedVar (candidate generatedStem n) .int :=
  ⟨_, rfl⟩

theorem mem_variableNames_plus {counter : Term} {k : Nat} :
    x ∈ (plus counter (.int k)).variableNames ↔ x ∈ counter.variableNames := by
  have htoken : x ∉ (Term.int k).variableNames := by
    intro hx
    cases hx
  rw [plus, mem_variableNames_app]
  simp [htoken]

/-- The values of a rule have no variable but the counter, and rewrite nothing. -/
theorem valuesFrom_counterOf {offset : Nat} {l : List (String × SortName)}
    (h : valuesFrom d (counterOf r) offset l = .ok values) : ∀ e ∈ values,
      (∀ x ∈ e.2.variableNames, x ∈ (counterOf r).variableNames) ∧ e.2.rhs = e.2 := by
  intro e he
  obtain ⟨label, k, -, hvalue⟩ := exists_value_of_mem h he
  rw [hvalue]
  refine ⟨fun x hx => ?_, rfl⟩
  obtain ⟨t, ht, hx⟩ := mem_variableNames_app.1 hx
  rw [List.mem_singleton.1 ht] at hx
  exact mem_variableNames_plus.1 hx

theorem isFreshName_counterOf (r : Rule) :
    ∀ x ∈ (counterOf r).variableNames, Variable.isFreshName x = false := by
  intro x hx
  obtain ⟨n, hn⟩ := exists_counterOf r
  rw [hn, sortedVar, mem_variableNames_var] at hx
  rw [← hx]
  exact isFreshName_new (.inl rfl) n

/-- Once a rule has its values, no variable of its right-hand side and its promise is marked. -/
theorem isFreshName_resolveRule (h : resolveRule d r = .ok r') :
    ∀ t ∈ r'.body.rhs :: r'.ensures.toList, ∀ x ∈ t.variableNames,
      Variable.isFreshName x = false := by
  rcases resolveRule_eq_ok h with ⟨hempty, rfl⟩ | ⟨values, hvalues, rfl⟩
  · intro t ht x hx
    rw [← Bool.not_eq_true]
    intro hfresh
    have hmem := mem_map_fst_freshVariables hfresh ht hx
    rw [hempty] at hmem
    cases hmem
  · have hnames := map_fst_valuesFrom hvalues
    have hcounter := isFreshName_counterOf r
    have hvalue := valuesFrom_counterOf hvalues
    have hreplace : ∀ t ∈ r.body.rhs :: r.ensures.toList,
        ∀ x ∈ (replace values t).variableNames, Variable.isFreshName x = false := by
      intro t ht
      refine isFreshName_replace (fun e he x hx => hcounter x ((hvalue e he).1 x hx)) ?_
      intro x hx hfresh
      rw [hnames]
      exact mem_map_fst_freshVariables hfresh ht hx
    refine List.forall_mem_cons.2 ⟨?_, fun t ht => ?_⟩
    · refine hereditary_unmarked.beside.2 ⟨fun x hx => ?_, ?_⟩
      · rw [rhs_replace fun e he => (hvalue e he).2] at hx
        exact hreplace _ List.mem_cons_self x hx
      · refine (hereditary_unmarked.cell _ _).2 fun x hx => hcounter x ?_
        exact mem_variableNames_plus.1 hx
    · obtain ⟨u, hu, rfl⟩ := Option.map_eq_some_iff.1 (Option.mem_toList.1 ht)
      exact hreplace u (List.mem_cons_of_mem _ (Option.mem_toList.2 hu))

end

end FreshConstants

end RewriteSemantics
