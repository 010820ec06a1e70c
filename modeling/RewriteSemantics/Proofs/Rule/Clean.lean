/-
# Clean rules stay as they are

Naming anonymous variables and resolving casts change nothing in a rule that is clean already. So a
rule that has been through both is not changed by going through them again.
-/
import RewriteSemantics.Proofs.Rule.Settled

namespace RewriteSemantics

namespace Term

/-! ## Walks that change nothing -/

section

variable {σ : Type} {f : Variable → σ → Variable × σ}

mutual

/-- A renaming that leaves the variables of a term alone leaves the term alone. -/
theorem threadVariables_eq_self : ∀ (t : Term) (s : σ),
    (∀ v ∈ t.occurrences, ∀ s, f v s = (v, s)) → threadVariables f t s = (t, s)
  | .app label args, s, h => by
    rw [threadVariables, threadVariablesAll_eq_self args s h]
  | .var v, s, h => by
    rw [threadVariables, h v (List.mem_singleton_self v)]
  | .token .., _, _ => rfl
  | .rewrite l r, s, h => by
    have hl := threadVariables_eq_self l s fun v hv => h v (List.mem_append_left _ hv)
    have hr := threadVariables_eq_self r s fun v hv => h v (List.mem_append_right _ hv)
    simp only [threadVariables, hl, hr]
  | .seq items, s, h => by
    rw [threadVariables, threadVariablesAll_eq_self items s h]
  | .bag items, s, h => by
    rw [threadVariables, threadVariablesAll_eq_self items s h]
  | .cell tag body, s, h => by
    rw [threadVariables, threadVariables_eq_self body s h]

/-- A renaming that leaves the variables of some terms alone leaves the terms alone. -/
theorem threadVariablesAll_eq_self : ∀ (ts : List Term) (s : σ),
    (∀ v ∈ occurrencesAll ts, ∀ s, f v s = (v, s)) → threadVariablesAll f ts s = (ts, s)
  | [], _, _ => rfl
  | t :: ts, s, h => by
    have ht := threadVariables_eq_self t s fun v hv => h v (List.mem_append_left _ hv)
    have hts := threadVariablesAll_eq_self ts s fun v hv => h v (List.mem_append_right _ hv)
    simp only [threadVariablesAll, ht, hts]

end

end

/-! ## Sides -/

/-- Nothing is cast in the left-hand side of a term in which nothing is cast. -/
theorem Uncast.lhs {t : Term} (h : t.Uncast) : t.lhs.Uncast := by
  induction t using induct with
  | app label args ih =>
    obtain ⟨hself, hargs⟩ := uncast_iff.1 h
    rw [Term.lhs, lhsAll_eq_map]
    have hlhs : ∀ u ∈ args.map Term.lhs, u.Uncast :=
      List.forall_mem_map.2 fun t ht => ih t ht (hargs t ht)
    refine uncast_iff.2 ⟨fun label' u heq => ?_, hlhs⟩
    -- A label over one argument stood over one argument before.
    obtain ⟨rfl, hone⟩ := Term.app.inj heq
    obtain ⟨w, rfl, -⟩ := List.map_eq_singleton_iff.1 hone
    exact hself label w rfl
  | var v => exact h
  | token text sort => exact h
  | rewrite l r ihl _ => exact ihl (uncast_rewrite.1 h).1
  | seq items ih =>
    have hitems := (hereditary_uncast.seq items).1 h
    rw [Term.lhs, lhsAll_eq_map, hereditary_uncast.seq]
    exact List.forall_mem_map.2 fun t ht => ih t ht (hitems t ht)
  | bag items ih =>
    have hitems := (hereditary_uncast.bag items).1 h
    rw [Term.lhs, lhsAll_eq_map, hereditary_uncast.bag]
    exact List.forall_mem_map.2 fun t ht => ih t ht (hitems t ht)
  | cell tag body ih =>
    rw [Term.lhs, hereditary_uncast.cell]
    exact ih ((hereditary_uncast.cell tag body).1 h)

end Term

/-! ## Anonymous variables -/

namespace AnonymousVariables

variable {names : FreshNames}

theorem nameVariable_eq_self {v : Variable} (hv : v.name ≠ Variable.anonymous) :
    nameVariable v names = (v, names) := by
  have hnamed : v.isAnonymous = false := by simpa [Variable.isAnonymous] using hv
  rw [nameVariable, hnamed, if_neg (by simp)]

theorem threadVariables_eq_self {t : Term} (ht : Variable.anonymous ∉ t.variableNames) :
    t.threadVariables nameVariable names = (t, names) := by
  refine Term.threadVariables_eq_self t names fun v hv names => nameVariable_eq_self ?_
  intro hname
  exact ht (Term.mem_variableNames.2 ⟨v, hv, hname⟩)

theorem threadVariables?_eq_self {o : Option Term}
    (ho : ∀ t ∈ o, Variable.anonymous ∉ t.variableNames) :
    Term.threadVariables? nameVariable o names = (o, names) := by
  cases o with
  | none => rfl
  | some t => rw [Term.threadVariables?, threadVariables_eq_self (ho t rfl)]

/-- A rule without anonymous variables stays as it is. -/
theorem resolveRule_eq_self {r : Rule} (h : Variable.anonymous ∉ r.variableNames) :
    resolveRule r = r := by
  have hterms : ∀ t ∈ r.terms, Variable.anonymous ∉ t.variableNames :=
    fun t ht hx => h (Rule.mem_variableNames.2 ⟨t, ht, hx⟩)
  obtain ⟨hbody, hrequires, hensures⟩ := Rule.forall_mem_terms.1 hterms
  simp only [resolveRule, threadVariables_eq_self hbody, threadVariables?_eq_self hrequires,
    threadVariables?_eq_self hensures]

end AnonymousVariables

/-! ## Casts -/

namespace SemanticCasts

theorem castHere?_eq_none {t u : Term} (ht : t.Uncast) (hu : u ∈ t.subterms) :
    castHere? u = none := by
  unfold castHere?
  split
  · rename_i label v
    rw [ht label _ hu]
    rfl
  · rfl

/-- Where nothing is cast there are no cast variables. -/
theorem castsOf_eq_empty {ts : List Term} (h : ∀ t ∈ ts, t.Uncast) : castsOf ts = ∅ := by
  have hnone : (ts.flatMap (·.subterms)).filterMap castHere? = [] := by
    refine List.filterMap_eq_nil_iff.2 fun u hu => ?_
    obtain ⟨t, ht, hu⟩ := List.mem_flatMap.1 hu
    exact castHere?_eq_none (h t ht) hu
  rw [castsOf, hnone]
  rfl

theorem strip_eq_self {t : Term} (h : t.Uncast) : strip ∅ t = t := by
  have hall : ∀ {ts : List Term}, (∀ t ∈ ts, t.Uncast → strip ∅ t = t) →
      (∀ t ∈ ts, t.Uncast) → ts.map (strip ∅) = ts := by
    intro ts ih hts
    exact (List.map_congr_left fun t ht => ih t ht (hts t ht)).trans (List.map_id ts)
  induction t using Term.induct with
  | app label args ih =>
    obtain ⟨hself, hargs⟩ := Term.uncast_iff.1 h
    rw [strip_app, hall ih hargs]
    rcases args with _ | ⟨t, _ | ⟨u, rest⟩⟩
    · rfl
    · rw [stripHere_one, hself label t rfl]
      rfl
    · rfl
  | var v => rfl
  | token text sort => rfl
  | rewrite l r ihl ihr =>
    obtain ⟨hl, hr⟩ := Term.uncast_rewrite.1 h
    rw [strip_rewrite, ihl hl, ihr hr]
  | seq items ih => rw [strip_seq, hall ih ((Term.hereditary_uncast.seq items).1 h)]
  | bag items ih => rw [strip_bag, hall ih ((Term.hereditary_uncast.bag items).1 h)]
  | cell tag body ih => rw [strip_cell, ih ((Term.hereditary_uncast.cell tag body).1 h)]

theorem map_strip_eq_self {o : Option Term} (h : ∀ t ∈ o, t.Uncast) : o.map (strip ∅) = o := by
  cases o with
  | none => rfl
  | some t => rw [Option.map_some, strip_eq_self (h t rfl)]

/-- No membership is added to the side condition if nothing is cast on the left-hand side. -/
theorem sideCondition_eq_self {skip : Bool} {requires : Option Term} {lhs : Term}
    (h : lhs.Uncast) : sideCondition skip requires lhs = requires := by
  unfold sideCondition
  rw [castsOf_eq_empty (List.forall_mem_singleton.2 h)]
  split
  · rfl
  · rfl

/-- A rule in which nothing is cast stays as it is. -/
theorem resolveRule_eq_self (skip : Bool) {r : Rule} (h : ∀ t ∈ r.terms, t.Uncast) :
    resolveRule skip r = r := by
  obtain ⟨hbody, hrequires, hensures⟩ := Rule.forall_mem_terms.1 h
  have hcasts := castsOf_eq_empty h
  simp only [resolveRule, hcasts, strip_eq_self hbody, map_strip_eq_self hrequires,
    map_strip_eq_self hensures, sideCondition_eq_self hbody.lhs]

end SemanticCasts

/-! ## Rules -/

/-- A prepared rule is clean. -/
theorem Rule.clean_prepared (skip : Bool) (r : Rule) : (r.prepared skip).Clean :=
  SemanticCasts.clean_resolveRule (AnonymousVariables.anonymous_notMem_resolveRule r)

/-- A clean rule is prepared already. -/
theorem Rule.Clean.prepared_eq_self {r : Rule} (h : r.Clean) (skip : Bool) :
    r.prepared skip = r := by
  have hnamed : Variable.anonymous ∉ r.variableNames := by
    intro hx
    obtain ⟨t, ht, hx⟩ := Rule.mem_variableNames.1 hx
    exact (h t ht).1 hx
  rw [Rule.prepared, AnonymousVariables.resolveRule_eq_self hnamed]
  exact SemanticCasts.resolveRule_eq_self skip fun t ht => (h t ht).2

end RewriteSemantics
