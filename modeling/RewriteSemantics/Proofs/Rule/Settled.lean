/-
# Settled rules

Before its cells are placed, a rule is settled step by step. Once its anonymous variables are named
and its casts are resolved it is clean. Once it has its made-up values too it is settled: no later
pass brings any of this back.
-/
import RewriteSemantics.Proofs.Rule.FreshConstants
import RewriteSemantics.Proofs.Rule.Preparation
import RewriteSemantics.Proofs.Rule.Uncast

namespace RewriteSemantics

open FreshNames (candidate)

namespace Term

/-- A term without anonymous variables and casts. -/
def Clean (t : Term) : Prop :=
  Variable.anonymous ∉ t.variableNames ∧ t.Uncast

/-- A clean term that makes up no values on its right-hand side. -/
def Settled (t : Term) : Prop :=
  t.Clean ∧ t.Unmarked

theorem hereditary_clean : Hereditary Clean := by
  refine (hereditary_notMem fun stem hstem => ?_).and hereditary_uncast
  rcases hstem with rfl | rfl <;> decide

theorem hereditary_settled : Hereditary Settled :=
  hereditary_clean.and hereditary_unmarked

theorem settled_constant (label : String) : (constant label).Settled := by
  refine ⟨⟨by simp [constant], uncast_iff.2 ⟨fun _ _ h => (nomatch h), fun _ h => (nomatch h)⟩⟩, ?_⟩
  intro x hx
  obtain ⟨u, hu, -⟩ := mem_variableNames_app.1 hx
  cases hu

end Term

namespace Rule

/-- A rule without anonymous variables and casts. -/
def Clean (r : Rule) : Prop :=
  ∀ t ∈ r.terms, t.Clean

/-- A clean rule that makes up no values. -/
structure Settled (r : Rule) : Prop where
  body : r.body.Settled
  requires : ∀ t ∈ r.requires, t.Clean
  ensures : ∀ t ∈ r.ensures, t.Clean ∧ ∀ x ∈ t.variableNames, Variable.isFreshName x = false

end Rule

/-! ## Anonymous variables -/

namespace AnonymousVariables

theorem name_nameVariable_ne (v : Variable) (names : FreshNames) :
    (nameVariable v names).1.name ≠ Variable.anonymous := by
  unfold nameVariable
  split
  · exact Term.candidate_ne_of_toList (by decide)
  · rename_i hv
    simpa [Variable.isAnonymous] using hv

theorem anonymous_notMem_threadVariables (t : Term) (names : FreshNames) :
    Variable.anonymous ∉ (t.threadVariables nameVariable names).1.variableNames := by
  intro h
  obtain ⟨v, hv, hname⟩ := Term.mem_variableNames.1 h
  obtain ⟨u, -, names', rfl⟩ := Term.mem_occurrences_threadVariables t names hv
  exact name_nameVariable_ne u names' hname

theorem anonymous_notMem_threadVariables? {o : Option Term} {names : FreshNames} {t : Term}
    (ht : (Term.threadVariables? nameVariable o names).1 = some t) :
    Variable.anonymous ∉ t.variableNames := by
  obtain ⟨u, -, rfl⟩ := exists_of_threadVariables? ht
  exact anonymous_notMem_threadVariables u names

theorem anonymous_notMem_resolveRule (r : Rule) :
    Variable.anonymous ∉ (resolveRule r).variableNames := by
  intro h
  obtain ⟨t, ht, hx⟩ := Rule.mem_variableNames.1 h
  rcases Rule.mem_terms.1 ht with rfl | ht | ht
  · exact anonymous_notMem_threadVariables _ _ hx
  · exact anonymous_notMem_threadVariables? ht hx
  · exact anonymous_notMem_threadVariables? ht hx

theorem anonymous_notMem_resolveContext (c : Context) :
    ∀ t ∈ (resolveContext c).terms, Variable.anonymous ∉ t.variableNames := by
  intro t ht
  rcases List.mem_cons.1 ht with rfl | ht
  · exact anonymous_notMem_threadVariables _ _
  · exact anonymous_notMem_threadVariables? (Option.mem_toList.1 ht)

end AnonymousVariables

/-! ## Casts -/

theorem SemanticCasts.clean_resolveRule {skip : Bool} {r : Rule}
    (h : Variable.anonymous ∉ r.variableNames) : (resolveRule skip r).Clean := by
  refine fun t ht => ⟨fun hx => h ?_, uncast_resolveRule skip r t ht⟩
  exact mem_variableNames_of_resolveRule (Rule.mem_variableNames.2 ⟨t, ht, hx⟩)

/-! ## Made-up values -/

namespace FreshConstants

open Term

variable {d : Definition} {r r' : Rule} {n : Nat}

/-- What is put into a rule: it has no variable but the counter, casts nothing and rewrites
nothing. -/
structure IsNumber (n : Nat) (t : Term) : Prop where
  names : ∀ x ∈ t.variableNames, x = candidate generatedStem n
  uncast : t.Uncast
  rhs : t.rhs = t

theorem IsNumber.settled {t : Term} (h : IsNumber n t) : t.Settled := by
  refine ⟨⟨fun hx => ?_, h.uncast⟩, fun x hx => ?_⟩
  · exact candidate_ne_of_toList (by decide) (h.names _ hx).symm
  · rw [h.rhs] at hx
    rw [h.names x hx]
    exact Term.isFreshName_new (.inl rfl) n

theorem isNumber_counter (n : Nat) :
    IsNumber n (.sortedVar (candidate generatedStem n) .int) :=
  ⟨fun _ hx => (mem_variableNames_var.1 hx).symm, uncast_var _, rfl⟩

theorem isNumber_plus (n k : Nat) :
    IsNumber n (plus (.sortedVar (candidate generatedStem n) .int) (.int k)) := by
  refine ⟨fun x hx => ?_, uncast_app (by cbv) ?_, rfl⟩
  · obtain ⟨t, ht, hx⟩ := mem_variableNames_app.1 hx
    rcases List.mem_cons.1 ht with rfl | ht
    · exact (isNumber_counter n).names x hx
    · cases List.mem_singleton.1 ht
      cases hx
  · exact List.forall_mem_cons.2 ⟨uncast_var _, List.forall_mem_singleton.2 (uncast_token _ _)⟩

theorem isNumber_value {label : String} (hlabel : Label.castSort? label = none) (n k : Nat) :
    IsNumber n (value label (.sortedVar (candidate generatedStem n) .int) k) := by
  have hplus := isNumber_plus n k
  refine ⟨fun x hx => hplus.names x ?_, ?_, rfl⟩
  · obtain ⟨t, ht, hx⟩ := mem_variableNames_app.1 hx
    rwa [← List.mem_singleton.1 ht]
  · exact uncast_app hlabel (List.forall_mem_singleton.2 hplus.uncast)

theorem settled_counterCell (n count : Nat) :
    (counterCell (.sortedVar (candidate generatedStem n) .int) count).Settled := by
  have hcounter := (isNumber_counter n).settled
  have hplus := (isNumber_plus n count).settled
  refine (hereditary_settled.cell _ _).2 ⟨⟨fun hx => ?_, ?_⟩, hplus.2⟩
  · rcases mem_variableNames_rewrite.1 hx with hx | hx
    · exact hcounter.1.1 hx
    · exact hplus.1.1 hx
  · exact uncast_rewrite.2 ⟨hcounter.1.2, hplus.1.2⟩

/-- The values of a rule are numbers, as long as no declared label is a cast. -/
theorem isNumber_of_mem
    (hlabels : ∀ p ∈ d.productions, ∀ label ∈ p.label, Label.castSort? label = none)
    {offset : Nat} {l : List (String × SortName)} {values : List (String × Term)}
    (h : valuesFrom d (.sortedVar (candidate generatedStem n) .int) offset l = .ok values) :
    ∀ e ∈ values, IsNumber n e.2 := by
  intro e he
  obtain ⟨label, k, ⟨p, hp, hlabel, -⟩, heq⟩ := exists_value_of_mem h he
  rw [heq]
  exact isNumber_value (hlabels p hp label hlabel) n k

theorem clean_replace {values : List (String × Term)} {t : Term}
    (hvalues : ∀ e ∈ values, IsNumber n e.2) (ht : t.Clean) : (replace values t).Clean := by
  refine ⟨fun hx => ?_, uncast_replace (fun e he => (hvalues e he).uncast) ht.2⟩
  rcases mem_variableNames_replace hx with ⟨hx, -⟩ | ⟨e, he, hx⟩
  · exact ht.1 hx
  · exact (hvalues e he).settled.1.1 hx

/-- A rule is settled if it is clean and no variable of its right-hand side and its promise is
marked. -/
theorem settled_of_clean (hr : r.Clean)
    (hnone : ∀ t ∈ r.body.rhs :: r.ensures.toList, ∀ x ∈ t.variableNames,
      Variable.isFreshName x = false) : r.Settled := by
  obtain ⟨hbody, hrequires, hensures⟩ := Rule.forall_mem_terms.1 hr
  refine ⟨⟨hbody, hnone _ List.mem_cons_self⟩, hrequires, fun t ht => ⟨hensures t ht, ?_⟩⟩
  exact hnone t (List.mem_cons_of_mem _ (Option.mem_toList.2 ht))

/-- A clean rule stays clean when it gets its values. -/
theorem clean_resolveRule
    (hlabels : ∀ p ∈ d.productions, ∀ label ∈ p.label, Label.castSort? label = none)
    (hr : r.Clean) (h : resolveRule d r = .ok r') : r'.Clean := by
  rcases resolveRule_eq_ok h with ⟨-, rfl⟩ | ⟨values, hvalues, rfl⟩
  · exact hr
  · obtain ⟨n, hn⟩ := exists_counterOf r
    rw [hn] at hvalues ⊢
    have hnumbers := isNumber_of_mem hlabels hvalues
    obtain ⟨hbody, hrequires, hensures⟩ := Rule.forall_mem_terms.1 hr
    refine Rule.forall_mem_terms.2 ⟨?_, fun t ht => ?_, fun t ht => ?_⟩
    · exact hereditary_clean.beside.2 ⟨clean_replace hnumbers hbody, (settled_counterCell n _).1⟩
    · obtain ⟨u, hu, rfl⟩ := Option.map_eq_some_iff.1 ht
      exact clean_replace hnumbers (hrequires u hu)
    · obtain ⟨u, hu, rfl⟩ := Option.map_eq_some_iff.1 ht
      exact clean_replace hnumbers (hensures u hu)

/-- A clean rule is settled once it has its values. -/
theorem settled_resolveRule
    (hlabels : ∀ p ∈ d.productions, ∀ label ∈ p.label, Label.castSort? label = none)
    (hr : r.Clean) (h : resolveRule d r = .ok r') : r'.Settled :=
  settled_of_clean (clean_resolveRule hlabels hr h) (isFreshName_resolveRule h)

end FreshConstants

end RewriteSemantics
