/-
# Labels in rules

What each step of a compilation applies in a rule beside the labels of the rule: the predicate of
results, negation and conjunction for heating and cooling, membership predicates for casts,
generators and addition for made-up values, and the markers of strategies. The other steps apply
none.
-/
import RewriteSemantics.Proofs.Concretization.Hereditary
import RewriteSemantics.Proofs.Context.Labels
import RewriteSemantics.Proofs.Rule.FreshConstants
import RewriteSemantics.Proofs.Rule.Preparation
import RewriteSemantics.Proofs.Term.Labels
import RewriteSemantics.Context.Strict

namespace RewriteSemantics

variable {Q Q' : String → Prop} {r r' : Rule} {c : Context} {d : Definition}

/-- All labels that a rule applies are of a kind. -/
def Rule.AppliesOnly (Q : String → Prop) (r : Rule) : Prop :=
  ∀ t ∈ r.terms, t.AppliesOnly Q

/-- All labels that a context applies are of a kind. -/
def Context.AppliesOnly (Q : String → Prop) (c : Context) : Prop :=
  ∀ t ∈ c.terms, t.AppliesOnly Q

theorem Rule.AppliesOnly.mono (h : r.AppliesOnly Q) (hQ : ∀ label, Q label → Q' label) :
    r.AppliesOnly Q' :=
  fun t ht => (h t ht).mono hQ

theorem Rule.appliesOnly_iff : r.AppliesOnly Q ↔ r.body.AppliesOnly Q ∧
    (∀ t ∈ r.requires, t.AppliesOnly Q) ∧ ∀ t ∈ r.ensures, t.AppliesOnly Q :=
  Rule.forall_mem_terms

theorem Context.appliesOnly_iff :
    c.AppliesOnly Q ↔ c.body.AppliesOnly Q ∧ ∀ t ∈ c.requires, t.AppliesOnly Q := by
  rw [AppliesOnly, terms, List.forall_mem_cons]
  exact and_congr_right fun _ => forall_congr' fun _ => imp_congr_left Option.mem_toList

theorem Term.appliesOnly_ofNames (names : List String) :
    ∀ t ∈ names.map Term.ofName, t.AppliesOnly Q :=
  List.forall_mem_map.2 fun _ _ => appliesOnly_var _

/-! ## Strict productions -/

namespace Strict

theorem appliesOnly_resultCondition (hresult : Q resultPredicate) (hand : Q "_andBool_")
    (earlier : List Nat) : ∀ t ∈ resultCondition earlier, t.AppliesOnly Q := by
  unfold resultCondition
  suffices hfold : ∀ condition : Option Term, (∀ t ∈ condition, t.AppliesOnly Q) →
      ∀ t ∈ earlier.foldl (fun condition j =>
        some (.andBool condition (.app resultPredicate [resultVariable j]))) condition,
        t.AppliesOnly Q from hfold none fun _ ht => (nomatch ht)
  induction earlier with
  | nil => exact fun _ h => h
  | cons j earlier ih =>
    refine fun condition hcondition => ih _ fun t ht => ?_
    cases Option.mem_some_iff.1 ht
    refine Term.appliesOnly_andBool hand hcondition (Term.appliesOnly_app.2 ⟨hresult, ?_⟩)
    exact List.forall_mem_singleton.2 (Term.appliesOnly_var _)

theorem appliesOnly_contextAt (hresult : Q resultPredicate) (hand : Q "_andBool_")
    {label : String} (hlabel : Q label) (arity position : Nat) (earlier : List Nat) :
    (contextAt label arity position earlier).AppliesOnly Q := by
  refine Context.appliesOnly_iff.2 ⟨Term.appliesOnly_app.2 ⟨hlabel, ?_⟩,
    appliesOnly_resultCondition hresult hand earlier⟩
  refine List.forall_mem_map.2 fun j _ => ?_
  split
  · exact Term.appliesOnly_var _
  · split
    · exact Term.appliesOnly_var _
    · exact Term.appliesOnly_var _

theorem appliesOnly_contextsFrom (hresult : Q resultPredicate) (hand : Q "_andBool_")
    {label : String} (hlabel : Q label) (arity : Nat) (sequential : Bool)
    (earlier positions : List Nat) :
    ∀ c ∈ contextsFrom label arity sequential earlier positions, c.AppliesOnly Q := by
  induction positions generalizing earlier with
  | nil => exact fun _ hc => (nomatch hc)
  | cons position others ih =>
    exact List.forall_mem_cons.2 ⟨appliesOnly_contextAt hresult hand hlabel _ _ _, ih _⟩

end Strict

/-! ## Anonymous variables -/

namespace AnonymousVariables

theorem appliesOnly_threadVariables? {o : Option Term} (h : ∀ t ∈ o, t.AppliesOnly Q)
    (names : FreshNames) :
    ∀ t ∈ (Term.threadVariables? nameVariable o names).1, t.AppliesOnly Q := by
  intro t ht
  obtain ⟨u, hu, rfl⟩ := exists_of_threadVariables? ht
  exact (h u hu).threadVariables names

theorem appliesOnly_resolveRule (h : r.AppliesOnly Q) : (resolveRule r).AppliesOnly Q := by
  obtain ⟨hbody, hrequires, hensures⟩ := Rule.appliesOnly_iff.1 h
  exact Rule.appliesOnly_iff.2 ⟨hbody.threadVariables _, appliesOnly_threadVariables? hrequires _,
    appliesOnly_threadVariables? hensures _⟩

theorem appliesOnly_resolveContext (h : c.AppliesOnly Q) : (resolveContext c).AppliesOnly Q := by
  obtain ⟨hbody, hrequires⟩ := Context.appliesOnly_iff.1 h
  exact Context.appliesOnly_iff.2
    ⟨hbody.threadVariables _, appliesOnly_threadVariables? hrequires _⟩

end AnonymousVariables

/-! ## Freezers -/

namespace Freezer

variable {index : Nat}

theorem appliesOnly_heated (hlabel : Q (label c index)) : (heated c index).AppliesOnly Q := by
  refine ((Term.hereditary_appliesOnly Q).seq _).2 (List.forall_mem_cons.2
    ⟨Term.appliesOnly_var _, List.forall_mem_singleton.2 (Term.appliesOnly_app.2 ⟨hlabel, ?_⟩)⟩)
  exact Term.appliesOnly_ofNames _

theorem appliesOnly_heatRule (hlabel : Q (label c index)) (h : c.AppliesOnly Q) :
    (heatRule c index).AppliesOnly Q := by
  obtain ⟨hbody, hrequires⟩ := Context.appliesOnly_iff.1 h
  exact Rule.appliesOnly_iff.2 ⟨Term.appliesOnly_rewrite.2 ⟨hbody, appliesOnly_heated hlabel⟩,
    hrequires, fun _ ht => (nomatch ht)⟩

theorem appliesOnly_coolRule (hlabel : Q (label c index)) (h : c.AppliesOnly Q) :
    (coolRule c index).AppliesOnly Q := by
  obtain ⟨hbody, -⟩ := Context.appliesOnly_iff.1 h
  exact Rule.appliesOnly_iff.2 ⟨Term.appliesOnly_rewrite.2 ⟨appliesOnly_heated hlabel, hbody⟩,
    fun _ ht => (nomatch ht), fun _ ht => (nomatch ht)⟩

end Freezer

/-! ## Heating and cooling -/

theorem HeatCool.appliesOnly_resolveRule (hresult : Q resultPredicate) (hnot : Q notLabel)
    (hand : Q "_andBool_") (h : r.AppliesOnly Q) (hr' : resolveRule r = .ok r') :
    r'.AppliesOnly Q := by
  have hhole : holeIsResult.AppliesOnly Q :=
    Term.appliesOnly_app.2 ⟨hresult, List.forall_mem_singleton.2 (Term.appliesOnly_var _)⟩
  cases hc : condition? r with
  | none =>
    rw [resolveRule, hc] at hr'
    cases hr'
    exact h
  | some condition =>
    have hcondition : condition.AppliesOnly Q := by
      unfold condition? at hc
      split at hc
      · cases hc
        exact Term.appliesOnly_app.2 ⟨hnot, List.forall_mem_singleton.2 hhole⟩
      · split at hc
        · cases hc
          exact hhole
        · cases hc
    obtain ⟨-, rfl⟩ := (resolveRule_eq_ok hc).1 hr'
    obtain ⟨hbody, hrequires, hensures⟩ := Rule.appliesOnly_iff.1 h
    refine Rule.appliesOnly_iff.2 ⟨hbody, fun t ht => ?_, hensures⟩
    cases Option.mem_some_iff.1 ht
    exact Term.appliesOnly_andBool hand hrequires hcondition

/-! ## Casts -/

namespace SemanticCasts

variable {casts : Casts} {t : Term}

theorem appliesOnly_stripHere (h : t.AppliesOnly Q) : (stripHere casts t).AppliesOnly Q := by
  unfold stripHere
  split
  · split
    · exact Term.appliesOnly_var _
    · exact Term.appliesOnly_var _
  · split
    · exact (Term.appliesOnly_app.1 h).2 _ List.mem_cons_self
    · exact h
  · exact h

theorem appliesOnly_strip (h : t.AppliesOnly Q) : (strip casts t).AppliesOnly Q :=
  h.transform fun _ => appliesOnly_stripHere

/-- The variables of a term that are cast are cast by labels of the term. -/
theorem applies_cast_of_mem {e : String × SortName} (he : e ∈ (castsOf [t]).entries) :
    t.Applies (Label.cast e.2) := by
  have hget := OrderedMap.get?_eq_some_iff.2 he
  rw [get?_castsOf] at hget
  obtain ⟨found, hfound, hsort⟩ := Option.map_eq_some_iff.1 hget
  obtain ⟨u, hu, hcast⟩ := List.mem_filterMap.1 (List.mem_of_find?_eq_some hfound)
  rw [List.flatMap_singleton] at hu
  unfold castHere? at hcast
  split at hcast
  · rename_i label v
    obtain ⟨sort, hlabel, rfl⟩ := Option.map_eq_some_iff.1 hcast
    obtain ⟨name, hname, rfl⟩ := Option.map_eq_some_iff.1 hlabel
    rw [Label.behind?_eq_some_iff.1 hname] at hu
    rw [← hsort]
    exact ⟨_, hu⟩
  · cases hcast

theorem appliesOnly_sideCondition {skip : Bool} {requires : Option Term} (hand : Q "_andBool_")
    (hrequires : ∀ u ∈ requires, u.AppliesOnly Q)
    (hcasts : skip = false → ∀ sort, needsPredicate sort = true → t.Applies (Label.cast sort) →
      Q sort.predicateLabel) : ∀ u ∈ sideCondition skip requires t, u.AppliesOnly Q := by
  unfold sideCondition
  split
  · exact hrequires
  · rename_i hskip
    have hentries : ∀ e ∈ (castsOf [t]).entries.filter (needsPredicate ·.2),
        Q e.2.predicateLabel := by
      intro e he
      obtain ⟨he, hneeds⟩ := List.mem_filter.1 he
      exact hcasts (Bool.eq_false_iff.2 hskip) e.2 hneeds (applies_cast_of_mem he)
    generalize (castsOf [t]).entries.filter (needsPredicate ·.2) = entries at hentries
    induction entries generalizing requires with
    | nil => exact hrequires
    | cons e entries ih =>
      obtain ⟨he, hothers⟩ := List.forall_mem_cons.1 hentries
      refine ih (fun u hu => ?_) hothers
      cases Option.mem_some_iff.1 hu
      refine Term.appliesOnly_andBool hand hrequires (Term.appliesOnly_app.2 ⟨he, ?_⟩)
      exact List.forall_mem_singleton.2 (Term.appliesOnly_var _)

/-- A rule without casts applies its labels and the membership predicates of the sorts that its
left-hand side casts to. -/
theorem appliesOnly_resolveRule {skip : Bool} (hand : Q' "_andBool_")
    (hQ : ∀ label, Q label → Q' label)
    (hcasts : skip = false → ∀ sort, needsPredicate sort = true → Q (Label.cast sort) →
      Q' sort.predicateLabel) (h : r.AppliesOnly Q) : (resolveRule skip r).AppliesOnly Q' := by
  obtain ⟨hbody, hrequires, hensures⟩ := Rule.appliesOnly_iff.1 h
  have hstrip : ∀ o : Option Term, (∀ t ∈ o, t.AppliesOnly Q) →
      ∀ t ∈ o.map (strip (castsOf r.terms)), t.AppliesOnly Q' := by
    intro o ho t ht
    obtain ⟨u, hu, rfl⟩ := Option.map_eq_some_iff.1 ht
    exact (appliesOnly_strip (ho u hu)).mono hQ
  refine Rule.appliesOnly_iff.2 ⟨(appliesOnly_strip hbody).mono hQ, ?_, hstrip _ hensures⟩
  exact appliesOnly_sideCondition hand (hstrip _ hrequires) fun hskip sort hneeds hcast =>
    hcasts hskip sort hneeds (hbody.lhs _ hcast)

end SemanticCasts

/-! ## Made-up values -/

namespace FreshConstants

theorem appliesOnly_replaceHere {values : List (String × Term)} {t : Term}
    (hvalues : ∀ e ∈ values, e.2.AppliesOnly Q) (h : t.AppliesOnly Q) :
    (replaceHere values t).AppliesOnly Q := by
  cases t with
  | var v =>
    show (replace values (.var v)).AppliesOnly Q
    rcases replace_var values v with ⟨e, he, hvalue⟩ | ⟨-, hvar⟩
    · rw [hvalue]
      exact hvalues e he
    · rw [hvar]
      exact h
  | _ => exact h

/-- A rule with its values applies its labels, generators and addition. -/
theorem appliesOnly_resolveRule (hplus : Q plusLabel)
    (hgenerators : ∀ p ∈ d.productions, p.attributes.contains Attributes.freshGenerator = true →
      ∀ label ∈ p.label, Q label) (h : r.AppliesOnly Q) (hr' : resolveRule d r = .ok r') :
    r'.AppliesOnly Q := by
  rcases resolveRule_eq_ok hr' with ⟨-, rfl⟩ | ⟨values, hvalues, rfl⟩
  · exact h
  · have hcounter : (counterOf r).AppliesOnly Q := Term.appliesOnly_var _
    have hsum : ∀ n : Nat, (plus (counterOf r) (.int n)).AppliesOnly Q := fun n =>
      Term.appliesOnly_app.2 ⟨hplus, List.forall_mem_cons.2 ⟨hcounter,
        List.forall_mem_singleton.2 (Term.appliesOnly_token _ _)⟩⟩
    have hvalue : ∀ e ∈ values, e.2.AppliesOnly Q := by
      intro e he
      obtain ⟨label, n, ⟨p, hp, hlabel, hmarked⟩, heq⟩ := exists_value_of_mem hvalues he
      rw [heq]
      exact Term.appliesOnly_app.2 ⟨hgenerators p hp hmarked label hlabel,
        List.forall_mem_singleton.2 (hsum n)⟩
    have hreplace : ∀ {t : Term}, t.AppliesOnly Q → (replace values t).AppliesOnly Q :=
      fun ht => ht.transform fun _ => appliesOnly_replaceHere hvalue
    have hoption : ∀ o : Option Term, (∀ t ∈ o, t.AppliesOnly Q) →
        ∀ t ∈ o.map (replace values), t.AppliesOnly Q := by
      intro o ho t ht
      obtain ⟨u, hu, rfl⟩ := Option.map_eq_some_iff.1 ht
      exact hreplace (ho u hu)
    have hq := Term.hereditary_appliesOnly Q
    obtain ⟨hbody, hrequires, hensures⟩ := Rule.appliesOnly_iff.1 h
    refine Rule.appliesOnly_iff.2 ⟨hq.beside.2 ⟨hreplace hbody, (hq.cell _ _).2 ?_⟩,
      hoption _ hrequires, hoption _ hensures⟩
    exact Term.appliesOnly_rewrite.2 ⟨hcounter, hsum _⟩

end FreshConstants

/-! ## Cells -/

theorem ComputationCell.appliesOnly_addToRule {cell : String} (h : r.AppliesOnly Q) :
    (addToRule cell d r).AppliesOnly Q := by
  unfold addToRule
  split
  · exact h
  · obtain ⟨hbody, hrequires, hensures⟩ := Rule.appliesOnly_iff.1 h
    exact Rule.appliesOnly_iff.2 ⟨wrap_of_hereditary (Term.hereditary_appliesOnly Q) hbody,
      hrequires, hensures⟩

theorem StrategyCell.appliesOnly_addToRule (hheat : Q heatMarker) (hcool : Q coolMarker)
    (h : r.AppliesOnly Q) : (addToRule d r).AppliesOnly Q := by
  have hq := Term.hereditary_appliesOnly Q
  unfold addToRule
  split
  · exact h
  · obtain ⟨hbody, hrequires, hensures⟩ := Rule.appliesOnly_iff.1 h
    refine Rule.appliesOnly_iff.2 ⟨hq.beside.2 ⟨hbody, (hq.cell _ _).2 ?_⟩, hrequires, hensures⟩
    exact content_of_hereditary hq (Term.appliesOnly_constant.2 hheat)
      (Term.appliesOnly_constant.2 hcool) r

theorem Concretization.appliesOnly_resolveRule {configuration : Term} {tree : CellTree}
    (ht : CellTree.ofTerm configuration = .ok tree) (h : r.AppliesOnly Q)
    (hr' : resolveRule tree d r = .ok r') : r'.AppliesOnly Q := by
  have hq := Term.hereditary_appliesOnly Q
  rcases exists_body_of_resolveRule ht hr' with ⟨-, rfl⟩ | ⟨l, f, -, hf, rfl⟩
  · exact h
  · obtain ⟨hbody, hrequires, hensures⟩ := Rule.appliesOnly_iff.1 h
    have hstock := fragmentsOf_of_hereditary hq hbody hf
    exact Rule.appliesOnly_iff.2 ⟨place_of_hereditary hq hstock l f.names, hrequires, hensures⟩

end RewriteSemantics
