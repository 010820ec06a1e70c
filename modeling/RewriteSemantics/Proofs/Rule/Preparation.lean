/-
# Rules before their cells are placed

A rule that is compiled has its anonymous variables named and its casts resolved first. Neither
brings in a variable whose value is made up. A rule whose body is made of cells, or belongs to a
function, is then left alone until its cells are placed.
-/
import RewriteSemantics.Proofs.FreshNames
import RewriteSemantics.Proofs.Related
import RewriteSemantics.Proofs.Rule.Variables
import RewriteSemantics.Proofs.Term.Hereditary
import RewriteSemantics.Rule.ComputationCell

namespace RewriteSemantics

open FreshNames (candidate)

/-- A rule with its anonymous variables named and without casts. -/
def Rule.prepared (skip : Bool) (r : Rule) : Rule :=
  SemanticCasts.resolveRule skip (AnonymousVariables.resolveRule r)

/-! ## Variables -/

namespace AnonymousVariables

/-- A renamed term has variables of the term and generated ones. -/
theorem mem_variableNames_threadVariables {t : Term} {names : FreshNames} {x : String}
    (h : x ∈ (t.threadVariables nameVariable names).1.variableNames) :
    x ∈ t.variableNames ∨ ∃ n, x = candidate generatedStem n := by
  obtain ⟨v, hv, rfl⟩ := Term.mem_variableNames.1 h
  obtain ⟨u, hu, names', rfl⟩ := Term.mem_occurrences_threadVariables t names hv
  unfold nameVariable
  split
  · exact .inr ⟨_, rfl⟩
  · exact .inl (Term.mem_variableNames.2 ⟨u, hu, rfl⟩)

/-- An optional term is renamed like a term. -/
theorem exists_of_threadVariables? {o : Option Term} {names : FreshNames} {t : Term}
    (h : (Term.threadVariables? nameVariable o names).1 = some t) :
    ∃ u, o = some u ∧ t = (u.threadVariables nameVariable names).1 := by
  cases o with
  | none => cases h
  | some u =>
    cases h
    exact ⟨u, rfl, rfl⟩

end AnonymousVariables

/-- No generated name marks a made-up value. -/
theorem isFreshName_candidate (n : Nat) :
    Variable.isFreshName (candidate generatedStem n) = false :=
  Term.isFreshName_new (.inl rfl) n

/-- A rule that mentions no made-up value makes up none once it is prepared. -/
theorem Rule.freshVariables_prepared {skip : Bool} {r : Rule}
    (h : ∀ x ∈ r.variableNames, Variable.isFreshName x = false) :
    FreshConstants.freshVariables (r.prepared skip) = ∅ := by
  -- Every variable the search meets is one of the rule, or a generated one.
  have hterm : ∀ t ∈ r.terms, ∀ casts names, ∀ x ∈ (SemanticCasts.strip casts
      (t.threadVariables AnonymousVariables.nameVariable names).1).variableNames,
      Variable.isFreshName x = false := by
    intro t ht casts names x hx
    rw [SemanticCasts.mem_variableNames_strip] at hx
    rcases AnonymousVariables.mem_variableNames_threadVariables hx with hx | ⟨n, rfl⟩
    · exact h x (Rule.mem_variableNames.2 ⟨t, ht, hx⟩)
    · exact isFreshName_candidate n
  refine FreshConstants.freshVariables_eq_empty (hterm r.body List.mem_cons_self _ _) ?_
  intro t ht
  obtain ⟨u, hu, rfl⟩ := Option.map_eq_some_iff.1 ht
  obtain ⟨w, hw, rfl⟩ := AnonymousVariables.exists_of_threadVariables? hu
  exact hterm w (Rule.mem_terms.2 (.inr (.inr hw))) _ _

/-! ## Heads and cells -/

/-- Whether a rule belongs to a function can be told before it is prepared, once its casts are
removed. -/
theorem Rule.isFunctionRule_prepared (d : Definition) (skip : Bool) (r : Rule) :
    d.isFunctionRule (r.prepared skip) =
      d.isFunctionRule (.ofBody (SemanticCasts.strip ∅ r.body)) := by
  have hhead : (r.prepared skip).body.lhs.topLabel? =
      (SemanticCasts.strip ∅ r.body).lhs.topLabel? :=
    SemanticCasts.topLabel?_strip_threadVariables r.body _
  unfold Definition.isFunctionRule
  rw [hhead]
  rfl

/-- A body that is a cell, or some cells side by side. -/
def Term.IsCells (t : Term) : Prop :=
  t.isCell = true ∨ ∃ items, t = .bag items ∧ items ≠ [] ∧ ∀ item ∈ items, item.isCell = true

/-- Renaming and removing casts make cells of cells. -/
theorem Term.isCell_strip_threadVariables {casts : SemanticCasts.Casts} {names : FreshNames}
    {t : Term} (h : t.isCell = true) :
    (SemanticCasts.strip casts
      (t.threadVariables AnonymousVariables.nameVariable names).1).isCell = true := by
  cases t with
  | cell tag body => rfl
  | _ => cases h

theorem Rule.isCells_prepared {skip : Bool} {r : Rule} (h : r.body.IsCells) :
    (r.prepared skip).body.IsCells := by
  show (SemanticCasts.strip _
    (r.body.threadVariables AnonymousVariables.nameVariable _).1).IsCells
  rcases h with h | ⟨items, hbody, hnonempty, hcells⟩
  · exact .inl (Term.isCell_strip_threadVariables h)
  · have hrelated := Term.threadVariablesAll_related (f := AnonymousVariables.nameVariable) items
      (.avoiding r.variableNames)
    rw [hbody, Term.threadVariables, SemanticCasts.strip_bag]
    refine .inr ⟨_, rfl, ?_, ?_⟩
    · intro hnil
      rw [List.map_eq_nil_iff] at hnil
      rw [hnil, List.forall₂_nil_right_iff] at hrelated
      exact hnonempty hrelated
    · intro item hitem
      obtain ⟨u, hu, rfl⟩ := List.mem_map.1 hitem
      obtain ⟨t, ht, names, rfl⟩ := hrelated.flip.exists_of_mem hu
      exact Term.isCell_strip_threadVariables (hcells t ht)

theorem Term.hasCells_of_isCells {t : Term} (h : t.IsCells) : t.hasCells = true := by
  rw [hasCells, anySubterm, List.any_eq_true]
  rcases h with h | ⟨items, rfl, hnonempty, hcells⟩
  · exact ⟨t, self_mem_subterms t, h⟩
  · obtain ⟨item, hitem⟩ := List.exists_mem_of_ne_nil items hnonempty
    exact ⟨item, mem_subterms_of_child hitem (self_mem_subterms item), hcells item hitem⟩

/-- Cells stay as they are when rules are placed into the computation cell. -/
theorem ComputationCell.wrap_of_isCells {cell : String} {t : Term} (h : t.IsCells) :
    wrap cell t = t := by
  have hhas := Term.hasCells_of_isCells h
  unfold wrap
  rw [if_pos hhas]
  rcases h with h | ⟨items, rfl, -, hcells⟩
  · cases t with
    | cell tag body => rfl
    | _ => cases h
  · have hothers : items.filter (!·.isCell) = [] := by
      rw [List.filter_eq_nil_iff]
      intro item hitem
      rw [hcells item hitem]
      decide
    simp [hothers]

end RewriteSemantics
