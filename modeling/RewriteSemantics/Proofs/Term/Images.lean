/-
# Images of terms

The sides of a term, its images under a function and its renamings keep the shape of the term apart
from single nodes. What occurs in an image is an image of what occurred.
-/
import Mathlib.Data.List.Forall2
import RewriteSemantics.Proofs.Term.Traversal

namespace RewriteSemantics.Term

/-! ## Lists of images -/

theorem lhsAll_eq_map (ts : List Term) : lhsAll ts = ts.map lhs := by
  induction ts with
  | nil => rfl
  | cons t ts ih => rw [lhsAll, ih, List.map_cons]

theorem rhsAll_eq_map (ts : List Term) : rhsAll ts = ts.map rhs := by
  induction ts with
  | nil => rfl
  | cons t ts ih => rw [rhsAll, ih, List.map_cons]

theorem transformAll_eq_map (f : Term → Term) (ts : List Term) :
    transformAll f ts = ts.map (transform f) := by
  induction ts with
  | nil => rfl
  | cons t ts ih => rw [transformAll, ih, List.map_cons]

/-! ## Sides -/

theorem exists_variable_of_map {f : Term → Term} {ts : List Term} {x : String}
    (hf : ∀ t ∈ ts, x ∈ (f t).variableNames → x ∈ t.variableNames)
    (h : ∃ u ∈ ts.map f, x ∈ u.variableNames) : ∃ t ∈ ts, x ∈ t.variableNames := by
  obtain ⟨u, hu, hx⟩ := h
  obtain ⟨t, ht, rfl⟩ := List.mem_map.1 hu
  exact ⟨t, ht, hf t ht hx⟩

/-- The variables of the left-hand side are variables of the term. -/
theorem mem_variableNames_of_lhs {t : Term} {x : String} (h : x ∈ t.lhs.variableNames) :
    x ∈ t.variableNames := by
  induction t using induct with
  | app label args ih =>
    rw [lhs, lhsAll_eq_map, mem_variableNames_app] at h
    exact mem_variableNames_app.2 (exists_variable_of_map ih h)
  | var w => exact h
  | token text sort => exact h
  | rewrite l r ihl _ => exact mem_variableNames_rewrite.2 (.inl (ihl h))
  | seq items ih =>
    rw [lhs, lhsAll_eq_map, mem_variableNames_seq] at h
    exact mem_variableNames_seq.2 (exists_variable_of_map ih h)
  | bag items ih =>
    rw [lhs, lhsAll_eq_map, mem_variableNames_bag] at h
    exact mem_variableNames_bag.2 (exists_variable_of_map ih h)
  | cell tag body ih =>
    rw [lhs, mem_variableNames_cell] at h
    exact mem_variableNames_cell.2 (ih h)

/-- The variables of the right-hand side are variables of the term. -/
theorem mem_variableNames_of_rhs {t : Term} {x : String} (h : x ∈ t.rhs.variableNames) :
    x ∈ t.variableNames := by
  induction t using induct with
  | app label args ih =>
    rw [rhs, rhsAll_eq_map, mem_variableNames_app] at h
    exact mem_variableNames_app.2 (exists_variable_of_map ih h)
  | var w => exact h
  | token text sort => exact h
  | rewrite l r _ ihr => exact mem_variableNames_rewrite.2 (.inr (ihr h))
  | seq items ih =>
    rw [rhs, rhsAll_eq_map, mem_variableNames_seq] at h
    exact mem_variableNames_seq.2 (exists_variable_of_map ih h)
  | bag items ih =>
    rw [rhs, rhsAll_eq_map, mem_variableNames_bag] at h
    exact mem_variableNames_bag.2 (exists_variable_of_map ih h)
  | cell tag body ih =>
    rw [rhs, mem_variableNames_cell] at h
    exact mem_variableNames_cell.2 (ih h)

/-! ## Renamings -/

section

variable {σ : Type} {f : Variable → σ → Variable × σ}

mutual

/-- The variables of a renamed term are images of variables. -/
theorem mem_occurrences_threadVariables {v : Variable} :
    ∀ (t : Term) (s : σ), v ∈ (threadVariables f t s).1.occurrences →
      ∃ u ∈ t.occurrences, ∃ s', v = (f u s').1
  | .app _ args, s, h => mem_occurrencesAll_threadVariablesAll args s h
  | .var w, s, h => ⟨w, List.mem_singleton_self w, s, List.mem_singleton.1 h⟩
  | .token .., _, h => nomatch h
  | .rewrite l r, s, h => by
    rcases List.mem_append.1 h with h | h
    · obtain ⟨u, hu, hv⟩ := mem_occurrences_threadVariables l s h
      exact ⟨u, List.mem_append_left _ hu, hv⟩
    · obtain ⟨u, hu, hv⟩ := mem_occurrences_threadVariables r _ h
      exact ⟨u, List.mem_append_right _ hu, hv⟩
  | .seq items, s, h => mem_occurrencesAll_threadVariablesAll items s h
  | .bag items, s, h => mem_occurrencesAll_threadVariablesAll items s h
  | .cell _ body, s, h => mem_occurrences_threadVariables body s h

/-- The variables of some renamed terms are images of variables. -/
theorem mem_occurrencesAll_threadVariablesAll {v : Variable} :
    ∀ (ts : List Term) (s : σ), v ∈ occurrencesAll (threadVariablesAll f ts s).1 →
      ∃ u ∈ occurrencesAll ts, ∃ s', v = (f u s').1
  | [], _, h => nomatch h
  | t :: ts, s, h => by
    rcases List.mem_append.1 h with h | h
    · obtain ⟨u, hu, hv⟩ := mem_occurrences_threadVariables t s h
      exact ⟨u, List.mem_append_left _ hu, hv⟩
    · obtain ⟨u, hu, hv⟩ := mem_occurrencesAll_threadVariablesAll ts _ h
      exact ⟨u, List.mem_append_right _ hu, hv⟩

end

/-- A renaming takes a list to a list of the same length, member by member. -/
theorem threadVariablesAll_related (ts : List Term) (s : σ) :
    List.Forall₂ (fun t u => ∃ s', u = (threadVariables f t s').1) ts
      (threadVariablesAll f ts s).1 := by
  induction ts generalizing s with
  | nil => exact .nil
  | cons t ts ih => exact .cons ⟨s, rfl⟩ (ih _)

end

end RewriteSemantics.Term
