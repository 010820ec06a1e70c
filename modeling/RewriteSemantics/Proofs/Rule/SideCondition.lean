/-
# Conjuncts of side conditions

A heating rule demands that the term at its hole is no result, and a cooling rule that it is one.
The demand becomes a conjunct of the side condition. Whatever later happens to the rule, conjuncts
are only added, and the demand stays but for the sort of the hole.
-/
import RewriteSemantics.Proofs.Rule.Variables
import RewriteSemantics.Rule.ComputationCell
import RewriteSemantics.Rule.Concretization

namespace RewriteSemantics

/-! ## Conjuncts -/

/-- A term is one of the terms that a condition is the conjunction of. -/
inductive Term.IsConjunct (t : Term) : Term → Prop
  | self : IsConjunct t t
  | left {l r : Term} : IsConjunct t l → IsConjunct t (.app "_andBool_" [l, r])
  | right {l r : Term} : IsConjunct t r → IsConjunct t (.app "_andBool_" [l, r])

namespace Term

variable {t : Term}

theorem isConjunct_andBool (left : Option Term) (t : Term) : t.IsConjunct (andBool left t) := by
  unfold andBool
  split
  · exact .self
  · split
    · exact .self
    · exact .right .self

/-- A conjunct other than the literal `true` stays one when a condition is extended. -/
theorem IsConjunct.andBool {c : Term} (h : t.IsConjunct c) (ht : t.isTrue = false) (right : Term) :
    t.IsConjunct (andBool (some c) right) := by
  unfold Term.andBool
  split
  · rename_i heq
    cases heq
  · rename_i c heq
    cases heq
    split
    · rename_i htrue
      cases h with
      | self =>
        rw [ht] at htrue
        cases htrue
      | left _ => cases of_decide_eq_true htrue
      | right _ => cases of_decide_eq_true htrue
    · exact .left h

/-- Conjuncts are kept by functions that distribute over conjunction. -/
theorem IsConjunct.map {c : Term} (h : t.IsConjunct c) {φ : Term → Term}
    (hφ : ∀ l r, φ (.app "_andBool_" [l, r]) = .app "_andBool_" [φ l, φ r]) :
    (φ t).IsConjunct (φ c) := by
  induction h with
  | self => exact .self
  | left _ ih => exact hφ _ _ ▸ .left ih
  | right _ ih => exact hφ _ _ ▸ .right ih

end Term

/-- A rule has a side condition with a conjunct. -/
def Rule.Demands (r : Rule) (t : Term) : Prop :=
  ∃ c, r.requires = some c ∧ t.IsConjunct c

/-! ## The demands of heating and cooling -/

namespace HeatCool

/-- The condition that the term at a hole of some sort is a result. -/
def isResult (sort : Option SortName) : Term :=
  .app resultPredicate [.var ⟨Variable.hole, sort⟩]

/-- The condition that it is no result. -/
def isNoResult (sort : Option SortName) : Term :=
  .app notLabel [isResult sort]

variable {r r' : Rule}

theorem condition?_of_heat (hheat : r.isHeat = true) : condition? r = some (isNoResult none) := by
  rw [condition?, hheat]
  rfl

theorem demands_of_heat (h : resolveRule r = .ok r') (hheat : r.isHeat = true) :
    r'.Demands (isNoResult none) := by
  obtain ⟨-, rfl⟩ := (resolveRule_eq_ok (condition?_of_heat hheat)).1 h
  exact ⟨_, rfl, Term.isConjunct_andBool _ _⟩

theorem demands_of_cool (h : resolveRule r = .ok r') (hheat : r.isHeat = false)
    (hcool : r.isCool = true) : r'.Demands (isResult none) := by
  have hcondition : condition? r = some (isResult none) := by
    rw [condition?, hheat, hcool]
    rfl
  obtain ⟨-, rfl⟩ := (resolveRule_eq_ok hcondition).1 h
  exact ⟨_, rfl, Term.isConjunct_andBool _ _⟩

end HeatCool

/-! ## Casts -/

namespace SemanticCasts

open HeatCool

variable {casts : Casts}

theorem strip_andBool (l r : Term) : strip casts (.app "_andBool_" [l, r]) =
    .app "_andBool_" [strip casts l, strip casts r] := by
  rw [strip_app]
  rfl

theorem strip_isResult (sort : Option SortName) :
    strip casts (isResult sort) = isResult ((casts.get? Variable.hole).or sort) := by
  rw [isResult, strip_app_of_castSort? (by cbv), List.map_cons, strip_var]
  rfl

theorem strip_isNoResult (sort : Option SortName) :
    strip casts (isNoResult sort) = isNoResult ((casts.get? Variable.hole).or sort) := by
  rw [isNoResult, strip_app_of_castSort? (by cbv), List.map_cons, strip_isResult]
  rfl

/-- A conjunct without casts adds none. -/
theorem get?_castsOf_andBool {left : Option Term} {right : Term} {x : String}
    (h : (castsOf [right]).get? x = none) :
    (castsOf [.andBool left right]).get? x = (castsOf left.toList).get? x := by
  unfold Term.andBool
  split
  · exact h
  · rename_i t
    split
    · rename_i htrue
      rw [h, of_decide_eq_true htrue]
      rfl
    · rw [get?_castsOf_children (castHere?_of_castSort? (by cbv) _)]
      show (castsOf (t :: [right])).get? x = _
      rw [get?_castsOf_cons, h, Option.or_none]
      rfl

theorem get?_castsOf_condition {r : Rule} {condition : Term}
    (hc : condition? r = some condition) (x : String) :
    (castsOf [condition]).get? x = none := by
  have hresult : (castsOf [holeIsResult]).get? x = none := by
    rw [holeIsResult, get?_castsOf_children (castHere?_of_castSort? (by cbv) _)]
    rfl
  unfold condition? at hc
  split at hc
  · cases hc
    rw [get?_castsOf_children (castHere?_of_castSort? (by cbv) _)]
    exact hresult
  · split at hc
    · cases hc
      exact hresult
    · cases hc

/-- Conjuncts of the given condition stay conjuncts. -/
theorem demands_sideCondition {skip : Bool} {requires : Option Term} {lhs t c : Term}
    (hc : requires = some c) (h : t.IsConjunct c) (ht : t.isTrue = false) :
    ∃ c', sideCondition skip requires lhs = some c' ∧ t.IsConjunct c' := by
  unfold sideCondition
  split
  · exact ⟨c, hc, h⟩
  · generalize (castsOf [lhs]).entries.filter (needsPredicate ·.2) = entries
    induction entries generalizing requires c with
    | nil => exact ⟨c, hc, h⟩
    | cons e entries ih =>
      rw [List.foldl_cons, hc]
      exact ih rfl (h.andBool ht _)

theorem demands_resolveRule {skip : Bool} {r : Rule} {t : Term} (h : r.Demands t)
    (ht : (strip (castsOf r.terms) t).isTrue = false) :
    (resolveRule skip r).Demands (strip (castsOf r.terms) t) := by
  obtain ⟨c, hc, hconjunct⟩ := h
  have hstripped : r.requires.map (strip (castsOf r.terms)) = some (strip (castsOf r.terms) c) := by
    rw [hc]
    rfl
  exact demands_sideCondition hstripped (hconjunct.map strip_andBool) ht

end SemanticCasts

/-! ## Made-up values -/

namespace FreshConstants

open HeatCool

/-- Only variables that are marked are given values. -/
theorem isFreshName_of_mem {r : Rule} {e : String × SortName}
    (he : e ∈ (freshVariables r).entries) : Variable.isFreshName e.1 = true := by
  have hget := OrderedMap.get?_eq_some_iff.2 he
  rw [freshVariables, OrderedMap.get?_foldl_insertIfNew] at hget
  obtain ⟨v, hv, -⟩ := Option.map_eq_some_iff.1 hget
  have hname : v.name = e.1 := by simpa using List.find?_some hv
  rw [← hname]
  exact (List.mem_filter.1 (List.mem_of_find?_eq_some hv)).2

/-- The values are those of the given names. -/
theorem map_fst_valuesFrom {d : Definition} {counter : Term} {offset : Nat}
    {l : List (String × SortName)} {values : List (String × Term)}
    (h : valuesFrom d counter offset l = .ok values) : values.map (·.1) = l.map (·.1) := by
  induction l generalizing offset values with
  | nil =>
    cases h
    rfl
  | cons e l ih =>
    obtain ⟨generator, -, h⟩ := Except.bind_eq_ok.1 h
    obtain ⟨others, hothers, h⟩ := Except.bind_eq_ok.1 h
    cases h
    rw [List.map_cons, List.map_cons, ih hothers]

/-- A name has no value exactly if it is not among the names of the values. -/
theorem lookup_eq_none_iff {values : List (String × Term)} {x : String} :
    values.lookup x = none ↔ x ∉ values.map (·.1) := by
  rw [List.lookup_eq_none_iff]
  constructor
  · intro h hx
    obtain ⟨e, he, rfl⟩ := List.mem_map.1 hx
    exact bne_iff_ne.1 (h e he) rfl
  · exact fun h e he => bne_iff_ne.2 fun hx => h (hx ▸ List.mem_map_of_mem he)

theorem replace_isResult {values : List (String × Term)}
    (h : Variable.hole ∉ values.map (·.1)) (sort : Option SortName) :
    replace values (isResult sort) = isResult sort := by
  show Term.app resultPredicate [(values.lookup Variable.hole).getD _] = _
  rw [lookup_eq_none_iff.2 h]
  rfl

theorem replace_isNoResult {values : List (String × Term)}
    (h : Variable.hole ∉ values.map (·.1)) (sort : Option SortName) :
    replace values (isNoResult sort) = isNoResult sort := by
  show Term.app notLabel [replace values (isResult sort)] = _
  rw [replace_isResult h]
  rfl

/-- A rule keeps what it demands of its hole. -/
theorem demands_resolveRule {d : Definition} {r r' : Rule} {t : Term}
    (h : resolveRule d r = .ok r') (hr : r.Demands t)
    (ht : ∀ values, Variable.hole ∉ values.map (·.1) → replace values t = t) : r'.Demands t := by
  rcases resolveRule_eq_ok h with ⟨-, rfl⟩ | ⟨values, hvalues, rfl⟩
  · exact hr
  · obtain ⟨c, hc, hconjunct⟩ := hr
    have hhole : Variable.hole ∉ values.map (·.1) := by
      rw [map_fst_valuesFrom hvalues]
      intro hmem
      obtain ⟨e, he, hname⟩ := List.mem_map.1 hmem
      have hfresh := isFreshName_of_mem he
      rw [hname] at hfresh
      revert hfresh
      decide
    refine ⟨replace values c, ?_, ?_⟩
    · show r.requires.map (replace values) = _
      rw [hc]
      rfl
    · have hmap := hconjunct.map (φ := replace values) fun l r => rfl
      rwa [ht values hhole] at hmap

end FreshConstants

/-! ## Cells -/

theorem ComputationCell.requires_addToRule (cell : String) (d : Definition) (r : Rule) :
    (addToRule cell d r).requires = r.requires := by
  unfold addToRule
  split <;> rfl

theorem Concretization.requires_resolveRule {tree : CellTree} {d : Definition} {r r' : Rule}
    (h : resolveRule tree d r = .ok r') : r'.requires = r.requires := by
  unfold resolveRule at h
  split at h
  · cases h
    rfl
  · obtain ⟨f, -, h⟩ := Except.bind_eq_ok.1 h
    dsimp only at h
    split at h
    · cases h
      rfl
    · cases h

end RewriteSemantics
