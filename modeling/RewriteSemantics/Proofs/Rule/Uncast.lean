/-
# Rules in which nothing is cast

Casts go from the leaves up: when a label that casts is removed, nothing is cast in what it stands
over any more. What comes in are membership predicates, and no predicate is a cast.
-/
import RewriteSemantics.Proofs.Rule.Variables
import RewriteSemantics.Proofs.Term.Hereditary

namespace RewriteSemantics

namespace Term

/-- A function that makes a node without casts of every node with such children makes a term without
casts of every term. -/
theorem uncast_transform {f : Term → Term} (hf : ∀ t, (∀ c ∈ t.children, c.Uncast) → (f t).Uncast)
    (t : Term) : (t.transform f).Uncast := by
  have hmap : ∀ ts : List Term, (∀ t ∈ ts, (t.transform f).Uncast) →
      ∀ u ∈ transformAll f ts, u.Uncast := by
    intro ts h
    rw [transformAll_eq_map]
    exact List.forall_mem_map.2 h
  induction t using induct with
  | app label args ih => exact hf _ (hmap args ih)
  | var v => exact hf _ fun _ hc => (nomatch hc)
  | token text sort => exact hf _ fun _ hc => (nomatch hc)
  | rewrite l r ihl ihr =>
    exact hf _ (List.forall_mem_cons.2 ⟨ihl, List.forall_mem_singleton.2 ihr⟩)
  | seq items ih => exact hf _ (hmap items ih)
  | bag items ih => exact hf _ (hmap items ih)
  | cell tag body ih => exact hf _ (List.forall_mem_singleton.2 ih)

theorem uncast_andBool {left : Option Term} {right : Term} (hleft : ∀ t ∈ left, t.Uncast)
    (hright : right.Uncast) : (andBool left right).Uncast := by
  unfold andBool
  split
  · exact hright
  · split
    · exact hright
    · refine uncast_app (by cbv) (List.forall_mem_cons.2 ⟨hleft _ rfl, ?_⟩)
      exact List.forall_mem_singleton.2 hright

end Term

namespace SemanticCasts

open Term

variable {casts : Casts}

theorem uncast_stripHere {t : Term} (h : ∀ c ∈ t.children, c.Uncast) :
    (stripHere casts t).Uncast := by
  unfold stripHere
  split
  · split
    · exact uncast_var _
    · exact uncast_var _
  · split
    · exact h _ List.mem_cons_self
    · rename_i hlabel
      exact uncast_app hlabel h
  · rename_i hone
    exact uncast_iff.2 ⟨fun label u ht => absurd ht (hone label u), h⟩

theorem uncast_strip (t : Term) : (strip casts t).Uncast :=
  uncast_transform (fun _ => uncast_stripHere) t

theorem castSort?_predicateLabel (sort : SortName) :
    Label.castSort? sort.predicateLabel = none := by
  rw [Label.castSort?, Label.behind?, SortName.predicateLabel, String.toList_append]
  rfl

theorem uncast_membership (name : String) (sort : SortName) : (membership name sort).Uncast :=
  uncast_app (castSort?_predicateLabel sort) (List.forall_mem_singleton.2 (uncast_var _))

theorem uncast_sideCondition {skip : Bool} {requires : Option Term} {lhs : Term}
    (h : ∀ t ∈ requires, t.Uncast) : ∀ t ∈ sideCondition skip requires lhs, t.Uncast := by
  unfold sideCondition
  split
  · exact h
  · generalize (castsOf [lhs]).entries.filter (needsPredicate ·.2) = entries
    induction entries generalizing requires with
    | nil => exact h
    | cons e entries ih =>
      refine ih fun t ht => ?_
      cases Option.mem_some_iff.1 ht
      exact uncast_andBool h (uncast_membership e.1 e.2)

/-- A rule whose casts are resolved has none. -/
theorem uncast_resolveRule (skip : Bool) (r : Rule) :
    ∀ t ∈ (resolveRule skip r).terms, t.Uncast := by
  have hstrip : ∀ o : Option Term, ∀ t ∈ o.map (strip (castsOf r.terms)), t.Uncast := by
    intro o t ht
    obtain ⟨u, -, rfl⟩ := Option.map_eq_some_iff.1 ht
    exact uncast_strip u
  exact Rule.forall_mem_terms.2 ⟨uncast_strip r.body, uncast_sideCondition (hstrip r.requires),
    hstrip r.ensures⟩

end SemanticCasts

end RewriteSemantics
