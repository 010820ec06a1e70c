/-
# Places in terms and rules

A place in a term is a list of numbers, which say at each node into which child the way goes on. A
place in a rule lies in its body, its side condition or its promise. If another term is put beside
the body, the places in the body stay unless the body was no bag: then they move into the first item
of the new one.
-/
import RewriteSemantics.Proofs.Term.Traversal
import RewriteSemantics.Sentence

namespace RewriteSemantics

namespace Term

variable {t u : Term} {place : List Nat}

/-! ## Subterms -/

/-- The subterm at a place. -/
def at? : Term → List Nat → Option Term
  | t, [] => some t
  | t, i :: place => t.children[i]?.bind (·.at? place)

theorem at?_cons_eq_some {i : Nat} :
    t.at? (i :: place) = some u ↔ ∃ c, t.children[i]? = some c ∧ c.at? place = some u :=
  Option.bind_eq_some_iff

/-- Every variable of a term stands somewhere. -/
theorem exists_at?_of_mem_variableNames {x : String} (h : x ∈ t.variableNames) :
    ∃ place v, t.at? place = some (.var v) ∧ v.name = x := by
  induction t using induct_children with
  | step t ih =>
    rcases mem_variableNames_iff.1 h with ⟨v, rfl, hx⟩ | ⟨c, hc, hx⟩
    · exact ⟨[], v, rfl, hx⟩
    · obtain ⟨i, hi⟩ := List.getElem?_of_mem hc
      obtain ⟨place, v, hv, hx⟩ := ih c hc hx
      exact ⟨i :: place, v, at?_cons_eq_some.2 ⟨c, hi, hv⟩, hx⟩

/-! ## Another term beside -/

/-- Where a place of a term is once another term stands beside it. -/
def placeBeside : Term → List Nat → List Nat
  | .bag _, place => place
  | _, place => 0 :: place

/-- What stands in a term still stands there. Only the list of items of a bag is no longer the
same. -/
theorem at?_beside (h : t.at? place = some u) (hu : ∀ items, u ≠ .bag items) (extra : Term) :
    (t.beside extra).at? (t.placeBeside place) = some u := by
  cases t with
  | bag items =>
    cases place with
    | nil => exact absurd (Option.some.inj h).symm (hu items)
    | cons i place =>
      obtain ⟨c, hc, h⟩ := at?_cons_eq_some.1 h
      obtain ⟨hi, -⟩ := List.getElem?_eq_some_iff.1 hc
      exact at?_cons_eq_some.2 ⟨c, (List.getElem?_append_left hi).trans hc, h⟩
  | _ => exact at?_cons_eq_some.2 ⟨_, rfl, h⟩

end Term

namespace Rule

/-! ## Rules -/

/-- A place in the body, the side condition or the promise of a rule. -/
inductive Place where
  | body (place : List Nat)
  | requires (place : List Nat)
  | ensures (place : List Nat)

/-- The subterm at a place of a rule. -/
def at? (r : Rule) : Place → Option Term
  | .body place => r.body.at? place
  | .requires place => r.requires.bind (·.at? place)
  | .ensures place => r.ensures.bind (·.at? place)

/-- Where a place of a rule is once another term stands beside the body. -/
def placeBeside (r : Rule) : Place → Place
  | .body place => .body (r.body.placeBeside place)
  | .requires place => .requires place
  | .ensures place => .ensures place

end Rule

end RewriteSemantics
