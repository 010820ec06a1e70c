/-
# What removing casts leaves and adds

A rule whose casts are resolved differs from the rule in three things only: its casts are gone, its
variables have other sorts, and its side condition is extended. The first two are told by erasing:
with all casts and all sorts of variables erased, the rule is the same before and after. The third
is a list of membership predicates, one for each variable that is cast on the left-hand side to a
sort that says anything, in the order of the names. As nothing is cast any more and no predicate is
a cast, resolving the casts again changes nothing.
-/
import RewriteSemantics.Proofs.Rule.CastSorts
import RewriteSemantics.Proofs.Rule.Clean

namespace RewriteSemantics

namespace Term

/-! ## Erasure -/

/-- A label over some arguments, but the argument alone where the label casts a single one. -/
def appErased (label : String) : List Term → Term
  | [t] => if Label.castSort? label = none then .app label [t] else t
  | args => .app label args

mutual

/-- A term with its casts and the sorts of its variables erased. -/
def erased : Term → Term
  | .app label args => appErased label (erasedAll args)
  | .var v => .ofName v.name
  | .token text sort => .token text sort
  | .rewrite l r => .rewrite (erased l) (erased r)
  | .seq items => .seq (erasedAll items)
  | .bag items => .bag (erasedAll items)
  | .cell tag body => .cell tag (erased body)

/-- The members of a list with their casts and the sorts of their variables erased. -/
def erasedAll : List Term → List Term
  | [] => []
  | t :: ts => erased t :: erasedAll ts

end

theorem erasedAll_eq_map (ts : List Term) : erasedAll ts = ts.map erased := by
  induction ts with
  | nil => rfl
  | cons t ts ih => rw [erasedAll, ih, List.map_cons]

theorem erased_app (label : String) (args : List Term) :
    (app label args).erased = appErased label (args.map erased) := by
  rw [erased, erasedAll_eq_map]

theorem erased_seq (items : List Term) : (seq items).erased = .seq (items.map erased) := by
  rw [erased, erasedAll_eq_map]

theorem erased_bag (items : List Term) : (bag items).erased = .bag (items.map erased) := by
  rw [erased, erasedAll_eq_map]

/-! ## Conjunctions -/

/-- The conjunction of some conditions, grouped to the left. -/
def conjunction : List Term → Option Term
  | [] => none
  | t :: ts => some (ts.foldl (fun condition t => .app "_andBool_" [condition, t]) t)

/-- A condition with further ones behind it. The literal `true` in front of others is left out. -/
def extended (condition : Option Term) (others : List Term) : Option Term :=
  if others = [] then condition
  else conjunction (condition.toList.filter (· ≠ .bool true) ++ others)

theorem andBool_some {condition : Term} (h : condition ≠ .bool true) (t : Term) :
    andBool (some condition) t = .app "_andBool_" [condition, t] :=
  if_neg (decide_eq_true_iff.not.2 h)

theorem andBool_true (t : Term) : andBool (some (.bool true)) t = t :=
  rfl

/-- Once a conjunction is not the literal `true`, what is added stands behind it. -/
theorem foldl_andBool_some {condition : Term} (h : condition ≠ .bool true) (ts : List Term) :
    ts.foldl (fun condition t => some (andBool condition t)) (some condition) =
      conjunction (condition :: ts) := by
  induction ts generalizing condition with
  | nil => rfl
  | cons t ts ih =>
    rw [List.foldl_cons, andBool_some h]
    exact ih Term.noConfusion

/-- Conditions that are not trivial are added one after the other to make up one conjunction. -/
theorem foldl_andBool {ts : List Term} (h : ∀ t ∈ ts, t ≠ .bool true) (condition : Option Term) :
    ts.foldl (fun condition t => some (andBool condition t)) condition = extended condition ts := by
  cases ts with
  | nil => rfl
  | cons t ts =>
    have ht : t ≠ .bool true := h t List.mem_cons_self
    rw [List.foldl_cons, extended, if_neg (List.cons_ne_nil t ts)]
    cases condition with
    | none => exact foldl_andBool_some ht ts
    | some condition =>
      by_cases htrue : condition = .bool true
      · rw [htrue, andBool_true, foldl_andBool_some ht]
        rfl
      · rw [andBool_some htrue, foldl_andBool_some Term.noConfusion, Option.toList_some,
          List.filter_singleton, decide_eq_true htrue]
        rfl

end Term

namespace SemanticCasts

open Term

variable {casts : Casts}

/-! ## What is left -/

theorem erased_stripHere_app (label : String) (args : List Term) :
    (stripHere casts (.app label args)).erased = (app label args).erased := by
  rcases args with _ | ⟨t, _ | ⟨u, rest⟩⟩
  · rfl
  · rw [stripHere_one]
    split
    · rename_i hcast
      rw [erased_app, List.map_cons, List.map_nil, appErased,
        if_neg (Option.isSome_iff_ne_none.1 hcast)]
    · rfl
  · rfl

theorem map_erased_map_strip {ts : List Term} (h : ∀ t ∈ ts, (strip casts t).erased = t.erased) :
    (ts.map (strip casts)).map erased = ts.map erased := by
  rw [List.map_map]
  apply List.map_congr_left
  exact h

/-- Removing casts changes nothing but casts and the sorts of variables. -/
theorem erased_strip (t : Term) : (strip casts t).erased = t.erased := by
  induction t using Term.induct with
  | app label args ih =>
    rw [strip_app, erased_stripHere_app, erased_app, erased_app, map_erased_map_strip ih]
  | var v =>
    rw [strip_var]
    rfl
  | token text sort => rfl
  | rewrite l r ihl ihr => rw [strip_rewrite, erased, ihl, ihr, erased]
  | seq items ih => rw [strip_seq, erased_seq, erased_seq, map_erased_map_strip ih]
  | bag items ih => rw [strip_bag, erased_bag, erased_bag, map_erased_map_strip ih]
  | cell tag body ih => rw [strip_cell, erased, ih, erased]

theorem map_erased_strip (o : Option Term) : (o.map (strip casts)).map erased = o.map erased := by
  cases o with
  | none => rfl
  | some t => exact congrArg some (erased_strip t)

/-! ## What is added -/

/-- The variables whose membership becomes part of the side condition, with their sorts. -/
def memberships (skip : Bool) (lhs : Term) : List (String × SortName) :=
  if skip then [] else (castsOf [lhs]).entries.filter (needsPredicate ·.2)

theorem pairwise_memberships (skip : Bool) (lhs : Term) :
    ((memberships skip lhs).map (·.1)).Pairwise Ascends := by
  unfold memberships
  split
  · exact .nil
  · exact List.pairwise_map.2 ((castsOf [lhs]).ascending.filter _)

theorem mem_memberships {skip : Bool} {lhs : Term} {x : String} {sort : SortName} :
    (x, sort) ∈ memberships skip lhs ↔ AddsMembership skip lhs x sort := by
  unfold memberships AddsMembership
  cases skip with
  | true => simp
  | false =>
    rw [if_neg Bool.false_ne_true, List.mem_filter, firstCast?_eq_get?,
      OrderedMap.get?_eq_some_iff]
    exact (and_iff_right rfl).symm

theorem sideCondition_eq_extended (skip : Bool) (requires : Option Term) (lhs : Term) :
    sideCondition skip requires lhs =
      extended requires ((memberships skip lhs).map fun e => membership e.1 e.2) := by
  have hmemberships : ∀ t ∈ (memberships skip lhs).map (fun e => membership e.1 e.2),
      t ≠ .bool true := by
    intro t ht
    obtain ⟨e, -, rfl⟩ := List.mem_map.1 ht
    exact Term.noConfusion
  rw [← foldl_andBool hmemberships, List.foldl_map]
  unfold sideCondition memberships
  split <;> rfl

/-! ## Rules -/

/-- What removing its casts makes of a rule. -/
structure Removes (skip : Bool) (r r' : Rule) : Prop where
  /-- Nothing is cast any more. -/
  uncast : ∀ t ∈ r'.terms, t.Uncast
  /-- The body is the same but for casts and sorts. -/
  body : r'.body.erased = r.body.erased
  /-- The promise is the same but for casts and sorts. -/
  ensures : r'.ensures.map erased = r.ensures.map erased
  attributes : r'.attributes = r.attributes
  /-- The side condition is the same but for casts and sorts, with the memberships of the variables
  that the left-hand side casts behind it, in the order of their names. -/
  requires : ∃ (condition : Option Term) (added : List (String × SortName)),
    condition.map erased = r.requires.map erased ∧
    (added.map (·.1)).Pairwise Ascends ∧
    (∀ x sort, (x, sort) ∈ added ↔ AddsMembership skip r.body.lhs x sort) ∧
    r'.requires = extended condition (added.map fun e => membership e.1 e.2)

/-- Resolving the casts of a rule removes them, and does nothing when it is done again. -/
theorem removes_resolveRule (skip : Bool) (r : Rule) :
    Removes skip r (resolveRule skip r) ∧
      resolveRule skip (resolveRule skip r) = resolveRule skip r := by
  have hremoves : Removes skip r (resolveRule skip r) :=
    { uncast := uncast_resolveRule skip r
      body := erased_strip r.body
      ensures := map_erased_strip r.ensures
      attributes := rfl
      requires := by
        refine ⟨r.requires.map (strip (castsOf r.terms)), memberships skip r.body.lhs,
          map_erased_strip r.requires, pairwise_memberships skip r.body.lhs, ?_, ?_⟩
        · intro x sort
          exact mem_memberships
        · exact sideCondition_eq_extended skip _ r.body.lhs }
  exact ⟨hremoves, resolveRule_eq_self skip hremoves.uncast⟩

-- A trivial condition gives way to a predicate, and of a variable cast to `K` none is asked.
example : resolveRule false
    ⟨.app "f" [.app (Label.cast .k) [.ofName "Y"], .app (Label.cast .int) [.ofName "X"]],
      some (.bool true), some (.app (Label.cast .bool) [.app (Label.cast .k) [.ofName "X"]]), ∅⟩ =
    ⟨.app "f" [.sortedVar "Y" .k, .sortedVar "X" .int], some (membership "X" .int),
      some (.sortedVar "X" .int), ∅⟩ := by
  decide

end SemanticCasts

end RewriteSemantics
