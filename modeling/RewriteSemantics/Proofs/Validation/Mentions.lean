/-
# Bound variables and anonymous variables

A rule is looked at as the list of the occurrences of variables in it, each with the part it plays:
an occurrence on the left-hand side or in the side condition binds its variable, and one on the
right-hand side or in the promise uses it. One that stands outside all rewrites does both. In a
context the body binds and the side condition uses.

The check compares names, and all anonymous variables have one name, so an anonymous variable that
only uses is accepted as soon as another one binds. Naming the anonymous variables goes through the
occurrences in their order and changes nothing but their names. It gives each its own, so a sentence
that was accepted stays so exactly if every anonymous variable that uses binds as well.
-/
import Mathlib
import RewriteSemantics.Proofs.Definition.Sentences
import RewriteSemantics.Proofs.Rule.Preparation
import RewriteSemantics.Validation.Validator

namespace RewriteSemantics

/-- An occurrence of a variable, with the part it plays in its sentence. -/
structure Mention where
  var : Variable
  binds : Bool
  uses : Bool
  deriving DecidableEq

namespace Mention

/-- An occurrence of a variable that plays a given part. -/
def of (binds uses : Bool) (v : Variable) : Mention :=
  ⟨v, binds, uses⟩

/-- The occurrences in an optional term that all play the same part. -/
def ofTerm? (binds uses : Bool) (o : Option Term) : List Mention :=
  o.toList.flatMap fun t => t.occurrences.map (of binds uses)

/-- Whether a name is used among some occurrences without being bound there or exempt. -/
def Unbound (ms : List Mention) (name : String) : Prop :=
  (∃ m ∈ ms, m.uses = true ∧ m.var.name = name) ∧ RhsVariables.isExempt name = false ∧
    ∀ m ∈ ms, m.binds = true → m.var.name ≠ name

end Mention

open Mention (ofTerm? Unbound)

/-! ## Occurrences of terms -/

namespace Term

mutual

/-- The occurrences in a term, left to right. Those on the left of a rewrite do not use, and those
on its right do not bind. -/
def mentions (binds uses : Bool) : Term → List Mention
  | .app _ args => mentionsAll binds uses args
  | .var v => [⟨v, binds, uses⟩]
  | .token .. => []
  | .rewrite l r => mentions binds false l ++ mentions false uses r
  | .seq items => mentionsAll binds uses items
  | .bag items => mentionsAll binds uses items
  | .cell _ body => mentions binds uses body

/-- The occurrences in the members of a list. -/
def mentionsAll (binds uses : Bool) : List Term → List Mention
  | [] => []
  | t :: ts => mentions binds uses t ++ mentionsAll binds uses ts

end

mutual

theorem map_var_mentions : ∀ (t : Term) (binds uses : Bool),
    (t.mentions binds uses).map (·.var) = t.occurrences
  | .app _ args, binds, uses => map_var_mentionsAll args binds uses
  | .var _, _, _ => rfl
  | .token .., _, _ => rfl
  | .rewrite l r, binds, uses => by
    rw [mentions, List.map_append, map_var_mentions l, map_var_mentions r, occurrences]
  | .seq items, binds, uses => map_var_mentionsAll items binds uses
  | .bag items, binds, uses => map_var_mentionsAll items binds uses
  | .cell _ body, binds, uses => map_var_mentions body binds uses

theorem map_var_mentionsAll : ∀ (ts : List Term) (binds uses : Bool),
    (mentionsAll binds uses ts).map (·.var) = occurrencesAll ts
  | [], _, _ => rfl
  | t :: ts, binds, uses => by
    rw [mentionsAll, List.map_append, map_var_mentions t, map_var_mentionsAll ts, occurrencesAll]

end

mutual

/-- Inside a rewrite an occurrence plays no part that the rewrite does not play. -/
theorem part_of_mem_mentions {m : Mention} : ∀ (t : Term) {binds uses : Bool},
    m ∈ t.mentions binds uses → (m.binds = true → binds = true) ∧ (m.uses = true → uses = true)
  | .app _ args, _, _, h => part_of_mem_mentionsAll args h
  | .var _, _, _, h => by
    rw [List.mem_singleton.1 h]
    exact ⟨id, id⟩
  | .token .., _, _, h => nomatch h
  | .rewrite l r, _, _, h => by
    rcases List.mem_append.1 h with h | h
    · obtain ⟨hbinds, huses⟩ := part_of_mem_mentions l h
      exact ⟨hbinds, fun hm => nomatch huses hm⟩
    · obtain ⟨hbinds, huses⟩ := part_of_mem_mentions r h
      exact ⟨fun hm => (nomatch hbinds hm), huses⟩
  | .seq items, _, _, h => part_of_mem_mentionsAll items h
  | .bag items, _, _, h => part_of_mem_mentionsAll items h
  | .cell _ body, _, _, h => part_of_mem_mentions body h

theorem part_of_mem_mentionsAll {m : Mention} : ∀ (ts : List Term) {binds uses : Bool},
    m ∈ mentionsAll binds uses ts →
      (m.binds = true → binds = true) ∧ (m.uses = true → uses = true)
  | [], _, _, h => nomatch h
  | t :: ts, _, _, h => by
    rcases List.mem_append.1 h with h | h
    · exact part_of_mem_mentions t h
    · exact part_of_mem_mentionsAll ts h

end

theorem filter_binds_mentions (t : Term) (uses : Bool) :
    (t.mentions false uses).filter (·.binds) = [] :=
  List.filter_eq_nil_iff.2 fun _ hm hbinds => nomatch (part_of_mem_mentions t hm).1 hbinds

theorem filter_uses_mentions (t : Term) (binds : Bool) :
    (t.mentions binds false).filter (·.uses) = [] :=
  List.filter_eq_nil_iff.2 fun _ hm huses => nomatch (part_of_mem_mentions t hm).2 huses

mutual

/-- The occurrences that bind are those of the left-hand side. -/
theorem binding_mentions : ∀ (t : Term) (uses : Bool),
    ((t.mentions true uses).filter (·.binds)).map (·.var) = t.lhs.occurrences
  | .app _ args, uses => binding_mentionsAll args uses
  | .var _, _ => rfl
  | .token .., _ => rfl
  | .rewrite l r, uses => by
    rw [mentions, List.filter_append, filter_binds_mentions, List.append_nil, binding_mentions l,
      lhs]
  | .seq items, uses => binding_mentionsAll items uses
  | .bag items, uses => binding_mentionsAll items uses
  | .cell _ body, uses => binding_mentions body uses

theorem binding_mentionsAll : ∀ (ts : List Term) (uses : Bool),
    ((mentionsAll true uses ts).filter (·.binds)).map (·.var) = occurrencesAll (lhsAll ts)
  | [], _ => rfl
  | t :: ts, uses => by
    rw [mentionsAll, List.filter_append, List.map_append, binding_mentions t,
      binding_mentionsAll ts, lhsAll, occurrencesAll]

end

mutual

/-- The occurrences that use are those of the right-hand side. -/
theorem using_mentions : ∀ (t : Term) (binds : Bool),
    ((t.mentions binds true).filter (·.uses)).map (·.var) = t.rhs.occurrences
  | .app _ args, binds => using_mentionsAll args binds
  | .var _, _ => rfl
  | .token .., _ => rfl
  | .rewrite l r, binds => by
    rw [mentions, List.filter_append, filter_uses_mentions, List.nil_append, using_mentions r, rhs]
  | .seq items, binds => using_mentionsAll items binds
  | .bag items, binds => using_mentionsAll items binds
  | .cell _ body, binds => using_mentions body binds

theorem using_mentionsAll : ∀ (ts : List Term) (binds : Bool),
    ((mentionsAll binds true ts).filter (·.uses)).map (·.var) = occurrencesAll (rhsAll ts)
  | [], _ => rfl
  | t :: ts, binds => by
    rw [mentionsAll, List.filter_append, List.map_append, using_mentions t, using_mentionsAll ts,
      rhsAll, occurrencesAll]

end

/-- A name of the left-hand side is one that an occurrence binds. -/
theorem mem_lhs_variableNames {t : Term} {x : String} : x ∈ t.lhs.variableNames ↔
    ∃ m ∈ t.mentions true true, m.binds = true ∧ m.var.name = x := by
  simp [mem_variableNames, ← binding_mentions t true, and_assoc]

/-- A name of the right-hand side is one that an occurrence uses. -/
theorem mem_rhs_variableNames {t : Term} {x : String} : x ∈ t.rhs.variableNames ↔
    ∃ m ∈ t.mentions true true, m.uses = true ∧ m.var.name = x := by
  simp [mem_variableNames, ← using_mentions t true, and_assoc]

end Term

/-- The names that the occurrences in an optional term bind: all of them, or none. -/
theorem Mention.exists_binds_ofTerm? {binds uses : Bool} {o : Option Term} {x : String} :
    (∃ m ∈ ofTerm? binds uses o, m.binds = true ∧ m.var.name = x) ↔
      binds = true ∧ x ∈ RhsVariables.variablesOf o := by
  cases o with
  | none => simp [RhsVariables.variablesOf, ofTerm?]
  | some t =>
    cases binds <;> simp [RhsVariables.variablesOf, ofTerm?, Term.mem_variableNames, Mention.of]

theorem Mention.exists_uses_ofTerm? {binds uses : Bool} {o : Option Term} {x : String} :
    (∃ m ∈ ofTerm? binds uses o, m.uses = true ∧ m.var.name = x) ↔
      uses = true ∧ x ∈ RhsVariables.variablesOf o := by
  cases o with
  | none => simp [RhsVariables.variablesOf, ofTerm?]
  | some t =>
    cases uses <;> simp [RhsVariables.variablesOf, ofTerm?, Term.mem_variableNames, Mention.of]

/-! ## Occurrences of sentences -/

/-- The occurrences of variables in a rule. -/
def Rule.mentions (r : Rule) : List Mention :=
  r.body.mentions true true ++ (ofTerm? true false r.requires ++ ofTerm? false true r.ensures)

/-- The occurrences of variables in a context. -/
def Context.mentions (c : Context) : List Mention :=
  ofTerm? true false (some c.body) ++ ofTerm? false true c.requires

/-- The occurrences of variables in a sentence that the check looks at. -/
def Sentence.mentions : Sentence → List Mention
  | .rule r => r.mentions
  | .context c => c.mentions
  | _ => []

namespace RhsVariables

theorem mem_unboundAmong {used bound : OrderedSet String} {x : String} :
    x ∈ unboundAmong used bound ↔ x ∈ used ∧ isExempt x = false ∧ x ∉ bound := by
  simp [unboundAmong, and_comm]

theorem mem_unboundInRule {r : Rule} {x : String} :
    x ∈ unboundInRule r ↔ Unbound r.mentions x := by
  have hused : x ∈ r.body.rhs.variableNames ∪ variablesOf r.ensures ↔
      ∃ m ∈ r.mentions, m.uses = true ∧ m.var.name = x := by
    simp only [OrderedSet.mem_union, Term.mem_rhs_variableNames, Rule.mentions, List.mem_append,
      or_and_right, exists_or, Mention.exists_uses_ofTerm?]
    simp
  have hbound : x ∈ r.body.lhs.variableNames ∪ variablesOf r.requires ↔
      ∃ m ∈ r.mentions, m.binds = true ∧ m.var.name = x := by
    simp only [OrderedSet.mem_union, Term.mem_lhs_variableNames, Rule.mentions, List.mem_append,
      or_and_right, exists_or, Mention.exists_binds_ofTerm?]
    simp
  rw [unboundInRule, mem_unboundAmong, hused, hbound, Unbound]
  simp only [not_exists, not_and, ne_eq]

theorem mem_unboundInContext {c : Context} {x : String} :
    x ∈ unboundInContext c ↔ Unbound c.mentions x := by
  have hused : x ∈ variablesOf c.requires ↔
      ∃ m ∈ c.mentions, m.uses = true ∧ m.var.name = x := by
    simp only [Context.mentions, List.mem_append, or_and_right, exists_or,
      Mention.exists_uses_ofTerm?]
    simp
  have hbound : x ∈ c.body.variableNames ↔
      ∃ m ∈ c.mentions, m.binds = true ∧ m.var.name = x := by
    simp only [Context.mentions, List.mem_append, or_and_right, exists_or,
      Mention.exists_binds_ofTerm?]
    simp [variablesOf]
  rw [unboundInContext, mem_unboundAmong, hused, hbound, Unbound]
  simp only [not_exists, not_and, ne_eq]

/-- The check has nothing against a sentence whose names are all bound. -/
theorem check_eq_nil_iff {m : Module} {s : Sentence} :
    check m s = [] ↔ ∀ x, ¬ Unbound s.mentions x := by
  cases s with
  | rule r =>
    simp only [Sentence.mentions, ← mem_unboundInRule, check, List.map_eq_nil_iff]
    exact List.eq_nil_iff_forall_not_mem
  | context c =>
    simp only [Sentence.mentions, ← mem_unboundInContext, check, List.map_eq_nil_iff]
    exact List.eq_nil_iff_forall_not_mem
  | _ => simp [check, Sentence.mentions, Unbound]

end RhsVariables

/-! ## Naming occurrences -/

namespace Mention

open AnonymousVariables (nameVariable)
open FreshNames (candidate)

/-- The occurrences with the anonymous ones named, in their order. -/
def nameAll : List Mention → FreshNames → List Mention × FreshNames
  | [], names => ([], names)
  | m :: ms, names =>
    let (v, names) := nameVariable m.var names
    let (ms, names) := nameAll ms names
    (⟨v, m.binds, m.uses⟩ :: ms, names)

theorem nameAll_cons (m : Mention) (ms : List Mention) (names : FreshNames) :
    nameAll (m :: ms) names =
      (⟨(nameVariable m.var names).1, m.binds, m.uses⟩ ::
          (nameAll ms (nameVariable m.var names).2).1,
        (nameAll ms (nameVariable m.var names).2).2) :=
  rfl

theorem nameAll_append (ms ns : List Mention) (names : FreshNames) :
    nameAll (ms ++ ns) names =
      ((nameAll ms names).1 ++ (nameAll ns (nameAll ms names).2).1,
        (nameAll ns (nameAll ms names).2).2) := by
  induction ms generalizing names with
  | nil => rfl
  | cons m ms ih => rw [List.cons_append, nameAll_cons, ih, nameAll_cons, List.cons_append]

/-- The part that an occurrence plays does not matter for its name. -/
theorem nameAll_map_of (binds uses : Bool) (ms : List Mention) (names : FreshNames) :
    nameAll (ms.map fun m => of binds uses m.var) names =
      ((nameAll ms names).1.map (fun m => of binds uses m.var), (nameAll ms names).2) := by
  induction ms generalizing names with
  | nil => rfl
  | cons m ms ih =>
    rw [List.map_cons, nameAll_cons, nameAll_cons, List.map_cons]
    exact congrArg (fun p => (_ :: p.1, p.2)) (ih _)

end Mention

/-! ### Along terms and sentences -/

open AnonymousVariables (nameVariable)
open Mention (nameAll nameAll_append)

mutual

/-- Naming the variables of a term names its occurrences. -/
theorem Term.nameAll_mentions : ∀ (t : Term) (binds uses : Bool) (names : FreshNames),
    nameAll (t.mentions binds uses) names =
      ((t.threadVariables nameVariable names).1.mentions binds uses,
        (t.threadVariables nameVariable names).2)
  | .app _ args, binds, uses, names => Term.nameAll_mentionsAll args binds uses names
  | .var _, _, _, _ => rfl
  | .token .., _, _, _ => rfl
  | .rewrite l r, binds, uses, names => by
    rw [mentions, nameAll_append, Term.nameAll_mentions l, Term.nameAll_mentions r]
    rfl
  | .seq items, binds, uses, names => Term.nameAll_mentionsAll items binds uses names
  | .bag items, binds, uses, names => Term.nameAll_mentionsAll items binds uses names
  | .cell _ body, binds, uses, names => Term.nameAll_mentions body binds uses names

theorem Term.nameAll_mentionsAll : ∀ (ts : List Term) (binds uses : Bool) (names : FreshNames),
    nameAll (mentionsAll binds uses ts) names =
      (mentionsAll binds uses (threadVariablesAll nameVariable ts names).1,
        (threadVariablesAll nameVariable ts names).2)
  | [], _, _, _ => rfl
  | t :: ts, binds, uses, names => by
    rw [mentionsAll, nameAll_append, Term.nameAll_mentions t, Term.nameAll_mentionsAll ts]
    rfl

end

theorem Mention.nameAll_ofTerm? (binds uses : Bool) (o : Option Term) (names : FreshNames) :
    nameAll (ofTerm? binds uses o) names =
      (ofTerm? binds uses (Term.threadVariables? nameVariable o names).1,
        (Term.threadVariables? nameVariable o names).2) := by
  cases o with
  | none => rfl
  | some t =>
    have hpart : ∀ u : Term, ofTerm? binds uses (some u) =
        (u.mentions true true).map fun m => of binds uses m.var := by
      intro u
      rw [ofTerm?, Option.toList_some, List.flatMap_singleton, ← Term.map_var_mentions u true true,
        List.map_map]
      rfl
    rw [hpart, nameAll_map_of, Term.nameAll_mentions, ← hpart]
    rfl

theorem Rule.mentions_resolveRule (r : Rule) :
    (AnonymousVariables.resolveRule r).mentions =
      (nameAll r.mentions (.avoiding r.variableNames)).1 := by
  rw [mentions, mentions, nameAll_append, nameAll_append, Term.nameAll_mentions,
    Mention.nameAll_ofTerm?, Mention.nameAll_ofTerm?]
  rfl

theorem Context.mentions_resolveContext (c : Context) :
    (AnonymousVariables.resolveContext c).mentions =
      (nameAll c.mentions (.avoiding c.variableNames)).1 := by
  rw [mentions, mentions, nameAll_append, Mention.nameAll_ofTerm?, Mention.nameAll_ofTerm?]
  rfl

/-! ### What the names are -/

theorem AnonymousVariables.nameVariable_of_anonymous {v : Variable} (h : v.isAnonymous = true)
    (names : FreshNames) : nameVariable v names =
      (⟨(names.fresh generatedStem).1, v.sort⟩, (names.fresh generatedStem).2) := by
  rw [nameVariable, if_pos h]

theorem AnonymousVariables.nameVariable_of_named {v : Variable} (h : v.isAnonymous = false)
    (names : FreshNames) : nameVariable v names = (v, names) := by
  rw [nameVariable, if_neg (Bool.not_eq_true _ ▸ h)]

namespace Mention

open AnonymousVariables (nameVariable_of_anonymous nameVariable_of_named)
open FreshNames (candidate)

variable {ms : List Mention} {names : FreshNames}

/-- An occurrence under its name: it plays the same part, and it is the same variable unless it was
anonymous. -/
structure Named (m m' : Mention) : Prop where
  binds : m'.binds = m.binds
  uses : m'.uses = m.uses
  kept : m.var.isAnonymous = false → m'.var = m.var

theorem named_nameVariable (m : Mention) (names : FreshNames) :
    Named m ⟨(nameVariable m.var names).1, m.binds, m.uses⟩ :=
  ⟨rfl, rfl, fun h => congrArg Prod.fst (nameVariable_of_named h names)⟩

theorem related_nameAll (ms : List Mention) (names : FreshNames) :
    List.Forall₂ Named ms (nameAll ms names).1 := by
  induction ms generalizing names with
  | nil => exact .nil
  | cons m ms ih => exact .cons (named_nameVariable m names) (ih _)

/-- A named occurrence has the name of an occurrence, or one that was not taken. -/
theorem name_of_mem_nameAll {m' : Mention} (h : m' ∈ (nameAll ms names).1) :
    (∃ m ∈ ms, m'.var.name = m.var.name) ∨ m'.var.name ∉ names.taken := by
  induction ms generalizing names with
  | nil => nomatch h
  | cons m ms ih =>
    have htail : (∃ n ∈ ms, m'.var.name = n.var.name) →
        ∃ n ∈ m :: ms, m'.var.name = n.var.name :=
      fun ⟨n, hn, hname⟩ => ⟨n, List.mem_cons_of_mem _ hn, hname⟩
    rw [nameAll_cons] at h
    cases hm : m.var.isAnonymous with
    | true =>
      rw [nameVariable_of_anonymous hm] at h
      rcases List.mem_cons.1 h with rfl | h
      · exact .inr (FreshNames.fresh_notMem names generatedStem)
      · refine (ih h).imp htail fun hnew htaken => hnew ?_
        exact FreshNames.mem_taken_fresh.2 (.inr htaken)
    | false =>
      rw [nameVariable_of_named hm] at h
      rcases List.mem_cons.1 h with rfl | h
      · exact .inl ⟨m, List.mem_cons_self, rfl⟩
      · exact (ih h).imp_left htail

/-- An anonymous occurrence gets a generated name that was not taken, and only occurrences of its
own part have this name afterwards. -/
theorem exists_name_of_anonymous (htaken : ∀ m ∈ ms, m.var.name ∈ names.taken) {m : Mention}
    (hm : m ∈ ms) (hanonymous : m.var.isAnonymous = true) :
    ∃ m' ∈ (nameAll ms names).1, m'.uses = m.uses ∧
      (∃ n, m'.var.name = candidate generatedStem n) ∧ m'.var.name ∉ names.taken ∧
      ∀ m'' ∈ (nameAll ms names).1, m''.var.name = m'.var.name → m''.binds = m.binds := by
  induction ms generalizing names with
  | nil => nomatch hm
  | cons first ms ih =>
    rw [nameAll_cons]
    have hrest : ∀ n ∈ ms, n.var.name ∈ names.taken :=
      fun n hn => htaken n (List.mem_cons_of_mem _ hn)
    cases hfirst : first.var.isAnonymous with
    | true =>
      rw [nameVariable_of_anonymous hfirst]
      have hnew := FreshNames.fresh_notMem names generatedStem
      have hrest' : ∀ n ∈ ms, n.var.name ∈ (names.fresh generatedStem).2.taken :=
        fun n hn => FreshNames.mem_taken_fresh.2 (.inr (hrest n hn))
      rcases List.mem_cons.1 hm with rfl | hm
      · refine ⟨_, List.mem_cons_self, rfl, ⟨_, rfl⟩, hnew, fun m'' hm'' hname => ?_⟩
        rcases List.mem_cons.1 hm'' with rfl | hm''
        · rfl
        · -- a later name is an old one, which the new one is not, or newer still
          have hname : m''.var.name = (names.fresh generatedStem).1 := hname
          rcases name_of_mem_nameAll hm'' with ⟨n, hn, hold⟩ | hnewer
          · exact absurd (hname ▸ hold ▸ hrest n hn) hnew
          · exact absurd (FreshNames.mem_taken_fresh.2 (.inl hname)) hnewer
      · obtain ⟨m', hm', huses, hgenerated, hfree, hsame⟩ := ih hrest' hm
        refine ⟨m', List.mem_cons_of_mem _ hm', huses, hgenerated,
          fun htaken => hfree (FreshNames.mem_taken_fresh.2 (.inr htaken)),
          fun m'' hm'' hname => ?_⟩
        rcases List.mem_cons.1 hm'' with rfl | hm''
        · exact absurd (FreshNames.mem_taken_fresh.2 (.inl hname.symm)) hfree
        · exact hsame m'' hm'' hname
    | false =>
      rw [nameVariable_of_named hfirst]
      rcases List.mem_cons.1 hm with rfl | hm
      · exact nomatch hfirst.symm.trans hanonymous
      · obtain ⟨m', hm', huses, hgenerated, hfree, hsame⟩ := ih hrest hm
        refine ⟨m', List.mem_cons_of_mem _ hm', huses, hgenerated, hfree,
          fun m'' hm'' hname => ?_⟩
        rcases List.mem_cons.1 hm'' with rfl | hm''
        · exact absurd (hname ▸ htaken first List.mem_cons_self) hfree
        · exact hsame m'' hm'' hname

/-- A generated name is not exempt. -/
theorem isExempt_candidate (n : Nat) :
    RhsVariables.isExempt (candidate generatedStem n) = false := by
  rw [RhsVariables.isExempt, isFreshName_candidate, Variable.isExistentialName,
    Variable.nameStartsWith, candidate, String.toList_append]
  rfl

/-- Where everything was bound, it still is after the anonymous variables are named exactly if each
of them that uses binds as well. -/
theorem unbound_nameAll_iff (htaken : ∀ m ∈ ms, m.var.name ∈ names.taken)
    (hbound : ∀ x, ¬ Unbound ms x) : (∀ x, ¬ Unbound (nameAll ms names).1 x) ↔
      ∀ m ∈ ms, m.var.isAnonymous = true → m.uses = true → m.binds = true := by
  constructor
  · intro h m hm hanonymous huses
    obtain ⟨m', hm', huses', ⟨n, hname⟩, -, hsame⟩ := exists_name_of_anonymous htaken hm hanonymous
    by_contra hbinds
    -- Only the occurrence itself could bind its new name.
    refine h m'.var.name ⟨⟨m', hm', huses'.trans huses, rfl⟩, hname ▸ isExempt_candidate n, ?_⟩
    intro m'' hm'' hbinds'' hname''
    exact hbinds ((hsame m'' hm'' hname'').symm.trans hbinds'')
  · rintro h x ⟨⟨m', hm', huses', rfl⟩, hexempt, hfree⟩
    obtain ⟨m, hm, hnamed⟩ := (related_nameAll ms names).flip.exists_of_mem hm'
    have huses : m.uses = true := hnamed.uses.symm.trans huses'
    cases hanonymous : m.var.isAnonymous with
    | true => exact hfree m' hm' (hnamed.binds.trans (h m hm hanonymous huses)) rfl
    | false =>
      rw [hnamed.kept hanonymous] at hexempt hfree
      -- What binds a name that was there before has kept it.
      refine hbound m.var.name ⟨⟨m, hm, huses, rfl⟩, hexempt, fun b hb hbinds hname => ?_⟩
      obtain ⟨b', hb', hbnamed⟩ := (related_nameAll ms names).exists_of_mem hb
      have hb'name : b'.var = b.var :=
        hbnamed.kept (by rw [Variable.isAnonymous, hname]; exact hanonymous)
      exact hfree b' hb' (hbnamed.binds.trans hbinds) (by rw [hb'name, hname])

end Mention

/-! ## Checked sentences -/

open AnonymousVariables (resolveRule resolveContext)
open Mention (unbound_nameAll_iff)
open RhsVariables (check check_eq_nil_iff)

theorem Mention.exists_term_of_mem {m : Mention} {binds uses : Bool} {o : Option Term}
    (hm : m ∈ ofTerm? binds uses o) : ∃ t ∈ o, m.var.name ∈ t.variableNames := by
  obtain ⟨t, ht, hm⟩ := List.mem_flatMap.1 hm
  obtain ⟨v, hv, rfl⟩ := List.mem_map.1 hm
  exact ⟨t, Option.mem_toList.1 ht, Term.mem_variableNames.2 ⟨v, hv, rfl⟩⟩

theorem Rule.name_mem_of_mentions {r : Rule} {m : Mention} (hm : m ∈ r.mentions) :
    m.var.name ∈ r.variableNames := by
  rw [mem_variableNames]
  rcases List.mem_append.1 hm with hm | hm
  · have hvar := List.mem_map_of_mem (f := Mention.var) hm
    rw [Term.map_var_mentions] at hvar
    exact ⟨r.body, Rule.mem_terms.2 (.inl rfl), Term.mem_variableNames.2 ⟨_, hvar, rfl⟩⟩
  · rcases List.mem_append.1 hm with hm | hm
    · obtain ⟨t, ht, hx⟩ := Mention.exists_term_of_mem hm
      exact ⟨t, Rule.mem_terms.2 (.inr (.inl ht)), hx⟩
    · obtain ⟨t, ht, hx⟩ := Mention.exists_term_of_mem hm
      exact ⟨t, Rule.mem_terms.2 (.inr (.inr ht)), hx⟩

theorem Context.name_mem_of_mentions {c : Context} {m : Mention} (hm : m ∈ c.mentions) :
    m.var.name ∈ c.variableNames := by
  rw [variableNames, OrderedSet.mem_ofList, List.mem_flatMap]
  rcases List.mem_append.1 hm with hm | hm
  · obtain ⟨t, ht, hx⟩ := Mention.exists_term_of_mem hm
    cases ht
    exact ⟨c.body, List.mem_cons_self, hx⟩
  · obtain ⟨t, ht, hx⟩ := Mention.exists_term_of_mem hm
    exact ⟨t, List.mem_cons_of_mem _ (Option.mem_toList.2 ht), hx⟩

/-- A sentence in which every anonymous variable that uses binds as well. So none stands in the
promise of a rule or on the right of a rewrite, and none in the side condition of a context. -/
def Sentence.BindsAnonymous (s : Sentence) : Prop :=
  ∀ m ∈ s.mentions, m.var.isAnonymous = true → m.uses = true → m.binds = true

instance (s : Sentence) : Decidable s.BindsAnonymous :=
  inferInstanceAs (Decidable (∀ m ∈ s.mentions, _))

theorem RhsVariables.check_resolveRule_iff {m : Module} {r : Rule} (h : check m (.rule r) = []) :
    check m (.rule (resolveRule r)) = [] ↔ (Sentence.rule r).BindsAnonymous := by
  rw [check_eq_nil_iff] at h ⊢
  rw [Sentence.mentions, Rule.mentions_resolveRule]
  exact unbound_nameAll_iff (fun _ => Rule.name_mem_of_mentions) h

theorem RhsVariables.check_resolveContext_iff {m : Module} {c : Context}
    (h : check m (.context c) = []) :
    check m (.context (resolveContext c)) = [] ↔ (Sentence.context c).BindsAnonymous := by
  rw [check_eq_nil_iff] at h ⊢
  rw [Sentence.mentions, Context.mentions_resolveContext]
  exact unbound_nameAll_iff (fun _ => Context.name_mem_of_mentions) h

/-- A definition is accepted if every sentence is. -/
theorem Validator.standard_validate_eq_nil {d : Definition} :
    standard.validate d = [] ↔ ∀ s ∈ d.allSentences, ∀ m, check m s = [] := by
  have hcheck : ∀ m s, standard.checks.flatMap (·.check m s) = check m s := fun m s =>
    List.flatMap_singleton ..
  simp only [validate, hcheck, List.flatMap_eq_nil_iff, Definition.mem_allSentences]
  constructor
  · rintro h s ⟨m, hm, hs⟩ m'
    exact check_eq_nil_iff.2 (check_eq_nil_iff.1 (h m hm s hs))
  · intro h m hm s hs
    exact h s ⟨m, hm, hs⟩ m

/-- A definition that is accepted stays so exactly if every anonymous variable of its sentences that
uses binds as well. -/
theorem Validator.standard_validate_resolveAnonymous_iff {d e : Definition}
    (hd : standard.validate d = []) (he : Pass.resolveAnonymous.run d = .ok e) :
    standard.validate e = [] ↔ ∀ s ∈ d.allSentences, s.BindsAnonymous := by
  have himages := Definition.images_allSentences he
  rw [standard_validate_eq_nil] at hd ⊢
  have hother : ∀ s : Sentence, s.mentions = [] → s.BindsAnonymous := by
    intro s hs m hm
    rw [hs] at hm
    nomatch hm
  constructor
  · intro h s hs
    obtain ⟨image, himage, hmem⟩ := himages.mem_of_mem hs
    cases s with
    | rule r =>
      cases himage
      have hr := h _ (hmem _ List.mem_cons_self) (.ofName "")
      exact (RhsVariables.check_resolveRule_iff (hd _ hs _)).1 hr
    | context c =>
      cases himage
      have hc := h _ (hmem _ List.mem_cons_self) (.ofName "")
      exact (RhsVariables.check_resolveContext_iff (hd _ hs _)).1 hc
    | _ => exact hother _ rfl
  · intro h t ht m
    obtain ⟨s, hs, image, himage, ht⟩ := himages.exists_of_mem ht
    cases s with
    | rule r =>
      cases himage
      rw [List.mem_singleton.1 ht]
      exact (RhsVariables.check_resolveRule_iff (hd _ hs m)).2 (h _ hs)
    | context c =>
      cases himage
      rw [List.mem_singleton.1 ht]
      exact (RhsVariables.check_resolveContext_iff (hd _ hs m)).2 (h _ hs)
    | _ =>
      cases himage
      rw [List.mem_singleton.1 ht]
      exact hd _ hs m

/-- Whether the check still accepts what it has accepted once the anonymous variables are named: a
rule, a context, or all sentences of a definition. -/
theorem RhsVariables.accepted_resolveAnonymous_iff (m : Module) (r : Rule) (c : Context)
    (d e : Definition) :
    (check m (.rule r) = [] →
      (check m (.rule (resolveRule r)) = [] ↔ (Sentence.rule r).BindsAnonymous)) ∧
    (check m (.context c) = [] →
      (check m (.context (resolveContext c)) = [] ↔ (Sentence.context c).BindsAnonymous)) ∧
    (Validator.standard.validate d = [] → Pass.resolveAnonymous.run d = .ok e →
      (Validator.standard.validate e = [] ↔ ∀ s ∈ d.allSentences, s.BindsAnonymous)) :=
  ⟨check_resolveRule_iff, check_resolveContext_iff,
    Validator.standard_validate_resolveAnonymous_iff⟩

/-! ### A rule and a context with an anonymous variable -/

/-- The rule `foo(X, _) => foo(x)` for a variable `x`. -/
def Rule.wildcard (x : String) : Rule :=
  .ofBody (.rewrite (.app "foo" [.ofName "X", .ofName "_"]) (.app "foo" [.ofName x]))

/-- The context `foo(HOLE, X, _) requires isInt(x)` for a variable `x`. -/
def Context.wildcard (x : String) : Context :=
  ⟨.app "foo" [.ofName Variable.hole, .ofName "X", .ofName "_"], some (.app "isInt" [.ofName x]), ∅⟩

def wildcardModule (x : String) : Module :=
  ⟨"M", [], [.rule (.wildcard x), .context (.wildcard x)], ∅⟩

def wildcardDefinition (x : String) : Definition :=
  ⟨"M", .insert ∅ "M" (wildcardModule x), ∅, ModuleMap.named_empty.insert (wildcardModule x),
    by cbv⟩

/-- With `X` for `x` both are accepted, before and after the anonymous variables are named. -/
theorem RhsVariables.accepted_wildcard :
    check (wildcardModule "X") (.rule (resolveRule (.wildcard "X"))) = [] ∧
      check (wildcardModule "X") (.context (resolveContext (.wildcard "X"))) = [] ∧
      ∃ e, Pass.resolveAnonymous.run (wildcardDefinition "X") = .ok e ∧
        Validator.standard.validate e = [] := by
  have hrun : (Pass.resolveAnonymous.run (wildcardDefinition "X")).toOption.isSome = true := by cbv
  obtain ⟨e, he⟩ := Option.isSome_iff_exists.1 hrun
  have he := Except.toOption_eq_some.1 he
  obtain ⟨hrule, hcontext, hdefinition⟩ := accepted_resolveAnonymous_iff (wildcardModule "X")
    (.wildcard "X") (.wildcard "X") (wildcardDefinition "X") e
  exact ⟨(hrule (by decide)).2 (by decide), (hcontext (by decide)).2 (by decide), e, he,
    (hdefinition (by cbv) he).2 (by decide)⟩

/-- With `_` for `x` both are accepted before, and neither is afterwards. -/
theorem RhsVariables.exists_refused_resolveAnonymous :
    (∃ m r, check m (.rule r) = [] ∧ check m (.rule (resolveRule r)) ≠ []) ∧
    (∃ m c, check m (.context c) = [] ∧ check m (.context (resolveContext c)) ≠ []) ∧
    ∃ d e, Validator.standard.validate d = [] ∧ Pass.resolveAnonymous.run d = .ok e ∧
      Validator.standard.validate e ≠ [] := by
  have hrule : check (wildcardModule "_") (.rule (.wildcard "_")) = [] := by decide
  have hcontext : check (wildcardModule "_") (.context (.wildcard "_")) = [] := by decide
  have hd : Validator.standard.validate (wildcardDefinition "_") = [] := by cbv
  have hrun : (Pass.resolveAnonymous.run (wildcardDefinition "_")).toOption.isSome = true := by cbv
  obtain ⟨e, he⟩ := Option.isSome_iff_exists.1 hrun
  have he := Except.toOption_eq_some.1 he
  exact ⟨⟨_, _, hrule, fun h => absurd ((check_resolveRule_iff hrule).1 h) (by decide)⟩,
    ⟨_, _, hcontext, fun h => absurd ((check_resolveContext_iff hcontext).1 h) (by decide)⟩,
    _, e, hd, he, fun h =>
      absurd ((Validator.standard_validate_resolveAnonymous_iff hd he).1 h) (by decide)⟩

end RewriteSemantics
