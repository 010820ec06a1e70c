/-
# Anonymous variables under their names

Naming the anonymous variables of a rule or context is undone by forgetting the names. The names are
drawn from one supply along all terms, so each stands in one place, and the supply keeps clear of
every name of the sentence, also of those that come later in it. So a variable has one of the drawn
names exactly if it was anonymous, and forgetting these names gives back the sentence.
-/
import RewriteSemantics.Proofs.Rule.Clean
import RewriteSemantics.Proofs.Rule.NewNames

namespace RewriteSemantics

open AnonymousVariables (nameVariable nameVariable_of_anonymous nameVariable_of_named)

/-! ## Forgetting names -/

/-- A variable that is anonymous again if it has one of some names. It keeps its sort. -/
def Variable.forget (names : List String) (v : Variable) : Variable :=
  if v.name ∈ names then ⟨anonymous, v.sort⟩ else v

namespace Term

/-- A variable under its image; any other term stays as it is. -/
def renameHere (g : Variable → Variable) : Term → Term
  | .var v => .var (g v)
  | t => t

/-- A term with the images of its variables. -/
def rename (g : Variable → Variable) (t : Term) : Term :=
  t.transform (renameHere g)

/-- A term whose variables of some names are anonymous again. -/
def forget (names : List String) (t : Term) : Term :=
  t.rename (.forget names)

end Term

/-- A rule whose variables of some names are anonymous again. -/
def Rule.forget (names : List String) (r : Rule) : Rule :=
  ⟨r.body.forget names, r.requires.map (·.forget names), r.ensures.map (·.forget names),
    r.attributes⟩

/-- A context whose variables of some names are anonymous again. -/
def Context.forget (names : List String) (c : Context) : Context :=
  ⟨c.body.forget names, c.requires.map (·.forget names), c.attributes⟩

/-! ## Renamings that are undone -/

namespace Term

variable {σ : Type} {f : Variable → σ → Variable × σ} {g : Variable → Variable}

mutual

theorem length_occurrences_threadVariables : ∀ (t : Term) (s : σ),
    (threadVariables f t s).1.occurrences.length = t.occurrences.length
  | .app _ args, s => length_occurrencesAll_threadVariablesAll args s
  | .var _, _ => rfl
  | .token .., _ => rfl
  | .rewrite l r, s => by
    simp only [threadVariables, occurrences, List.length_append,
      length_occurrences_threadVariables l, length_occurrences_threadVariables r]
  | .seq items, s => length_occurrencesAll_threadVariablesAll items s
  | .bag items, s => length_occurrencesAll_threadVariablesAll items s
  | .cell _ body, s => length_occurrences_threadVariables body s

theorem length_occurrencesAll_threadVariablesAll : ∀ (ts : List Term) (s : σ),
    (occurrencesAll (threadVariablesAll f ts s).1).length = (occurrencesAll ts).length
  | [], _ => rfl
  | t :: ts, s => by
    simp only [threadVariablesAll, occurrencesAll, List.length_append,
      length_occurrences_threadVariables t, length_occurrencesAll_threadVariablesAll ts]

end

mutual

/-- A renaming is undone if it is undone at every occurrence. -/
theorem rename_threadVariables : ∀ (t : Term) (s : σ),
    (threadVariables f t s).1.occurrences.map g = t.occurrences →
      (threadVariables f t s).1.rename g = t
  | .app label args, s, h => congrArg (app label) (renameAll_threadVariablesAll args s h)
  | .var _, _, h => congrArg var (List.singleton_inj.1 h)
  | .token .., _, _ => rfl
  | .rewrite l r, s, h => by
    -- There are as many occurrences as before, so the equation is one for each side.
    obtain ⟨hl, hr⟩ := List.append_inj ((List.map_append ..).symm.trans h)
      ((List.length_map _).trans (length_occurrences_threadVariables l s))
    exact congrArg₂ rewrite (rename_threadVariables l s hl) (rename_threadVariables r _ hr)
  | .seq items, s, h => congrArg seq (renameAll_threadVariablesAll items s h)
  | .bag items, s, h => congrArg bag (renameAll_threadVariablesAll items s h)
  | .cell tag body, s, h => congrArg (cell tag) (rename_threadVariables body s h)

theorem renameAll_threadVariablesAll : ∀ (ts : List Term) (s : σ),
    (occurrencesAll (threadVariablesAll f ts s).1).map g = occurrencesAll ts →
      transformAll (renameHere g) (threadVariablesAll f ts s).1 = ts
  | [], _, _ => rfl
  | t :: ts, s, h => by
    obtain ⟨ht, hts⟩ := List.append_inj ((List.map_append ..).symm.trans h)
      ((List.length_map _).trans (length_occurrences_threadVariables t s))
    exact congrArg₂ List.cons (rename_threadVariables t s ht)
      (renameAll_threadVariablesAll ts _ hts)

end

end Term

/-! ## The names that are drawn -/

namespace Mention

variable {ms : List Mention} {names : FreshNames}

/-- The names that the anonymous ones of some occurrences get. -/
def drawn (ms : List Mention) (names : FreshNames) : List String :=
  ((ms.zip (nameAll ms names).1).filter (·.1.var.isAnonymous)).map (·.2.var.name)

theorem drawn_cons_of_anonymous {m : Mention} (hm : m.var.isAnonymous = true) :
    drawn (m :: ms) names =
      (names.fresh generatedStem).1 :: drawn ms (names.fresh generatedStem).2 := by
  rw [drawn, nameAll_cons, nameVariable_of_anonymous hm, List.zip_cons_cons,
    List.filter_cons_of_pos (by simp [hm])]
  rfl

theorem drawn_cons_of_named {m : Mention} (hm : m.var.isAnonymous = false) :
    drawn (m :: ms) names = drawn ms names := by
  rw [drawn, nameAll_cons, nameVariable_of_named hm, List.zip_cons_cons,
    List.filter_cons_of_neg (by simp [hm])]
  rfl

/-- Forgetting the drawn names gives back the variables. -/
theorem map_forget_nameAll {new : List String} (hdrawn : ∀ x ∈ drawn ms names, x ∈ new)
    (hfree : ∀ m ∈ ms, m.var.name ∉ new) :
    (nameAll ms names).1.map (·.var.forget new) = ms.map (·.var) := by
  induction ms generalizing names with
  | nil => rfl
  | cons m ms ih =>
    obtain ⟨hm, hms⟩ := List.forall_mem_cons.1 hfree
    rw [nameAll_cons, List.map_cons, List.map_cons]
    cases hanonymous : m.var.isAnonymous with
    | true =>
      rw [drawn_cons_of_anonymous hanonymous, List.forall_mem_cons] at hdrawn
      rw [nameVariable_of_anonymous hanonymous, ih hdrawn.2 hms]
      -- The drawn name is forgotten again, and the sort had been kept.
      have hname : m.var.name = Variable.anonymous := beq_iff_eq.1 hanonymous
      have hforget : Variable.forget new ⟨(names.fresh generatedStem).1, m.var.sort⟩ = m.var := by
        rw [Variable.forget, if_pos hdrawn.1, ← hname]
      rw [hforget]
    | false =>
      rw [drawn_cons_of_named hanonymous] at hdrawn
      rw [nameVariable_of_named hanonymous, ih hdrawn hms, Variable.forget, if_neg hm]

/-- A name that no occurrence had stands where it was drawn, and nowhere else. -/
theorem count_nameAll {x : String} (hfree : ∀ m ∈ ms, m.var.name ≠ x) :
    ((nameAll ms names).1.map (·.var.name)).count x = (drawn ms names).count x := by
  induction ms generalizing names with
  | nil => rfl
  | cons m ms ih =>
    obtain ⟨hm, hms⟩ := List.forall_mem_cons.1 hfree
    rw [nameAll_cons, List.map_cons]
    cases hanonymous : m.var.isAnonymous with
    | true =>
      rw [nameVariable_of_anonymous hanonymous, drawn_cons_of_anonymous hanonymous, List.count_cons,
        List.count_cons, ih hms]
    | false =>
      rw [nameVariable_of_named hanonymous, drawn_cons_of_named hanonymous,
        List.count_cons_of_ne hm, ih hms]

end Mention

/-! ## Named sentences -/

theorem Rule.map_var_mentions_terms (r : Rule) :
    r.mentions.map (·.var) = Term.occurrencesAll r.terms :=
  r.map_var_mentions.trans (Term.occurrencesAll_eq_flatMap _).symm

theorem Context.map_var_mentions_terms (c : Context) :
    c.mentions.map (·.var) = Term.occurrencesAll c.terms := by
  rw [mentions, List.map_append, Mention.map_var_ofTerm?, Mention.map_var_ofTerm?,
    Term.occurrencesAll_eq_flatMap, ← List.flatMap_append]
  rfl

namespace AnonymousVariables

open FreshNames (candidate)
open Mention (drawn nameAll map_forget_nameAll count_nameAll)

/-- Some terms have become others in which no variable is anonymous. The names that were generated
for that are new to them, and each of these stands in one place. -/
structure NamesApart (ts us : List Term) (new : List String) : Prop where
  named : ∀ u ∈ us, Variable.anonymous ∉ u.variableNames
  generated : ∀ x ∈ new, ∃ n, x = candidate generatedStem n
  nodup : new.Nodup
  free : ∀ x ∈ new, ∀ t ∈ ts, x ∉ t.variableNames
  once : ∀ x ∈ new, ((Term.occurrencesAll us).map (·.name)).count x = 1

section

variable {ts us : List Term} {ms : List Mention} {taken : OrderedSet String}

/-- No occurrence has one of the names that are drawn besides those that are taken. -/
theorem name_notMem_drawn (hms : ms.map (·.var) = Term.occurrencesAll ts)
    (htaken : ∀ t ∈ ts, ∀ x ∈ t.variableNames, x ∈ taken) :
    ∀ m ∈ ms, m.var.name ∉ drawn ms (.avoiding taken) := by
  intro m hm hx
  have hvar : m.var ∈ Term.occurrencesAll ts := hms ▸ List.mem_map_of_mem hm
  obtain ⟨t, ht, hv⟩ := Term.mem_occurrencesAll.1 hvar
  have hname : m.var.name ∈ t.variableNames := Term.mem_variableNames.2 ⟨m.var, hv, rfl⟩
  exact (draws_nameAll ms (.avoiding taken)).free _ hx (htaken t ht _ hname)

theorem namesApart_drawn (hms : ms.map (·.var) = Term.occurrencesAll ts)
    (hus : (nameAll ms (.avoiding taken)).1.map (·.var) = Term.occurrencesAll us)
    (htaken : ∀ t ∈ ts, ∀ x ∈ t.variableNames, x ∈ taken)
    (hnamed : ∀ u ∈ us, Variable.anonymous ∉ u.variableNames) :
    NamesApart ts us (drawn ms (.avoiding taken)) := by
  have hdraws := draws_nameAll ms (.avoiding taken)
  have hother := name_notMem_drawn hms htaken
  refine ⟨hnamed, hdraws.candidates, hdraws.nodup,
    fun x hx t ht hmem => hdraws.free x hx (htaken t ht x hmem), fun x hx => ?_⟩
  have hcount : ((nameAll ms (.avoiding taken)).1.map (·.var.name)).count x = _ :=
    count_nameAll fun m hm hname => hother m hm (hname ▸ hx)
  rw [← hus, List.map_map]
  exact hcount.trans (List.count_eq_one_of_mem hdraws.nodup hx)

/-- Without the drawn names the terms are as before, since their variables are. -/
theorem map_forget_drawn
    (hthread : us = (Term.threadVariablesAll nameVariable ts (.avoiding taken)).1)
    (hms : ms.map (·.var) = Term.occurrencesAll ts)
    (hus : (nameAll ms (.avoiding taken)).1.map (·.var) = Term.occurrencesAll us)
    (htaken : ∀ t ∈ ts, ∀ x ∈ t.variableNames, x ∈ taken) :
    us.map (·.forget (drawn ms (.avoiding taken))) = ts := by
  have hoccurrences : (Term.occurrencesAll us).map (·.forget (drawn ms (.avoiding taken))) =
      Term.occurrencesAll ts := by
    rw [← hus, ← hms, List.map_map]
    exact map_forget_nameAll (fun _ hx => hx) (name_notMem_drawn hms htaken)
  rw [hthread] at hoccurrences ⊢
  exact (Term.transformAll_eq_map _ _).symm.trans
    (Term.renameAll_threadVariablesAll ts _ hoccurrences)

end

/-! ### Rules -/

/-- The terms of a rule are named one after the other. -/
theorem terms_resolveRule (r : Rule) : (resolveRule r).terms =
    (Term.threadVariablesAll nameVariable r.terms (.avoiding r.variableNames)).1 := by
  obtain ⟨body, _ | requires, _ | ensures, attributes⟩ := r
  all_goals rfl

/-- A rule is told from its image by its terms. -/
theorem forget_resolveRule_of_terms {new : List String} {r : Rule}
    (h : (resolveRule r).terms.map (·.forget new) = r.terms) : (resolveRule r).forget new = r := by
  obtain ⟨body, _ | requires, _ | ensures, attributes⟩ := r
  all_goals simp_all [resolveRule, Rule.terms, Rule.forget, Term.threadVariables?]

theorem namesApart_resolveRule (r : Rule) :
    NamesApart r.terms (resolveRule r).terms (drawn r.mentions (.avoiding r.variableNames)) ∧
      (resolveRule r).forget (drawn r.mentions (.avoiding r.variableNames)) = r := by
  have hus : (nameAll r.mentions (.avoiding r.variableNames)).1.map (·.var) =
      Term.occurrencesAll (resolveRule r).terms := by
    rw [← Rule.mentions_resolveRule, Rule.map_var_mentions_terms]
  have htaken : ∀ t ∈ r.terms, ∀ x ∈ t.variableNames, x ∈ r.variableNames :=
    fun t ht x hx => Rule.mem_variableNames.2 ⟨t, ht, hx⟩
  refine ⟨namesApart_drawn r.map_var_mentions_terms hus htaken fun u hu hx => ?_, ?_⟩
  · exact anonymous_notMem_resolveRule r (Rule.mem_variableNames.2 ⟨u, hu, hx⟩)
  · exact forget_resolveRule_of_terms
      (map_forget_drawn (terms_resolveRule r) r.map_var_mentions_terms hus htaken)

/-! ### Contexts -/

theorem terms_resolveContext (c : Context) : (resolveContext c).terms =
    (Term.threadVariablesAll nameVariable c.terms (.avoiding c.variableNames)).1 := by
  obtain ⟨body, _ | requires, attributes⟩ := c
  all_goals rfl

theorem forget_resolveContext_of_terms {new : List String} {c : Context}
    (h : (resolveContext c).terms.map (·.forget new) = c.terms) :
    (resolveContext c).forget new = c := by
  obtain ⟨body, _ | requires, attributes⟩ := c
  all_goals simp_all [resolveContext, Context.terms, Context.forget, Term.threadVariables?]

theorem namesApart_resolveContext (c : Context) :
    NamesApart c.terms (resolveContext c).terms (drawn c.mentions (.avoiding c.variableNames)) ∧
      (resolveContext c).forget (drawn c.mentions (.avoiding c.variableNames)) = c := by
  have hus : (nameAll c.mentions (.avoiding c.variableNames)).1.map (·.var) =
      Term.occurrencesAll (resolveContext c).terms := by
    rw [← Context.mentions_resolveContext, Context.map_var_mentions_terms]
  have htaken : ∀ t ∈ c.terms, ∀ x ∈ t.variableNames, x ∈ c.variableNames := by
    intro t ht x hx
    rw [Context.variableNames, OrderedSet.mem_ofList]
    exact List.mem_flatMap.2 ⟨t, ht, hx⟩
  refine ⟨namesApart_drawn c.map_var_mentions_terms hus htaken
    (anonymous_notMem_resolveContext c), ?_⟩
  exact forget_resolveContext_of_terms
    (map_forget_drawn (terms_resolveContext c) c.map_var_mentions_terms hus htaken)

/-- A context without anonymous variables stays as it is. -/
theorem resolveContext_eq_self {c : Context}
    (h : ∀ t ∈ c.terms, Variable.anonymous ∉ t.variableNames) : resolveContext c = c := by
  obtain ⟨hbody, hrequires⟩ := List.forall_mem_cons.1 h
  have hrequires : ∀ t ∈ c.requires, Variable.anonymous ∉ t.variableNames :=
    fun t ht => hrequires t (Option.mem_toList.2 ht)
  simp only [resolveContext, threadVariables_eq_self hbody, threadVariables?_eq_self hrequires]

/-! ### Both -/

/-- Anonymous variables are named, each with a name of its own that the sentence did not have, and
nothing else happens: without these names the sentence is as before. So there is nothing left to
name. -/
theorem exists_namesApart (r : Rule) (c : Context) :
    ((∃ new, NamesApart r.terms (resolveRule r).terms new ∧ (resolveRule r).forget new = r) ∧
        resolveRule (resolveRule r) = resolveRule r) ∧
      (∃ new, NamesApart c.terms (resolveContext c).terms new ∧
        (resolveContext c).forget new = c) ∧
        resolveContext (resolveContext c) = resolveContext c := by
  refine ⟨⟨⟨_, namesApart_resolveRule r⟩, ?_⟩, ⟨_, namesApart_resolveContext c⟩, ?_⟩
  · exact resolveRule_eq_self (anonymous_notMem_resolveRule r)
  · exact resolveContext_eq_self (anonymous_notMem_resolveContext c)

/-- A name that is written later in the rule is not drawn for what stands before. -/
example : resolveRule (.ofBody (.rewrite (.app "f" [.ofName "_", .ofName "_"]) (.ofName "_Gen0"))) =
    .ofBody (.rewrite (.app "f" [.ofName "_Gen1", .ofName "_Gen2"]) (.ofName "_Gen0")) := by
  decide +kernel

end AnonymousVariables

end RewriteSemantics
