/-
# The new variables of rules

On its way through the passes a rule gets variables that it did not have: one for each anonymous
occurrence, one for the counter, and one for the strategy. The passes know nothing of each other's
names. Each looks at the rule that it is given and takes a name that this rule does not have.

That is enough as long as a name that a rule has once had can still be seen. Only two kinds of names
go from a rule: the anonymous one, and those that mark made-up values. No new name is of these
kinds, so it can be told from all names that the rule had in the beginning.
-/
import RewriteSemantics.Proofs.Concretization.Shape
import RewriteSemantics.Proofs.Rule.FreshConstants
import RewriteSemantics.Proofs.Validation.Mentions
import RewriteSemantics.Rule.StrategyCell

namespace RewriteSemantics

open FreshNames (Draws candidate)

/-! ## New names -/

/-- No pass takes a variable of this name out of a rule. -/
structure IsLasting (x : String) : Prop where
  named : x ≠ Variable.anonymous
  unmarked : Variable.isFreshName x = false

theorem isLasting_candidate {stem : String} (hstem : IsNewStem stem) (n : Nat) :
    IsLasting (candidate stem n) := by
  refine ⟨Term.candidate_ne_of_toList ?_, Term.isFreshName_new hstem n⟩
  rcases hstem with rfl | rfl <;> decide

namespace Rule

variable {r r' r'' : Rule} {new new' : List String} {x : String}

/-- Some distinct names that a rule does not have, and that no pass takes out of it. -/
structure AreNew (r : Rule) (new : List String) : Prop where
  nodup : new.Nodup
  lasting : ∀ x ∈ new, IsLasting x
  free : ∀ x ∈ new, x ∉ r.variableNames

/-- One rule becomes another that has some new names, and the lasting names of the first. -/
structure Brings (r r' : Rule) (new : List String) : Prop extends AreNew r new where
  visible : ∀ x ∈ new, x ∈ r'.variableNames
  kept : ∀ x ∈ r.variableNames, IsLasting x → x ∈ r'.variableNames

/-- Names that are drawn from what a rule leaves free are new. -/
theorem areNew_of_draws {stem : String} {names : FreshNames} (hstem : IsNewStem stem)
    (h : Draws stem (.avoiding r.variableNames) new names) : r.AreNew new := by
  refine ⟨h.nodup, fun x hx => ?_, h.free⟩
  obtain ⟨n, rfl⟩ := h.candidates x hx
  exact isLasting_candidate hstem n

theorem brings_nil (h : ∀ x ∈ r.variableNames, IsLasting x → x ∈ r'.variableNames) :
    r.Brings r' [] :=
  ⟨⟨.nil, fun _ hx => (nomatch hx), fun _ hx => (nomatch hx)⟩, fun _ hx => (nomatch hx), h⟩

namespace Brings

/-- What is new to the second rule is new to the first, because the names of the first can still be
seen in the second. It differs from what the second has got, because that can be seen too. -/
theorem append (h : r.Brings r' new) (h' : r'.AreNew new') : r.AreNew (new ++ new') := by
  refine ⟨List.nodup_append.2 ⟨h.nodup, h'.nodup, ?_⟩,
    List.forall_mem_append.2 ⟨h.lasting, h'.lasting⟩,
    List.forall_mem_append.2 ⟨h.free, fun x hx hmem => ?_⟩⟩
  · rintro x hx _ hx' rfl
    exact h'.free x hx' (h.visible x hx)
  · exact h'.free x hx (h.kept x hmem (h'.lasting x hx))

theorem trans (h : r.Brings r' new) (h' : r'.Brings r'' new') : r.Brings r'' (new ++ new') := by
  refine ⟨h.append h'.toAreNew, List.forall_mem_append.2 ⟨fun x hx => ?_, h'.visible⟩,
    fun x hx hlasting => h'.kept x (h.kept x hx hlasting) hlasting⟩
  exact h'.kept x (h.visible x hx) (h.lasting x hx)

/-- A step that brings nothing in. -/
theorem trans_nil (h : r.Brings r' new) (h' : r'.Brings r'' []) : r.Brings r'' new :=
  List.append_nil new ▸ h.trans h'

end Brings

/-- A variable of a rule is one of another if each part of it that has the variable becomes a part
that has it. -/
theorem mem_variableNames_of_parts (hx : x ∈ r.variableNames)
    (hbody : x ∈ r.body.variableNames → x ∈ r'.body.variableNames)
    (hrequires : ∀ t ∈ r.requires, x ∈ t.variableNames → ∃ u ∈ r'.requires, x ∈ u.variableNames)
    (hensures : ∀ t ∈ r.ensures, x ∈ t.variableNames → ∃ u ∈ r'.ensures, x ∈ u.variableNames) :
    x ∈ r'.variableNames := by
  obtain ⟨t, ht, hx⟩ := mem_variableNames.1 hx
  rcases mem_terms.1 ht with rfl | ht | ht
  · exact mem_variableNames.2 ⟨r'.body, mem_terms.2 (.inl rfl), hbody hx⟩
  · obtain ⟨u, hu, hx⟩ := hrequires t ht hx
    exact mem_variableNames.2 ⟨u, mem_terms.2 (.inr (.inl hu)), hx⟩
  · obtain ⟨u, hu, hx⟩ := hensures t ht hx
    exact mem_variableNames.2 ⟨u, mem_terms.2 (.inr (.inr hu)), hx⟩

/-- A rule whose body is changed only keeps the variables that the body keeps. -/
theorem mem_variableNames_of_body {body : Term} (hx : x ∈ r.variableNames)
    (hbody : x ∈ r.body.variableNames → x ∈ body.variableNames) :
    x ∈ (Rule.mk body r.requires r.ensures r.attributes).variableNames :=
  mem_variableNames_of_parts hx hbody (fun t ht hx => ⟨t, ht, hx⟩) fun t ht hx => ⟨t, ht, hx⟩

theorem mem_variableNames_body (hx : x ∈ r.body.variableNames) : x ∈ r.variableNames :=
  mem_variableNames.2 ⟨r.body, mem_terms.2 (.inl rfl), hx⟩

end Rule

/-! ## Anonymous variables -/

/-- The occurrences of variables in a rule, through its body, its side condition and its promise. -/
def Rule.occurrences (r : Rule) : List Variable :=
  r.terms.flatMap (·.occurrences)

/-- The names of the variables that stand where a rule has anonymous ones. -/
def AnonymousVariables.newNames (r : Rule) : List String :=
  ((r.occurrences.zip (resolveRule r).occurrences).filter (·.1.isAnonymous)).map (·.2.name)

theorem Rule.mem_variableNames_iff_occurrences {r : Rule} {x : String} :
    x ∈ r.variableNames ↔ ∃ v ∈ r.occurrences, v.name = x := by
  simp only [mem_variableNames, Term.mem_variableNames, occurrences, List.mem_flatMap]
  constructor
  · rintro ⟨t, ht, v, hv, hx⟩
    exact ⟨v, ⟨t, ht, hv⟩, hx⟩
  · rintro ⟨v, ⟨t, ht, hv⟩, hx⟩
    exact ⟨t, ht, v, hv, hx⟩

theorem Mention.map_var_ofTerm? (binds uses : Bool) (o : Option Term) :
    (ofTerm? binds uses o).map (·.var) = o.toList.flatMap (·.occurrences) := by
  rw [ofTerm?, List.map_flatMap]
  refine List.flatMap_congr fun t _ => ?_
  rw [List.map_map]
  exact List.map_id _

theorem Rule.map_var_mentions (r : Rule) : r.mentions.map (·.var) = r.occurrences := by
  rw [mentions, occurrences, terms, List.flatMap_cons, List.flatMap_append, List.map_append,
    List.map_append, Term.map_var_mentions, Mention.map_var_ofTerm?, Mention.map_var_ofTerm?]

namespace AnonymousVariables

open Mention (nameAll nameAll_cons)

/-- The anonymous occurrences draw their names one after the other. -/
theorem draws_nameAll (ms : List Mention) (names : FreshNames) :
    Draws generatedStem names
      (((ms.zip (nameAll ms names).1).filter (·.1.var.isAnonymous)).map (·.2.var.name))
      (nameAll ms names).2 := by
  induction ms generalizing names with
  | nil => exact .refl _ names
  | cons m ms ih =>
    rw [nameAll_cons, List.zip_cons_cons]
    cases hm : m.var.isAnonymous with
    | true =>
      rw [nameVariable_of_anonymous hm, List.filter_cons_of_pos (by simp [hm])]
      exact (Draws.fresh generatedStem names).append (ih _)
    | false =>
      rw [nameVariable_of_named hm, List.filter_cons_of_neg (by simp [hm])]
      exact ih names

theorem newNames_eq (r : Rule) : newNames r =
    ((r.mentions.zip (nameAll r.mentions (.avoiding r.variableNames)).1).filter
      (·.1.var.isAnonymous)).map (·.2.var.name) := by
  rw [newNames, ← Rule.map_var_mentions, ← Rule.map_var_mentions, Rule.mentions_resolveRule,
    List.zip_map, List.filter_map, List.map_map]
  rfl

/-- Each anonymous occurrence gets a name. -/
theorem length_newNames (r : Rule) :
    (newNames r).length = r.occurrences.countP (·.isAnonymous) := by
  have hlength : r.occurrences.length = (resolveRule r).occurrences.length := by
    rw [← Rule.map_var_mentions, ← Rule.map_var_mentions, Rule.mentions_resolveRule,
      List.length_map, List.length_map]
    exact (Mention.related_nameAll _ _).length_eq
  rw [newNames, List.length_map, ← List.countP_eq_length_filter]
  conv_rhs => rw [← List.map_fst_zip hlength.le, List.countP_map]
  rfl

theorem brings (r : Rule) : r.Brings (resolveRule r) (newNames r) := by
  refine ⟨?_, fun x hx => ?_, fun x hx hlasting => ?_⟩
  · rw [newNames_eq]
    exact Rule.areNew_of_draws (.inl rfl) (draws_nameAll r.mentions _)
  · obtain ⟨⟨v, w⟩, hmem, rfl⟩ := List.mem_map.1 hx
    have hw := (List.of_mem_zip (List.mem_filter.1 hmem).1).2
    exact Rule.mem_variableNames_iff_occurrences.2 ⟨w, hw, rfl⟩
  · -- A lasting name is not the anonymous one, so its occurrences keep it.
    obtain ⟨v, hv, rfl⟩ := Rule.mem_variableNames_iff_occurrences.1 hx
    obtain ⟨m, hm, rfl⟩ := List.mem_map.1 (r.map_var_mentions ▸ hv)
    obtain ⟨m', hm', hnamed⟩ := (Mention.related_nameAll r.mentions _).exists_of_mem hm
    have hkept := hnamed.kept (by simpa [Variable.isAnonymous] using hlasting.named)
    have hvar := List.mem_map_of_mem (f := Mention.var) (r.mentions_resolveRule ▸ hm')
    rw [Rule.map_var_mentions, hkept] at hvar
    exact Rule.mem_variableNames_iff_occurrences.2 ⟨m.var, hvar, rfl⟩

end AnonymousVariables

/-! ## Conditions and casts -/

theorem HeatCool.brings {r r' : Rule} (h : resolveRule r = .ok r') : r.Brings r' [] := by
  refine Rule.brings_nil fun x hx _ => ?_
  cases hc : condition? r with
  | none =>
    rw [resolveRule, hc] at h
    cases h
    exact hx
  | some condition =>
    obtain ⟨-, rfl⟩ := (resolveRule_eq_ok hc).1 h
    refine Rule.mem_variableNames_of_parts hx id (fun t ht hx => ?_) fun t ht hx => ⟨t, ht, hx⟩
    exact ⟨_, rfl, Term.mem_variableNames_andBool.2 (.inl ⟨t, ht, hx⟩)⟩

namespace SemanticCasts

/-- The membership predicates come beside the side condition. -/
theorem exists_of_mem_sideCondition {skip : Bool} {requires : Option Term} {lhs : Term} {x : String}
    (h : ∃ t ∈ requires, x ∈ t.variableNames) :
    ∃ t ∈ sideCondition skip requires lhs, x ∈ t.variableNames := by
  unfold sideCondition
  split
  · exact h
  · generalize (castsOf [lhs]).entries.filter (needsPredicate ·.2) = entries
    induction entries generalizing requires with
    | nil => exact h
    | cons e entries ih => exact ih ⟨_, rfl, Term.mem_variableNames_andBool.2 (.inl h)⟩

theorem brings (skip : Bool) (r : Rule) : r.Brings (resolveRule skip r) [] := by
  have hstrip : ∀ (o : Option Term) (x : String), ∀ t ∈ o, x ∈ t.variableNames →
      ∃ u ∈ o.map (strip (castsOf r.terms)), x ∈ u.variableNames := by
    intro o x t ht hx
    exact ⟨_, Option.mem_map_of_mem _ ht, mem_variableNames_strip.2 hx⟩
  refine Rule.brings_nil fun x hx _ => Rule.mem_variableNames_of_parts hx
    mem_variableNames_strip.2 (fun t ht hx => ?_) (hstrip r.ensures x)
  exact exists_of_mem_sideCondition (hstrip r.requires x t ht hx)

end SemanticCasts

/-! ## Cells -/

theorem Term.mem_variableNames_beside {t extra : Term} {x : String} :
    x ∈ (t.beside extra).variableNames ↔ x ∈ t.variableNames ∨ x ∈ extra.variableNames := by
  cases t <;> simp [beside, or_and_right, exists_or]

/-- A body has the same variables once it is in the computation cell. -/
theorem ComputationCell.mem_variableNames_wrap {cell : String} {body : Term} {x : String} :
    x ∈ (wrap cell body).variableNames ↔ x ∈ body.variableNames := by
  unfold wrap
  split
  · split
    · rename_i items
      dsimp only
      split
      · rfl
      · rw [Term.mem_variableNames_bag, Term.mem_variableNames_bag, List.exists_mem_cons_iff,
          Term.openCell, Term.mem_variableNames_cell, Term.mem_variableNames_sequence]
        constructor
        · rintro (⟨t, ht, hx⟩ | ⟨t, ht, hx⟩)
          · exact ⟨t, List.mem_of_mem_filter ht, hx⟩
          · exact ⟨t, List.mem_of_mem_filter ht, hx⟩
        · rintro ⟨t, ht, hx⟩
          cases hcell : t.isCell with
          | true => exact .inr ⟨t, List.mem_filter.2 ⟨ht, hcell⟩, hx⟩
          | false => exact .inl ⟨t, List.mem_filter.2 ⟨ht, by simp [hcell]⟩, hx⟩
    · rfl
  · rw [Term.openCell, Term.mem_variableNames_cell]

theorem ComputationCell.brings (cell : String) (d : Definition) (r : Rule) :
    r.Brings (addToRule cell d r) [] := by
  refine Rule.brings_nil fun x hx _ => ?_
  unfold addToRule
  split
  · exact hx
  · exact Rule.mem_variableNames_of_body hx mem_variableNames_wrap.2

/-- The variable for the counter in a rule that makes up values. -/
def FreshConstants.newNames (r : Rule) : List String :=
  if (freshVariables r).isEmpty then [] else (counterOf r).occurrences.map (·.name)

namespace FreshConstants

variable {d : Definition} {r r' : Rule}

/-- A variable without a value stays. -/
theorem mem_variableNames_replace_of_lookup {values : List (String × Term)} {t : Term} {x : String}
    (hnone : values.lookup x = none) (hx : x ∈ t.variableNames) :
    x ∈ (replace values t).variableNames := by
  induction t using Term.induct_children with
  | step t ih =>
    cases ht : t.asVariable? with
    | some v =>
      rw [Term.eq_var_of_asVariable? ht] at hx ⊢
      have hvar : replace values (.var v) = .var v := by
        show (values.lookup v.name).getD (.var v) = .var v
        rw [Term.mem_variableNames_var.1 hx, hnone]
        rfl
      rw [hvar]
      exact hx
    | none =>
      obtain ⟨hreplace, hchildren⟩ := children_replace values ht
      obtain ⟨c, hc, hx⟩ := (Term.mem_variableNames_children ht).1 hx
      rw [Term.mem_variableNames_children hreplace, hchildren]
      exact ⟨_, List.mem_map_of_mem hc, ih c hc hx⟩

/-- Only marked variables have values. -/
theorem lookup_of_isLasting {counter : Term} {values : List (String × Term)} {x : String}
    (h : valuesFrom d counter 0 (freshVariables r).entries = .ok values) (hx : IsLasting x) :
    values.lookup x = none := by
  rw [lookup_eq_none_iff, map_fst_valuesFrom h]
  intro hmem
  obtain ⟨e, he, rfl⟩ := List.mem_map.1 hmem
  have hmarked := isFreshName_of_mem he
  rw [hx.unmarked] at hmarked
  cases hmarked

theorem brings (h : resolveRule d r = .ok r') : r.Brings r' (newNames r) := by
  unfold resolveRule at h
  unfold newNames
  dsimp only at h
  split at h
  · rename_i hnone
    cases h
    rw [if_pos hnone]
    exact Rule.brings_nil fun x hx _ => hx
  · rename_i hsome
    obtain ⟨values, hvalues, h⟩ := Except.bind_eq_ok.1 h
    cases h
    rw [if_neg hsome]
    refine ⟨Rule.areNew_of_draws (.inl rfl) (.fresh _ _), fun x hx => ?_, fun x hx hlasting => ?_⟩
    · obtain ⟨v, hv, rfl⟩ := List.mem_map.1 hx
      have hcounter : v.name ∈ (counterOf r).variableNames := Term.mem_variableNames.2 ⟨v, hv, rfl⟩
      refine Rule.mem_variableNames_body (Term.mem_variableNames_beside.2 (.inr ?_))
      rw [counterCell, Term.closedCell, Term.mem_variableNames_cell, Term.mem_variableNames_rewrite]
      exact .inl hcounter
    · -- Values stand for marked names only, and a lasting one is not marked.
      have hkept : ∀ t : Term, x ∈ t.variableNames → x ∈ (replace values t).variableNames :=
        fun t => mem_variableNames_replace_of_lookup (lookup_of_isLasting hvalues hlasting)
      refine Rule.mem_variableNames_of_parts hx
        (fun hx => Term.mem_variableNames_beside.2 (.inl (hkept _ hx))) ?_ ?_
      · exact fun t ht hx => ⟨_, Option.mem_map_of_mem _ ht, hkept t hx⟩
      · exact fun t ht hx => ⟨_, Option.mem_map_of_mem _ ht, hkept t hx⟩

end FreshConstants

/-- The variable for the strategy in a rule that gets the strategy cell and has no marker for it. -/
def StrategyCell.newNames (d : Definition) (r : Rule) : List String :=
  if d.isFunctionRule r || r.body.mentionsCell cellName then []
  else (content r).occurrences.map (·.name)

namespace StrategyCell

theorem areNew_content (r : Rule) : r.AreNew ((content r).occurrences.map (·.name)) := by
  have hnone : r.AreNew [] := ⟨.nil, fun _ hx => (nomatch hx), fun _ hx => (nomatch hx)⟩
  unfold content
  split
  · exact hnone
  · split
    · exact hnone
    · exact Rule.areNew_of_draws (.inl rfl) (.fresh _ _)

theorem brings (d : Definition) (r : Rule) : r.Brings (addToRule d r) (newNames d r) := by
  unfold addToRule newNames
  split
  · exact Rule.brings_nil fun x hx _ => hx
  · refine ⟨areNew_content r, fun x hx => ?_, fun x hx _ => ?_⟩
    · obtain ⟨v, hv, rfl⟩ := List.mem_map.1 hx
      refine Rule.mem_variableNames_body (Term.mem_variableNames_beside.2 (.inr ?_))
      rw [Term.openCell, Term.mem_variableNames_cell]
      exact Term.mem_variableNames.2 ⟨v, hv, rfl⟩
    · exact Rule.mem_variableNames_of_body hx fun hx => Term.mem_variableNames_beside.2 (.inl hx)

end StrategyCell

/-! ## Unwritten content -/

/-- The new variables in the body of a placed rule stand where content is unwritten. The rule of a
function has none. -/
def Concretization.Dots (tree : CellTree) (d : Definition) (r r' : Rule) (dots : List String) :
    Prop :=
  if d.isFunctionRule r then dots = []
  else ∃ met, Shaped tree (pieces tree r.body) [tree.top] [r'.body] met dots

theorem Concretization.exists_dots {tree : CellTree} {configuration : Term} {d : Definition}
    {r r' : Rule} (ht : CellTree.ofTerm configuration = .ok tree)
    (h : resolveRule tree d r = .ok r') : ∃ dots, Dots tree d r r' dots ∧ r.AreNew dots := by
  unfold Dots
  cases hfunction : d.isFunctionRule r with
  | true =>
    exact ⟨[], rfl, .nil, fun _ hx => (nomatch hx), fun _ hx => (nomatch hx)⟩
  | false =>
    obtain ⟨names, within, placed, ⟨met, dots, hshaped, hdraws, -, -⟩, -, -⟩ :=
      built_of_resolveRule ht hfunction h
    exact ⟨dots, ⟨met, hshaped⟩, Rule.areNew_of_draws (.inr rfl) hdraws⟩

end RewriteSemantics
