/-
# The labels of freezers

The number of a context is the number of contexts before it in all modules, so resolving all
sentences of a definition is resolving one list, and the productions that come in are the freezers
of the contexts with the numbers 0, 1, 2 and so on.

A label is made of the label at the top of its context and the number with nothing in between. Where
digits at the end of an earlier top label complete the number of the earlier context to that of the
later one, both contexts get one label. So `f1(HOLE)` as the first context and `f(HOLE)` as the
eleventh share the freezer `#freezerf10`. This is the only way for two contexts to share one. Labels
that productions declare are not looked at.
-/
import Mathlib
import RewriteSemantics.Proofs.Context.Freezer
import RewriteSemantics.Proofs.Definition.Sentences
import RewriteSemantics.Term.Cast

namespace RewriteSemantics

/-- A text goes on behind another exactly if it is the other one with something behind it. -/
theorem Label.behind?_eq_some_iff {stem text rest : String} :
    behind? stem text = some rest ↔ text = stem ++ rest := by
  rw [behind?, Option.map_eq_some_iff]
  constructor
  · rintro ⟨back, hback, rfl⟩
    have hlists := List.isPrefixOf?_eq_some_iff_append_eq.1 hback
    rw [← String.toList_inj, String.toList_append, String.toList_ofList, hlists]
  · rintro rfl
    exact ⟨rest.toList, List.isPrefixOf?_eq_some_iff_append_eq.2 String.toList_append.symm,
      String.ofList_toList⟩

/-! ## Numbers -/

/-- The contexts of all modules, in the order of the module names. -/
def Definition.contexts (d : Definition) : List Context :=
  d.allSentences.filterMap Sentence.asContext?

namespace Freezer

open Definition (allSentences)

variable {d e : Definition}

/-- The first number of a module counts the contexts of the modules in front of it. -/
theorem firstIndex_eq_contextCount {front back : List (String × Module)} {x : String × Module}
    (h : d.modules.entries = front ++ x :: back) :
    firstIndex d x.1 = contextCount (front.flatMap (·.2.sentences)) := by
  have hascending := d.modules.ascending
  rw [h, List.pairwise_append, List.pairwise_cons] at hascending
  obtain ⟨-, ⟨hback, -⟩, hfront⟩ := hascending
  have hkeep : front.filter (fun y => (compare y.1 x.1).isLT) = front :=
    List.filter_eq_self.2 fun y hy => by rw [hfront y hy x List.mem_cons_self]; rfl
  have hdrop : (x :: back).filter (fun y => (compare y.1 x.1).isLT) = [] := by
    refine List.filter_eq_nil_iff.2 fun y hy => ?_
    rcases List.mem_cons.1 hy with rfl | hy
    · rw [Std.ReflOrd.compare_self]
      decide
    · rw [Std.OrientedCmp.gt_of_lt (hback y hy)]
      decide
  rw [firstIndex, h, List.filter_append, hkeep, hdrop, List.append_nil, contextCount,
    List.filterMap_flatMap]
  rfl

/-- Contexts are numbered through the modules as if all sentences stood in one. -/
theorem resolveFrom_allSentences (h : resolve d = .ok e) :
    resolveFrom 0 d.allSentences = .ok e.allSentences := by
  have hmodules := (resolve_eq_ok.1 h).modules
  unfold ModuleMap.Rewrites at hmodules
  -- the modules from some place on, numbered from the contexts in front of that place
  suffices hrest : ∀ front back back', d.modules.entries = front ++ back →
      List.Forall₂ (ModuleMap.RewritesEntry fun name ss ts =>
        resolveFrom (firstIndex d name) ss = .ok ts) back back' →
      resolveFrom (contextCount (front.flatMap (·.2.sentences))) (back.flatMap (·.2.sentences)) =
        .ok (back'.flatMap (·.2.sentences)) by
    rw [allSentences, allSentences, OrderedMap.values, OrderedMap.values, List.flatMap_map,
      List.flatMap_map]
    exact hrest [] d.modules.entries e.modules.entries rfl hmodules
  intro front back back' hentries hback
  induction hback generalizing front with
  | nil => rfl
  | @cons x y back back' hxy _ ih =>
    obtain ⟨-, ts, hts, hy⟩ := hxy
    have hname : x.2.name = x.1 := d.named x (hentries ▸ List.mem_append_right _ List.mem_cons_self)
    rw [hname, firstIndex_eq_contextCount hentries] at hts
    have hothers := ih (front ++ [x]) (by rw [hentries, List.append_assoc]; rfl)
    rw [List.flatMap_append, contextCount_append, List.flatMap_singleton] at hothers
    rw [List.flatMap_cons, List.flatMap_cons, hy]
    exact resolveFrom_append.2 ⟨ts, _, hts, hothers, rfl⟩

/-! ## Productions -/

theorem filterMap_production_expand {index : Nat} {s : Sentence} {first : List Sentence}
    (h : expand index s = .ok first) : first.filterMap Sentence.asProduction? =
      [s].filterMap Sentence.asProduction? ++
        (([s].filterMap Sentence.asContext?).zipIdx index).map fun p => production p.1 p.2 := by
  cases s with
  | context c =>
    obtain ⟨-, rfl⟩ := expand_context_eq_ok.1 h
    rfl
  | _ =>
    cases h
    rfl

/-- The productions that come in are the freezers of the contexts, with their numbers. -/
theorem productions_resolveFrom {index : Nat} {ss ts : List Sentence}
    (h : resolveFrom index ss = .ok ts) : (ts.filterMap Sentence.asProduction?).Perm
      (ss.filterMap Sentence.asProduction? ++
        ((ss.filterMap Sentence.asContext?).zipIdx index).map fun p => production p.1 p.2) := by
  induction ss generalizing index ts with
  | nil =>
    cases h
    exact .rfl
  | cons s ss ih =>
    obtain ⟨first, others, hfirst, hothers, rfl⟩ := resolveFrom_cons.1 h
    have hone := filterMap_production_expand hfirst
    have hrest := ih hothers
    rw [← List.singleton_append, List.filterMap_append, List.filterMap_append,
      List.filterMap_append, List.zipIdx_append, List.map_append, hone, List.append_assoc,
      List.append_assoc]
    refine List.Perm.append_left _ ((hrest.append_left _).trans ?_)
    exact List.perm_append_comm_assoc ..

/-- What resolving contexts adds to the productions of a definition. -/
theorem productions_resolve (h : resolve d = .ok e) : e.productions.Perm
    (d.productions ++ d.contexts.zipIdx.map fun p => production p.1 p.2) := by
  have hproductions : ∀ d : Definition,
      d.productions = d.allSentences.filterMap Sentence.asProduction? := fun d =>
    (List.filterMap_flatMap ..).symm
  rw [hproductions, hproductions, Definition.contexts]
  exact productions_resolveFrom (resolveFrom_allSentences h)

/-! ## Labels -/

/-- The label at the top of a context, which the label of its freezer goes on with. -/
def top (c : Context) : String :=
  c.body.topLabel?.getD ""

theorem length_repr_mono {i j : Nat} (h : i ≤ j) : i.repr.length ≤ j.repr.length := by
  have hj : j < 10 ^ j.repr.length := (Nat.length_repr_le_iff Nat.length_repr_pos).1 (Nat.le_refl _)
  exact (Nat.length_repr_le_iff Nat.length_repr_pos).2 (Nat.lt_of_le_of_lt h hj)

/-- Two contexts share a label exactly if the top label of the earlier one has digits at its end
that complete its number to that of the later one. -/
theorem label_eq_label_iff {c c' : Context} {i j : Nat} (hij : i < j) : label c i = label c' j ↔
    ∃ digits, digits ≠ "" ∧ top c = top c' ++ digits ∧ toString j = digits ++ toString i := by
  have htexts : label c i = label c' j ↔ top c ++ toString i = top c' ++ toString j := by
    rw [label, label, String.append_assoc, String.append_assoc, String.append_right_inj, top, top]
  have hne : toString i ≠ toString j := fun h => Nat.ne_of_lt hij (Nat.repr_injective h)
  rw [htexts]
  constructor
  · intro h
    have hlists := congrArg String.toList h
    rw [String.toList_append, String.toList_append, List.append_eq_append_iff] at hlists
    rcases hlists with ⟨digits, htop, hdigits⟩ | ⟨digits, htop, hdigits⟩
    · -- the later number would be a proper part of the earlier one
      have hlength := congrArg List.length hdigits
      rw [List.length_append, String.length_toList, String.length_toList] at hlength
      have hmono : (toString i).length ≤ (toString j).length := length_repr_mono (Nat.le_of_lt hij)
      have hnil : digits = [] := List.length_eq_zero_iff.1 (by omega)
      rw [hnil, List.nil_append, String.toList_inj] at hdigits
      exact absurd hdigits hne
    · refine ⟨String.ofList digits, fun hnil => hne ?_, ?_, ?_⟩
      · rw [String.ofList_eq_empty_iff.1 hnil, List.nil_append, String.toList_inj] at hdigits
        exact hdigits.symm
      · rw [← String.toList_inj, String.toList_append, String.toList_ofList, htop]
      · rw [← String.toList_inj, String.toList_append, String.toList_ofList, hdigits]
  · rintro ⟨digits, -, htop, hdigits⟩
    rw [htop, hdigits, String.append_assoc]

/-- Contexts of one top label never share a freezer. -/
theorem label_ne_of_top_eq {c c' : Context} {i j : Nat} (hij : i ≠ j) (h : top c = top c') :
    label c i ≠ label c' j := by
  have hearlier : ∀ {c c' : Context} {i j : Nat}, i < j → top c = top c' →
      label c i ≠ label c' j := by
    intro c c' i j hlt htop hlabel
    obtain ⟨digits, hdigits, htop', -⟩ := (label_eq_label_iff hlt).1 hlabel
    rw [htop] at htop'
    exact hdigits (String.append_eq_left_iff.1 htop'.symm)
  rcases Nat.lt_or_gt_of_ne hij with hlt | hlt
  · exact hearlier hlt h
  · exact (hearlier hlt h.symm).symm

/-- What a definition declares and its freezers: every context has one of its own number, and two
of them have one label only if the top label of the earlier context ends in digits that complete its
number to that of the later one. A declared label is that of a freezer exactly if it goes on behind
the stem of freezers with the top label and the number of a context. -/
theorem labels_of_resolve (h : resolve d = .ok e) :
    e.productions.Perm (d.productions ++ d.contexts.zipIdx.map fun p => production p.1 p.2) ∧
    (∀ i j c c', i < j → d.contexts[i]? = some c → d.contexts[j]? = some c' →
      (label c i = label c' j ↔
        ∃ digits, digits ≠ "" ∧ top c = top c' ++ digits ∧ toString j = digits ++ toString i)) ∧
    ∀ i c, d.contexts[i]? = some c → (label c i ∈ d.labels ↔
      ∃ p ∈ d.productions, ∃ text ∈ p.label,
        Label.behind? stem text = some (top c ++ toString i)) := by
  refine ⟨productions_resolve h, fun i j c c' hij _ _ => label_eq_label_iff hij, fun i c _ => ?_⟩
  rw [Definition.labels, OrderedSet.mem_ofList, List.mem_filterMap]
  constructor
  · rintro ⟨p, hp, hlabel⟩
    exact ⟨p, hp, _, hlabel, Label.behind?_eq_some_iff.2 (String.append_assoc ..)⟩
  · rintro ⟨p, hp, text, htext, hbehind⟩
    refine ⟨p, hp, Eq.trans htext (congrArg some ?_)⟩
    rw [Label.behind?_eq_some_iff.1 hbehind, ← String.append_assoc]
    rfl

/-! ### Shared freezers -/

/-- The context `l(HOLE)` of a label. -/
def unaryContext (l : String) : Context :=
  ⟨.app l [.ofName Variable.hole], none, ∅⟩

/-- A module with a production of a label and the contexts of some labels. -/
def unaryModule (declared : String) (ls : List String) : Module :=
  ⟨"M", [], .production (.labelled .kitem declared []) ::
    ls.map fun l => .context (unaryContext l), ∅⟩

/-- The definition of such a module. -/
def unaryDefinition (declared : String) (ls : List String) : Definition :=
  ⟨"M", .insert ∅ "M" (unaryModule declared ls), ∅,
    ModuleMap.named_empty.insert (unaryModule declared ls), by cbv⟩

/-- The freezers of the contexts `f(HOLE)` and `f1(HOLE)` are told apart, and from a label that goes
on behind the stem in another way. -/
theorem labels_of_resolve_unary : ∃ e, resolve (unaryDefinition "#freezer0" ["f", "f1"]) = .ok e ∧
    label (unaryContext "f") 0 ≠ label (unaryContext "f1") 1 ∧
    label (unaryContext "f") 0 ∉ (unaryDefinition "#freezer0" ["f", "f1"]).labels := by
  have hrun : (resolve (unaryDefinition "#freezer0" ["f", "f1"])).toOption.isSome = true := by cbv
  obtain ⟨e, he⟩ := Option.isSome_iff_exists.1 hrun
  have he := Except.toOption_eq_some.1 he
  obtain ⟨-, hshared, hdeclared⟩ := labels_of_resolve he
  refine ⟨e, he, fun hlabel => ?_, fun hlabel => ?_⟩
  · obtain ⟨digits, -, htop, -⟩ := (hshared 0 1 _ _ (by decide) rfl rfl).1 hlabel
    have hlength : "f".length = ("f1" ++ digits).length := congrArg String.length htop
    rw [String.length_append] at hlength
    have hlong : "f".length < "f1".length := by decide
    omega
  · obtain ⟨p, hp, text, htext, hbehind⟩ := (hdeclared 0 _ rfl).1 hlabel
    cases List.mem_singleton.1 hp
    cases htext
    exact absurd hbehind (by decide)

/-- The first and the eleventh of some contexts share a freezer, and the second one has that of a
declared label. -/
theorem exists_label_shared :
    ∃ d e, resolve d = .ok e ∧
      (∃ i j c c', i < j ∧ d.contexts[i]? = some c ∧ d.contexts[j]? = some c' ∧
        label c i = label c' j) ∧
      ∃ i c, d.contexts[i]? = some c ∧ label c i ∈ d.labels := by
  let ls := ["f1", "g", "g", "g", "g", "g", "g", "g", "g", "g", "f"]
  have hrun : (resolve (unaryDefinition "#freezerg1" ls)).toOption.isSome = true := by cbv
  obtain ⟨e, he⟩ := Option.isSome_iff_exists.1 hrun
  exact ⟨_, e, Except.toOption_eq_some.1 he,
    ⟨0, 10, unaryContext "f1", unaryContext "f", by decide, rfl, rfl, by decide⟩,
    1, unaryContext "g", rfl, by decide⟩

end Freezer

end RewriteSemantics
