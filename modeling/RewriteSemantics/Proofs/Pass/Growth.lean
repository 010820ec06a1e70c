/-
# Growth under passes

All passes but the last keep the main module, the names of the modules and the productions. So what
is a function in the beginning stays one.
-/
import RewriteSemantics.Pass.Standard
import RewriteSemantics.Proofs.Configuration.Counter
import RewriteSemantics.Proofs.Context.Freezer
import RewriteSemantics.Proofs.Definition.Views
import RewriteSemantics.Proofs.Pipeline

namespace RewriteSemantics

open Definition

variable {d e : Definition}

theorem Stream.growsTo (h : resolve d = .ok e) : d.GrowsTo e := by
  obtain ⟨f, hf, h⟩ := Except.bind_eq_ok.1 h
  have hgrows : d.GrowsTo f := by
    refine growsTo_of_mapSentences (fun s image hdecl himage => ?_) hf
    cases s with
    | configuration c => cases hdecl
    | _ =>
      cases himage
      exact List.mem_singleton_self _
  split at h
  · cases h
    exact hgrows
  · exact hgrows.trans (growsTo_of_appendToMain h)

theorem Strict.growsTo (h : d.mapSentences resolveSentence = .ok e) : d.GrowsTo e := by
  refine growsTo_of_mapSentences (fun s image hdecl himage => ?_) h
  cases s with
  | production p =>
    obtain ⟨strictness, -, himage⟩ := Except.bind_eq_ok.1 himage
    cases strictness with
    | none =>
      cases himage
      exact List.mem_singleton_self _
    | some found =>
      cases himage
      exact List.mem_cons_self
  | _ =>
    cases himage
    exact List.mem_singleton_self _

/-- Sentences that are no contexts stay. -/
theorem Freezer.mem_resolveFrom {index : Nat} {ss ts : List Sentence} {s : Sentence}
    (h : resolveFrom index ss = .ok ts) (hs : s.asContext? = none) (hmem : s ∈ ss) : s ∈ ts := by
  induction ss generalizing index ts with
  | nil => nomatch hmem
  | cons t ss ih =>
    obtain ⟨first, others, hfirst, hothers, rfl⟩ := resolveFrom_cons.1 h
    rcases List.mem_cons.1 hmem with rfl | hmem
    · cases s with
      | context c => cases hs
      | _ =>
        cases hfirst
        exact List.mem_cons_self
    · exact List.mem_append_right _ (ih hothers hmem)

theorem Freezer.growsTo (h : resolve d = .ok e) : d.GrowsTo e :=
  (resolve_eq_ok.1 h).growsTo fun _ _ _ s hss hdecl hs => mem_resolveFrom hss (by
    cases s with
    | context c => cases hdecl
    | _ => rfl) hs

/-- Adding the missing predicates is a rewriting. -/
theorem SortPredicates.generate_eq_ok {e : Definition} :
    generate d = .ok e ↔ d.Rewrites (fun name ss ts =>
      ts = ss ++
        (missing d ⟨name, [], ss, ∅⟩).map fun sort => .production (production sort)) e := by
  refine mapModules_eq_ok fun m m' => ?_
  constructor
  · intro hm
    cases hm
    exact ⟨_, rfl, rfl⟩
  · rintro ⟨_, rfl, rfl⟩
    rfl

theorem SortPredicates.growsTo (h : generate d = .ok e) : d.GrowsTo e := by
  refine (generate_eq_ok.1 h).growsTo ?_
  rintro name ss _ s rfl - hs
  exact List.mem_append_left _ hs

theorem Counter.growsTo {cell : String} (h : declare cell d = .ok e) : d.GrowsTo e := by
  unfold declare at h
  split at h
  · rename_i m hm
    have hmodule := module?_of_mem_closure (List.mem_of_find?_eq_some hm)
    refine ((withModule_eq_ok hmodule).1 (Except.mapError_eq_ok.1 h)).growsTo ?_
    rintro name ss _ s rfl hdecl hs
    split
    · refine mem_extendFirst ?_ hs
      cases s with
      | configuration c => cases hdecl
      | _ => rfl
    · exact hs
  · exact growsTo_of_appendToMain h

theorem FreshConstants.growsTo {cell : String} (h : resolve cell d = .ok e) : d.GrowsTo e := by
  obtain ⟨f, hf, h⟩ := Except.bind_eq_ok.1 h
  split at h
  · cases h
    exact growsTo_of_mapRules hf
  · exact (growsTo_of_mapRules hf).trans (Counter.growsTo h)

theorem ComputationCell.growsTo {cell : String} (h : add cell d = .ok e) : d.GrowsTo e := by
  obtain ⟨f, hf, h⟩ := Except.bind_eq_ok.1 h
  split at h
  · exact (growsTo_of_mapRules hf).trans (growsTo_of_appendToMain h)
  · cases h
    exact growsTo_of_mapRules hf

/-- Of a definition, the computation cell needs to know which rules are those of functions. -/
theorem ComputationCell.addToRule_congr {cell : String} {d d' : Definition} {r : Rule}
    (h : d'.isFunctionRule r = d.isFunctionRule r) :
    addToRule cell d' r = addToRule cell d r := by
  rw [addToRule, addToRule, h]

/-- Without strategies nothing is done about them. -/
theorem StrategyCell.add_disabled : add false d = .ok e ↔ e = d := by
  show Except.ok d = Except.ok e ↔ _
  rw [Except.ok.injEq, eq_comm]

theorem StrategyCell.growsTo {enabled : Bool} (h : add enabled d = .ok e) : d.GrowsTo e := by
  unfold add at h
  split at h
  · obtain ⟨tree, -, h⟩ := Except.bind_eq_ok.1 h
    split at h
    · exact growsTo_of_mapRules h
    · cases h
      exact .refl d
  · cases h
    exact .refl d

/-- The strategy cell changes no configuration. -/
theorem StrategyCell.cellTree_of_add {enabled : Bool} (h : add enabled d = .ok e) :
    CellTree.ofModule e e.main = CellTree.ofModule d d.main := by
  unfold add at h
  split at h
  · obtain ⟨tree, -, h⟩ := Except.bind_eq_ok.1 h
    split at h
    · exact cellTree_of_mapRules h
    · cases h
      rfl
  · cases h
    rfl

/-- Of a definition, concretization needs to know which rules are those of functions. -/
theorem Concretization.resolveRule_congr {tree : CellTree} {d d' : Definition} {s : Rule}
    (h : d'.isFunctionRule s = d.isFunctionRule s) :
    resolveRule tree d' s = resolveRule tree d s := by
  rw [resolveRule, resolveRule, h]

theorem Concretization.growsTo (h : resolve d = .ok e) : d.GrowsTo e := by
  obtain ⟨tree, -, h⟩ := Except.bind_eq_ok.1 h
  exact growsTo_of_mapRules h

/-- Placing cells changes no configuration. -/
theorem Concretization.cellTree_of_resolve (h : resolve d = .ok e) :
    CellTree.ofModule e e.main = CellTree.ofModule d d.main := by
  obtain ⟨tree, -, h⟩ := Except.bind_eq_ok.1 h
  exact cellTree_of_mapRules h

/-- Every pass but the last lets a definition grow. -/
theorem Pass.growsTo_of_run {o : Options} {p : Pass} (hp : p ∈ (standard o).dropLast)
    (h : p.run d = .ok e) : d.GrowsTo e := by
  simp only [standard, List.dropLast, List.mem_cons, List.not_mem_nil, or_false] at hp
  rcases hp with rfl | rfl | rfl | rfl | rfl | rfl | rfl | rfl | rfl | rfl | rfl
  · exact Stream.growsTo h
  · exact Strict.growsTo h
  · exact growsTo_of_mapRulesAndContexts h
  · exact Freezer.growsTo h
  · exact growsTo_of_mapRules h
  · exact growsTo_of_mapRulesAndContexts h
  · exact SortPredicates.growsTo h
  · exact FreshConstants.growsTo h
  · exact ComputationCell.growsTo h
  · exact StrategyCell.growsTo h
  · exact Concretization.growsTo h

/-- A run of such passes lets a definition grow. -/
theorem Pipeline.growsTo_of_run {o : Options} {ps : List Pass}
    (hps : ∀ p ∈ ps, p ∈ (Pass.standard o).dropLast) (h : (run ps d).result = .ok e) :
    d.GrowsTo e :=
  run_rel GrowsTo.refl (fun _ _ _ => GrowsTo.trans)
    (fun p hp _ _ hrun => Pass.growsTo_of_run (hps p hp) hrun) h

end RewriteSemantics
