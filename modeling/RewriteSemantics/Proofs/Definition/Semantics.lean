/-
# What the semantics module adds

The generated modules hold no more than injections and imports, and no other module imports them. So
the new main module sees the configuration that the old one saw, and the same labels are functions.
-/
import RewriteSemantics.Definition.Semantics
import RewriteSemantics.Proofs.Definition.AddedRule
import RewriteSemantics.Proofs.Definition.Imports

namespace RewriteSemantics.Semantics

open Definition

variable {d d' e e' : Definition}

/-- The modules of a definition with the generated ones. -/
def extended (d : Definition) : ModuleMap :=
  (d.modules.insert Builtin.semanticsModule (semanticsModule d)).insert Builtin.languageModule
    (languageModule d)

/-- The generated modules are added if the built-in ones are there and the modules are free of
faults on the way. -/
theorem add_eq_ok :
    add d = .ok e ↔ missingModule? d = none ∧
      ModuleMap.fault? (d.modules.insert Builtin.semanticsModule (semanticsModule d)) d.main =
        none ∧
      (extended d).fault? d.main = none ∧
      (extended d).fault? Builtin.semanticsModule = none ∧
      e.main = Builtin.semanticsModule ∧ e.modules = extended d ∧ e.attributes = d.attributes := by
  unfold add
  cases missingModule? d with
  | some name => simp
  | none =>
    simp only [Except.mapError_eq_ok, Except.bind_eq_ok, withModule, withMain, ofMap_eq_ok]
    constructor
    · rintro ⟨d₁, ⟨hfault₁, hmain₁, hmodules₁, hattributes₁⟩, d₂,
        ⟨hfault₂, hmain₂, hmodules₂, hattributes₂⟩, hfault, hmain, hmodules, hattributes⟩
      rw [hmodules₁] at hfault₂ hmodules₂
      rw [hmain₁] at hfault₂
      rw [hmodules₂] at hfault hmodules
      exact ⟨trivial, hfault₁, hfault₂, hfault, hmain, hmodules,
        hattributes.trans (hattributes₂.trans hattributes₁)⟩
    · rintro ⟨-, hfault₁, hfault₂, hfault, hmain, hmodules, hattributes⟩
      let d₁ : Definition := ⟨d.main, d.modules.insert Builtin.semanticsModule (semanticsModule d),
        d.attributes, d.named.insert (semanticsModule d), hfault₁⟩
      let d₂ : Definition := ⟨d.main, extended d, d.attributes,
        (d.named.insert (semanticsModule d)).insert (languageModule d), hfault₂⟩
      exact ⟨d₁, ⟨hfault₁, rfl, rfl, rfl⟩, d₂, ⟨hfault₂, rfl, rfl, rfl⟩, hfault, hmain, hmodules,
        hattributes⟩

/-! ## With one more rule -/

theorem injectedSorts_eq {main : String} {r : Rule} (h : d.Rewrites (.addsRule main r) d') :
    injectedSorts d' = injectedSorts d := by
  have hsorts := congrArg (fun l => l.flatMap (·.2.toList)) (h.definedSorts_closure d.main)
  simp only [List.flatMap_map] at hsorts
  rw [injectedSorts, injectedSorts, h.main]
  exact congrArg (fun l => (OrderedSet.ofList l).filter isInjected) hsorts

theorem missingModule?_eq {R : Rewriting} (h : d.Rewrites R d') :
    missingModule? d' = missingModule? d := by
  have hnone : ∀ name, (d'.module? name).isNone = (d.module? name).isNone := by
    intro name
    rcases h.modules.get? name with ⟨hd, hd'⟩ | ⟨m, m', hd, hd', -⟩
    · rw [module?, module?, hd, hd']
    · rw [module?, module?, hd, hd']
      rfl
  simp only [missingModule?, hnone]

/-- The generated modules are the same with one more rule. -/
theorem add_addsRule {main : String} {r : Rule} (h : d.Rewrites (.addsRule main r) d')
    (hsemantics : main ≠ Builtin.semanticsModule) (hlanguage : main ≠ Builtin.languageModule)
    (he' : add d' = .ok e') : ∃ e, add d = .ok e ∧ e.Rewrites (.addsRule main r) e' := by
  have hsem : semanticsModule d' = semanticsModule d := by
    rw [semanticsModule, semanticsModule, h.main, injectedSorts_eq h]
  have hlang : languageModule d' = languageModule d := by
    rw [languageModule, languageModule, h.main]
  have h₁ : ModuleMap.Rewrites (.addsRule main r)
      (d.modules.insert Builtin.semanticsModule (semanticsModule d))
      (d'.modules.insert Builtin.semanticsModule (semanticsModule d')) := by
    rw [hsem]
    exact h.modules.insert (m := semanticsModule d)
      (Rewriting.addsRule_of_ne hsemantics.symm r _)
  have h₂ : ModuleMap.Rewrites (.addsRule main r) (extended d) (extended d') := by
    unfold extended
    rw [hlang]
    exact h₁.insert (m := languageModule d) (Rewriting.addsRule_of_ne hlanguage.symm r _)
  obtain ⟨hmissing, hfault₁, hfault₂, hfault, hmain, hmodules, hattributes⟩ := add_eq_ok.1 he'
  rw [h₁.fault?, h.main] at hfault₁
  rw [h₂.fault?, h.main] at hfault₂
  rw [h₂.fault?] at hfault
  rw [missingModule?_eq h] at hmissing
  let e : Definition := ⟨Builtin.semanticsModule, extended d, d.attributes,
    (d.named.insert (semanticsModule d)).insert (languageModule d), hfault⟩
  refine ⟨e, add_eq_ok.2 ⟨hmissing, hfault₁, hfault₂, hfault, rfl, rfl, rfl⟩, hmain, ?_, ?_⟩
  · exact hattributes.trans h.attributes
  · rw [hmodules]
    exact h₂

/-! ## What the new main module sees -/

section

variable (h : add d = .ok e)

include h

theorem get?_of_add {name : String} (hsem : name ≠ Builtin.semanticsModule)
    (hlang : name ≠ Builtin.languageModule) : e.module? name = d.module? name := by
  obtain ⟨-, -, -, -, -, hmodules, -⟩ := add_eq_ok.1 h
  rw [module?, hmodules, extended, OrderedMap.get?_insert, if_neg hlang, OrderedMap.get?_insert,
    if_neg hsem]
  rfl

theorem get?_semanticsModule_of_add :
    e.module? Builtin.semanticsModule = some (semanticsModule d) := by
  obtain ⟨-, -, -, -, -, hmodules, -⟩ := add_eq_ok.1 h
  rw [module?, hmodules, extended, OrderedMap.get?_insert, if_neg (by decide),
    OrderedMap.get?_insert, if_pos rfl]

theorem get?_languageModule_of_add :
    e.module? Builtin.languageModule = some (languageModule d) := by
  obtain ⟨-, -, -, -, -, hmodules, -⟩ := add_eq_ok.1 h
  rw [module?, hmodules, extended, OrderedMap.get?_insert, if_pos rfl]

/-- Both generated modules import the old main module, so the imports would form a cycle if it led
to one of them. -/
theorem ne_of_reaches_of_add {name : String} (hreach : e.modules.Reaches d.main name) :
    name ≠ Builtin.semanticsModule ∧ name ≠ Builtin.languageModule := by
  constructor
  · rintro rfl
    refine not_reaches_of_import (?_ : e.modules.Imports Builtin.semanticsModule d.main) hreach
    rw [ModuleMap.Imports, ModuleMap.importsOf_of_get? (get?_semanticsModule_of_add h)]
    exact List.mem_cons_self
  · rintro rfl
    refine not_reaches_of_import (?_ : e.modules.Imports Builtin.languageModule d.main) hreach
    rw [ModuleMap.Imports, ModuleMap.importsOf_of_get? (get?_languageModule_of_add h)]
    exact List.mem_cons_self

/-- The old main module leads where it led before, and to no generated module. -/
theorem reaches_of_add {name : String} (hreach : d.modules.Reaches d.main name) :
    e.modules.Reaches d.main name := by
  induction hreach with
  | refl => exact .refl
  | @tail a b _ himports ih =>
    obtain ⟨hsem, hlang⟩ := ne_of_reaches_of_add h ih
    refine ih.tail ?_
    rw [ModuleMap.Imports, ModuleMap.importsOf, show e.modules.get? a = d.modules.get? a from
      get?_of_add h hsem hlang]
    exact himports

/-- The modules that are seen are the generated one and those seen before. -/
theorem closure_of_add : e.closure e.main = semanticsModule d :: d.closure d.main := by
  have hold : ∀ name, d.modules.Reaches d.main name →
      name ≠ Builtin.semanticsModule ∧ name ≠ Builtin.languageModule :=
    fun name hname => ne_of_reaches_of_add h (reaches_of_add h hname)
  obtain ⟨-, -, -, -, hmain, -⟩ := add_eq_ok.1 h
  rw [hmain, Definition.closure, ModuleMap.closure,
    ModuleMap.walk_of_some List.not_mem_nil (get?_semanticsModule_of_add h)]
  congr 1
  -- From the old main module on, imports lead to old modules only.
  refine ModuleMap.walk_congr (P := d.modules.Reaches d.main) (fun name hname => ?_)
    (fun name m hname hm i hi => hname.tail ?_) (fun name hname => ?_) fun name hname => ?_
  · exact get?_of_add h (hold name hname).1 (hold name hname).2
  · rw [ModuleMap.Imports, ModuleMap.importsOf_of_get? hm]
    exact hi
  · rw [List.mem_singleton]
    constructor
    · intro heq
      exact absurd heq (hold name hname).1
    · intro hmem
      cases hmem
  · rw [List.mem_singleton.1 hname]

/-- The productions seen before are seen. -/
theorem visibleProductions_subset_of_add :
    d.visibleProductions d.main ⊆ e.visibleProductions e.main := by
  intro p hp
  rw [mem_visibleProductions, sentencesOf] at hp ⊢
  rw [closure_of_add h, List.flatMap_cons]
  exact List.mem_append_right _ hp

/-- The generated module brings no rules in. -/
theorem mem_closure_of_mem_rules {m : Module} (hm : m ∈ e.closure e.main) {r : Rule}
    (hr : r ∈ m.rules) : m ∈ d.closure d.main := by
  rw [closure_of_add h] at hm
  rcases List.mem_cons.1 hm with rfl | hm
  · obtain ⟨sort, -, hsort⟩ := List.mem_map.1 (Module.mem_rules.1 hr)
    cases hsort
  · exact hm

/-- The configuration is the one seen before. -/
theorem cellTree_of_add : CellTree.ofModule e e.main = CellTree.ofModule d d.main := by
  have hnone : (semanticsModule d).sentences.findSome? Sentence.asConfiguration? = none := by
    rw [List.findSome?_eq_none_iff]
    intro s hs
    obtain ⟨sort, -, rfl⟩ := List.mem_map.1 hs
    rfl
  have hconfiguration : e.configuration? e.main = d.configuration? d.main := by
    rw [configuration?, sentencesOf, closure_of_add h, List.flatMap_cons,
      List.findSome?_append, hnone]
    rfl
  rw [CellTree.ofModule, CellTree.ofModule, hconfiguration]

/-! ### Where the names are free -/

variable (hsemantics : d.module? Builtin.semanticsModule = none)
  (hlanguage : d.module? Builtin.languageModule = none)

include hsemantics hlanguage

/-- The same labels are functions. -/
theorem isFunctionLabel_of_add (label : String) :
    e.isFunctionLabel label = d.isFunctionLabel label := by
  obtain ⟨-, -, -, -, -, hmodules, -⟩ := add_eq_ok.1 h
  have hlanguage' : (d.modules.insert Builtin.semanticsModule (semanticsModule d)).get?
      Builtin.languageModule = none := by
    rw [OrderedMap.get?_insert, if_neg (by decide)]
    exact hlanguage
  have hvalues : ∀ m, m ∈ e.modules.values ↔
      m = languageModule d ∨ m = semanticsModule d ∨ m ∈ d.modules.values := by
    intro m
    rw [hmodules, extended, (OrderedMap.values_insert_perm _ hlanguage').mem_iff, List.mem_cons,
      (OrderedMap.values_insert_perm _ hsemantics).mem_iff, List.mem_cons]
  rw [Bool.eq_iff_iff, isFunctionLabel_iff, isFunctionLabel_iff]
  constructor
  · rintro ⟨m, hm, p, hp, hlabel, hfunction⟩
    rcases (hvalues m).1 hm with rfl | rfl | hm
    · cases hp
    · obtain ⟨s, hs, hp⟩ := List.mem_filterMap.1 hp
      obtain ⟨sort, -, rfl⟩ := List.mem_map.1 hs
      cases hp
      cases hlabel
    · exact ⟨m, hm, p, hp, hlabel, hfunction⟩
  · rintro ⟨m, hm, hp⟩
    exact ⟨m, (hvalues m).2 (.inr (.inr hm)), hp⟩

end

end RewriteSemantics.Semantics
