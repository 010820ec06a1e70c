/-
# The two generated modules

The last pass enters two modules under names of its own. It looks for no module of these names, so
one that was there is gone afterwards; every other module stays as it is. The first generated module
injects exactly the sorts that the main module defines or sees defined, and the second one has
imports only. If the names are free and the built-in modules are there, nothing stands in the way of
the pass: no module imports a generated one, so the imports form no new cycle.
-/
import RewriteSemantics.Proofs.Definition.Semantics
import RewriteSemantics.Proofs.Definition.Structure
import RewriteSemantics.Proofs.Module.SortPredicates

namespace RewriteSemantics

/-! ## One more module -/

namespace Module

open Relation

variable {main : String} {ms : List Module} {m : Module}

/-- Imports of one more module lead out of it, and no import leads to it. -/
theorem transGen_importsIn_cons (hnew : m.name ∉ ms.map (·.name))
    (hresolved : ∀ n ∈ m :: ms, ∀ i ∈ n.imports, i ∈ ms.map (·.name)) {a b : String}
    (h : TransGen (ImportsIn (m :: ms)) a b) : b ∈ ms.map (·.name) ∧
      (a ≠ m.name → TransGen (ImportsIn ms) a b) := by
  have hedge : ∀ {a b}, ImportsIn (m :: ms) a b → b ∈ ms.map (·.name) ∧
      (a ≠ m.name → ImportsIn ms a b) := by
    rintro a b ⟨n, hn, rfl, hb⟩
    refine ⟨hresolved n hn b hb, fun hne => ?_⟩
    rcases List.mem_cons.1 hn with rfl | hn
    · exact absurd rfl hne
    · exact ⟨n, hn, rfl, hb⟩
  induction h with
  | single h => exact ⟨(hedge h).1, fun hne => .single ((hedge h).2 hne)⟩
  | tail _ h ih =>
    refine ⟨(hedge h).1, fun hne => (ih.2 hne).tail ((hedge h).2 ?_)⟩
    rintro rfl
    exact hnew ih.1

/-- A module under a new name that imports known modules can be added. -/
theorem WellFormed.cons (h : WellFormed main ms) (hnew : m.name ∉ ms.map (·.name))
    (himports : ∀ i ∈ m.imports, i ∈ ms.map (·.name)) : WellFormed main (m :: ms) := by
  have hresolved : ∀ n ∈ m :: ms, ∀ i ∈ n.imports, i ∈ ms.map (·.name) :=
    List.forall_mem_cons.2 ⟨himports, h.resolved⟩
  refine ⟨List.nodup_cons.2 ⟨hnew, h.distinct⟩, List.mem_cons_of_mem _ h.main_mem, ?_, ?_⟩
  · intro n hn i hi
    exact List.mem_cons_of_mem _ (hresolved n hn i hi)
  · intro a hcycle
    -- No import leads to the new module, so a cycle would be one of the others.
    obtain ⟨ha, hold⟩ := transGen_importsIn_cons hnew hresolved hcycle
    apply h.acyclic a
    apply hold
    rintro rfl
    exact hnew ha

end Module

namespace Definition

variable {d : Definition} {m : Module}

theorem mem_names_iff {name : String} :
    name ∈ d.modules.values.map (·.name) ↔ ∃ m, d.module? name = some m := by
  rw [← ModuleMap.contains_iff_mem_names d.named, OrderedMap.contains_iff]
  rfl

/-- A module under a free name that imports modules of a definition can be added to it. -/
theorem exists_withModule (hnew : d.module? m.name = none)
    (himports : ∀ i ∈ m.imports, ∃ m', d.module? i = some m') : ∃ e, d.withModule m = .ok e := by
  have hname : m.name ∉ d.modules.values.map (·.name) := by
    rw [mem_names_iff, hnew]
    rintro ⟨m', hm'⟩
    cases hm'
  -- So nothing is replaced.
  have hothers : d.modules.values.filter (·.name ≠ m.name) = d.modules.values := by
    apply List.filter_eq_self.2
    intro n hn
    apply decide_eq_true
    intro heq
    apply hname
    rw [← heq]
    exact List.mem_map_of_mem hn
  rw [(judges_withModule d m).accepts, hothers]
  apply d.wellFormed.cons hname
  intro i hi
  exact mem_names_iff.2 (himports i hi)

theorem module?_withModule_self {e : Definition} (h : d.withModule m = .ok e) :
    e.module? m.name = some m := by
  obtain ⟨-, -, hmodules, -⟩ := ofMap_eq_ok.1 h
  rw [module?, hmodules, OrderedMap.get?_insert, if_pos rfl]

theorem module?_withModule_of_ne {e : Definition} (h : d.withModule m = .ok e) {name : String}
    (hne : name ≠ m.name) : e.module? name = d.module? name := by
  obtain ⟨-, -, hmodules, -⟩ := ofMap_eq_ok.1 h
  rw [module?, hmodules, OrderedMap.get?_insert, if_neg hne]
  rfl

theorem exists_withMain {name : String} (h : d.module? name = some m) :
    ∃ e, d.withMain name = .ok e := by
  rw [(judges_withMain d name).accepts]
  exact { d.wellFormed with main_mem := mem_names_iff.2 ⟨m, h⟩ }

end Definition

namespace Semantics

open Definition

variable {d e : Definition}

/-! ## What comes in -/

theorem mem_injectedSorts {sort : SortName} : sort ∈ injectedSorts d ↔
    d.DefinesSort d.main sort ∧ sort.isParserSort = false ∧ sort ≠ .k ∧ sort ≠ .kitem := by
  have hdefines : (∃ m ∈ d.closure d.main, sort ∈ m.definedSorts) ↔ d.DefinesSort d.main sort := by
    simp only [Module.mem_definedSorts]
    exact exists_mem_closure_iff
  rw [injectedSorts, OrderedSet.mem_filter, OrderedSet.mem_ofList, List.mem_flatMap, ← hdefines]
  refine and_congr Iff.rfl ?_
  simp [isInjected, and_assoc]

/-- What adding the generated modules makes of a definition. -/
structure Synthesizes (d e : Definition) : Prop where
  main : e.main = "SEMANTICS"
  attributes : e.attributes = d.attributes
  /-- Under all other names there is what was there. -/
  module? : ∀ name, name ≠ "SEMANTICS" → name ≠ "LANGUAGE-PARSING" →
    e.module? name = d.module? name
  /-- One module injects the sorts that the main module sees defined, in their order. -/
  semantics : ∃ sorts : List SortName, sorts.Pairwise Ascends ∧
    (∀ sort, sort ∈ sorts ↔ d.DefinesSort d.main sort ∧ sort.isParserSort = false ∧
      sort ≠ .k ∧ sort ≠ .kitem) ∧
    e.module? "SEMANTICS" = some ⟨"SEMANTICS", [d.main],
      sorts.map fun sort => .production ⟨.kitem, none, [sort], ∅⟩, ∅⟩
  /-- The other one joins the main module with the built-in ones. -/
  language : e.module? "LANGUAGE-PARSING" = some ⟨"LANGUAGE-PARSING",
    [d.main, "K-TERM", "ID-PROGRAM-PARSING"], [], ∅⟩

/-- No module of a definition has the name of a generated module, unless it is this very module. -/
structure LeavesNames (d : Definition) : Prop where
  semantics : ∀ m, d.module? "SEMANTICS" = some m → m = semanticsModule d
  language : ∀ m, d.module? "LANGUAGE-PARSING" = some m → m = languageModule d

theorem synthesizes_of_add (h : add d = .ok e) : Synthesizes d e := by
  obtain ⟨-, -, -, -, hmain, -, hattributes⟩ := add_eq_ok.1 h
  exact ⟨hmain, hattributes, fun _ => get?_of_add h,
    ⟨(injectedSorts d).toList, (injectedSorts d).ascending, fun _ => mem_injectedSorts,
      get?_semanticsModule_of_add h⟩, get?_languageModule_of_add h⟩

theorem keeps_iff_leavesNames (h : add d = .ok e) :
    (∀ name m, d.module? name = some m → e.module? name = some m) ↔ LeavesNames d := by
  constructor
  · intro hkept
    constructor
    · intro m hm
      have hafter := hkept _ m hm
      exact Option.some.inj (hafter.symm.trans (get?_semanticsModule_of_add h))
    · intro m hm
      have hafter := hkept _ m hm
      exact Option.some.inj (hafter.symm.trans (get?_languageModule_of_add h))
  · intro hnames name m hm
    by_cases hsemantics : name = Builtin.semanticsModule
    · subst hsemantics
      rw [hnames.semantics m hm]
      exact get?_semanticsModule_of_add h
    · by_cases hlanguage : name = Builtin.languageModule
      · subst hlanguage
        rw [hnames.language m hm]
        exact get?_languageModule_of_add h
      · rw [get?_of_add h hsemantics hlanguage]
        exact hm

theorem missingModule?_eq_none {m m' : Module} (hterms : d.module? Builtin.termModule = some m)
    (hprograms : d.module? Builtin.programModule = some m') : missingModule? d = none := by
  rw [missingModule?, List.find?_cons, hterms, List.find?_cons, hprograms]
  rfl

/-- Where the names are free and the built-in modules are there, the generated modules are added. -/
theorem exists_add {m m' : Module} (hterms : d.module? Builtin.termModule = some m)
    (hprograms : d.module? Builtin.programModule = some m')
    (hsemantics : d.module? Builtin.semanticsModule = none)
    (hlanguage : d.module? Builtin.languageModule = none) : ∃ e, add d = .ok e := by
  obtain ⟨d₁, h₁⟩ := exists_withModule (m := semanticsModule d) hsemantics
    (List.forall_mem_singleton.2 ⟨_, d.module?_main⟩)
  have hkept : ∀ {name}, name ≠ Builtin.semanticsModule → d₁.module? name = d.module? name :=
    module?_withModule_of_ne h₁
  have hmain : d.main ≠ Builtin.semanticsModule := by
    intro heq
    have hfound := d.module?_main
    rw [heq, hsemantics] at hfound
    cases hfound
  have hfree : d₁.module? Builtin.languageModule = none := (hkept (by decide)).trans hlanguage
  have himports : ∀ i ∈ (languageModule d).imports, ∃ m', d₁.module? i = some m' := by
    intro i hi
    simp only [languageModule, List.mem_cons, List.not_mem_nil, or_false] at hi
    rcases hi with rfl | rfl | rfl
    · exact ⟨_, (hkept hmain).trans d.module?_main⟩
    · exact ⟨m, (hkept (by decide)).trans hterms⟩
    · exact ⟨m', (hkept (by decide)).trans hprograms⟩
  obtain ⟨d₂, h₂⟩ := exists_withModule (m := languageModule d) hfree himports
  have hne : Builtin.semanticsModule ≠ Builtin.languageModule := by decide
  have hnew : d₂.module? Builtin.semanticsModule = some (semanticsModule d) :=
    (module?_withModule_of_ne h₂ hne).trans (module?_withModule_self h₁)
  obtain ⟨e, he⟩ := exists_withMain hnew
  refine ⟨e, ?_⟩
  rw [add, missingModule?_eq_none hterms hprograms, Except.mapError_eq_ok]
  exact Except.bind_eq_ok.2 ⟨d₁, h₁, Except.bind_eq_ok.2 ⟨d₂, h₂, he⟩⟩

/-- If the pass succeeds, the two generated modules are entered and nothing else changes; every
module of the definition is kept exactly if their names are left to them. It does succeed where the
built-in modules are there and no module has either name. -/
theorem synthesizes_and_keeps_iff (d : Definition) :
    (∀ e, add d = .ok e → Synthesizes d e ∧
      ((∀ name m, d.module? name = some m → e.module? name = some m) ↔ LeavesNames d)) ∧
    ((∃ m, d.module? "K-TERM" = some m) → (∃ m, d.module? "ID-PROGRAM-PARSING" = some m) →
      d.module? "SEMANTICS" = none → d.module? "LANGUAGE-PARSING" = none → ∃ e, add d = .ok e) := by
  constructor
  · intro e h
    exact ⟨synthesizes_of_add h, keeps_iff_leavesNames h⟩
  · rintro ⟨m, hterms⟩ ⟨m', hprograms⟩ hsemantics hlanguage
    exact exists_add hterms hprograms hsemantics hlanguage

/-! ### A module of some name -/

/-- A module that declares a sort. -/
def sortModule (name : String) (sort : SortName) : Module :=
  ⟨name, [], [.sort ⟨sort, ∅⟩], ∅⟩

/-- A main module, the two built-in modules, and a module of some name. -/
def modulesWith (name : String) : ModuleMap :=
  (((OrderedMap.insert ∅ "K-TERM" (.ofName "K-TERM")).insert "ID-PROGRAM-PARSING"
    (.ofName "ID-PROGRAM-PARSING")).insert "M" (sortModule "M" ⟨"A"⟩)).insert name
      (sortModule name ⟨"Q"⟩)

theorem named_modulesWith (name : String) : (modulesWith name).Named :=
  (((ModuleMap.named_empty.insert (.ofName "K-TERM")).insert (.ofName "ID-PROGRAM-PARSING")).insert
    (sortModule "M" ⟨"A"⟩)).insert (sortModule name ⟨"Q"⟩)

def unreserved : Definition :=
  ⟨"M", modulesWith "N", ∅, named_modulesWith "N", by cbv⟩

def clashing : Definition :=
  ⟨"M", modulesWith "SEMANTICS", ∅, named_modulesWith "SEMANTICS", by cbv⟩

/-- A module of another name is kept. -/
theorem synthesizes_and_keeps_unreserved : ∃ e, add unreserved = .ok e ∧ Synthesizes unreserved e ∧
    ∀ name m, unreserved.module? name = some m → e.module? name = some m := by
  have hsemantics : unreserved.module? "SEMANTICS" = none := by cbv
  have hlanguage : unreserved.module? "LANGUAGE-PARSING" = none := by cbv
  obtain ⟨hadds, hsucceeds⟩ := synthesizes_and_keeps_iff unreserved
  obtain ⟨e, he⟩ := hsucceeds ⟨.ofName "K-TERM", by cbv⟩ ⟨.ofName "ID-PROGRAM-PARSING", by cbv⟩
    hsemantics hlanguage
  obtain ⟨hsynthesizes, hkeeps⟩ := hadds e he
  refine ⟨e, he, hsynthesizes, hkeeps.2 ⟨?_, ?_⟩⟩
  · intro m hm
    cases hsemantics.symm.trans hm
  · intro m hm
    cases hlanguage.symm.trans hm

/-- A module under the name of a generated one is gone without an error. -/
theorem exists_module_lost : ∃ d e m, add d = .ok e ∧ d.module? "SEMANTICS" = some m ∧
    e.module? "SEMANTICS" ≠ some m := by
  have hadds : ((add clashing).toOption.bind fun e => (e.module? "SEMANTICS").map (·.imports)) =
      some ["M"] := by cbv
  obtain ⟨e, he, himports⟩ := Option.bind_eq_some_iff.1 hadds
  refine ⟨clashing, e, sortModule "SEMANTICS" ⟨"Q"⟩, Except.toOption_eq_some.1 he, by cbv, ?_⟩
  intro hkept
  rw [hkept] at himports
  cases himports

end Semantics

end RewriteSemantics
