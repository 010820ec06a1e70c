/-
# The built-in modules, read

The text of the built-in modules reads as two modules, and a definition that is read together with
them has them under their names. So a main module that leads to the module of terms sees its
functions declared.
-/
import RewriteSemantics.Compiler.Basic
import RewriteSemantics.Proofs.Definition.Views
import RewriteSemantics.Proofs.Definition.Imports

namespace RewriteSemantics

namespace Builtin

/-! ## The text -/

/-- A built-in function with an attribute of its own. -/
def function (sort : SortName) (label : String) (params : List SortName) (key : String)
    (value : AttributeValue) : Sentence :=
  .production ⟨sort, some label, params,
    ((∅ : Attributes).withMarker Attributes.function).insert key value⟩

/-- The module of terms. -/
def terms : Module where
  name := termModule
  imports := []
  sentences := [.sort ⟨.k, ∅⟩, .sort ⟨.kitem, ∅⟩, .sort ⟨.kresult, ∅⟩, .sort ⟨.bool, ∅⟩,
    .sort ⟨.int, ∅⟩, .sort ⟨.string, ∅⟩, .production (.subsort .k .kitem),
    .production (.subsort .kitem .kresult),
    function .bool resultPredicate [.k] Attributes.predicate (.text "KResult"),
    function .bool HeatCool.notLabel [.bool] Attributes.smtlib (.text "not"),
    function .bool "_andBool_" [.bool, .bool] Attributes.smtlib (.text "and"),
    function .int FreshConstants.plusLabel [.int, .int] Attributes.smtlib (.text "+"),
    function .int "freshInt" [.int] Attributes.freshGenerator .marker]
  attributes := ∅

/-- The module for reading programs. -/
def programs : Module where
  name := programModule
  imports := [termModule]
  sentences := [.sort ⟨⟨"Id"⟩, ∅⟩, .sort ⟨⟨"#Layout"⟩, ∅⟩]
  attributes := ∅

-- The characters of the text are unfolded once, and the readers evaluated on them.
set_option maxRecDepth 100000 in
theorem parseAll_text : Module.parseAll text = .ok [terms, programs] := by
  obtain ⟨cs, htext, hmodules⟩ : ∃ cs, text = String.ofList cs ∧
      (Scan.tokens (.start cs) >>= Parse.modules).toOption = some [terms, programs] :=
    ⟨_, rfl, by decide +kernel⟩
  rw [Module.parseAll, tokenize, htext, String.toList_ofList]
  exact Except.toOption_eq_some.1 hmodules

-- The functions that a text need not declare itself.
example : (terms.productions.filter (·.isFunction)).filterMap (·.label) =
    [resultPredicate, HeatCool.notLabel, "_andBool_", FreshConstants.plusLabel, "freshInt"] := by
  decide +kernel

end Builtin

/-! ## Collecting modules -/

namespace Definition

variable {d : Definition} {m : Module}

/-- Collected modules are entered under their names. -/
theorem get?_of_collect {acc modules : { modules : ModuleMap // modules.Named }}
    {ms : List Module} (h : collect acc ms = .ok modules) :
    (∀ name m, acc.1.get? name = some m → modules.1.get? name = some m) ∧
      ∀ m ∈ ms, modules.1.get? m.name = some m := by
  induction ms generalizing acc with
  | nil =>
    cases h
    exact ⟨fun _ _ hm => hm, fun _ hm => (nomatch hm)⟩
  | cons first ms ih =>
    rw [collect] at h
    split at h
    · cases h
    · rename_i hnew
      obtain ⟨hkept, hentered⟩ := ih h
      constructor
      · intro name m hm
        refine hkept name m ?_
        rw [OrderedMap.get?_insert, if_neg ?_]
        · exact hm
        · rintro rfl
          rw [OrderedMap.contains, hm] at hnew
          exact hnew rfl
      · refine List.forall_mem_cons.2 ⟨hkept _ _ ?_, hentered⟩
        rw [OrderedMap.get?_insert, if_pos rfl]

theorem module?_of_ofModules {main : String} {ms : List Module} {attributes : Attributes}
    (h : ofModules main ms attributes = .ok d) (hm : m ∈ ms) : d.module? m.name = some m := by
  obtain ⟨collected, hcollect, h⟩ := Except.bind_eq_ok.1 h
  obtain ⟨-, -, hmodules, -⟩ := ofMap_eq_ok.1 h
  rw [module?, hmodules]
  exact (get?_of_collect hcollect).2 m hm

/-- The productions of a module are seen by all modules that lead to it. -/
theorem mem_visibleProductions_of_reaches (hm : d.module? m.name = some m) {name : String}
    (hreach : d.modules.Reaches name m.name) {p : Production}
    (hp : .production p ∈ m.sentences) : p ∈ d.visibleProductions name :=
  mem_visibleProductions.2 (List.mem_flatMap.2 ⟨m, mem_closure_iff.2 ⟨hreach, hm⟩, hp⟩)

end Definition

/-- A text is read together with the two built-in modules. -/
theorem Compiler.parseWithBuiltin_eq_ok {text main : String} {d : Definition} :
    parseWithBuiltin text main = .ok d ↔ ∃ ms, Module.parseAll text = .ok ms ∧
      Definition.ofModules main (Builtin.terms :: Builtin.programs :: ms) ∅ = .ok d := by
  rw [parseWithBuiltin, Builtin.parseAll_text]
  constructor
  · intro h
    obtain ⟨_, hbuiltin, h⟩ := Except.bind_eq_ok.1 h
    cases hbuiltin
    obtain ⟨ms, hms, h⟩ := Except.bind_eq_ok.1 h
    exact ⟨ms, Except.mapError_eq_ok.1 hms, Except.mapError_eq_ok.1 h⟩
  · rintro ⟨ms, hms, h⟩
    refine Except.bind_eq_ok.2 ⟨_, rfl, Except.bind_eq_ok.2 ⟨ms, ?_, ?_⟩⟩
    · exact Except.mapError_eq_ok.2 hms
    · exact Except.mapError_eq_ok.2 h

end RewriteSemantics
