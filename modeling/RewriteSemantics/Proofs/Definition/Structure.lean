/-
# What makes modules a definition

Modules with a main module are a definition exactly if their names are distinct, the main module and
all imports are among them, and no module imports itself, directly or not. A definition is built in
four ways, from a list of modules, by adding a module, by choosing another main module, and by
changing its modules one by one, and each of them checks this and nothing else.
-/
import Mathlib
import RewriteSemantics.Proofs.Definition.Cycles

namespace RewriteSemantics

open Relation

/-! ## Well-formed lists of modules -/

/-- One of some modules imports a name. -/
def Module.ImportsIn (ms : List Module) (a b : String) : Prop :=
  ∃ m ∈ ms, m.name = a ∧ b ∈ m.imports

/-- Modules with a main module that are structurally sound. -/
structure Module.WellFormed (main : String) (ms : List Module) : Prop where
  distinct : (ms.map (·.name)).Nodup
  main_mem : main ∈ ms.map (·.name)
  resolved : ∀ m ∈ ms, ∀ i ∈ m.imports, i ∈ ms.map (·.name)
  acyclic : ∀ a, ¬ TransGen (Module.ImportsIn ms) a a

namespace Module

variable {main : String} {ms ms' : List Module}

theorem importsIn_of_perm (h : ms.Perm ms') : ImportsIn ms = ImportsIn ms' := by
  funext a b
  simp only [ImportsIn, h.mem_iff]

/-- The order of the modules does not matter. -/
theorem WellFormed.of_perm (hwell : WellFormed main ms) (h : ms.Perm ms') :
    WellFormed main ms' := by
  have hnames : ∀ name, name ∈ ms'.map (·.name) ↔ name ∈ ms.map (·.name) := fun name =>
    (h.map _).symm.mem_iff
  refine ⟨(h.map _).nodup_iff.1 hwell.distinct, (hnames main).2 hwell.main_mem, ?_, ?_⟩
  · intro m hm i hi
    exact (hnames i).2 (hwell.resolved m (h.mem_iff.2 hm) i hi)
  · rw [← importsIn_of_perm h]
    exact hwell.acyclic

theorem wellFormed_congr (h : ms.Perm ms') : WellFormed main ms ↔ WellFormed main ms' :=
  ⟨fun hwell => hwell.of_perm h, fun hwell => hwell.of_perm h.symm⟩

end Module

/-! ## Modules by name -/

namespace ModuleMap

variable {modules : ModuleMap} {main : String}

theorem map_name_values (hnamed : modules.Named) :
    modules.values.map (·.name) = modules.keys := by
  unfold OrderedMap.values OrderedMap.keys
  rw [List.map_map]
  exact List.map_congr_left hnamed

theorem contains_iff_mem_names (hnamed : modules.Named) {name : String} :
    modules.contains name = true ↔ name ∈ modules.values.map (·.name) := by
  rw [map_name_values hnamed, OrderedMap.contains_iff]
  constructor
  · rintro ⟨m, hm⟩
    exact OrderedMap.mem_keys_of_get? hm
  · intro hname
    obtain ⟨e, he, rfl⟩ := List.mem_map.1 hname
    exact ⟨e.2, OrderedMap.get?_eq_some_iff.2 he⟩

theorem imports_eq_importsIn (hnamed : modules.Named) :
    modules.Imports = Module.ImportsIn modules.values := by
  funext a b
  refine propext ?_
  rw [Imports]
  constructor
  · intro hb
    cases hm : modules.get? a with
    | none =>
      rw [importsOf_of_none hm] at hb
      cases hb
    | some m =>
      rw [importsOf_of_get? hm] at hb
      exact ⟨m, OrderedMap.mem_values_iff.2 ⟨a, hm⟩,
        hnamed _ (OrderedMap.mem_entries_of_get? hm), hb⟩
  · rintro ⟨m, hm, rfl, hb⟩
    obtain ⟨a, hget⟩ := OrderedMap.mem_values_iff.1 hm
    have hname : m.name = a := hnamed _ (OrderedMap.mem_entries_of_get? hget)
    rw [hname, importsOf_of_get? hget]
    exact hb

theorem unresolvedImport?_eq_none_iff (hnamed : modules.Named) :
    modules.unresolvedImport? = none ↔
      ∀ m ∈ modules.values, ∀ i ∈ m.imports, i ∈ modules.values.map (·.name) := by
  rw [unresolvedImport?, List.findSome?_eq_none_iff]
  have hmodule : ∀ m : Module, ((m.imports.find? fun name => !modules.contains name).map
      fun name => DefinitionError.unresolvedImport m.name name) = none ↔
        ∀ i ∈ m.imports, i ∈ modules.values.map (·.name) := by
    intro m
    simp only [Option.map_eq_none_iff, List.find?_eq_none, Bool.not_eq_true', Bool.not_eq_false,
      contains_iff_mem_names hnamed]
  constructor
  · intro h m hm
    obtain ⟨e, he, rfl⟩ := List.mem_map.1 hm
    exact (hmodule e.2).1 (h e he)
  · intro h e he
    exact (hmodule e.2).2 (h e.2 (List.mem_map_of_mem he))

/-- Modules under their own names have no fault exactly if they are well-formed. -/
theorem fault?_eq_none_iff_wellFormed (hnamed : modules.Named) :
    modules.fault? main = none ↔ Module.WellFormed main modules.values := by
  rw [fault?_eq_none_iff, contains_iff_mem_names hnamed, unresolvedImport?_eq_none_iff hnamed,
    cycle?_eq_none_iff, imports_eq_importsIn hnamed]
  constructor
  · rintro ⟨hmain, hresolved, hacyclic⟩
    refine ⟨?_, hmain, hresolved, hacyclic⟩
    rw [map_name_values hnamed]
    exact OrderedMap.nodup_keys modules
  · intro h
    exact ⟨h.main_mem, h.resolved, h.acyclic⟩

/-- A cycle is only reported for a name on a cycle. -/
theorem cycle_of_fault? (hnamed : modules.Named) {name : String}
    (h : modules.fault? main = some (.importCycle name)) :
    TransGen (Module.ImportsIn modules.values) name name := by
  rw [fault?] at h
  split at h
  · rw [Option.orElse_eq_orElse, Option.orElse_eq_or, Option.or_eq_some_iff] at h
    rcases h with h | ⟨-, h⟩
    · -- an import without a module is reported as such
      obtain ⟨e, -, he⟩ := List.exists_of_findSome?_eq_some h
      obtain ⟨_, -, himport⟩ := Option.map_eq_some_iff.1 he
      cases himport
    · obtain ⟨a, ha, hcycle⟩ := cycle_of_cycle? h
      cases ha
      rw [← imports_eq_importsIn hnamed]
      exact hcycle
  · cases h

/-- Adding a module puts it in the place of those of its name. -/
theorem values_insert_perm_filter (hnamed : modules.Named) (m : Module) :
    (modules.insert m.name m).values.Perm
      (m :: modules.values.filter (·.name ≠ m.name)) := by
  have hentries : (modules.insert m.name m).entries.Perm
      ((m.name, m) :: modules.entries.filter (·.1 ≠ m.name)) := by
    have hnew : (m.name, m) ∉ modules.entries.filter (·.1 ≠ m.name) := by simp
    refine (List.perm_ext_iff_of_nodup (OrderedMap.nodup_entries _)
      (List.nodup_cons.2 ⟨hnew, (OrderedMap.nodup_entries modules).filter _⟩)).2 ?_
    rintro ⟨name, m'⟩
    rw [← OrderedMap.get?_eq_some_iff, OrderedMap.get?_insert, List.mem_cons, List.mem_filter,
      ← OrderedMap.get?_eq_some_iff]
    by_cases hname : name = m.name
    · simp [hname, eq_comm]
    · simp [hname]
  have hvalues : (modules.entries.filter (·.1 ≠ m.name)).map (·.2) =
      modules.values.filter (·.name ≠ m.name) := by
    rw [OrderedMap.values, List.filter_map]
    congr 1
    refine List.filter_congr fun e he => ?_
    rw [Function.comp_apply, hnamed e he]
  rw [← hvalues]
  exact hentries.map Prod.snd

end ModuleMap

/-! ## The check -/

namespace Definition

/-- What a check answers about some modules with a main module. -/
structure Judges (answer : Except DefinitionError Definition) (main : String) (ms : List Module) :
    Prop where
  /-- It accepts exactly the well-formed ones. -/
  accepts : (∃ d, answer = .ok d) ↔ Module.WellFormed main ms
  /-- The definition has these modules and is well-formed itself. -/
  holds : ∀ d, answer = .ok d →
    d.main = main ∧ d.modules.values.Perm ms ∧ Module.WellFormed d.main d.modules.values
  /-- A cycle is only reported for a name that leads back to itself. -/
  cycle : ∀ name, answer = .error (.importCycle name) → TransGen (Module.ImportsIn ms) name name

theorem wellFormed (d : Definition) : Module.WellFormed d.main d.modules.values :=
  (ModuleMap.fault?_eq_none_iff_wellFormed d.named).1 d.sound

theorem ofMap_eq_error {main : String} {modules : ModuleMap} {attributes : Attributes}
    {named : modules.Named} {e : DefinitionError}
    (h : ofMap main modules attributes named = .error e) : modules.fault? main = some e := by
  rw [ofMap] at h
  split at h
  · cases h
  · cases h
    exact (Option.some_get _).symm

/-- The check of modules by name judges their list, in any order. -/
theorem judges_ofMap {main : String} {modules : ModuleMap} {attributes : Attributes}
    {named : modules.Named} {ms : List Module} (hms : modules.values.Perm ms) :
    Judges (ofMap main modules attributes named) main ms := by
  refine ⟨?_, fun d hd => ?_, fun name hname => ?_⟩
  · rw [← Module.wellFormed_congr hms, ← ModuleMap.fault?_eq_none_iff_wellFormed named]
    constructor
    · rintro ⟨d, hd⟩
      exact (ofMap_eq_ok.1 hd).1
    · intro hsound
      exact ⟨⟨main, modules, attributes, named, hsound⟩, ofMap_eq_ok.2 ⟨hsound, rfl, rfl, rfl⟩⟩
  · obtain ⟨-, hmain, hmodules, -⟩ := ofMap_eq_ok.1 hd
    exact ⟨hmain, hmodules ▸ hms, d.wellFormed⟩
  · rw [← Module.importsIn_of_perm hms]
    exact ModuleMap.cycle_of_fault? named (ofMap_eq_error hname)

/-! ### Lists of modules -/

/-- Modules are collected unless a name comes twice, and then the name is reported. -/
theorem collect_cases (acc : { modules : ModuleMap // modules.Named }) (ms : List Module) :
    (∃ c, collect acc ms = .ok c ∧ c.1.values.Perm (ms ++ acc.1.values) ∧
        ((ms ++ acc.1.values).map (·.name)).Nodup) ∨
      ∃ name, collect acc ms = .error (.duplicateModule name) ∧
        ¬ ((ms ++ acc.1.values).map (·.name)).Nodup := by
  induction ms generalizing acc with
  | nil =>
    refine .inl ⟨acc, rfl, .rfl, ?_⟩
    rw [List.nil_append, ModuleMap.map_name_values acc.2]
    exact OrderedMap.nodup_keys acc.1
  | cons m rest ih =>
    rw [collect]
    split
    · rename_i hknown
      refine .inr ⟨m.name, rfl, fun hnodup => ?_⟩
      rw [ModuleMap.contains_iff_mem_names acc.2] at hknown
      rw [List.cons_append, List.map_cons, List.nodup_cons, List.map_append] at hnodup
      exact hnodup.1 (List.mem_append_right _ hknown)
    · rename_i hnew
      -- the module goes over from the list to what is collected
      have hvalues : (acc.1.insert m.name m).values.Perm (m :: acc.1.values) :=
        OrderedMap.values_insert_perm m (OrderedMap.get?_eq_none_iff.2 hnew)
      have hperm : (rest ++ (acc.1.insert m.name m).values).Perm (m :: rest ++ acc.1.values) :=
        (hvalues.append_left rest).trans List.perm_middle
      have hnames := (hperm.map (·.name)).nodup_iff
      rcases ih ⟨acc.1.insert m.name m, acc.2.insert m⟩ with
        ⟨c, hc, hcvalues, hnodup⟩ | ⟨name, hname, hrepeated⟩
      · exact .inl ⟨c, hc, hcvalues.trans hperm, hnames.1 hnodup⟩
      · exact .inr ⟨name, hname, fun hnodup => hrepeated (hnames.2 hnodup)⟩

theorem judges_ofModules (main : String) (ms : List Module) (attributes : Attributes) :
    Judges (ofModules main ms attributes) main ms := by
  have hnone : (∅ : ModuleMap).values = [] := rfl
  have hcollected := collect_cases ⟨∅, ModuleMap.named_empty⟩ ms
  rw [hnone, List.append_nil] at hcollected
  rcases hcollected with ⟨c, hc, hvalues, -⟩ | ⟨name, hname, hrepeated⟩
  · have hanswer : ofModules main ms attributes = ofMap main c.1 attributes c.2 := by
      rw [ofModules, hc]
      rfl
    rw [hanswer]
    exact judges_ofMap hvalues
  · have hanswer : ofModules main ms attributes = .error (.duplicateModule name) := by
      rw [ofModules, hname]
      rfl
    rw [hanswer]
    refine ⟨⟨fun ⟨_, h⟩ => (nomatch h), fun h => absurd h.distinct hrepeated⟩, ?_, ?_⟩
    · intro d hd
      cases hd
    · intro other hother
      cases hother

/-! ### Changes of a definition -/

theorem judges_withModule (d : Definition) (m : Module) :
    Judges (d.withModule m) d.main (m :: d.modules.values.filter (·.name ≠ m.name)) :=
  judges_ofMap (ModuleMap.values_insert_perm_filter d.named m)

theorem judges_withMain (d : Definition) (name : String) :
    Judges (d.withMain name) name d.modules.values :=
  judges_ofMap .rfl

/-- Images of named modules under a function that keeps their names have the modules' names. -/
theorem relabelled_withValues_values {modules : ModuleMap} {images : List Module}
    (h : List.Forall₂ (fun e m' => m'.name = e.1) modules.entries images) :
    (ModuleMap.relabelled (modules.withValues images)).values = images := by
  show ((List.zip (modules.entries.map (·.1)) images).map fun e => (e.1, e.2.withName e.1)).map
    (·.2) = images
  generalize modules.entries = entries at h
  induction h with
  | nil => rfl
  | @cons e m' _ _ hname _ ih =>
    rw [List.map_cons, List.zip_cons_cons, List.map_cons, List.map_cons, ih]
    have hsame : m'.withName e.1 = m' := by
      rw [← hname]
      rfl
    rw [hsame]

/-- A definition is changed module by module unless one of the modules has no image; then the
images are checked. -/
theorem mapModules_cases {ε : Type} (lift : DefinitionError → ε)
    (f : String → Module → Except ε Module) (d : Definition)
    (hf : ∀ m ∈ d.modules.values, ∀ m', f m.name m = .ok m' → m'.name = m.name) :
    (∃ m ∈ d.modules.values, ∃ e, f m.name m = .error e ∧ d.mapModules lift f = .error e) ∨
      ∃ ms answer, List.Forall₂ (fun m m' => f m.name m = .ok m') d.modules.values ms ∧
        d.mapModules lift f = answer.mapError lift ∧ Judges answer d.main ms := by
  cases hvalues : d.modules.entries.mapM fun e => f e.1 e.2 with
  | error e =>
    obtain ⟨entry, hentry, hfails⟩ := Except.exists_of_mapM_eq_error hvalues
    refine .inl ⟨entry.2, List.mem_map_of_mem hentry, e, ?_, ?_⟩
    · rw [d.named entry hentry]
      exact hfails
    · rw [mapModules, OrderedMap.tryMapValues, hvalues]
      rfl
  | ok ms =>
    have himages := Except.mapM_eq_ok.1 hvalues
    have hnames : List.Forall₂ (fun e m' => m'.name = e.1) d.modules.entries ms := by
      refine himages.imp_of_mem fun e he m' hm' => ?_
      rw [← d.named e he] at hm' ⊢
      exact hf e.2 (List.mem_map_of_mem he) m' hm'
    -- as the images have the names of their modules, giving them these names changes nothing
    have hjudges : Judges (ofMap d.main (ModuleMap.relabelled (d.modules.withValues ms))
        d.attributes (ModuleMap.named_relabelled _)) d.main ms :=
      judges_ofMap (.of_eq (relabelled_withValues_values hnames))
    refine .inr ⟨ms, _, ?_, ?_, hjudges⟩
    · refine List.forall₂_map_left_iff.2 (himages.imp_of_mem fun e he m' hm' => ?_)
      rw [d.named e he]
      exact hm'
    · rw [mapModules, OrderedMap.tryMapValues, hvalues]
      rfl

/-! ## All ways of building a definition -/

/-- Whichever way a definition is built, the check accepts exactly the well-formed modules, and it
reports a cycle only for a name on one. On every graph, those with cycles and with missing modules
among them, the search for a cycle nests at most one visit more than there are modules. -/
theorem judges_of_every_check :
    (∀ main ms attributes, Judges (ofModules main ms attributes) main ms) ∧
    (∀ d : Definition,
      (∀ m, Judges (d.withModule m) d.main (m :: d.modules.values.filter (·.name ≠ m.name))) ∧
      (∀ name, Judges (d.withMain name) name d.modules.values) ∧
      ∀ (ε : Type) (lift : DefinitionError → ε) (f : String → Module → Except ε Module),
        (∀ m ∈ d.modules.values, ∀ m', f m.name m = .ok m' → m'.name = m.name) →
        (∃ m ∈ d.modules.values, ∃ e, f m.name m = .error e ∧ d.mapModules lift f = .error e) ∨
          ∃ ms answer, List.Forall₂ (fun m m' => f m.name m = .ok m') d.modules.values ms ∧
            d.mapModules lift f = answer.mapError lift ∧ Judges answer d.main ms) ∧
    ∀ (modules : ModuleMap) (depth : Nat), modules.size < depth →
      ModuleMap.enterEach (modules.enterWithin depth []) [] modules.keys =
        some (modules.enterAll [] [] modules.keys) := by
  refine ⟨judges_ofModules, fun d => ⟨judges_withModule d, judges_withMain d, ?_⟩, ?_⟩
  · intro ε lift f hf
    exact mapModules_cases lift f d hf
  · intro modules depth hdepth
    exact ModuleMap.enterEach_enterWithin_eq hdepth

/-- Two modules, the first of which imports the second. -/
def chainModules : ModuleMap :=
  ((∅ : ModuleMap).insert "A" ⟨"A", ["B"], [], ∅⟩).insert "B" (.ofName "B")

theorem named_chainModules : chainModules.Named :=
  (ModuleMap.named_empty.insert ⟨"A", ["B"], [], ∅⟩).insert (.ofName "B")

theorem fault?_chainModules : chainModules.fault? "A" = none := by cbv

def chainDefinition : Definition :=
  ⟨"A", chainModules, ∅, named_chainModules, fault?_chainModules⟩

/-- A module with an import of the first module behind its own. -/
def importFirst (_ : String) (m : Module) : Except DefinitionError Module :=
  .ok ⟨m.name, m.imports ++ ["A"], m.sentences, m.attributes⟩

/-- When both modules import the first one, it is reported to lead back to itself, by a search that
need not go deeper than three visits. -/
theorem judges_importFirst :
    (∃ ms answer, List.Forall₂ (fun m m' => importFirst m.name m = .ok m')
        chainDefinition.modules.values ms ∧
      chainDefinition.mapModules id importFirst = answer.mapError id ∧
        Judges answer "A" ms ∧ answer = .error (.importCycle "A")) ∧
    ModuleMap.enterEach (chainModules.enterWithin 3 []) [] chainModules.keys =
      some (chainModules.enterAll [] [] chainModules.keys) := by
  obtain ⟨-, hchanges, hdepth⟩ := judges_of_every_check
  refine ⟨?_, hdepth chainModules 3 (by decide)⟩
  have hkept : ∀ m ∈ chainDefinition.modules.values, ∀ m', importFirst m.name m = .ok m' →
      m'.name = m.name := by
    intro m _ m' hm'
    cases hm'
    rfl
  rcases (hchanges chainDefinition).2.2 _ id importFirst hkept with
    ⟨m, -, e, he, -⟩ | ⟨ms, answer, himages, hanswer, hjudges⟩
  · cases he
  · refine ⟨ms, answer, himages, hanswer, hjudges, ?_⟩
    have hcycle : chainDefinition.mapModules id importFirst = .error (.importCycle "A") := by cbv
    rw [hcycle] at hanswer
    cases answer with
    | ok d => cases hanswer
    | error e =>
      cases hanswer
      rfl

end Definition

end RewriteSemantics
