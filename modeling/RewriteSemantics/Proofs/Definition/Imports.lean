/-
# Along the imports

The walk of the import graph meets what imports lead to and nothing else, although it enters no name
a second time. The search for a cycle ends with the names in an order in which everything a module
imports stands behind it. So the imports of a definition are well-founded: what holds of a module
when it holds of the modules it imports, holds of all modules.
-/
import Mathlib.Logic.Relation
import RewriteSemantics.Proofs.Definition.Rewriting

namespace RewriteSemantics

namespace ModuleMap

open Relation

variable {modules : ModuleMap}

/-! ## What a walk meets -/

/-- A module imports a name. -/
def Imports (modules : ModuleMap) (a b : String) : Prop :=
  b ∈ modules.importsOf a

/-- A name leads to another along any number of imports. -/
abbrev Reaches (modules : ModuleMap) (a b : String) : Prop :=
  ReflTransGen modules.Imports a b

theorem importsOf_of_get? {a : String} {m : Module} (h : modules.get? a = some m) :
    modules.importsOf a = m.imports := by
  rw [importsOf, h]

theorem importsOf_of_none {a : String} (h : modules.get? a = none) : modules.importsOf a = [] := by
  rw [importsOf, h]

/-- A name without a module leads nowhere. -/
theorem Reaches.eq_of_none {a b : String} (h : modules.Reaches a b) (ha : modules.get? a = none) :
    b = a := by
  rcases ReflTransGen.cases_head h with rfl | ⟨i, hi, -⟩
  · rfl
  · rw [Imports, importsOf_of_none ha] at hi
    cases hi

/-- A rewriting keeps the imports, and so where they lead. -/
theorem Rewrites.importsOf {R : Rewriting} {a b : ModuleMap} (h : a.Rewrites R b) (name : String) :
    b.importsOf name = a.importsOf name := by
  rcases h.get? name with ⟨ha, hb⟩ | ⟨_, _, ha, hb, _, -, rfl⟩
  · rw [importsOf_of_none ha, importsOf_of_none hb]
  · rw [importsOf_of_get? ha, importsOf_of_get? hb]

theorem Rewrites.reaches {R : Rewriting} {a b : ModuleMap} (h : a.Rewrites R b) (x y : String) :
    b.Reaches x y ↔ a.Reaches x y := by
  have himports : b.Imports = a.Imports := by
    funext x y
    rw [Imports, Imports, h.importsOf]
  rw [Reaches, Reaches, himports]

theorem reaches_of_mem_walk (hnamed : modules.Named) {seen agenda : List String} {m : Module}
    (hm : m ∈ modules.walk seen agenda) : ∃ a ∈ agenda, modules.Reaches a m.name := by
  induction seen, agenda using walk.induct modules with
  | case1 seen =>
    rw [walk] at hm
    cases hm
  | case2 seen name agenda hseen ih =>
    rw [walk_of_seen hseen] at hm
    obtain ⟨a, ha, hreach⟩ := ih hm
    exact ⟨a, List.mem_cons_of_mem _ ha, hreach⟩
  | case3 seen name agenda hseen hcontains _ ih =>
    have hfound := OrderedMap.get?_eq_some_get hcontains
    rw [walk_of_some hseen hfound] at hm
    rcases List.mem_cons.1 hm with rfl | hm
    · rw [hnamed _ (OrderedMap.mem_entries_of_get? hfound)]
      exact ⟨name, List.mem_cons_self, .refl⟩
    · obtain ⟨a, ha, hreach⟩ := ih hm
      rcases List.mem_append.1 ha with ha | ha
      · have himports : modules.Imports name a := by
          rw [Imports, importsOf_of_get? hfound]
          exact ha
        exact ⟨name, List.mem_cons_self, .head himports hreach⟩
      · exact ⟨a, List.mem_cons_of_mem _ ha, hreach⟩
  | case4 seen name agenda hseen hcontains ih =>
    rw [walk_of_none hseen (OrderedMap.get?_eq_none_iff.2 hcontains)] at hm
    obtain ⟨a, ha, hreach⟩ := ih hm
    exact ⟨a, List.mem_cons_of_mem _ ha, hreach⟩

/-- A walk may be asked about where it has been: it still leads out of the names it has entered to
names on its agenda only. -/
def Pending (modules : ModuleMap) (seen agenda : List String) : Prop :=
  ∀ n ∈ seen, ∀ i ∈ modules.importsOf n, i ∈ seen ∨ i ∈ agenda ∨ modules.get? i = none

/-- A name that has been entered, or that no module has, is left off the agenda. -/
theorem Pending.skip {seen agenda : List String} {name : String}
    (h : modules.Pending seen (name :: agenda)) (hname : name ∈ seen ∨ modules.get? name = none) :
    modules.Pending seen agenda := by
  intro n hn i hi
  rcases h n hn i hi with hmem | hmem | hnone
  · exact .inl hmem
  · rcases List.mem_cons.1 hmem with rfl | hmem
    · exact hname.imp_right .inr
    · exact .inr (.inl hmem)
  · exact .inr (.inr hnone)

/-- A name is entered by putting its imports on the agenda. -/
theorem Pending.enter {seen agenda : List String} {name : String} {m : Module}
    (h : modules.Pending seen (name :: agenda)) (hm : modules.get? name = some m) :
    modules.Pending (name :: seen) (m.imports ++ agenda) := by
  intro n hn i hi
  rcases List.mem_cons.1 hn with rfl | hn
  · rw [importsOf_of_get? hm] at hi
    exact .inr (.inl (List.mem_append_left _ hi))
  · rcases h n hn i hi with hmem | hmem | hnone
    · exact .inl (List.mem_cons_of_mem _ hmem)
    · rcases List.mem_cons.1 hmem with rfl | hmem
      · exact .inl List.mem_cons_self
      · exact .inr (.inl (List.mem_append_right _ hmem))
    · exact .inr (.inr hnone)

/-- With an empty agenda, imports do not lead from what has been entered to another module. -/
theorem Pending.mem_of_reaches {seen : List String} {a b : String} {m : Module}
    (h : modules.Pending seen []) (hm : modules.get? b = some m) (ha : a ∈ seen)
    (hreach : modules.Reaches a b) : b ∈ seen := by
  induction hreach using ReflTransGen.head_induction_on with
  | refl => exact ha
  | head himports hrest ih =>
    rcases h _ ha _ himports with hmem | hmem | hnone
    · exact ih hmem
    · cases hmem
    · rw [Reaches.eq_of_none hrest hnone, hnone] at hm
      cases hm

/-- A walk meets every module that imports lead to, but for those it has entered before. -/
theorem mem_walk_of_reaches {seen agenda : List String} {a b : String} {m : Module}
    (hm : modules.get? b = some m) (hpending : modules.Pending seen agenda)
    (ha : a ∈ seen ∨ a ∈ agenda) (hreach : modules.Reaches a b) :
    b ∈ seen ∨ m ∈ modules.walk seen agenda := by
  induction seen, agenda using walk.induct modules generalizing a with
  | case1 seen =>
    exact .inl (hpending.mem_of_reaches hm (ha.resolve_right List.not_mem_nil) hreach)
  | case2 seen name agenda hseen ih =>
    rw [walk_of_seen hseen]
    refine ih (hpending.skip (.inl hseen)) ?_ hreach
    rcases ha with ha | ha
    · exact .inl ha
    · rcases List.mem_cons.1 ha with rfl | ha
      · exact .inl hseen
      · exact .inr ha
  | case3 seen name agenda hseen hcontains _ ih =>
    have hfound := OrderedMap.get?_eq_some_get hcontains
    rw [walk_of_some hseen hfound]
    have hahead : a ∈ name :: seen ∨ a ∈ (modules.get name hcontains).imports ++ agenda := by
      rcases ha with ha | ha
      · exact .inl (List.mem_cons_of_mem _ ha)
      · rcases List.mem_cons.1 ha with rfl | ha
        · exact .inl List.mem_cons_self
        · exact .inr (List.mem_append_right _ ha)
    rcases ih (hpending.enter hfound) hahead hreach with hmem | hmem
    · rcases List.mem_cons.1 hmem with rfl | hmem
      · cases hfound.symm.trans hm
        exact .inr List.mem_cons_self
      · exact .inl hmem
    · exact .inr (List.mem_cons_of_mem _ hmem)
  | case4 seen name agenda hseen hcontains ih =>
    have hnone := OrderedMap.get?_eq_none_iff.2 hcontains
    rw [walk_of_none hseen hnone]
    refine ih (hpending.skip (.inr hnone)) ?_ hreach
    refine ha.imp_right fun ha => ?_
    rcases List.mem_cons.1 ha with rfl | ha
    · -- a name without a module leads to no module
      rw [hreach.eq_of_none hnone, hnone] at hm
      cases hm
    · exact ha

/-! ## No cycles -/

/-- Everything a module imports stands behind it. -/
def Ordered (modules : ModuleMap) : List String → Prop
  | [] => True
  | name :: rest => (∀ i ∈ modules.importsOf name, i ∈ rest) ∧ Ordered modules rest

/-- The search for a cycle puts the names it clears in order, in front of those cleared before. -/
theorem ordered_enter (modules : ModuleMap) :
    (∀ path clear name clear', modules.enter path clear name = .ok clear' →
      modules.Ordered clear → modules.Ordered clear' ∧ clear ⊆ clear' ∧ name ∈ clear') ∧
    ∀ path clear names clear', modules.enterAll path clear names = .ok clear' →
      modules.Ordered clear → modules.Ordered clear' ∧ clear ⊆ clear' ∧ names ⊆ clear' := by
  apply enter.mutual_induct modules
    (fun path clear name => ∀ clear', modules.enter path clear name = .ok clear' →
      modules.Ordered clear → modules.Ordered clear' ∧ clear ⊆ clear' ∧ name ∈ clear')
    (fun path clear names => ∀ clear', modules.enterAll path clear names = .ok clear' →
      modules.Ordered clear → modules.Ordered clear' ∧ clear ⊆ clear' ∧ names ⊆ clear')
  case case1 =>
    intro path clear name hclear clear' h hordered
    rw [enter_eq, if_pos hclear] at h
    cases h
    exact ⟨hordered, fun _ hx => hx, hclear⟩
  case case2 =>
    intro path clear name hclear hpath clear' h
    rw [enter_eq, if_neg hclear, if_pos hpath] at h
    cases h
  case case3 =>
    intro path clear name hclear hpath hcontains _ ih clear' h hordered
    have hfound := OrderedMap.get?_eq_some_get hcontains
    rw [enter_eq, if_neg hclear, if_neg hpath, hfound] at h
    obtain ⟨below, hbelow, h⟩ := Except.bind_eq_ok.1 h
    cases h
    obtain ⟨hordered', hsub, himports⟩ := ih below hbelow hordered
    refine ⟨⟨?_, hordered'⟩, List.subset_cons_of_subset _ hsub, List.mem_cons_self⟩
    rw [importsOf_of_get? hfound]
    exact fun i hi => himports hi
  case case4 =>
    intro path clear name hclear hpath hcontains clear' h hordered
    have hnone := OrderedMap.get?_eq_none_iff.2 hcontains
    rw [enter_eq, if_neg hclear, if_neg hpath, hnone] at h
    cases h
    refine ⟨⟨?_, hordered⟩, List.subset_cons_self _ _, List.mem_cons_self⟩
    intro i hi
    rw [importsOf_of_none hnone] at hi
    cases hi
  case case5 =>
    intro path clear clear' h hordered
    rw [enterAll] at h
    cases h
    exact ⟨hordered, fun _ hx => hx, List.nil_subset _⟩
  case case6 =>
    intro path clear name names ihname ihnames clear' h hordered
    rw [enterAll] at h
    obtain ⟨first, hfirst, h⟩ := Except.bind_eq_ok.1 h
    obtain ⟨hordered₁, hsub₁, hname⟩ := ihname first hfirst hordered
    obtain ⟨hordered₂, hsub₂, hnames⟩ := ihnames first clear' h hordered₁
    exact ⟨hordered₂, List.Subset.trans hsub₁ hsub₂, List.cons_subset.2 ⟨hsub₂ hname, hnames⟩⟩

/-- What is passed on along imports holds of all names in order. -/
theorem Ordered.forall_mem {names : List String} (h : modules.Ordered names) {P : String → Prop}
    (hP : ∀ a, (∀ i ∈ modules.importsOf a, P i) → P a) : ∀ a ∈ names, P a := by
  induction names with
  | nil => exact fun _ ha => (nomatch ha)
  | cons name rest ih =>
    have hrest := ih h.2
    exact List.forall_mem_cons.2 ⟨hP name fun i hi => hrest i (h.1 i hi), hrest⟩

/-- Induction along imports in which no cycle is found. -/
theorem induct_of_cycle? (h : modules.cycle? = none) {P : String → Prop}
    (hP : ∀ a, (∀ i ∈ modules.importsOf a, P i) → P a) (a : String) : P a := by
  rw [cycle?] at h
  split at h
  · rename_i clear hclear
    obtain ⟨hordered, -, hkeys⟩ := (ordered_enter modules).2 _ _ _ _ hclear trivial
    cases hm : modules.get? a with
    | some m => exact hordered.forall_mem hP a (hkeys (OrderedMap.mem_keys_of_get? hm))
    | none =>
      refine hP a fun i hi => ?_
      rw [importsOf_of_none hm] at hi
      cases hi
  · cases h

/-- Where no cycle is found, no module leads back to itself. -/
theorem not_reaches_of_cycle? (h : modules.cycle? = none) {a i : String}
    (hi : modules.Imports a i) : ¬ modules.Reaches i a := by
  induction a using induct_of_cycle? h generalizing i with
  | hP a ih =>
    intro hreach
    rcases ReflTransGen.cases_head hreach with rfl | ⟨j, hj, hrest⟩
    · exact ih i hi hi .refl
    · exact ih i hi hj (hrest.tail hi)

/-- Modules have no fault exactly if none of the three checks finds one. -/
theorem fault?_eq_none_iff {main : String} : modules.fault? main = none ↔
    modules.contains main = true ∧ modules.unresolvedImport? = none ∧ modules.cycle? = none := by
  rw [fault?]
  split
  · rename_i hmain
    rw [Option.orElse_eq_orElse, Option.orElse_eq_or, Option.or_eq_none_iff]
    exact ⟨fun h => ⟨hmain, h⟩, fun h => h.2⟩
  · rename_i hmain
    constructor
    · intro h
      cases h
    · intro h
      exact absurd h.1 hmain

end ModuleMap

namespace Definition

variable {d : Definition}

/-! ## Definitions -/

/-- Induction along imports. -/
theorem induct_imports {P : String → Prop}
    (hP : ∀ a, (∀ i ∈ d.modules.importsOf a, P i) → P a) (a : String) : P a :=
  ModuleMap.induct_of_cycle? (ModuleMap.fault?_eq_none_iff.1 d.sound).2.2 hP a

/-- No module leads back to itself. -/
theorem not_reaches_of_import {a i : String} (hi : d.modules.Imports a i) :
    ¬ d.modules.Reaches i a :=
  ModuleMap.not_reaches_of_cycle? (ModuleMap.fault?_eq_none_iff.1 d.sound).2.2 hi

/-- A module sees what imports lead to. -/
theorem mem_closure_iff {a : String} {m : Module} :
    m ∈ d.closure a ↔ d.modules.Reaches a m.name ∧ d.module? m.name = some m := by
  constructor
  · intro hm
    obtain ⟨_, ha, hreach⟩ := ModuleMap.reaches_of_mem_walk d.named hm
    rw [List.mem_singleton.1 ha] at hreach
    exact ⟨hreach, module?_of_mem_closure hm⟩
  · rintro ⟨hreach, hm⟩
    have hpending : d.modules.Pending [] [a] := fun _ hn => (nomatch hn)
    have hwalk := ModuleMap.mem_walk_of_reaches hm hpending (.inr (List.mem_singleton_self a))
      hreach
    exact hwalk.resolve_left List.not_mem_nil

/-- What a module sees is the module itself and what its imports see. -/
theorem mem_closure_cases {a : String} {m : Module} (hm : m ∈ d.closure a) :
    d.module? a = some m ∨ ∃ i ∈ d.modules.importsOf a, m ∈ d.closure i := by
  obtain ⟨hreach, hfound⟩ := mem_closure_iff.1 hm
  rcases Relation.ReflTransGen.cases_head hreach with rfl | ⟨i, hi, hrest⟩
  · exact .inl hfound
  · exact .inr ⟨i, hi, mem_closure_iff.2 ⟨hrest, hfound⟩⟩

theorem closure_subset_of_import {a i : String} (hi : i ∈ d.modules.importsOf a) :
    d.closure i ⊆ d.closure a := by
  intro m hm
  obtain ⟨hreach, hfound⟩ := mem_closure_iff.1 hm
  exact mem_closure_iff.2 ⟨.head hi hreach, hfound⟩

theorem module?_of_mem_values {m : Module} (hm : m ∈ d.modules.values) :
    d.module? m.name = some m := by
  obtain ⟨e, he, rfl⟩ := List.mem_map.1 hm
  rw [d.named e he]
  exact OrderedMap.get?_eq_some_iff.2 he

theorem mem_closure_self {a : String} {m : Module} (hm : d.module? a = some m) :
    m ∈ d.closure a := by
  have hname := name_of_module? hm
  exact mem_closure_iff.2 ⟨hname ▸ .refl, hname ▸ hm⟩

end Definition

end RewriteSemantics
