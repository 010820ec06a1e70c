/-
# The search for a cycle

The search goes down the imports with the path that it came along, and it passes over what it has
cleared before, from whichever module that was. Every name on the path leads to the name that is
entered next, so a name that is met on its own path lies on a cycle. And what has been cleared is in
an order in which everything a module imports stands behind it, so where the search comes to its end
there is no cycle. It does come to its end, on every graph: a path holds no name twice, so no path
is longer than there are modules.
-/
import Mathlib.Logic.Relation
import RewriteSemantics.Proofs.Definition.Imports

namespace RewriteSemantics.ModuleMap

open Relation

variable {modules : ModuleMap}

/-! ## What is found is a cycle -/

/-- The search fails only for a name that leads back to itself. -/
theorem cycle_of_enter (modules : ModuleMap) :
    (∀ path clear name e, modules.enter path clear name = .error e →
      (∀ p ∈ path, TransGen modules.Imports p name) →
        ∃ a, e = .importCycle a ∧ TransGen modules.Imports a a) ∧
    ∀ path clear names e, modules.enterAll path clear names = .error e →
      (∀ p ∈ path, ∀ name ∈ names, TransGen modules.Imports p name) →
        ∃ a, e = .importCycle a ∧ TransGen modules.Imports a a := by
  apply enter.mutual_induct modules
    (fun path clear name => ∀ e, modules.enter path clear name = .error e →
      (∀ p ∈ path, TransGen modules.Imports p name) →
        ∃ a, e = .importCycle a ∧ TransGen modules.Imports a a)
    (fun path clear names => ∀ e, modules.enterAll path clear names = .error e →
      (∀ p ∈ path, ∀ name ∈ names, TransGen modules.Imports p name) →
        ∃ a, e = .importCycle a ∧ TransGen modules.Imports a a)
  case case1 =>
    intro path clear name hclear e h
    rw [enter_eq, if_pos hclear] at h
    cases h
  case case2 =>
    intro path clear name hclear hpath e h hleads
    rw [enter_eq, if_neg hclear, if_pos hpath] at h
    cases h
    exact ⟨name, rfl, hleads name hpath⟩
  case case3 =>
    intro path clear name hclear hpath hcontains _ ih e h hleads
    have hfound := OrderedMap.get?_eq_some_get hcontains
    rw [enter_eq, if_neg hclear, if_neg hpath, hfound] at h
    -- the name joins the path, and leads to each of its imports
    have hdeeper : ∀ p ∈ name :: path, ∀ i ∈ (modules.get name hcontains).imports,
        TransGen modules.Imports p i := by
      intro p hp i hi
      have himports : modules.Imports name i := by
        rw [Imports, importsOf_of_get? hfound]
        exact hi
      rcases List.mem_cons.1 hp with rfl | hp
      · exact .single himports
      · exact (hleads p hp).tail himports
    rcases Except.bind_eq_error.1 h with h | ⟨below, -, h⟩
    · exact ih e h hdeeper
    · cases h
  case case4 =>
    intro path clear name hclear hpath hcontains e h
    rw [enter_eq, if_neg hclear, if_neg hpath, OrderedMap.get?_eq_none_iff.2 hcontains] at h
    cases h
  case case5 =>
    intro path clear e h
    rw [enterAll] at h
    cases h
  case case6 =>
    intro path clear name names ihname ihnames e h hleads
    rw [enterAll] at h
    rcases Except.bind_eq_error.1 h with h | ⟨first, -, h⟩
    · exact ihname e h fun p hp => hleads p hp name List.mem_cons_self
    · exact ihnames first e h fun p hp other hother =>
        hleads p hp other (List.mem_cons_of_mem _ hother)

theorem cycle_of_cycle? {e : DefinitionError} (h : modules.cycle? = some e) :
    ∃ a, e = .importCycle a ∧ TransGen modules.Imports a a := by
  rw [cycle?] at h
  split at h
  · cases h
  · rename_i fault hfault
    cases h
    refine (cycle_of_enter modules).2 _ _ _ _ hfault fun p hp => ?_
    cases hp

/-- A cycle is found exactly if there is one. -/
theorem cycle?_eq_none_iff :
    modules.cycle? = none ↔ ∀ a, ¬ TransGen modules.Imports a a := by
  constructor
  · intro h a hcycle
    obtain ⟨i, hi, hback⟩ := TransGen.head'_iff.1 hcycle
    exact not_reaches_of_cycle? h hi hback
  · intro h
    rw [Option.eq_none_iff_forall_ne_some]
    intro e he
    obtain ⟨a, -, hcycle⟩ := cycle_of_cycle? he
    exact h a hcycle

/-- Modules without imports have no fault. -/
theorem fault?_eq_none_of_imports_eq_nil {main : String} (hmain : modules.contains main = true)
    (h : ∀ m ∈ modules.values, m.imports = []) : modules.fault? main = none := by
  have himports : ∀ a, modules.importsOf a = [] := by
    intro a
    cases hm : modules.get? a with
    | none => exact importsOf_of_none hm
    | some m => exact (importsOf_of_get? hm).trans (h m (OrderedMap.mem_values_iff.2 ⟨a, hm⟩))
  refine fault?_eq_none_iff.2 ⟨hmain, ?_, cycle?_eq_none_iff.2 fun a hcycle => ?_⟩
  · rw [unresolvedImport?, List.findSome?_eq_none_iff]
    rintro ⟨name, m⟩ he
    have hnone : m.imports = [] := h m (List.mem_map_of_mem he)
    dsimp only
    rw [hnone]
    rfl
  · obtain ⟨i, hi, -⟩ := TransGen.head'_iff.1 hcycle
    rw [Imports, himports a] at hi
    cases hi

/-! ## How deep the search goes -/

/-- Enters some names one after the other by a search from each that may give up. -/
def enterEach (visit : List String → String → Option (Except DefinitionError (List String)))
    (clear : List String) : List String → Option (Except DefinitionError (List String))
  | [] => some (.ok clear)
  | name :: names => do
    match ← visit clear name with
    | .error e => some (.error e)
    | .ok clear => enterEach visit clear names

/-- The search from a name that gives up where it would have to enter more modules inside one
another than a bound allows. -/
def enterWithin (modules : ModuleMap) : Nat → List String → List String → String →
    Option (Except DefinitionError (List String))
  | 0, _, _, _ => none
  | depth + 1, path, clear, name =>
    if name ∈ clear then some (.ok clear)
    else if name ∈ path then some (.error (.importCycle name))
    else match modules.get? name with
      | none => some (.ok (name :: clear))
      | some m => (enterEach (modules.enterWithin depth (name :: path)) clear m.imports).map
          (·.map (name :: ·))

theorem enterEach_eq {visit : List String → String → Option (Except DefinitionError (List String))}
    {path names : List String}
    (h : ∀ clear, ∀ name ∈ names, visit clear name = some (modules.enter path clear name))
    (clear : List String) :
    enterEach visit clear names = some (modules.enterAll path clear names) := by
  induction names generalizing clear with
  | nil => rw [enterEach, enterAll]
  | cons name names ih =>
    obtain ⟨hname, hnames⟩ : (∀ clear, visit clear name = some (modules.enter path clear name)) ∧
        ∀ clear, ∀ other ∈ names, visit clear other = some (modules.enter path clear other) :=
      ⟨fun clear => h clear name List.mem_cons_self,
        fun clear other hother => h clear other (List.mem_cons_of_mem _ hother)⟩
    rw [enterEach, enterAll, hname]
    cases hfirst : modules.enter path clear name with
    | error e => rfl
    | ok cleared => exact ih hnames cleared

/-- As deep as there are names that a path has not entered yet, the search needs no bound. -/
theorem enterWithin_eq {depth : Nat} {path : List String} (h : modules.unvisited path < depth)
    (clear : List String) (name : String) :
    modules.enterWithin depth path clear name = some (modules.enter path clear name) := by
  induction depth generalizing path clear name with
  | zero => exact absurd h (Nat.not_lt_zero _)
  | succ depth ih =>
    rw [enterWithin, enter_eq]
    by_cases hclear : name ∈ clear
    · rw [if_pos hclear, if_pos hclear]
    · by_cases hpath : name ∈ path
      · rw [if_neg hclear, if_neg hclear, if_pos hpath, if_pos hpath]
      · rw [if_neg hclear, if_neg hclear, if_neg hpath, if_neg hpath]
        cases hm : modules.get? name with
        | none => rfl
        | some m =>
          have hless := unvisited_cons_lt (OrderedMap.contains_iff.2 ⟨m, hm⟩) hpath
          have hbelow : modules.unvisited (name :: path) < depth := by omega
          have hvisit : ∀ clear, ∀ i ∈ m.imports,
              modules.enterWithin depth (name :: path) clear i =
                some (modules.enter (name :: path) clear i) :=
            fun clear i _ => ih hbelow clear i
          simp only [enterEach_eq hvisit, Option.map_some]
          cases modules.enterAll (name :: path) clear m.imports with
          | error e => rfl
          | ok cleared => rfl

/-- The search of a whole graph never enters more modules inside one another than there are. -/
theorem enterEach_enterWithin_eq {depth : Nat} (h : modules.size < depth) :
    enterEach (modules.enterWithin depth []) [] modules.keys =
      some (modules.enterAll [] [] modules.keys) := by
  refine enterEach_eq (fun clear name _ => enterWithin_eq ?_ clear name) []
  have hall : modules.unvisited [] ≤ modules.keys.length := List.length_filter_le ..
  have hkeys : modules.keys.length = modules.size := List.length_map _
  omega

end RewriteSemantics.ModuleMap
