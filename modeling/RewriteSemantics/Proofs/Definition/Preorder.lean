/-
# The order of what a module sees

The walk of the import graph keeps an agenda of names that it has still to enter, and a name may
stand there more than once. The recursive traversal of the graph needs no agenda: it visits a
module, and then, from the first import to the last, whatever these lead to and has not been visited
before. Both enter the same modules in the same order. So a module sees what its imports lead to,
each module once, in that order, and the configuration that counts is the first one on the way.
-/
import RewriteSemantics.CellTree
import RewriteSemantics.Proofs.Definition.Imports

namespace RewriteSemantics

namespace ModuleMap

variable {modules : ModuleMap}

/-! ## The traversal -/

/-- Visiting more leaves less to visit. -/
theorem unvisited_append_le (modules : ModuleMap) (more visited : List String) :
    modules.unvisited (more ++ visited) ≤ modules.unvisited visited := by
  refine (List.monotone_filter_right _ fun name hname => ?_).length_le
  rw [decide_eq_true_iff] at hname ⊢
  exact fun hmem => hname (List.mem_append_right _ hmem)

mutual

/-- The modules visited from a name: none if the name has been visited or names no module, or else
its module and then those visited from its imports. -/
def visit (modules : ModuleMap) (visited : List String) (name : String) : List Module :=
  if hv : name ∈ visited then []
  else if h : modules.contains name then
    have := unvisited_cons_lt h hv
    modules.get name h :: visitAll modules (name :: visited) (modules.get name h).imports
  else []
termination_by (modules.unvisited visited, 0)

/-- The modules visited from some names, left to right. What has been visited from one of them is
not visited again from a later one. -/
def visitAll (modules : ModuleMap) (visited : List String) : List String → List Module
  | [] => []
  | name :: names =>
    let found := visit modules visited name
    found ++ visitAll modules (found.map (·.name) ++ visited) names
termination_by names => (modules.unvisited visited, names.length + 1)
decreasing_by
  · exact Prod.Lex.right _ (Nat.succ_pos _)
  · exact Prod.Lex.right' _ (unvisited_append_le ..) (Nat.lt_succ_self _)

end

theorem visit_eq (modules : ModuleMap) (visited : List String) (name : String) :
    modules.visit visited name =
      if name ∈ visited then []
      else match modules.get? name with
        | none => []
        | some m => m :: modules.visitAll (name :: visited) m.imports := by
  rw [visit]
  split
  · rfl
  · split
    · rename_i hcontains
      rw [OrderedMap.get?_eq_some_get hcontains]
    · rename_i hcontains
      rw [OrderedMap.get?_eq_none_iff.2 hcontains]

/-! ## The walk goes the same way -/

/-- Which names a walk has entered matters, and not in which order. -/
theorem walk_perm {seen seen' : List String} (h : seen'.Perm seen) (agenda : List String) :
    modules.walk seen' agenda = modules.walk seen agenda :=
  walk_congr (P := fun _ => True) (fun _ _ => rfl) (fun _ _ _ _ _ _ => trivial)
    (fun _ _ => h.mem_iff) fun _ _ => trivial

/-- The walk first meets what is visited from the front of its agenda, and then goes on with the
rest of the agenda as if it had been there. -/
theorem walk_eq_visit_append (hnamed : modules.Named) :
    (∀ visited name agenda, modules.walk visited (name :: agenda) =
      modules.visit visited name ++
        modules.walk ((modules.visit visited name).map (·.name) ++ visited) agenda) ∧
    ∀ visited names agenda, modules.walk visited (names ++ agenda) =
      modules.visitAll visited names ++
        modules.walk ((modules.visitAll visited names).map (·.name) ++ visited) agenda := by
  -- The induction is along the traversal. The agenda behind what is visited stays arbitrary, so
  -- that the imports of a module can be put in front of it.
  apply visit.mutual_induct modules
    (fun visited name => ∀ agenda, modules.walk visited (name :: agenda) =
      modules.visit visited name ++
        modules.walk ((modules.visit visited name).map (·.name) ++ visited) agenda)
    (fun visited names => ∀ agenda, modules.walk visited (names ++ agenda) =
      modules.visitAll visited names ++
        modules.walk ((modules.visitAll visited names).map (·.name) ++ visited) agenda)
  case case1 =>
    intro visited name hvisited agenda
    rw [walk_of_seen hvisited, visit_eq, if_pos hvisited]
    rfl
  case case2 =>
    intro visited name hvisited hcontains _ ih agenda
    have hfound := OrderedMap.get?_eq_some_get hcontains
    have hname : (modules.get name hcontains).name = name :=
      hnamed _ (OrderedMap.mem_entries_of_get? hfound)
    rw [walk_of_some hvisited hfound, visit_eq, if_neg hvisited, hfound, ih agenda]
    simp only [List.map_cons, hname, List.cons_append]
    rw [walk_perm List.perm_middle]
  case case3 =>
    intro visited name hvisited hcontains agenda
    have hnone := OrderedMap.get?_eq_none_iff.2 hcontains
    rw [walk_of_none hvisited hnone, visit_eq, if_neg hvisited, hnone]
    rfl
  case case4 =>
    intro visited agenda
    rw [visitAll]
    rfl
  case case5 =>
    intro visited name names found ihname ihnames agenda
    rw [List.cons_append, ihname, ihnames, visitAll]
    simp only [List.map_append, List.append_assoc]
    -- The walk has entered the same names, those found later further to the front.
    congr 2
    exact walk_perm (List.perm_append_comm_assoc ..) _

/-- From a single name the walk meets what is visited from it. -/
theorem closure_eq_visit (hnamed : modules.Named) (name : String) :
    modules.closure name = modules.visit [] name := by
  rw [closure, (walk_eq_visit_append hnamed).1 [] name [], walk, List.append_nil]

/-! ## Each module once -/

theorem name_notMem_of_mem_walk (hnamed : modules.Named) {seen agenda : List String} {m : Module}
    (hm : m ∈ modules.walk seen agenda) : m.name ∉ seen := by
  induction seen, agenda using walk.induct modules with
  | case1 seen =>
    rw [walk] at hm
    cases hm
  | case2 seen name agenda hseen ih =>
    rw [walk_of_seen hseen] at hm
    exact ih hm
  | case3 seen name agenda hseen hcontains _ ih =>
    have hfound := OrderedMap.get?_eq_some_get hcontains
    rw [walk_of_some hseen hfound] at hm
    rcases List.mem_cons.1 hm with rfl | hm
    · rw [hnamed _ (OrderedMap.mem_entries_of_get? hfound)]
      exact hseen
    · exact fun hmem => ih hm (List.mem_cons_of_mem _ hmem)
  | case4 seen name agenda hseen hcontains ih =>
    rw [walk_of_none hseen (OrderedMap.get?_eq_none_iff.2 hcontains)] at hm
    exact ih hm

theorem nodup_map_name_walk (hnamed : modules.Named) (seen agenda : List String) :
    ((modules.walk seen agenda).map (·.name)).Nodup := by
  induction seen, agenda using walk.induct modules with
  | case1 seen =>
    rw [walk]
    exact List.nodup_nil
  | case2 seen name agenda hseen ih =>
    rw [walk_of_seen hseen]
    exact ih
  | case3 seen name agenda hseen hcontains _ ih =>
    have hfound := OrderedMap.get?_eq_some_get hcontains
    rw [walk_of_some hseen hfound, List.map_cons, List.nodup_cons]
    refine ⟨fun hmem => ?_, ih⟩
    obtain ⟨m, hm, hname⟩ := List.mem_map.1 hmem
    rw [hnamed _ (OrderedMap.mem_entries_of_get? hfound)] at hname
    exact name_notMem_of_mem_walk hnamed hm (hname ▸ List.mem_cons_self)
  | case4 seen name agenda hseen hcontains ih =>
    rw [walk_of_none hseen (OrderedMap.get?_eq_none_iff.2 hcontains)]
    exact ih

end ModuleMap

namespace Definition

/-! ## What a module sees -/

theorem closure_eq_nil_iff {d : Definition} {name : String} :
    d.closure name = [] ↔ d.module? name = none := by
  rw [closure, ModuleMap.closure_eq_visit d.named, ModuleMap.visit_eq, if_neg List.not_mem_nil]
  show (match d.module? name with
    | none => []
    | some m => m :: d.modules.visitAll [name] m.imports) = [] ↔ _
  cases d.module? name <;> simp

/-- The first configuration that a module sees is the first one in the modules that it sees. -/
theorem configuration?_eq_head? (d : Definition) (name : String) :
    d.configuration? name = ((d.closure name).flatMap (·.configurations)).head? := by
  rw [configuration?, sentencesOf, ← List.head?_filterMap, List.filterMap_flatMap]
  rfl

/-- The cell tree that a configuration stands for, or else the default one. -/
def treeOf (configuration : Option Configuration) : Except DefinitionError CellTree :=
  CellTree.ofTerm
    (configuration.elim (CellTree.defaultConfiguration CellTree.computationCell) (·.body))

/-- Some modules are what a module sees, in the order of the traversal: all that its imports lead
to, each module once, and none at all only if there is no such module. The first configuration in
them is the one whose cells are read. -/
structure Sees (d : Definition) (name : String) (ms : List Module) : Prop where
  order : ms = d.modules.visit [] name
  once : (ms.map (·.name)).Nodup
  mem_iff : ∀ m, m ∈ ms ↔ d.modules.Reaches name m.name ∧ d.module? m.name = some m
  eq_nil_iff : ms = [] ↔ d.module? name = none
  tree : CellTree.ofModule d name = treeOf (ms.flatMap (·.configurations)).head?

/-- The closure of a module under imports is what the module sees. -/
theorem sees_closure (d : Definition) (name : String) : d.Sees name (d.closure name) where
  order := ModuleMap.closure_eq_visit d.named name
  once := ModuleMap.nodup_map_name_walk d.named [] [name]
  mem_iff _ := mem_closure_iff
  eq_nil_iff := closure_eq_nil_iff
  tree := by
    rw [CellTree.ofModule, ← configuration?_eq_head?]
    cases d.configuration? name <;> rfl

end Definition

end RewriteSemantics
