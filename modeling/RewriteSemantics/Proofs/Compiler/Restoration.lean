/-
# Restoring the symbols of a compilation

The symbols of a compiled definition may be stored and taken up by a new registry. The registry
refuses them if an ordinal is missing, and one is missing exactly if a production declares the label
of a cell in a way that is not that of the cell: then the symbol of the production is numbered, but
its place in the table goes to the cell.
-/
import RewriteSemantics.Proofs.Compiler.SingleRule
import RewriteSemantics.Proofs.Symbol.Table

namespace RewriteSemantics

theorem cellLabel_inj {a b : String} (h : cellLabel a = cellLabel b) : a = b :=
  (String.append_right_inj "<").1 ((String.append_left_inj ">").1 h)

namespace SymbolTable

open Registry (keyIn)

variable {d : Definition} {tree : CellTree}

theorem nodup_declaredLabels (d : Definition) (name : String) : (declaredLabels d name).Nodup :=
  nodup_of_ascends (OrderedSet.ascending _)

theorem nodup_label_keyIn :
    (((declaredLabels d d.main).map (keyIn d)).map SymbolKey.label).Nodup := by
  rw [List.map_map]
  exact (List.map_id _).symm ▸ nodup_declaredLabels d d.main

theorem nodup_label_cellKey : ((tree.cells.keys.map cellKey).map SymbolKey.label).Nodup := by
  rw [List.map_map]
  exact (OrderedMap.nodup_keys tree.cells).map fun _ _ h => cellLabel_inj h

/-- The keys of the labels and of the cells agree where they share a label exactly if a production
that declares the label of a cell declares it as the cell has it. -/
theorem agree_iff :
    (∀ key ∈ (declaredLabels d d.main).map (keyIn d), ∀ cell ∈ tree.cells.keys.map cellKey,
      key.label = cell.label → key = cell) ↔
    ∀ name ∈ tree.cells.keys, cellLabel name ∈ declaredLabels d d.main →
      keyIn d (cellLabel name) = cellKey name := by
  constructor
  · intro h name hname hlabel
    exact h _ (List.mem_map_of_mem hlabel) _ (List.mem_map_of_mem hname) rfl
  · intro h key hkey cell hcell hlabel
    obtain ⟨label, hmem, rfl⟩ := List.mem_map.1 hkey
    obtain ⟨name, hname, rfl⟩ := List.mem_map.1 hcell
    obtain rfl : label = cellLabel name := hlabel
    exact h name hname hmem

end SymbolTable

namespace Compiler

open SymbolTable (declaredLabels cellKey)

variable {k : Compiler} {asked : Option SortName} {d : Definition} {c : CompiledDefinition}
  {records : List SymbolRecord}

/-- The symbols of a compilation that began with an empty registry, stored and given to another one
in any order, are accepted exactly if every production for the label of a cell declares it with the
signature and the attributes of the cell. The symbols that are answered are those that were stored,
in every part. -/
theorem restores_iff (hc : (k.compileWith asked d ∅).result = .ok c)
    (hrecords : records.Perm (SymbolTable.records c.symbols)) :
    ((∃ symbols, ((∅ : Registry).canonicalizeAll records).1 = .ok symbols) ↔
      ∀ name ∈ c.configuration.cells.keys,
        cellLabel name ∈ declaredLabels c.compiled c.compiled.main →
          Registry.keyIn c.compiled (cellLabel name) = cellKey name) ∧
    ∀ symbols, ((∅ : Registry).canonicalizeAll records).1 = .ok symbols →
      symbols.Perm (SymbolTable.symbols c.symbols) := by
  obtain ⟨-, -, -, hsymbols⟩ := compileWith_eq_ok hc
  rw [hsymbols] at hrecords ⊢
  constructor
  · rw [← SymbolTable.agree_iff]
    exact SymbolTable.exists_canonicalizeAll_iff _ SymbolTable.nodup_label_keyIn
      SymbolTable.nodup_label_cellKey hrecords
  · intro symbols hok
    exact SymbolTable.perm_values_of_canonicalizeAll _ SymbolTable.nodup_label_keyIn
      SymbolTable.nodup_label_cellKey hrecords hok

/-- The symbols of the two cells and of the productions that come with them are restored, here from
the last one to the first. -/
theorem exists_restored_twoCellDefinition : ∃ c,
    ((ofOptions .default).compileWith none twoCellDefinition ∅).result = .ok c ∧
      ∃ symbols, ((∅ : Registry).canonicalizeAll (SymbolTable.records c.symbols).reverse).1 =
          .ok symbols ∧ symbols.Perm (SymbolTable.symbols c.symbols) := by
  have hcompiles : (((ofOptions .default).compileWith none twoCellDefinition
      ∅).result.toOption.map fun c => decide (∀ name ∈ c.configuration.cells.keys,
        cellLabel name ∉ declaredLabels c.compiled c.compiled.main)) = some true := by cbv
  obtain ⟨c, hc, hfree⟩ := Option.map_eq_some_iff.1 hcompiles
  have hc := Except.toOption_eq_some.1 hc
  obtain ⟨haccepted, hsame⟩ := restores_iff hc (List.reverse_perm _)
  obtain ⟨symbols, hok⟩ := haccepted.2 fun name hname hlabel =>
    absurd hlabel (of_decide_eq_true hfree name hname)
  exact ⟨c, hc, symbols, hok, hsame symbols hok⟩

/-! ## A label that is declared twice -/

/-- A module with a cell and a production of other terms with the label of the cell. -/
def shadowedModule : Module :=
  ⟨"M", [], [.production (.labelled .kitem (cellLabel "k") [.int]),
    .configuration ⟨CellTree.defaultConfiguration "k", ∅⟩], ∅⟩

def shadowedModules : ModuleMap :=
  ((OrderedMap.insert ∅ shadowedModule.name shadowedModule).insert Builtin.termModule
    (.ofName Builtin.termModule)).insert Builtin.programModule (.ofName Builtin.programModule)

theorem named_shadowedModules : shadowedModules.Named :=
  ((ModuleMap.named_empty.insert shadowedModule).insert (.ofName Builtin.termModule)).insert
    (.ofName Builtin.programModule)

theorem fault?_shadowedModules : shadowedModules.fault? "M" = none :=
  ModuleMap.fault?_eq_none_of_imports_eq_nil rfl (by decide)

def shadowedDefinition : Definition :=
  ⟨"M", shadowedModules, ∅, named_shadowedModules, fault?_shadowedModules⟩

/-- The label of the cell is numbered twice, first for the production. The table keeps the second
number only, and an empty registry refuses it. -/
theorem exists_refused_shadowedDefinition : ∃ c,
    ((ofOptions .default).compileWith none shadowedDefinition ∅).result = .ok c ∧
      ((∅ : Registry).canonicalizeAll (SymbolTable.records c.symbols)).1 =
        .error (.ordinalGap "isKItem" 1 0) := by
  have hcompiles : (((ofOptions .default).compileWith none shadowedDefinition
      ∅).result.toOption.map fun c =>
        ((∅ : Registry).canonicalizeAll (SymbolTable.records c.symbols)).1) =
          some (.error (.ordinalGap "isKItem" 1 0)) := by cbv
  obtain ⟨c, hc, hrefused⟩ := Option.map_eq_some_iff.1 hcompiles
  exact ⟨c, Except.toOption_eq_some.1 hc, hrefused⟩

end Compiler

end RewriteSemantics
