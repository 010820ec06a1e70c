/-
# Labels of functions

Whether a label is that of a function is decided twice. The passes ask whether some production of
the label is marked as a function. The symbol of the label derives it from the attributes of all
these productions merged, and takes the membership predicate of a sort for a function without any
mark. In between stands the table, where a cell takes the place of a production with the same label.
So the two agree but for two kinds of labels: those of membership predicates that are declared
without a mark, and those of cells that are declared with one.
-/
import RewriteSemantics.Proofs.Compiler.Restoration
import RewriteSemantics.Proofs.Registry.Flags
import RewriteSemantics.Proofs.Sentence.Parser

namespace RewriteSemantics

/-! ## Marks -/

theorem Attributes.contains_merge {left right : Attributes} {key : String} :
    (left.merge right).contains key = true ↔
      left.contains key = true ∨ right.contains key = true := by
  rw [OrderedMap.contains, get?_merge, Option.isSome_or, Bool.or_eq_true, or_comm]
  rfl

theorem Production.isFunction_iff {p : Production} : p.isFunction = true ↔
    p.attributes.contains Attributes.function = true ∨
      p.attributes.contains Attributes.predicate = true := by
  rw [isFunction, Bool.or_eq_true]

namespace Definition

variable {d : Definition} {label key : String}

/-- The productions of a label have together the attributes that any of them has. -/
theorem contains_attributesOf (hsource : key ≠ Attributes.source)
    (hlocation : key ≠ Attributes.location) : (d.attributesOf label).contains key = true ↔
      ∃ p ∈ d.productionsFor label, p.attributes.contains key = true := by
  have hmerged : ∀ (all : Attributes) (ps : List Production),
      (ps.foldl (fun all p => all.merge p.attributes) all).contains key = true ↔
        all.contains key = true ∨ ∃ p ∈ ps, p.attributes.contains key = true := by
    intro all ps
    induction ps generalizing all with
    | nil => simp
    | cons p ps ih => simp [ih, Attributes.contains_merge, or_assoc]
  -- neither of the keys that are taken out in the end is this one
  have hkept : (d.attributesOf label).contains key =
      ((d.productionsFor label).foldl (fun all p => all.merge p.attributes)
        (∅ : Attributes)).contains key := by
    unfold attributesOf OrderedMap.contains
    dsimp only
    rw [OrderedMap.get?_erase, if_neg hlocation, OrderedMap.get?_erase, if_neg hsource]
  rw [hkept, hmerged]
  exact or_iff_right fun h => (nomatch h)

/-- A production of a label is marked as a function if the merged attributes are. -/
theorem exists_isFunction_iff : (∃ p ∈ d.productionsFor label, p.isFunction = true) ↔
    (d.attributesOf label).contains Attributes.function = true ∨
      (d.attributesOf label).contains Attributes.predicate = true := by
  rw [contains_attributesOf (by decide) (by decide), contains_attributesOf (by decide) (by decide)]
  simp only [Production.isFunction_iff, and_or_left, exists_or]

theorem isFunctionRule_iff {r : Rule} (hhead : r.body.lhs.topLabel? = some label) :
    d.isFunctionRule r = true ↔ ∃ p ∈ d.productionsFor label, p.isFunction = true := by
  rw [isFunctionRule, hhead]
  exact List.any_eq_true

end Definition

/-- A symbol is that of a function if it is a membership predicate or has a mark. -/
theorem Symbol.isFunction_ofKey (key : SymbolKey) (ordinal : Nat) (sorts : OrderedSet SortName) :
    (ofKey key ordinal sorts).isFunction = true ↔ Label.IsMembership key.label sorts ∨
      key.attributes.contains Attributes.function = true ∨
      key.attributes.contains Attributes.predicate = true := by
  rw [← isSortPredicate_ofKey key ordinal sorts]
  unfold ofKey
  split
  · exact iff_of_true rfl (.inl rfl)
  · rw [Bool.or_eq_true]
    exact (or_iff_right fun h => (nomatch h)).symm

/-! ## The symbol in the place of a label -/

namespace SymbolTable

variable {sorts : OrderedSet SortName} {table : SymbolTable} {r : Registry}
  {declared cells keys : List SymbolKey}

/-- A symbol that interning some keys has created has the flags of its key. -/
theorem eq_ofKey_of_internAll (hkept : r.Kept) {key : SymbolKey} {s : Symbol}
    (hnew : r.lookup key = none) (hs : (internAll sorts table r keys).2.lookup key = some s) :
    ∃ ordinal, s = .ofKey key ordinal sorts := by
  induction keys generalizing table r with
  | nil => exact nomatch hnew.symm.trans hs
  | cons first keys ih =>
    have hkept' := (hkept.intern first sorts).kept
    cases hthere : (r.intern first sorts).2.lookup key with
    | none => exact ih hkept' hthere hs
    | some t =>
      -- what has been created now stays until the end
      cases ((kept_internAll hkept').2 _ _ hthere).symm.trans hs
      exact (Registry.eq_ofKey_of_intern hnew hthere).2

theorem exists_lookup_tabulate {key : SymbolKey} (hkey : key ∈ declared ++ cells) :
    ∃ ordinal, (tabulate sorts declared cells).2.lookup key = some (.ofKey key ordinal sorts) := by
  obtain ⟨s, hs⟩ := ((interned_tabulate sorts declared cells).found key).2 (.inl hkey)
  obtain ⟨ordinal, rfl⟩ := eq_ofKey_of_internAll Registry.kept_empty rfl hs
  exact ⟨ordinal, hs⟩

variable {d : Definition} {tree : CellTree}

/-- The label of a cell has the symbol of the cell. -/
theorem get?_build_of_cell {name : String} (hname : name ∈ tree.cells.keys) :
    ∃ ordinal, (build d tree ∅).1.get? (cellLabel name) =
      some (.ofKey (cellKey name) ordinal d.allSorts) := by
  have hcell := List.mem_map_of_mem (f := cellKey) hname
  obtain ⟨ordinal, hs⟩ := exists_lookup_tabulate (List.mem_append_right _ hcell)
  exact ⟨ordinal, (get?_tabulate_of_cell _ nodup_label_cellKey hcell).trans hs⟩

/-- Any other label has the symbol of what the productions declare. -/
theorem get?_build_of_declared {label : String} (hlabel : label ∈ declaredLabels d d.main)
    (hother : ∀ name ∈ tree.cells.keys, cellLabel name ≠ label) :
    ∃ ordinal, (build d tree ∅).1.get? label =
      some (.ofKey (Registry.keyIn d label) ordinal d.allSorts) := by
  have hkey := List.mem_map_of_mem (f := Registry.keyIn d) hlabel
  obtain ⟨ordinal, hs⟩ := exists_lookup_tabulate (List.mem_append_left _ hkey)
  refine ⟨ordinal, (get?_tabulate_of_declared _ nodup_label_keyIn hkey ?_).trans hs⟩
  intro hcell
  obtain ⟨_, hcell, hsame⟩ := List.mem_map.1 hcell
  obtain ⟨name, hname, rfl⟩ := List.mem_map.1 hcell
  exact hother name hname hsame

end SymbolTable

/-- A label is that of a cell of the configuration. -/
def CompiledDefinition.IsCellLabel (c : CompiledDefinition) (label : String) : Prop :=
  ∃ name ∈ c.configuration.cells.keys, cellLabel name = label

/-- A sort has a label for its membership predicate, but no production of it is marked. -/
def CompiledDefinition.Unmarked (c : CompiledDefinition) (label : String) : Prop :=
  Label.IsMembership label c.compiled.allSorts ∧
    ¬ ∃ p ∈ c.compiled.productionsFor label, p.isFunction = true

/-- A cell has the label of a production that is marked as a function. -/
def CompiledDefinition.Shadowed (c : CompiledDefinition) (label : String) : Prop :=
  c.IsCellLabel label ∧ ∃ p ∈ c.compiled.productionsFor label, p.isFunction = true

theorem not_isMembership_cellLabel (name : String) (sorts : OrderedSet SortName) :
    ¬ Label.IsMembership (cellLabel name) sorts := by
  rintro ⟨sort, -, hlabel⟩
  have hchars := congrArg String.toList hlabel
  simp [cellLabel] at hchars

theorem Symbol.not_isFunction_ofKey_cellKey (name : String) (ordinal : Nat)
    (sorts : OrderedSet SortName) :
    ¬ (ofKey (SymbolTable.cellKey name) ordinal sorts).isFunction = true := by
  rw [isFunction_ofKey]
  rintro (hmember | hmarked)
  · exact not_isMembership_cellLabel name sorts hmember
  · have hunmarked : ¬ (((∅ : Attributes).withMarker Attributes.cell).contains
          Attributes.function = true ∨
        ((∅ : Attributes).withMarker Attributes.cell).contains Attributes.predicate = true) := by
      decide
    exact hunmarked hmarked

namespace Compiler

open SymbolTable (declaredLabels)

variable {k : Compiler} {asked : Option SortName} {d : Definition} {c : CompiledDefinition}
  {label : String}

/-- A label that is declared where the compiled main module sees it has a symbol. It is that of a
function if no cell has the label and it is a membership predicate or marked. -/
theorem exists_symbol (hc : (k.compileWith asked d ∅).result = .ok c)
    (hlabel : label ∈ declaredLabels c.compiled c.compiled.main) :
    ∃ s, c.symbols.get? label = some s ∧ (s.isFunction = true ↔ ¬ c.IsCellLabel label ∧
      (Label.IsMembership label c.compiled.allSorts ∨
        ∃ p ∈ c.compiled.productionsFor label, p.isFunction = true)) := by
  obtain ⟨-, -, -, hsymbols⟩ := compileWith_eq_ok hc
  rw [hsymbols]
  by_cases hcell : c.IsCellLabel label
  · -- the symbol of the cell has taken the place of what the productions declare
    obtain ⟨name, hname, rfl⟩ := hcell
    obtain ⟨ordinal, hs⟩ := SymbolTable.get?_build_of_cell hname
    refine ⟨_, hs, iff_of_false (Symbol.not_isFunction_ofKey_cellKey name ordinal _) ?_⟩
    rintro ⟨hcell, -⟩
    exact hcell ⟨name, hname, rfl⟩
  · obtain ⟨ordinal, hs⟩ := SymbolTable.get?_build_of_declared hlabel
      fun name hname hsame => hcell ⟨name, hname, hsame⟩
    refine ⟨_, hs, ?_⟩
    rw [Symbol.isFunction_ofKey, Definition.exists_isFunction_iff]
    exact (and_iff_right hcell).symm

/-- If a compilation that began with an empty registry succeeds, then every label that is declared
where the compiled main module sees it has a symbol. For the rules headed by the label, the symbol
and the passes agree on whether it is that of a function exactly if it is neither a membership
predicate without a mark nor the label of a cell with one. On the former, the symbol is that of a
function and the rules are not those of one, and on the latter it is the other way round. -/
theorem functions_agree_iff (hc : (k.compileWith asked d ∅).result = .ok c)
    (hlabel : label ∈ declaredLabels c.compiled c.compiled.main) :
    ∃ s, c.symbols.get? label = some s ∧ ∀ r : Rule, r.body.lhs.topLabel? = some label →
      ((s.isFunction = true ↔ c.compiled.isFunctionRule r = true) ↔
        ¬ c.Unmarked label ∧ ¬ c.Shadowed label) ∧
      (c.Unmarked label → s.isFunction = true ∧ c.compiled.isFunctionRule r = false) ∧
      (c.Shadowed label → s.isFunction = false ∧ c.compiled.isFunctionRule r = true) := by
  obtain ⟨s, hs, hfunction⟩ := exists_symbol hc hlabel
  refine ⟨s, hs, fun r hhead => ?_⟩
  -- the label of a cell starts with a bracket, so no label is of both kinds
  have hnot : c.IsCellLabel label → ¬ Label.IsMembership label c.compiled.allSorts := by
    rintro ⟨name, -, rfl⟩
    exact not_isMembership_cellLabel name _
  rw [← Bool.not_eq_true (c.compiled.isFunctionRule r), ← Bool.not_eq_true s.isFunction, hfunction,
    Definition.isFunctionRule_iff hhead, CompiledDefinition.Unmarked, CompiledDefinition.Shadowed]
  generalize (∃ p ∈ c.compiled.productionsFor label, p.isFunction = true) = marked
  tauto

/-! ### Three labels -/

/-- The rule that takes the application of a label for its argument. -/
def unwrapRule (label : String) : Rule :=
  .ofBody (.rewrite (.app label [.ofName "X"]) (.ofName "X"))

/-- A module with a function, a membership predicate without a mark and a function with the label of
the cell. -/
def threeLabelModule : Module :=
  ⟨"M", [], [.production ⟨⟨"Exp"⟩, some "f", [⟨"Exp"⟩], (∅ : Attributes).withMarker
      Attributes.function⟩,
    .production (.labelled ⟨"Exp"⟩ "isExp" [.k]),
    .production ⟨.kitem, some (cellLabel "k"), [.int], (∅ : Attributes).withMarker
      Attributes.function⟩,
    .configuration ⟨CellTree.defaultConfiguration "k", ∅⟩, .rule (unwrapRule "f"),
    .rule (unwrapRule "isExp"), .rule (unwrapRule (cellLabel "k"))], ∅⟩

def threeLabelModules : ModuleMap :=
  ((OrderedMap.insert ∅ threeLabelModule.name threeLabelModule).insert Builtin.termModule
    (.ofName Builtin.termModule)).insert Builtin.programModule (.ofName Builtin.programModule)

theorem named_threeLabelModules : threeLabelModules.Named :=
  ((ModuleMap.named_empty.insert threeLabelModule).insert (.ofName Builtin.termModule)).insert
    (.ofName Builtin.programModule)

theorem fault?_threeLabelModules : threeLabelModules.fault? "M" = none :=
  ModuleMap.fault?_eq_none_of_imports_eq_nil rfl (by decide)

def threeLabelDefinition : Definition :=
  ⟨"M", threeLabelModules, ∅, named_threeLabelModules, fault?_threeLabelModules⟩

/-- What a compiled definition tells of a label: whether its main module sees it declared, whether
the symbol is that of a function, and whether a rule headed by the label is. -/
def tells (c : CompiledDefinition) (label : String) : Bool × Option Bool × Bool :=
  (decide (label ∈ declaredLabels c.compiled c.compiled.main),
    (c.symbols.get? label).map (·.isFunction), c.compiled.isFunctionRule (unwrapRule label))

theorem tells_eq_iff {function rule : Bool} : tells c label = (true, some function, rule) ↔
    label ∈ declaredLabels c.compiled c.compiled.main ∧
      (∃ s, c.symbols.get? label = some s ∧ s.isFunction = function) ∧
      c.compiled.isFunctionRule (unwrapRule label) = rule := by
  rw [tells, Prod.mk.injEq, Prod.mk.injEq, decide_eq_true_iff, Option.map_eq_some_iff]

theorem exists_compiled_threeLabelDefinition : ∃ c,
    ((ofOptions .default).compileWith none threeLabelDefinition ∅).result = .ok c ∧
      tells c "f" = (true, some true, true) ∧ tells c "isExp" = (true, some true, false) ∧
      tells c (cellLabel "k") = (true, some false, true) := by
  have hcompiles : (((ofOptions .default).compileWith none threeLabelDefinition
      ∅).result.toOption.map fun c => (tells c "f", tells c "isExp", tells c (cellLabel "k"))) =
        some ((true, some true, true), (true, some true, false), (true, some false, true)) := by cbv
  obtain ⟨c, hc, htells⟩ := Option.map_eq_some_iff.1 hcompiles
  obtain ⟨hf, hrest⟩ := Prod.mk.inj htells
  obtain ⟨hisExp, hk⟩ := Prod.mk.inj hrest
  exact ⟨c, Except.toOption_eq_some.1 hc, hf, hisExp, hk⟩

/-- The rule and the symbol of `f` are those of a function. -/
theorem functions_agree_threeLabelDefinition : ∃ c,
    ((ofOptions .default).compileWith none threeLabelDefinition ∅).result = .ok c ∧
      ∃ s, c.symbols.get? "f" = some s ∧ s.isFunction = true ∧
        c.compiled.isFunctionRule (unwrapRule "f") = true := by
  obtain ⟨c, hc, hf, -, -⟩ := exists_compiled_threeLabelDefinition
  obtain ⟨hlabel, -, hrule⟩ := tells_eq_iff.1 hf
  obtain ⟨s, hs, hagree⟩ := functions_agree_iff hc hlabel
  have hunmarked : ¬ c.Unmarked "f" := by
    rintro ⟨⟨sort, -, hmember⟩, -⟩
    have hchars := congrArg String.toList hmember
    simp at hchars
  have hshadowed : ¬ c.Shadowed "f" := by
    rintro ⟨⟨name, -, hcell⟩, -⟩
    have hchars := congrArg String.toList hcell
    simp [cellLabel] at hchars
  exact ⟨c, hc, s, hs, ((hagree _ rfl).1.2 ⟨hunmarked, hshadowed⟩).2 hrule, hrule⟩

/-- The symbol of `isExp` is that of a function and its rule is not. For the label of the cell it is
the other way round. -/
theorem exists_functions_disagree : ∃ c,
    ((ofOptions .default).compileWith none threeLabelDefinition ∅).result = .ok c ∧
      ("isExp" ∈ declaredLabels c.compiled c.compiled.main ∧
        (∃ s, c.symbols.get? "isExp" = some s ∧ s.isFunction = true) ∧
        c.compiled.isFunctionRule (unwrapRule "isExp") = false) ∧
      (cellLabel "k" ∈ declaredLabels c.compiled c.compiled.main ∧
        (∃ s, c.symbols.get? (cellLabel "k") = some s ∧ s.isFunction = false) ∧
        c.compiled.isFunctionRule (unwrapRule (cellLabel "k")) = true) := by
  obtain ⟨c, hc, -, hisExp, hk⟩ := exists_compiled_threeLabelDefinition
  exact ⟨c, hc, tells_eq_iff.1 hisExp, tells_eq_iff.1 hk⟩

end Compiler

end RewriteSemantics
