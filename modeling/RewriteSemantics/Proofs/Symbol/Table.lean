/-
# The symbols of a table

The keys of a table are interned one after the other, and each symbol is entered under its label. A
table has one place for each label, so where two keys share a label the later symbol takes the place
of the earlier one, which stays in the registry but not in the table. Then the ordinals of the table
have a gap.
-/
import RewriteSemantics.Proofs.Registry.Adoption
import RewriteSemantics.Symbol.Table

namespace RewriteSemantics

open Registry

/-- A symbol that was not there before has an ordinal that was not taken. -/
theorem Registry.Kept.count_le_ordinal {r r' : Registry} (h : r.Kept) (h' : r'.Kept)
    (hgrows : r.Grows r') {key : SymbolKey} {s : Symbol} (hnew : r.lookup key = none)
    (hs : r'.lookup key = some s) : r.count ≤ s.ordinal := by
  by_contra hlt
  have hmem : s.ordinal ∈ r.symbols.map (·.ordinal) := by
    rw [h.dense.mem_iff, List.mem_range]
    omega
  obtain ⟨t, ht, hordinal⟩ := List.mem_map.1 hmem
  have htlookup := h.lookup_of_mem ht
  have hsame : t = s := h'.eq_of_ordinal (mem_symbols_of_lookup (hgrows _ _ htlookup))
    (mem_symbols_of_lookup hs) hordinal
  rw [hsame, h'.key_of_lookup hs, hnew] at htlookup
  cases htlookup

namespace SymbolTable

variable {sorts : OrderedSet SortName} {table : SymbolTable} {r : Registry}
  {keys keys' : List SymbolKey}

/-! ## Interning keys -/

theorem internAll_append : internAll sorts table r (keys ++ keys') =
    internAll sorts (internAll sorts table r keys).1 (internAll sorts table r keys).2 keys' := by
  induction keys generalizing table r with
  | nil => rfl
  | cons key keys ih => exact ih

/-- Some keys have been interned: they and the keys from before are the keys of the registry. -/
structure Interned (r : Registry) (keys : List SymbolKey) (r' : Registry) : Prop where
  kept : r'.Kept
  derived : r'.Derived
  grows : r.Grows r'
  found : ∀ key, (∃ s, r'.lookup key = some s) ↔ key ∈ keys ∨ ∃ s, r.lookup key = some s

theorem exists_lookup_intern (hkept : r.Kept) {key key' : SymbolKey} :
    (∃ s, (r.intern key sorts).2.lookup key' = some s) ↔
      key' = key ∨ ∃ s, r.lookup key' = some s := by
  have hgives := hkept.intern key sorts
  constructor
  · rintro ⟨s, hs⟩
    by_cases hkey : key' = key
    · exact .inl hkey
    · rw [Registry.intern] at hs
      split at hs
      · exact .inr ⟨s, hs⟩
      · have hnext : (r.nextSymbol key sorts).key = key := Symbol.key_ofKey ..
        rw [lookup_push, hnext, if_neg hkey] at hs
        exact .inr ⟨s, hs⟩
  · rintro (rfl | ⟨s, hs⟩)
    · exact ⟨_, hgives.found⟩
    · exact ⟨s, hgives.grows _ _ hs⟩

theorem interned_internAll (hkept : r.Kept) (hderived : r.Derived) :
    Interned r keys (internAll sorts table r keys).2 := by
  induction keys generalizing table r with
  | nil => exact ⟨hkept, hderived, .refl r, fun key => by simp [internAll]⟩
  | cons key keys ih =>
    have hgives := hkept.intern key sorts
    have hrest : Interned (r.intern key sorts).2 keys (internAll sorts
        (table.insert key.label (r.intern key sorts).1) (r.intern key sorts).2 keys).2 :=
      ih hgives.kept (hderived.intern key sorts)
    refine ⟨hrest.kept, hrest.derived, hgives.grows.trans hrest.grows, fun key' => ?_⟩
    rw [internAll, hrest.found, exists_lookup_intern hkept, List.mem_cons]
    tauto

theorem kept_internAll (hkept : r.Kept) : (internAll sorts table r keys).2.Kept ∧
    r.Grows (internAll sorts table r keys).2 := by
  induction keys generalizing table r with
  | nil => exact ⟨hkept, .refl r⟩
  | cons key keys ih =>
    have hgives := hkept.intern key sorts
    have hrest : (internAll sorts (table.insert key.label (r.intern key sorts).1)
          (r.intern key sorts).2 keys).2.Kept ∧ (r.intern key sorts).2.Grows (internAll sorts
          (table.insert key.label (r.intern key sorts).1) (r.intern key sorts).2 keys).2 :=
      ih hgives.kept
    exact ⟨hrest.1, hgives.grows.trans hrest.2⟩

/-- A known key is interned without a change. -/
theorem intern_of_lookup {key : SymbolKey} {s : Symbol} (h : r.lookup key = some s) :
    r.intern key sorts = (s, r) := by
  rw [Registry.intern, h]

/-- Keys that have been interned once give the same table ever after, and no new symbol. -/
theorem internAll_again (hkept : r.Kept) {r' : Registry}
    (hgrows : (internAll sorts table r keys).2.Grows r') :
    internAll sorts table r' keys = ((internAll sorts table r keys).1, r') := by
  induction keys generalizing table r with
  | nil => rfl
  | cons key keys ih =>
    have hgives := hkept.intern key sorts
    have hrest : (r.intern key sorts).2.Grows (internAll sorts
        (table.insert key.label (r.intern key sorts).1) (r.intern key sorts).2 keys).2 :=
      (kept_internAll hgives.kept).2
    have hknown : r'.lookup key = some (r.intern key sorts).1 :=
      hgrows _ _ (hrest _ _ hgives.found)
    rw [internAll, intern_of_lookup hknown]
    exact ih hgives.kept hgrows

/-- A label that is not interned keeps its place in the table. -/
theorem get?_internAll_of_notMem {label : String} (h : label ∉ keys.map SymbolKey.label) :
    (internAll sorts table r keys).1.get? label = table.get? label := by
  induction keys generalizing table r with
  | nil => rfl
  | cons key keys ih =>
    rw [List.map_cons, List.mem_cons, not_or] at h
    rw [internAll, ih h.2, OrderedMap.get?_insert, if_neg h.1]

/-- The label of every key has a place, and so has every label that had one. -/
theorem contains_internAll {label : String}
    (h : table.contains label = true ∨ label ∈ keys.map SymbolKey.label) :
    (internAll sorts table r keys).1.contains label = true := by
  induction keys generalizing table r with
  | nil => exact h.resolve_right List.not_mem_nil
  | cons key keys ih =>
    refine ih ?_
    rw [OrderedMap.contains, OrderedMap.get?_insert]
    split
    · exact .inl rfl
    · rename_i hne
      exact h.imp_right fun hmem => (List.mem_cons.1 hmem).resolve_left hne

/-- A table has a place for every label that the main module sees declared. -/
theorem contains_build {d : Definition} {label : String}
    (h : label ∈ declaredLabels d d.main) (tree : CellTree) (r : Registry) :
    (build d tree r).1.contains label = true := by
  refine contains_internAll (.inr ?_)
  rw [SymbolTable.keys, List.map_append, List.map_map]
  exact List.mem_append_left _ (List.mem_map.2 ⟨label, h, rfl⟩)

/-- Where no label is interned twice, the place of a label has the symbol of its key. -/
theorem get?_internAll (hkept : r.Kept) (hderived : r.Derived)
    (hnodup : (keys.map SymbolKey.label).Nodup) {key : SymbolKey} (hkey : key ∈ keys) :
    (internAll sorts table r keys).1.get? key.label =
      (internAll sorts table r keys).2.lookup key := by
  induction keys generalizing table r with
  | nil => nomatch hkey
  | cons first keys ih =>
    obtain ⟨hfirst, hrest⟩ := List.nodup_cons.1 hnodup
    have hgives := hkept.intern first sorts
    have hderived' := hderived.intern first sorts
    rw [internAll]
    rcases List.mem_cons.1 hkey with rfl | hkey
    · have hinterned : Interned (r.intern key sorts).2 keys (internAll sorts
          (table.insert key.label (r.intern key sorts).1) (r.intern key sorts).2 keys).2 :=
        interned_internAll hgives.kept hderived'
      rw [get?_internAll_of_notMem hfirst, OrderedMap.get?_insert, if_pos rfl]
      exact (hinterned.grows _ _ hgives.found).symm
    · exact ih hgives.kept hderived' hrest hkey

/-! ## Two kinds of keys -/

section

variable (sorts : OrderedSet SortName) {declared cells : List SymbolKey}
  (hdeclared : (declared.map SymbolKey.label).Nodup) (hcells : (cells.map SymbolKey.label).Nodup)

/-- The table and the registry when the keys of declared labels and those of cells have been
interned, in this order. -/
def tabulate (sorts : OrderedSet SortName) (declared cells : List SymbolKey) :
    SymbolTable × Registry :=
  internAll sorts ∅ ∅ (declared ++ cells)

theorem interned_tabulate (declared cells : List SymbolKey) :
    Interned ∅ (declared ++ cells) (tabulate sorts declared cells).2 :=
  interned_internAll kept_empty derived_empty

theorem interned_declared (declared : List SymbolKey) :
    Interned ∅ declared (internAll sorts ∅ ∅ declared).2 :=
  interned_internAll kept_empty derived_empty

theorem interned_cells (declared cells : List SymbolKey) :
    Interned (internAll sorts ∅ ∅ declared).2 cells (tabulate sorts declared cells).2 := by
  have hfirst := interned_declared sorts declared
  rw [tabulate, internAll_append]
  exact interned_internAll hfirst.kept hfirst.derived

/-- The place of the label of a cell has the symbol of the cell. -/
theorem get?_tabulate_of_cell (hcells : (cells.map SymbolKey.label).Nodup) {cell : SymbolKey}
    (hcell : cell ∈ cells) : (tabulate sorts declared cells).1.get? cell.label =
      (tabulate sorts declared cells).2.lookup cell := by
  have hfirst := interned_declared sorts declared
  rw [tabulate, internAll_append]
  exact get?_internAll hfirst.kept hfirst.derived hcells hcell

/-- The place of any other declared label has the symbol it is declared with. -/
theorem get?_tabulate_of_declared (hdeclared : (declared.map SymbolKey.label).Nodup)
    {key : SymbolKey} (hkey : key ∈ declared) (hother : key.label ∉ cells.map SymbolKey.label) :
    (tabulate sorts declared cells).1.get? key.label =
      (tabulate sorts declared cells).2.lookup key := by
  have hfirst := interned_declared sorts declared
  obtain ⟨s, hs⟩ := (hfirst.found key).2 (.inl hkey)
  rw [(interned_cells sorts declared cells).grows _ _ hs, ← hs, tabulate, internAll_append,
    get?_internAll_of_notMem hother]
  exact get?_internAll kept_empty derived_empty hdeclared hkey

include hdeclared hcells

/-- The symbol in the place of a label is the one that the registry has for its key. -/
theorem lookup_of_get?_tabulate {label : String} {s : Symbol}
    (hs : (tabulate sorts declared cells).1.get? label = some s) :
    s.label = label ∧ (tabulate sorts declared cells).2.lookup s.key = some s := by
  have hkept := (interned_tabulate sorts declared cells).kept
  have hfound : ∀ key : SymbolKey, key.label = label →
      (tabulate sorts declared cells).2.lookup key = some s →
      s.label = label ∧ (tabulate sorts declared cells).2.lookup s.key = some s := by
    intro key hlabel hlookup
    have hkey := hkept.key_of_lookup hlookup
    refine ⟨?_, hkey ▸ hlookup⟩
    rw [← hlabel, ← hkey]
    rfl
  by_cases hcell : label ∈ cells.map SymbolKey.label
  · obtain ⟨cell, hmem, rfl⟩ := List.mem_map.1 hcell
    rw [get?_tabulate_of_cell sorts hcells hmem] at hs
    exact hfound cell rfl hs
  · by_cases hkey : label ∈ declared.map SymbolKey.label
    · obtain ⟨key, hmem, rfl⟩ := List.mem_map.1 hkey
      rw [get?_tabulate_of_declared sorts hdeclared hmem hcell] at hs
      exact hfound key rfl hs
    · rw [tabulate, internAll_append, get?_internAll_of_notMem hcell,
        get?_internAll_of_notMem hkey] at hs
      cases hs

theorem mem_values_tabulate {s : Symbol} : s ∈ (tabulate sorts declared cells).1.values ↔
    (tabulate sorts declared cells).1.get? s.label = some s := by
  rw [OrderedMap.mem_values_iff]
  constructor
  · rintro ⟨label, hs⟩
    obtain ⟨rfl, -⟩ := lookup_of_get?_tabulate sorts hdeclared hcells hs
    exact hs
  · exact fun hs => ⟨_, hs⟩

/-- The symbols of a table have distinct labels. -/
theorem nodup_labels_tabulate :
    ((tabulate sorts declared cells).1.values.map Symbol.label).Nodup := by
  have hlabels : (tabulate sorts declared cells).1.values.map Symbol.label =
      OrderedMap.keys (tabulate sorts declared cells).1 := by
    rw [OrderedMap.values, List.map_map, OrderedMap.keys]
    refine List.map_congr_left fun e he => ?_
    exact (lookup_of_get?_tabulate sorts hdeclared hcells (OrderedMap.get?_eq_some_iff.2 he)).1
  rw [hlabels]
  exact OrderedMap.nodup_keys _

theorem mem_symbols_of_mem_values {s : Symbol}
    (hs : s ∈ (tabulate sorts declared cells).1.values) :
    s ∈ (tabulate sorts declared cells).2.symbols := by
  rw [mem_values_tabulate sorts hdeclared hcells] at hs
  exact mem_symbols_of_lookup (lookup_of_get?_tabulate sorts hdeclared hcells hs).2

/-- Where a cell has the label of another key, the symbol of that key is interned first and loses
its place to the symbol of the cell. -/
theorem exists_lost {key cell : SymbolKey} (hkey : key ∈ declared) (hcell : cell ∈ cells)
    (hlabel : key.label = cell.label) (hne : key ≠ cell) :
    ∃ s ∈ (tabulate sorts declared cells).2.symbols, ∃ t ∈ (tabulate sorts declared cells).1.values,
      s ∉ (tabulate sorts declared cells).1.values ∧ s.ordinal < t.ordinal := by
  have hall := interned_tabulate sorts declared cells
  have hfirst := interned_declared sorts declared
  have hgrows := (interned_cells sorts declared cells).grows
  obtain ⟨s, hs⟩ := (hfirst.found key).2 (.inl hkey)
  obtain ⟨t, ht⟩ := (hall.found cell).2 (.inl (List.mem_append_right _ hcell))
  have hnew : (internAll sorts ∅ ∅ declared).2.lookup cell = none := by
    rw [Option.eq_none_iff_forall_ne_some]
    intro u hu
    rcases (hfirst.found cell).1 ⟨u, hu⟩ with hmem | ⟨_, hnone⟩
    · exact hne (List.inj_on_of_nodup_map hdeclared hkey hmem hlabel)
    · cases hnone
  -- The cell is interned behind all declared labels, so its ordinal is greater.
  have hlt : s.ordinal < t.ordinal :=
    Nat.lt_of_lt_of_le (hfirst.kept.ordinal_lt (mem_symbols_of_lookup hs))
      (hfirst.kept.count_le_ordinal hall.kept hgrows hnew ht)
  have hskey : s.key = key := hfirst.kept.key_of_lookup hs
  have htkey : t.key = cell := hall.kept.key_of_lookup ht
  have hplace : (tabulate sorts declared cells).1.get? cell.label = some t := by
    rw [get?_tabulate_of_cell sorts hcells hcell, ht]
  refine ⟨s, mem_symbols_of_lookup (hgrows _ _ hs), t, ?_, fun hmem => ?_, hlt⟩
  · rw [mem_values_tabulate sorts hdeclared hcells]
    rwa [← htkey] at hplace
  · rw [mem_values_tabulate sorts hdeclared hcells] at hmem
    rw [← hlabel, ← hskey] at hplace
    rw [show s.label = s.key.label from rfl, hplace] at hmem
    cases hmem
    exact hne (hskey.symm.trans htkey)

/-- Where no cell has the label of another key, the table has all symbols that were interned. -/
theorem values_perm_symbols
    (hagree : ∀ key ∈ declared, ∀ cell ∈ cells, key.label = cell.label → key = cell) :
    (tabulate sorts declared cells).1.values.Perm (tabulate sorts declared cells).2.symbols := by
  have hall := interned_tabulate sorts declared cells
  have hnodup : (tabulate sorts declared cells).2.symbols.Nodup :=
    .of_map (·.ordinal) (hall.kept.dense.nodup_iff.2 List.nodup_range)
  refine (List.perm_ext_iff_of_nodup (.of_map _ (nodup_labels_tabulate sorts hdeclared hcells))
    hnodup).2 fun s => ⟨mem_symbols_of_mem_values sorts hdeclared hcells, fun hs => ?_⟩
  have hlookup := hall.kept.lookup_of_mem hs
  have hcell : s.key ∈ cells → (tabulate sorts declared cells).1.get? s.key.label = some s := by
    intro hcell
    rw [get?_tabulate_of_cell sorts hcells hcell, hlookup]
  rw [mem_values_tabulate sorts hdeclared hcells]
  show (tabulate sorts declared cells).1.get? s.key.label = some s
  rcases (hall.found s.key).1 ⟨s, hlookup⟩ with hkey | ⟨_, hnone⟩
  · rcases List.mem_append.1 hkey with hkey | hkey
    · by_cases hlabel : s.key.label ∈ cells.map SymbolKey.label
      · obtain ⟨cell, hmem, hlabel⟩ := List.mem_map.1 hlabel
        exact hcell (hagree _ hkey cell hmem hlabel.symm ▸ hmem)
      · rw [get?_tabulate_of_declared sorts hdeclared hkey hlabel, hlookup]
    · exact hcell hkey
  · cases hnone

/-- The ordinals of a table have no gap exactly if no cell has the label of a key other than its
own. -/
theorem perm_range_iff :
    ((tabulate sorts declared cells).1.values.map (·.ordinal)).Perm
        (List.range (tabulate sorts declared cells).1.values.length) ↔
      ∀ key ∈ declared, ∀ cell ∈ cells, key.label = cell.label → key = cell := by
  have hall := interned_tabulate sorts declared cells
  constructor
  · intro hperm key hkey cell hcell hlabel
    by_contra hne
    obtain ⟨s, hs, t, ht, hlost, hlt⟩ := exists_lost sorts hdeclared hcells hkey hcell hlabel hne
    have hbound := List.mem_range.1 (hperm.mem_iff.1 (List.mem_map_of_mem ht))
    -- Without a gap, the lost ordinal is that of some symbol of the table.
    have hordinal : s.ordinal ∈ (tabulate sorts declared cells).1.values.map (·.ordinal) :=
      hperm.mem_iff.2 (List.mem_range.2 (hlt.trans hbound))
    obtain ⟨u, hu, hordinal⟩ := List.mem_map.1 hordinal
    have hsame := hall.kept.eq_of_ordinal
      (mem_symbols_of_mem_values sorts hdeclared hcells hu) hs hordinal
    exact hlost (hsame ▸ hu)
  · intro hagree
    have hsymbols := values_perm_symbols sorts hdeclared hcells hagree
    have hlength : (tabulate sorts declared cells).1.values.length =
        (tabulate sorts declared cells).2.count := by
      rw [hsymbols.length_eq]
      simpa using hall.kept.dense.length_eq
    rw [hlength]
    exact (hsymbols.map (·.ordinal)).trans hall.kept.dense

/-! ## Stored tables -/

variable {records : List SymbolRecord}
  (hrecords : records.Perm (SymbolTable.records (tabulate sorts declared cells).1))

include hrecords

theorem nodup_keys_of_perm : (records.map SymbolRecord.key).Nodup := by
  refine .of_map SymbolKey.label ?_
  have hlabels := nodup_labels_tabulate sorts hdeclared hcells
  rw [List.map_map, ((hrecords.map _).nodup_iff), SymbolTable.records, List.map_map]
  exact hlabels

/-- The stored forms of a table are taken up by an empty registry exactly if no cell has the label
of a key other than its own. -/
theorem exists_canonicalizeAll_iff :
    (∃ symbols, ((∅ : Registry).canonicalizeAll records).1 = .ok symbols) ↔
      ∀ key ∈ declared, ∀ cell ∈ cells, key.label = cell.label → key = cell := by
  have hdistinct := nodup_keys_of_perm sorts hdeclared hcells hrecords
  have hordinals : (records.map (·.ordinal)).Perm
      ((tabulate sorts declared cells).1.values.map (·.ordinal)) := by
    have hperm := hrecords.map (·.ordinal)
    rwa [SymbolTable.records, List.map_map] at hperm
  have hlength : records.length = (tabulate sorts declared cells).1.values.length := by
    rw [hrecords.length_eq, SymbolTable.records, List.length_map]
  rw [← perm_range_iff sorts hdeclared hcells, ← hlength]
  constructor
  · rintro ⟨symbols, hok⟩
    exact hordinals.symm.trans ((canonicalizeAll_eq_ok_iff hdistinct).1 hok).1
  · intro hperm
    exact ⟨_, (canonicalizeAll_eq_ok_iff hdistinct).2 ⟨hordinals.trans hperm, rfl⟩⟩

/-- What is answered then are the symbols of the table. -/
theorem perm_values_of_canonicalizeAll {symbols : List Symbol}
    (hok : ((∅ : Registry).canonicalizeAll records).1 = .ok symbols) :
    symbols.Perm (tabulate sorts declared cells).1.values := by
  have hdistinct := nodup_keys_of_perm sorts hdeclared hcells hrecords
  have hderived := (interned_tabulate sorts declared cells).derived
  obtain ⟨-, rfl⟩ := (canonicalizeAll_eq_ok_iff hdistinct).1 hok
  have hsame : (SymbolTable.records (tabulate sorts declared cells).1).map (·.symbol) =
      (tabulate sorts declared cells).1.values := by
    rw [SymbolTable.records, List.map_map]
    refine (List.map_congr_left fun s hs => ?_).trans (List.map_id _)
    rw [mem_values_tabulate sorts hdeclared hcells] at hs
    exact (hderived _ _ (lookup_of_get?_tabulate sorts hdeclared hcells hs).2).symbol_toRecord
  rw [← hsame]
  exact ((List.mergeSort_perm ..).trans hrecords).map _

end

end SymbolTable

end RewriteSemantics
