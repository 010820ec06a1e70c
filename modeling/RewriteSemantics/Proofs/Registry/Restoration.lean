/-
# Symbols carried from one registry to another

A symbol is stored without its flags, and the registry that takes it up compares only its key and
its ordinal. The flags follow from the key and from the sort that the symbol is the membership
predicate of, if it is one, and that sort depends on the sorts there were when the symbol was
created. So two registries can hold a label under one key and one ordinal, the one as a membership
predicate and the other as an ordinary label, and each takes up what the other has stored without
complaint. This is the only way in which the symbol answered can differ from the stored one, and it
never happens to a symbol that is new to the registry.
-/
import RewriteSemantics.Proofs.Registry.History

namespace RewriteSemantics

/-! ## What a symbol is determined by -/

namespace Symbol

/-- A symbol whose flags follow from its label and context and from some sorts. -/
def Derived (s : Symbol) : Prop :=
  ∃ sorts, s = ofKey s.key s.ordinal sorts

theorem derived_ofKey (key : SymbolKey) (ordinal : Nat) (sorts : OrderedSet SortName) :
    (ofKey key ordinal sorts).Derived :=
  ⟨sorts, by rw [key_ofKey, ordinal_ofKey]⟩

theorem predicateSort_ofKey (key : SymbolKey) (ordinal : Nat) (sorts : OrderedSet SortName) :
    (ofKey key ordinal sorts).predicateSort = predicateSort? key.label sorts := by
  unfold ofKey
  split
  · rename_i sort hsort
    exact hsort.symm
  · rename_i hsort
    exact hsort.symm

theorem predicateSort_of_eq_ofKey {s : Symbol} {sorts : OrderedSet SortName}
    (hs : s = ofKey s.key s.ordinal sorts) :
    s.predicateSort = predicateSort? s.key.label sorts := by
  rw [hs, predicateSort_ofKey, key_ofKey]

/-- The sorts matter only for the sort that the label is the membership predicate of. -/
theorem ofKey_congr {key : SymbolKey} {sorts sorts' : OrderedSet SortName}
    (h : predicateSort? key.label sorts = predicateSort? key.label sorts') (ordinal : Nat) :
    ofKey key ordinal sorts = ofKey key ordinal sorts' := by
  unfold ofKey
  rw [h]

/-- A label can be the membership predicate of one sort only, the one behind `is`. -/
theorem predicateSort?_eq_some_iff {label : String} {sorts : OrderedSet SortName}
    {sort : SortName} : predicateSort? label sorts = some sort ↔
      (Label.behind? "is" label).map SortName.mk = some sort ∧ sort ∈ sorts := by
  rw [predicateSort?, Option.filter_eq_some_iff, decide_eq_true_iff]

/-- A symbol is determined by its stored form. -/
theorem Derived.eq_of_toRecord {s t : Symbol} (hs : s.Derived) (ht : t.Derived)
    (h : s.toRecord = t.toRecord) : s = t := by
  obtain ⟨hlabel, hordinal, hsignatures, hattributes, hsort⟩ := SymbolRecord.mk.inj h
  have hkey : s.key = t.key := by rw [key, key, hlabel, hsignatures, hattributes]
  obtain ⟨sorts, hs⟩ := hs
  obtain ⟨sorts', ht⟩ := ht
  have hsame : predicateSort? s.key.label sorts = predicateSort? s.key.label sorts' := by
    rw [← predicateSort_of_eq_ofKey hs, hsort, predicateSort_of_eq_ofKey ht, hkey]
  rw [hs, ht, ofKey_congr hsame, hkey, hordinal]

/-- Two symbols of one label that are both membership predicates are so of the same sort. -/
theorem Derived.predicateSort_eq_iff {s t : Symbol} (hs : s.Derived) (ht : t.Derived)
    (h : s.key = t.key) :
    s.predicateSort = t.predicateSort ↔ s.isSortPredicate = t.isSortPredicate := by
  refine ⟨fun hsort => by rw [isSortPredicate, isSortPredicate, hsort], fun hflag => ?_⟩
  obtain ⟨sorts, hs⟩ := hs
  obtain ⟨sorts', ht⟩ := ht
  have hsortS := predicateSort_of_eq_ofKey hs
  have hsortT := predicateSort_of_eq_ofKey ht
  rw [h] at hsortS
  rw [isSortPredicate, isSortPredicate, hsortS, hsortT] at hflag
  rw [hsortS, hsortT]
  -- Both are found among the sorts under the one name behind `is`, or neither is.
  cases hA : predicateSort? t.key.label sorts with
  | none =>
    rw [hA] at hflag
    exact (Option.isNone_iff_eq_none.1 (by simpa using hflag.symm)).symm
  | some sort =>
    rw [hA] at hflag
    obtain ⟨sort', hB⟩ := Option.isSome_iff_exists.1 hflag.symm
    have hbehind := (predicateSort?_eq_some_iff.1 hA).1
    rw [(predicateSort?_eq_some_iff.1 hB).1] at hbehind
    rw [hB, hbehind]

/-- The stored form of a symbol is enough to create the symbol again. -/
theorem Derived.ofKey_predicateSort {t : Symbol} (ht : t.Derived) :
    ofKey t.key t.ordinal (.ofList t.predicateSort.toList) = t := by
  obtain ⟨sorts, ht⟩ := ht
  have hsort := predicateSort_of_eq_ofKey ht
  have hsame : predicateSort? t.key.label (.ofList t.predicateSort.toList) =
      predicateSort? t.key.label sorts := by
    rw [← hsort]
    cases hkind : t.predicateSort with
    | none => simp [predicateSort?]
    | some sort =>
      rw [hkind] at hsort
      exact predicateSort?_eq_some_iff.2
        ⟨(predicateSort?_eq_some_iff.1 hsort.symm).1, by simp⟩
  rw [ofKey_congr hsame, ← ht]

end Symbol

/-! ## Registries of derived symbols -/

namespace Registry

/-- A registry all of whose symbols are derived. -/
def Derived (r : Registry) : Prop :=
  ∀ key s, r.lookup key = some s → s.Derived

theorem derived_empty : Derived ∅ :=
  fun _ _ h => nomatch h

theorem Derived.push {r : Registry} (h : r.Derived) {s : Symbol} (hs : s.Derived) :
    (r.push s).Derived := by
  intro key t ht
  rw [lookup_push] at ht
  split at ht
  · cases ht
    exact hs
  · exact h key t ht

theorem Derived.pushNext {r : Registry} (h : r.Derived) (key : SymbolKey)
    (sorts : OrderedSet SortName) : (r.push (r.nextSymbol key sorts)).Derived :=
  h.push (Symbol.derived_ofKey ..)

theorem Derived.intern {r : Registry} (h : r.Derived) (key : SymbolKey)
    (sorts : OrderedSet SortName) : (r.intern key sorts).2.Derived := by
  rw [Registry.intern]
  split
  · exact h
  · exact h.pushNext key sorts

/-- What accepting a stored symbol means: either the key and the ordinal are known, or the symbol is
created with the next ordinal. -/
theorem canonicalize_eq_ok {r r' : Registry} {record : SymbolRecord} {s : Symbol} :
    r.canonicalize record = .ok (s, r') ↔
      (r.lookup record.key = some s ∧ s.ordinal = record.ordinal ∧ r' = r) ∨
      (r.lookup record.key = none ∧ record.ordinal = r.count ∧
        s = r.nextSymbol record.key (.ofList record.predicateSort.toList) ∧ r' = r.push s) := by
  rw [canonicalize]
  cases hfound : r.lookup record.key with
  | some t =>
    by_cases hordinal : t.ordinal = record.ordinal
    · simp only [hordinal, if_true]
      constructor
      · intro h
        cases h
        exact .inl ⟨rfl, hordinal, rfl⟩
      · rintro (⟨ht, -, rfl⟩ | ⟨ht, -⟩)
        · cases ht
          rfl
        · cases ht
    · simp only [hordinal, if_false, reduceCtorEq, false_iff]
      rintro (⟨ht, hs, -⟩ | ⟨ht, -⟩)
      · cases ht
        exact hordinal hs
      · cases ht
  | none =>
    by_cases hordinal : record.ordinal = r.count
    · simp only [hordinal, if_true]
      constructor
      · intro h
        cases h
        exact .inr ⟨trivial, trivial, rfl, rfl⟩
      · rintro (⟨ht, -⟩ | ⟨-, -, rfl, rfl⟩)
        · cases ht
        · rfl
    · simp [hordinal]

theorem Derived.canonicalize {r r' : Registry} (h : r.Derived) {record : SymbolRecord} {s : Symbol}
    (hs : r.canonicalize record = .ok (s, r')) : r'.Derived := by
  rcases canonicalize_eq_ok.1 hs with ⟨-, -, rfl⟩ | ⟨-, -, rfl, rfl⟩
  · exact h
  · exact h.pushNext _ _

theorem Derived.adopt {r : Registry} (h : r.Derived) (records : List SymbolRecord) :
    (r.adopt records).2.Derived := by
  induction records generalizing r with
  | nil => exact h
  | cons record rest ih =>
    rw [Registry.adopt]
    split
    · exact h
    · rename_i s r' hs
      exact ih (h.canonicalize hs)

/-- A call creates derived symbols only. -/
theorem Derived.perform {r : Registry} (h : r.Derived) (call : Call) :
    (r.perform call).2.Derived := by
  cases call with
  | intern key sorts => exact h.intern key sorts
  | internFrom d label => exact h.intern (keyIn d label) d.allSorts
  | lookup key => exact h
  | canonicalize record =>
    rw [Registry.perform]
    split
    · rename_i s r' hs
      exact h.canonicalize hs
    · exact h
  | canonicalizeAll records => exact h.adopt (byOrdinal records)

/-- After any calls, refused ones among them, all symbols are derived. -/
theorem Derived.run {r : Registry} (h : r.Derived) (calls : List Call) :
    (r.run calls).2.Derived := by
  induction calls generalizing r with
  | nil => exact h
  | cons call calls ih => exact ih (h.perform call)

/-- Every symbol of a registry is found under its key. -/
theorem Kept.lookup_of_mem {r : Registry} (h : r.Kept) {s : Symbol} (hs : s ∈ r.symbols) :
    r.lookup s.key = some s := by
  obtain ⟨e, he, hs⟩ := List.mem_flatMap.1 hs
  obtain ⟨label, hlabel⟩ := OrderedMap.mem_values_iff.1 hs
  have htable := Buckets.lookup_of_mem h.distinct he
  obtain ⟨hbucket, rfl⟩ := h.placed _ _ htable _ _ hlabel
  rw [lookup, Buckets.find?, hbucket, htable]
  exact hlabel

/-! ## Taking up a stored symbol -/

/-- A symbol that is new to a registry is taken up as it was. -/
theorem nextSymbol_of_derived {r : Registry} {t : Symbol} (ht : t.Derived)
    (hordinal : t.ordinal = r.count) :
    r.nextSymbol t.toRecord.key (.ofList t.toRecord.predicateSort.toList) = t := by
  rw [nextSymbol, ← hordinal]
  exact ht.ofKey_predicateSort

/-- When a registry accepts what another has stored of a symbol, the symbol it answers has the
stored label, context and ordinal. The sort of a membership predicate agrees as well exactly if a
symbol already known under the key is a membership predicate when the stored one is; then the two
are one symbol, flags included. -/
theorem toRecord_of_canonicalize (calls calls' : List Call) {s t : Symbol} {r' : Registry}
    (ht : t ∈ ((∅ : Registry).run calls').2.symbols)
    (hs : ((∅ : Registry).run calls).2.canonicalize t.toRecord = .ok (s, r')) :
    (s.key = t.key ∧ s.ordinal = t.ordinal) ∧
      (s.toRecord = t.toRecord ↔ ∀ live, ((∅ : Registry).run calls).2.lookup t.key = some live →
        live.isSortPredicate = t.isSortPredicate) ∧
      (s.toRecord = t.toRecord → s = t) := by
  have hderived := derived_empty.run calls
  have hkept := (kept_empty.run calls).1
  -- Of the calls only what they leave behind matters.
  generalize ((∅ : Registry).run calls).2 = r at hs hderived hkept ⊢
  have htd : t.Derived :=
    derived_empty.run calls' _ _ ((kept_empty.run calls').1.lookup_of_mem ht)
  rcases canonicalize_eq_ok.1 hs with ⟨hfound, hordinal, -⟩ | ⟨hnew, hordinal, hs, -⟩
  · have hfound : r.lookup t.key = some s := hfound
    have hkey := hkept.key_of_lookup hfound
    have hsd := hderived _ _ hfound
    refine ⟨⟨hkey, hordinal⟩, ⟨fun hrecord live hlive => ?_, fun hlive => ?_⟩,
      hsd.eq_of_toRecord htd⟩
    · rw [hfound] at hlive
      cases hlive
      exact (hsd.predicateSort_eq_iff htd hkey).1 (congrArg SymbolRecord.predicateSort hrecord)
    · obtain ⟨hlabel, hsignatures, hattributes⟩ := SymbolKey.mk.inj hkey
      have hordinal : s.ordinal = t.ordinal := hordinal
      have hsort := (hsd.predicateSort_eq_iff htd hkey).2 (hlive s hfound)
      rw [Symbol.toRecord, Symbol.toRecord, hlabel, hordinal, hsignatures, hattributes, hsort]
  · rw [nextSymbol_of_derived htd hordinal] at hs
    subst hs
    refine ⟨⟨rfl, rfl⟩, ⟨fun _ live hlive => ?_, fun _ => rfl⟩, fun _ => rfl⟩
    exact nomatch hnew.symm.trans hlive

/-! ## Two registries with different sorts -/

/-- A label without context that has the form of a membership predicate. -/
def isIntKey : SymbolKey :=
  ⟨"isInt", ∅, ∅⟩

/-- The label as it is created where there is a sort `Int`. -/
def isInt : Symbol :=
  .ofKey isIntKey 0 (.ofList [⟨"Int"⟩])

/-- A registry that has created this symbol takes it up from another that has. -/
theorem toRecord_of_canonicalize_isInt :
    ∃ s r', ((∅ : Registry).run [.intern isIntKey (.ofList [⟨"Int"⟩])]).2.canonicalize
        isInt.toRecord = .ok (s, r') ∧ s.toRecord = isInt.toRecord ∧ s = isInt := by
  obtain ⟨-, hiff, hsame⟩ := toRecord_of_canonicalize [.intern isIntKey (.ofList [⟨"Int"⟩])]
    [.intern isIntKey (.ofList [⟨"Int"⟩])] (s := isInt) (t := isInt) (by decide) rfl
  have hrecord : isInt.toRecord = isInt.toRecord := hiff.2 fun live hlive => by
    cases hlive
    rfl
  exact ⟨isInt, _, rfl, hrecord, hsame hrecord⟩

/-- The registry that has seen this label where there was no such sort accepts the membership
predicate of another registry and answers an ordinary label. -/
theorem exists_canonicalize_toRecord_ne :
    ∃ (calls calls' : List Call) (s t : Symbol) (r' : Registry),
      t ∈ ((∅ : Registry).run calls').2.symbols ∧
        ((∅ : Registry).run calls).2.canonicalize t.toRecord = .ok (s, r') ∧
        s.toRecord ≠ t.toRecord ∧ s.predicateSort = none ∧ t.predicateSort = some ⟨"Int"⟩ :=
  ⟨[.intern isIntKey ∅], [.intern isIntKey (.ofList [⟨"Int"⟩])], .ofKey isIntKey 0 ∅, isInt, _,
    by decide, rfl, by decide, by decide, by decide⟩

end Registry

end RewriteSemantics
