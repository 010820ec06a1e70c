/-
# Flags and the history of a registry

The flags of a symbol are derived once, by the call that creates it, from its key and from the sorts
that this call is given. A later call with the same key is answered with the symbol that is there,
whatever sorts it is given. So the flags answered are those of the first call that offered the key,
and they are the ones that the present call would derive exactly if both calls agree on whether the
label is a membership predicate: an `is<S>` that is first asked for where there is no sort `S` stays
an ordinary label where there is one, and the other way round.
-/
import RewriteSemantics.Proofs.Context.Labels
import RewriteSemantics.Proofs.Registry.Restoration

namespace RewriteSemantics

/-! ## Flags -/

/-- Whether a label is `is` followed by the name of one of some sorts. -/
def Label.IsMembership (label : String) (sorts : OrderedSet SortName) : Prop :=
  ∃ sort ∈ sorts, label = "is" ++ sort.name

namespace Symbol

/-- What is derived of a symbol: the sort it is the membership predicate of, whether it is a
function or a pattern, and its name in SMT-LIB. -/
def flags (s : Symbol) : Option SortName × Bool × Bool × Option String :=
  (s.predicateSort, s.isFunction, s.isPattern, s.smtlib)

/-- The ordinal has no part in the flags. -/
theorem flags_ofKey (key : SymbolKey) (ordinal ordinal' : Nat) (sorts : OrderedSet SortName) :
    (ofKey key ordinal sorts).flags = (ofKey key ordinal' sorts).flags := by
  unfold ofKey
  split <;> rfl

theorem isSortPredicate_ofKey (key : SymbolKey) (ordinal : Nat) (sorts : OrderedSet SortName) :
    (ofKey key ordinal sorts).isSortPredicate = true ↔ Label.IsMembership key.label sorts := by
  rw [isSortPredicate, predicateSort_ofKey, Option.isSome_iff_exists]
  constructor
  · rintro ⟨sort, hsort⟩
    obtain ⟨hname, hmem⟩ := predicateSort?_eq_some_iff.1 hsort
    obtain ⟨name, hbehind, rfl⟩ := Option.map_eq_some_iff.1 hname
    exact ⟨⟨name⟩, hmem, Label.behind?_eq_some_iff.1 hbehind⟩
  · rintro ⟨sort, hmem, hlabel⟩
    have hbehind : Label.behind? "is" key.label = some sort.name :=
      Label.behind?_eq_some_iff.2 hlabel
    exact ⟨sort, predicateSort?_eq_some_iff.2 ⟨by rw [hbehind, Option.map_some], hmem⟩⟩

/-- Two symbols of one key have the same flags exactly if both are membership predicates or neither
is. -/
theorem Derived.flags_eq_iff {s t : Symbol} (hs : s.Derived) (ht : t.Derived) (h : s.key = t.key) :
    s.flags = t.flags ↔ s.isSortPredicate = t.isSortPredicate := by
  rw [← hs.predicateSort_eq_iff ht h]
  refine ⟨congrArg Prod.fst, fun hsort => ?_⟩
  calc s.flags = (ofKey s.key s.ordinal (.ofList s.predicateSort.toList)).flags := by
        rw [hs.ofKey_predicateSort]
    _ = (ofKey t.key t.ordinal (.ofList t.predicateSort.toList)).flags := by
        rw [h, hsort, flags_ofKey]
    _ = t.flags := by rw [ht.ofKey_predicateSort]

end Symbol

/-! ## The call that creates a symbol -/

namespace Registry

/-- The keys that a call creates symbols for if they are not known, each with the sorts from which
the flags are derived then. -/
def Call.offers : Call → List (SymbolKey × OrderedSet SortName)
  | .intern key sorts => [(key, sorts)]
  | .internFrom d label => [(keyIn d label, d.allSorts)]
  | .lookup _ => []
  | .canonicalize record => [(record.key, .ofList record.predicateSort.toList)]
  | .canonicalizeAll records =>
    records.map fun record => (record.key, .ofList record.predicateSort.toList)

variable {r : Registry} {key : SymbolKey} {s : Symbol}

/-- A symbol that is known now and was not before has been created under the key. -/
theorem eq_ofKey_of_push {key' : SymbolKey} {sorts : OrderedSet SortName}
    (hnew : r.lookup key = none) (hs : (r.push (r.nextSymbol key' sorts)).lookup key = some s) :
    key = key' ∧ s = .ofKey key r.count sorts := by
  have hkey : (r.nextSymbol key' sorts).key = key' := Symbol.key_ofKey ..
  rw [lookup_push, hkey] at hs
  split at hs
  · rename_i h
    subst h
    cases hs
    exact ⟨rfl, rfl⟩
  · rw [hnew] at hs
    cases hs

theorem eq_ofKey_of_intern {key' : SymbolKey} {sorts : OrderedSet SortName}
    (hnew : r.lookup key = none) (hs : (r.intern key' sorts).2.lookup key = some s) :
    key = key' ∧ ∃ ordinal, s = .ofKey key ordinal sorts := by
  rw [intern] at hs
  split at hs
  · rw [hnew] at hs
    cases hs
  · obtain ⟨hkey, hs⟩ := eq_ofKey_of_push hnew hs
    exact ⟨hkey, _, hs⟩

theorem eq_ofKey_of_adopt {records : List SymbolRecord} (hnew : r.lookup key = none)
    (hs : (r.adopt records).2.lookup key = some s) (hkept : r.Kept) :
    ∃ record ∈ records, key = record.key ∧
      ∃ ordinal, s = .ofKey key ordinal (.ofList record.predicateSort.toList) := by
  induction records generalizing r with
  | nil => exact nomatch hnew.symm.trans hs
  | cons record rest ih =>
    rw [adopt] at hs
    split at hs
    · exact nomatch hnew.symm.trans hs
    · rename_i t r' ht
      cases hthere : r'.lookup key with
      | none =>
        obtain ⟨other, hother, hcreated⟩ := ih hthere hs (hkept.canonicalize ht).kept
        exact ⟨other, List.mem_cons_of_mem _ hother, hcreated⟩
      | some u =>
        -- what has been created now stays until the end
        cases (((hkept.canonicalize ht).kept.adopt rest).2 _ _ hthere).symm.trans hs
        rcases canonicalize_eq_ok.1 ht with ⟨-, -, rfl⟩ | ⟨-, -, rfl, rfl⟩
        · exact nomatch hnew.symm.trans hthere
        · obtain ⟨hkey, hcreated⟩ := eq_ofKey_of_push hnew hthere
          exact ⟨record, List.mem_cons_self, hkey, _, hcreated⟩

/-- A symbol that a call creates has the flags of what the call offers. -/
theorem eq_ofKey_of_perform {call : Call} (hkept : r.Kept) (hnew : r.lookup key = none)
    (hs : (r.perform call).2.lookup key = some s) :
    ∃ sorts, (key, sorts) ∈ call.offers ∧ ∃ ordinal, s = .ofKey key ordinal sorts := by
  cases call with
  | intern key' sorts =>
    obtain ⟨rfl, hcreated⟩ := eq_ofKey_of_intern hnew hs
    exact ⟨sorts, List.mem_singleton_self _, hcreated⟩
  | internFrom d label =>
    obtain ⟨rfl, hcreated⟩ := eq_ofKey_of_intern hnew hs
    exact ⟨d.allSorts, List.mem_singleton_self _, hcreated⟩
  | lookup key' => exact nomatch hnew.symm.trans hs
  | canonicalize record =>
    rw [perform] at hs
    split at hs
    · rename_i t r' ht
      rcases canonicalize_eq_ok.1 ht with ⟨-, -, rfl⟩ | ⟨-, -, rfl, rfl⟩
      · exact nomatch hnew.symm.trans hs
      · obtain ⟨rfl, hcreated⟩ := eq_ofKey_of_push hnew hs
        exact ⟨_, List.mem_singleton_self _, _, hcreated⟩
    · exact nomatch hnew.symm.trans hs
  | canonicalizeAll records =>
    obtain ⟨record, hrecord, rfl, hcreated⟩ := eq_ofKey_of_adopt hnew hs hkept
    exact ⟨_, List.mem_map_of_mem (mem_byOrdinal.1 hrecord), hcreated⟩

/-- A symbol that some calls created was created by one of them, the first that found its key
unknown and offered it. -/
theorem exists_creation {calls : List Call} (hkept : r.Kept) (hnew : r.lookup key = none)
    (hs : (r.run calls).2.lookup key = some s) :
    ∃ before call after, calls = before ++ call :: after ∧
      (r.run before).2.lookup key = none ∧
      ∃ sorts, (key, sorts) ∈ call.offers ∧ ∃ ordinal, s = .ofKey key ordinal sorts := by
  induction calls generalizing r with
  | nil => exact nomatch hnew.symm.trans hs
  | cons call calls ih =>
    have hkept' := (hkept.perform call).1
    cases hthere : (r.perform call).2.lookup key with
    | none =>
      obtain ⟨before, creator, after, rfl, hunknown, hcreated⟩ := ih hkept' hthere hs
      exact ⟨call :: before, creator, after, rfl, hunknown, hcreated⟩
    | some t =>
      cases ((hkept'.run calls).2.1 _ _ hthere).symm.trans hs
      exact ⟨[], call, calls, rfl, hnew, eq_ofKey_of_perform hkept hnew hthere⟩

/-! ## What a call is answered -/

/-- What a registry answers to a call after any others has the flags that an empty registry derives
exactly if a symbol that is there under the key is a membership predicate when the label is one for
the present sorts. Such a symbol was created by the first call that offered the key, and it is a
membership predicate exactly if the label is one for the sorts of that call. -/
theorem flags_intern_run (calls : List Call) (key : SymbolKey) (sorts : OrderedSet SortName) :
    let r := ((∅ : Registry).run calls).2
    let answered := (r.intern key sorts).1
    let fresh := ((∅ : Registry).intern key sorts).1
    (fresh.isSortPredicate = true ↔ Label.IsMembership key.label sorts) ∧
      (answered.flags = fresh.flags ↔ ∀ live, r.lookup key = some live →
        (live.isSortPredicate = true ↔ Label.IsMembership key.label sorts)) ∧
      ∀ live, r.lookup key = some live → answered = live ∧
        ∃ before call after, calls = before ++ call :: after ∧
          ((∅ : Registry).run before).2.lookup key = none ∧
          ∃ sorts', (key, sorts') ∈ call.offers ∧
            (live.isSortPredicate = true ↔ Label.IsMembership key.label sorts') := by
  intro r answered fresh
  have hfresh : fresh = .ofKey key 0 sorts := rfl
  have hmember : fresh.isSortPredicate = true ↔ Label.IsMembership key.label sorts := by
    rw [hfresh, Symbol.isSortPredicate_ofKey]
  refine ⟨hmember, ?_, ?_⟩
  · cases hfound : r.lookup key with
    | none =>
      have hanswered : answered = .ofKey key r.count sorts := by
        simp only [answered, intern, hfound, nextSymbol]
      constructor
      · intro _ live hlive
        cases hlive
      · intro _
        rw [hanswered, hfresh, Symbol.flags_ofKey]
    | some live =>
      have hanswered : answered = live := by simp only [answered, intern, hfound]
      have hkey : live.key = fresh.key := by
        rw [hfresh, Symbol.key_ofKey, (kept_empty.run calls).1.key_of_lookup hfound]
      have hderived : live.Derived := derived_empty.run calls _ _ hfound
      have hfreshDerived : fresh.Derived := Symbol.derived_ofKey key 0 sorts
      rw [hanswered, hderived.flags_eq_iff hfreshDerived hkey, Bool.eq_iff_iff, hmember]
      simp
  · intro live hlive
    refine ⟨by simp only [answered, intern, hlive], ?_⟩
    obtain ⟨before, call, after, hcalls, hunknown, sorts', hoffer, ordinal, rfl⟩ :=
      exists_creation kept_empty rfl hlive
    exact ⟨before, call, after, hcalls, hunknown, sorts', hoffer, Symbol.isSortPredicate_ofKey ..⟩

/-- Asked for `isInt` first where there is no sort `Int`, a registry answers an ordinary label where
there is one, and asked in the other order a membership predicate where there is no such sort. -/
theorem exists_flags_intern_ne :
    ∃ (calls calls' : List Call) (key : SymbolKey) (sorts : OrderedSet SortName),
      Label.IsMembership key.label sorts ∧ ¬ Label.IsMembership key.label ∅ ∧
        (((∅ : Registry).run calls).2.intern key sorts).1.flags ≠
          ((∅ : Registry).intern key sorts).1.flags ∧
        (((∅ : Registry).run calls).2.intern key sorts).1.isSortPredicate = false ∧
        (((∅ : Registry).run calls').2.intern key ∅).1.flags ≠
          ((∅ : Registry).intern key ∅).1.flags ∧
        (((∅ : Registry).run calls').2.intern key ∅).1.isSortPredicate = true := by
  refine ⟨[.intern isIntKey ∅], [.intern isIntKey (.ofList [⟨"Int"⟩])], isIntKey,
    .ofList [⟨"Int"⟩], ⟨⟨"Int"⟩, by decide, rfl⟩, ?_, by decide, by decide, by decide, by decide⟩
  rintro ⟨sort, hsort, -⟩
  cases hsort

end Registry

end RewriteSemantics
