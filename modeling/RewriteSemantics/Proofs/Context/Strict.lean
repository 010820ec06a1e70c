/-
# The contexts of strict productions

The arguments of a context and its side condition are built apart from each other, both from the
positions before its own. The hole comes first in the arguments, so the context of a position always
has its one hole there. The side condition demands a result for each earlier position, and the names
it tests are names of arguments, unless the position itself is among the earlier ones: then the hole
stands where the name would be, and the name is unbound. So the check of unbound variables has
nothing against the contexts exactly if sequential strictness lists no position twice.
-/
import RewriteSemantics.Context.Strict
import RewriteSemantics.Proofs.Context.Freezer
import RewriteSemantics.Proofs.FreshNames
import RewriteSemantics.Proofs.Rule.CastSorts
import RewriteSemantics.Proofs.Validation.Mentions

namespace RewriteSemantics.Strict

open FreshNames (candidate candidate_inj)
open RhsVariables (check contextMessage mem_unboundAmong unboundInContext variablesOf violation)

variable {label : String} {arity position : Nat} {earlier : List Nat}

theorem isPosition_iff {n : Nat} : isPosition arity n = true ↔ 1 ≤ n ∧ n ≤ arity := by
  simp [isPosition, Nat.one_le_iff_ne_zero]

theorem mem_variablesOf {o : Option Term} {x : String} :
    x ∈ variablesOf o ↔ ∃ t ∈ o, x ∈ t.variableNames := by
  cases o <;> simp [variablesOf]

/-! ## Arguments -/

/-- The name of the variable for the argument at an earlier position. -/
def resultName (position : Nat) : String :=
  candidate "K" position

theorem resultName_inj {i j : Nat} : resultName i = resultName j ↔ i = j :=
  ⟨candidate_inj, congrArg resultName⟩

theorem resultName_ne {name : String} (h : name.toList.head? ≠ some 'K') :
    resultName position ≠ name := by
  rintro rfl
  refine h ?_
  rw [resultName, candidate, String.toList_append]
  rfl

theorem isExempt_resultName : RhsVariables.isExempt (resultName position) = false := by
  rw [RhsVariables.isExempt, Variable.isExistentialName, Variable.isFreshName,
    Variable.nameStartsWith, Variable.nameStartsWith, resultName, candidate, String.toList_append]
  rfl

/-- The name of the variable that is the argument at a position of a context. -/
def argumentName (position : Nat) (earlier : List Nat) (j : Nat) : String :=
  if j = position then Variable.hole
  else if j ∈ earlier then resultName j
  else Variable.anonymous

theorem arguments_eq : arguments arity position earlier =
    ((List.range' 1 arity).map (argumentName position earlier)).map .ofName := by
  rw [arguments, List.map_map]
  apply List.map_congr_left
  intro j _
  rw [Function.comp_apply, argumentName]
  split
  · rfl
  · split
    · rfl
    · rfl

/-- Only the argument at the position of the context is the hole. -/
theorem argumentName_eq_hole_iff {j : Nat} :
    argumentName position earlier j = Variable.hole ↔ j = position := by
  rw [argumentName]
  split
  · rename_i h
    exact iff_of_true rfl h
  · rename_i h
    refine iff_of_false ?_ h
    split
    · exact resultName_ne (by decide)
    · decide

theorem argumentName_eq_resultName_iff {i j : Nat} :
    argumentName position earlier j = resultName i ↔ j ≠ position ∧ j ∈ earlier ∧ j = i := by
  rw [argumentName]
  split
  · rename_i h
    exact iff_of_false (resultName_ne (by decide)).symm fun hj => hj.1 h
  · rename_i h
    split
    · rename_i hearlier
      rw [resultName_inj]
      exact ⟨fun hj => ⟨h, hearlier, hj⟩, fun hj => hj.2.2⟩
    · rename_i hearlier
      exact iff_of_false (resultName_ne (by decide)).symm fun hj => hearlier hj.2.1

theorem occurrences_contextAt : (contextAt label arity position earlier).body.occurrences =
    (List.range' 1 arity).map fun j => ⟨argumentName position earlier j, none⟩ := by
  rw [contextAt, Term.occurrences_app, arguments_eq, List.map_map, List.flatMap_map,
    List.map_eq_flatMap]
  rfl

/-- The context of a position has one hole. -/
theorem holeCount_contextAt (h : isPosition arity position = true) :
    Freezer.holeCount (contextAt label arity position earlier).body = 1 := by
  have hposition : position ∈ List.range' 1 arity := by
    rw [List.mem_range'_1]
    have := isPosition_iff.1 h
    omega
  calc Freezer.holeCount (contextAt label arity position earlier).body
      = (List.range' 1 arity).countP (argumentName position earlier · = Variable.hole) := by
        rw [Freezer.holeCount, occurrences_contextAt, List.countP_map]
        rfl
    _ = (List.range' 1 arity).count position := by
        apply List.countP_congr
        intro j _
        simp [argumentName_eq_hole_iff]
    _ = 1 := List.count_eq_one_of_mem List.nodup_range' hposition

theorem mem_variableNames_contextAt {x : String} :
    x ∈ (contextAt label arity position earlier).body.variableNames ↔
      ∃ j, isPosition arity j = true ∧ argumentName position earlier j = x := by
  rw [Term.mem_variableNames, occurrences_contextAt]
  simp [isPosition_iff, Nat.lt_one_add_iff]

/-! ## Side conditions -/

/-- The side condition tests the names for the earlier positions. -/
theorem mem_variablesOf_resultCondition {x : String} :
    x ∈ variablesOf (resultCondition earlier) ↔ ∃ j ∈ earlier, resultName j = x := by
  suffices hfold : ∀ condition : Option Term, x ∈ variablesOf (earlier.foldl (fun condition j =>
      some (.andBool condition (.app resultPredicate [resultVariable j]))) condition) ↔
        x ∈ variablesOf condition ∨ ∃ j ∈ earlier, resultName j = x by
    rw [resultCondition, hfold]
    exact or_iff_right List.not_mem_nil
  induction earlier with
  | nil => simp
  | cons j earlier ih =>
    intro condition
    have htest : x ∈ (Term.app resultPredicate [resultVariable j]).variableNames ↔
        resultName j = x := by
      simp [resultVariable, Term.ofName, resultName, candidate]
    rw [List.foldl_cons, ih, List.exists_mem_cons_iff, ← or_assoc, ← htest, mem_variablesOf,
      mem_variablesOf, ← Term.mem_variableNames_andBool]
    simp

/-- The name for an earlier position is one of the body unless the hole stands there. -/
theorem resultName_mem_contextAt_iff {n : Nat} (hn : n ∈ earlier)
    (hposition : isPosition arity n = true) :
    resultName n ∈ (contextAt label arity position earlier).body.variableNames ↔ n ≠ position := by
  rw [mem_variableNames_contextAt]
  constructor
  · rintro ⟨j, -, hj⟩
    obtain ⟨hne, -, rfl⟩ := argumentName_eq_resultName_iff.1 hj
    exact hne
  · exact fun hne => ⟨n, hposition, argumentName_eq_resultName_iff.2 ⟨hne, hn, rfl⟩⟩

/-- The side condition mentions variables of the body only, unless it tests the position itself. -/
theorem requires_contextAt_iff (h : ∀ n ∈ earlier, isPosition arity n = true) :
    (∀ t ∈ (contextAt label arity position earlier).requires, ∀ x ∈ t.variableNames,
      x ∈ (contextAt label arity position earlier).body.variableNames) ↔ position ∉ earlier := by
  have htests : ∀ {n}, (∃ t ∈ resultCondition earlier, resultName n ∈ t.variableNames) ↔
      n ∈ earlier := by
    intro n
    rw [← mem_variablesOf, mem_variablesOf_resultCondition]
    simp [resultName_inj]
  constructor
  · intro hbound hearlier
    obtain ⟨t, ht, hx⟩ := htests.2 hearlier
    exact (resultName_mem_contextAt_iff hearlier (h _ hearlier)).1 (hbound t ht _ hx) rfl
  · intro hfree t ht x hx
    obtain ⟨n, hn, rfl⟩ := mem_variablesOf_resultCondition.1 (mem_variablesOf.2 ⟨t, ht, hx⟩)
    apply (resultName_mem_contextAt_iff hn (h n hn)).2
    rintro rfl
    exact hfree hn

/-- At most the name for the position itself is unbound, and it is if the position is among the
earlier ones. -/
theorem mem_unboundInContext_contextAt (h : ∀ n ∈ earlier, isPosition arity n = true) {x : String} :
    x ∈ unboundInContext (contextAt label arity position earlier) ↔
      position ∈ earlier ∧ resultName position = x := by
  rw [unboundInContext, mem_unboundAmong]
  constructor
  · rintro ⟨hused, -, hfree⟩
    obtain ⟨n, hn, rfl⟩ := mem_variablesOf_resultCondition.1 hused
    rw [resultName_mem_contextAt_iff hn (h n hn), not_ne_iff] at hfree
    subst hfree
    exact ⟨hn, rfl⟩
  · rintro ⟨hearlier, rfl⟩
    refine ⟨mem_variablesOf_resultCondition.2 ⟨position, hearlier, rfl⟩, isExempt_resultName, ?_⟩
    rw [resultName_mem_contextAt_iff hearlier (h _ hearlier)]
    intro hne
    exact hne rfl

/-- The check names the position itself if it is among the earlier ones, and nothing else. -/
theorem check_contextAt (h : ∀ j ∈ earlier, isPosition arity j = true) (m : Module) :
    check m (.context (contextAt label arity position earlier)) = if position ∈ earlier then
      [violation m ∅ (contextMessage (resultName position))] else [] := by
  have hmem : ∀ x, x ∈ (unboundInContext (contextAt label arity position earlier)).toList ↔
      position ∈ earlier ∧ resultName position = x := fun _ => mem_unboundInContext_contextAt h
  split
  · rename_i hearlier
    have hnames : (unboundInContext (contextAt label arity position earlier)).toList =
        [resultName position] := by
      apply List.perm_singleton.1
      apply (List.perm_ext_iff_of_nodup (nodup_of_ascends (OrderedSet.ascending _))
        (List.nodup_singleton _)).2
      intro x
      rw [hmem, List.mem_singleton, eq_comm]
      exact and_iff_right hearlier
    rw [check, hnames]
    rfl
  · rename_i hearlier
    rw [check, List.map_eq_nil_iff, List.eq_nil_iff_forall_not_mem]
    intro x hx
    exact hearlier ((hmem x).1 hx).1

/-! ## Lists of positions -/

variable {sequential : Bool} {positions : List Nat}

theorem getElem?_contextsFrom (i : Nat) :
    (contextsFrom label arity sequential earlier positions)[i]? = positions[i]?.map fun position =>
      contextAt label arity position (if sequential then earlier ++ positions.take i else []) := by
  induction positions generalizing earlier i with
  | nil => rfl
  | cons position others ih =>
    cases i with
    | zero => simp [contextsFrom]
    | succ i => simp [contextsFrom, ih]

/-- Contexts stand in the order of their positions. -/
theorem getElem?_contexts (i : Nat) :
    (contexts label arity ⟨positions, sequential⟩)[i]? = positions[i]?.map fun position =>
      contextAt label arity position (if sequential then positions.take i else []) :=
  getElem?_contextsFrom i

theorem length_contexts :
    (contexts label arity ⟨positions, sequential⟩).length = positions.length := by
  have hlength : ∀ earlier, (contextsFrom label arity sequential earlier positions).length =
      positions.length := by
    induction positions with
    | nil =>
      intro earlier
      rfl
    | cons position others ih =>
      intro earlier
      rw [contextsFrom, List.length_cons, ih, List.length_cons]
  exact hlength []

/-- The check has nothing against contexts unless positions that have to be results come again. -/
theorem check_contextsFrom_eq_nil_iff (hearlier : ∀ n ∈ earlier, isPosition arity n = true)
    (hpositions : ∀ n ∈ positions, isPosition arity n = true) (m : Module) :
    (∀ c ∈ contextsFrom label arity sequential earlier positions, check m (.context c) = []) ↔
      (sequential = true → positions.Nodup ∧ ∀ n ∈ positions, n ∉ earlier) := by
  induction positions generalizing earlier with
  | nil => simp [contextsFrom]
  | cons position others ih =>
    obtain ⟨hposition, hothers⟩ := List.forall_mem_cons.1 hpositions
    have hnext : ∀ n ∈ earlier ++ [position], isPosition arity n = true :=
      List.forall_mem_append.2 ⟨hearlier, List.forall_mem_singleton.2 hposition⟩
    rw [contextsFrom, List.forall_mem_cons, ih hnext hothers]
    cases sequential with
    | false => simp [check_contextAt]
    | true =>
      have hhead : check m (.context (contextAt label arity position earlier)) = [] ↔
          position ∉ earlier := by
        rw [check_contextAt hearlier]
        simp
      -- The positions behind are compared with this one as well.
      have hbehind : (∀ n ∈ others, n ∉ earlier ++ [position]) ↔
          (∀ n ∈ others, n ∉ earlier) ∧ position ∉ others := by
        simp only [List.mem_append, List.mem_singleton, not_or, forall_and]
        exact and_congr_right' ⟨fun h hn => h _ hn rfl, fun h n hn heq => h (heq ▸ hn)⟩
      rw [if_pos rfl, hhead, hbehind, List.nodup_cons, List.forall_mem_cons]
      tauto

theorem check_contexts_eq_nil_iff (h : ∀ n ∈ positions, isPosition arity n = true) (m : Module) :
    (∀ c ∈ contexts label arity ⟨positions, sequential⟩, check m (.context c) = []) ↔
      (sequential = true → positions.Nodup) := by
  have hnone : ∀ n ∈ ([] : List Nat), isPosition arity n = true := List.forall_mem_nil _
  rw [contexts, check_contextsFrom_eq_nil_iff hnone h]
  simp

/-! ## Strict productions -/

variable {p : Production} {image : List Sentence} {key : String}

/-- The contexts of a production come from the positions that its attribute lists, all of which are
positions of parameters. -/
theorem ofProduction_eq_ok (hkey : key? p.attributes = some (key, sequential))
    {found : Option (String × Strictness)} : ofProduction p = .ok found ↔ ∃ label listed,
      p.label = some label ∧ p.attributes.positions? key = .ok listed ∧
      (∀ n ∈ Strict.positions listed p.arity, isPosition p.arity n = true) ∧
      found = some (label, ⟨Strict.positions listed p.arity, sequential⟩) := by
  rw [ofProduction, hkey]
  dsimp only
  cases p.label with
  | none => simp
  | some label =>
    simp only [Except.bind_eq_ok, Except.mapError_eq_ok]
    constructor
    · rintro ⟨listed, hlisted, h⟩
      split at h
      · cases h
      · rename_i hnone
        cases h
        exact ⟨label, listed, rfl, hlisted, by simpa using hnone, rfl⟩
    · rintro ⟨_, listed, ⟨⟩, hlisted, hpositions, rfl⟩
      refine ⟨listed, hlisted, ?_⟩
      rw [List.find?_eq_none.2 (by simpa using hpositions)]

/-- The context of a position, given the positions in front of it that have to be results. -/
structure Focuses (label : String) (arity position : Nat) (earlier : List Nat) (c : Context) :
    Prop where
  /-- The hole is the argument at the position, and no other one. -/
  body : ∃ names : List String, c.body = .app label (names.map .ofName) ∧ names.length = arity ∧
    ∀ j name, names[j]? = some name → (name = Variable.hole ↔ j + 1 = position)
  /-- The context can be resolved. -/
  resolves : ∀ index, ∃ ss, Freezer.sentences c index = .ok ss
  /-- The side condition mentions arguments only, unless it demands a result at the hole. -/
  requires : (∀ t ∈ c.requires, ∀ x ∈ t.variableNames, x ∈ c.body.variableNames) ↔
    position ∉ earlier
  check : ∀ m, check m (.context c) =
    if position ∈ earlier then [violation m ∅ (contextMessage ("K" ++ toString position))] else []

theorem focuses_contextAt (hposition : isPosition arity position = true)
    (hearlier : ∀ n ∈ earlier, isPosition arity n = true) :
    Focuses label arity position earlier (contextAt label arity position earlier) where
  body := by
    refine ⟨_, congrArg (Term.app label) arguments_eq, ?_, ?_⟩
    · rw [List.length_map, List.length_range']
    · intro j name hname
      rw [List.getElem?_map] at hname
      obtain ⟨n, hn, rfl⟩ := Option.map_eq_some_iff.1 hname
      obtain ⟨hlt, rfl⟩ := List.getElem?_eq_some_iff.1 hn
      rw [argumentName_eq_hole_iff, List.getElem_range', Nat.one_mul, Nat.add_comm]
  resolves := by
    intro index
    rw [Freezer.sentences, if_pos (holeCount_contextAt hposition)]
    exact ⟨_, rfl⟩
  requires := requires_contextAt_iff hearlier
  check := check_contextAt hearlier

/-- A production that is accepted as strict has a context for each position, in their order, and
the check of unbound variables has nothing against them exactly if no position comes again under
sequential strictness. -/
theorem focuses_resolveSentence (hkey : key? p.attributes = some (key, sequential))
    (h : resolveSentence (.production p) = .ok image) :
    ∃ (label : String) (listed : Option (List Nat)) (contexts : List Context),
      p.label = some label ∧ p.attributes.positions? key = .ok listed ∧
      image = .production p :: contexts.map .context ∧
      contexts.length = (Strict.positions listed p.arity).length ∧
      (∀ i position c, (Strict.positions listed p.arity)[i]? = some position →
        contexts[i]? = some c → Focuses label p.arity position
          (if sequential then (Strict.positions listed p.arity).take i else []) c) ∧
      ∀ m, (∀ s ∈ image, check m s = []) ↔
        (sequential = true → (Strict.positions listed p.arity).Nodup) := by
  obtain ⟨found, hfound, himage⟩ := Except.bind_eq_ok.1 h
  obtain ⟨label, listed, hlabel, hlisted, hpositions, rfl⟩ := (ofProduction_eq_ok hkey).1 hfound
  cases himage
  refine ⟨label, listed, _, hlabel, hlisted, rfl, length_contexts, ?_, ?_⟩
  · intro i position c hi hc
    rw [getElem?_contexts, hi, Option.map_some] at hc
    cases hc
    apply focuses_contextAt (hpositions position (List.mem_of_getElem? hi))
    intro n hn
    split at hn
    · exact hpositions n (List.mem_of_mem_take hn)
    · cases hn
  · intro m
    rw [List.forall_mem_cons, List.forall_mem_map, check_contexts_eq_nil_iff hpositions]
    exact and_iff_right rfl

/-! ### Two parameters -/

/-- A production with two parameters that is sequentially strict at some positions. -/
def pairProduction (listed : List Nat) : Production :=
  ⟨⟨"E"⟩, some "f", [⟨"E"⟩, ⟨"E"⟩],
    (∅ : Attributes).insert Attributes.seqstrict (.positions listed)⟩

/-- The arguments are evaluated from right to left. -/
theorem focuses_pairProduction : ∃ contexts : List Context,
    resolveSentence (.production (pairProduction [2, 1])) =
      .ok (.production (pairProduction [2, 1]) :: contexts.map .context) ∧
    ∀ i position c, [2, 1][i]? = some position → contexts[i]? = some c →
      Focuses "f" 2 position ([2, 1].take i) c := by
  have hkey : key? (pairProduction [2, 1]).attributes = some (Attributes.seqstrict, true) := by
    decide
  have himage : resolveSentence (.production (pairProduction [2, 1])) =
      .ok [.production (pairProduction [2, 1]), .context (contextAt "f" 2 2 []),
        .context (contextAt "f" 2 1 [2])] := by cbv
  obtain ⟨label, listed, contexts, hlabel, hlisted, hcontexts, -, hfocuses, -⟩ :=
    focuses_resolveSentence hkey himage
  cases hlabel
  cases hlisted
  exact ⟨contexts, himage.trans (congrArg Except.ok hcontexts), hfocuses⟩

/-- If a position is listed twice, a result is demanded that no argument of the context stands
for. -/
theorem exists_unbound_result : ∃ image c m,
    resolveSentence (.production (pairProduction [1, 1])) = .ok image ∧ .context c ∈ image ∧
      c.requires = some (.app resultPredicate [.ofName "K1"]) ∧
      "K1" ∉ c.body.variableNames ∧ check m (.context c) ≠ [] := by
  have himage : resolveSentence (.production (pairProduction [1, 1])) =
      .ok [.production (pairProduction [1, 1]), .context (contextAt "f" 2 1 []),
        .context (contextAt "f" 2 1 [1])] := by cbv
  have hcheck : check (.ofName "M") (.context (contextAt "f" 2 1 [1])) ≠ [] := by
    rw [check_contextAt (by decide)]
    exact List.cons_ne_nil _ _
  exact ⟨_, contextAt "f" 2 1 [1], .ofName "M", himage, by simp, by cbv, by decide, hcheck⟩

end RewriteSemantics.Strict
