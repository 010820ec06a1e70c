/-
# The sorts of cast variables

Where casts are removed, a variable takes the sort of its first cast in the rule at all of its
occurrences. The membership predicates that come in are those of the variables cast on the left-hand
side, and each has the sort of the first cast there. The two need not agree: a rewrite further left
may cast the variable in what it rewrites to. So a cast variable has one sort exactly if no
predicate comes in for it that has another sort than its first cast.
-/
import RewriteSemantics.Proofs.Rule.Variables

namespace RewriteSemantics

/-- All occurrences of a variable in a rule carry the same sort, or all carry none. -/
def Rule.HasOneSort (r : Rule) (x : String) : Prop :=
  ∃ sort : Option SortName, ∀ t ∈ r.terms, ∀ v ∈ t.occurrences, v.name = x → v.sort = sort

namespace Term

/-! ## Occurrences -/

theorem occurrences_app (label : String) (args : List Term) :
    (app label args).occurrences = args.flatMap occurrences :=
  occurrencesAll_eq_flatMap args

/-- A conjunction has the variables of its sides. What is dropped of it is a literal. -/
theorem mem_occurrences_andBool {left : Option Term} {right : Term} {v : Variable} :
    v ∈ (andBool left right).occurrences ↔
      (∃ t ∈ left, v ∈ t.occurrences) ∨ v ∈ right.occurrences := by
  unfold andBool
  split
  · simp
  · rename_i t
    split
    · rename_i htrue
      rw [of_decide_eq_true htrue]
      simp [bool, occurrences]
    · simp [occurrences_app]

end Term

namespace SemanticCasts

open Term

/-! ## First casts -/

/-- The sort of the first cast of a variable in some terms, left to right and from the root of each
down. -/
def firstCast? (ts : List Term) (x : String) : Option SortName :=
  (((ts.flatMap (·.subterms)).filterMap castHere?).find? (·.1 = x)).map (·.2)

theorem firstCast?_eq_get? (ts : List Term) (x : String) : firstCast? ts x = (castsOf ts).get? x :=
  (get?_castsOf ts x).symm

/-- A cast variable occurs. -/
theorem exists_occurrence_of_firstCast? {ts : List Term} {x : String} {sort : SortName}
    (h : firstCast? ts x = some sort) : ∃ t ∈ ts, x ∈ t.variableNames := by
  by_contra hnone
  have hcasts : ∀ t ∈ ts, (castsOf [t]).get? x = none := fun t ht =>
    Option.eq_none_iff_forall_ne_some.2 fun _ hcast =>
      hnone ⟨t, ht, mem_variableNames_of_get?_castsOf hcast⟩
  rw [firstCast?_eq_get?, get?_castsOf_eq_none hcasts] at h
  cases h

/-! ## Sorted occurrences -/

variable {casts : Casts}

/-- A variable with the sort of its cast, if it is cast. -/
def sorted (casts : Casts) (v : Variable) : Variable :=
  ⟨v.name, (casts.get? v.name).or v.sort⟩

theorem occurrences_stripHere_app (label : String) (args : List Term) :
    (stripHere casts (.app label args)).occurrences = args.flatMap occurrences := by
  rcases args with _ | ⟨t, _ | ⟨u, rest⟩⟩
  · rfl
  · rw [stripHere_one]
    split <;> simp [occurrences_app]
  · exact occurrences_app _ _

theorem flatMap_occurrences_map_strip {ts : List Term}
    (h : ∀ t ∈ ts, (strip casts t).occurrences = t.occurrences.map (sorted casts)) :
    (ts.map (strip casts)).flatMap occurrences = (ts.flatMap occurrences).map (sorted casts) := by
  rw [List.flatMap_map, List.map_flatMap]
  exact List.flatMap_congr h

/-- Removing casts keeps every occurrence of a variable, sorted. -/
theorem occurrences_strip (t : Term) :
    (strip casts t).occurrences = t.occurrences.map (sorted casts) := by
  induction t using Term.induct with
  | app label args ih =>
    rw [strip_app, occurrences_stripHere_app, flatMap_occurrences_map_strip ih, occurrences_app]
  | var v =>
    rw [strip_var]
    rfl
  | token text sort => rfl
  | rewrite l r ihl ihr =>
    rw [strip_rewrite, occurrences, ihl, ihr, occurrences, List.map_append]
  | seq items ih =>
    rw [strip_seq, occurrences, occurrences, occurrencesAll_eq_flatMap, occurrencesAll_eq_flatMap,
      flatMap_occurrences_map_strip ih]
  | bag items ih =>
    rw [strip_bag, occurrences, occurrences, occurrencesAll_eq_flatMap, occurrencesAll_eq_flatMap,
      flatMap_occurrences_map_strip ih]
  | cell tag body ih =>
    rw [strip_cell, occurrences, ih, occurrences]

/-! ## Predicates -/

/-- The membership of a variable in a sort becomes part of the side condition. -/
def AddsMembership (skip : Bool) (lhs : Term) (x : String) (sort : SortName) : Prop :=
  skip = false ∧ firstCast? [lhs] x = some sort ∧ needsPredicate sort = true

theorem mem_occurrences_foldl_andBool {entries : List (String × SortName)} {requires : Option Term}
    {v : Variable} :
    (∃ t ∈ entries.foldl
        (fun condition e => some (.andBool condition (membership e.1 e.2))) requires,
        v ∈ t.occurrences) ↔
      (∃ t ∈ requires, v ∈ t.occurrences) ∨ ∃ e ∈ entries, v = ⟨e.1, some e.2⟩ := by
  induction entries generalizing requires with
  | nil => simp
  | cons e entries ih =>
    have hmembership : v ∈ (membership e.1 e.2).occurrences ↔ v = ⟨e.1, some e.2⟩ := by
      simp [membership, occurrences_app, sortedVar, occurrences]
    rw [List.foldl_cons, ih]
    simp only [Option.mem_some_iff, exists_eq_left', mem_occurrences_andBool, hmembership,
      List.exists_mem_cons_iff, or_assoc]

/-- The variables of an extended side condition are those of the condition and those of the
predicates that come in. -/
theorem mem_occurrences_sideCondition {skip : Bool} {requires : Option Term} {lhs : Term}
    {v : Variable} : (∃ t ∈ sideCondition skip requires lhs, v ∈ t.occurrences) ↔
      (∃ t ∈ requires, v ∈ t.occurrences) ∨
        ∃ sort, AddsMembership skip lhs v.name sort ∧ v.sort = some sort := by
  unfold sideCondition AddsMembership
  cases skip with
  | true => simp
  | false =>
    rw [if_neg Bool.false_ne_true, mem_occurrences_foldl_andBool]
    refine or_congr_right ⟨?_, ?_⟩
    · rintro ⟨e, he, rfl⟩
      obtain ⟨he, hneeds⟩ := List.mem_filter.1 he
      refine ⟨e.2, ⟨rfl, ?_, hneeds⟩, rfl⟩
      rw [firstCast?_eq_get?]
      exact OrderedMap.get?_eq_some_iff.2 he
    · rintro ⟨sort, ⟨-, hcast, hneeds⟩, hsort⟩
      rw [firstCast?_eq_get?] at hcast
      refine ⟨(v.name, sort), List.mem_filter.2 ⟨OrderedMap.mem_entries_of_get? hcast, hneeds⟩, ?_⟩
      rw [← hsort]

/-! ## Rules -/

variable {skip : Bool} {r : Rule} {x : String} {sort : SortName}

/-- The variables of a rule without casts are those of the rule, sorted, and those of the predicates
that come in. -/
theorem mem_occurrences_resolveRule {v : Variable} :
    (∃ t ∈ (resolveRule skip r).terms, v ∈ t.occurrences) ↔
      (∃ t ∈ r.terms, v ∈ (strip (castsOf r.terms) t).occurrences) ∨
        ∃ sort, AddsMembership skip r.body.lhs v.name sort ∧ v.sort = some sort := by
  have hterms : ∀ (s : Rule) (P : Term → Prop), (∃ t ∈ s.terms, P t) ↔
      P s.body ∨ (∃ t ∈ s.requires, P t) ∨ ∃ t ∈ s.ensures, P t := by
    intro s P
    simp only [Rule.mem_terms, or_and_right, exists_or, exists_eq_left]
  have hmap : ∀ o : Option Term, (∃ t ∈ o.map (strip (castsOf r.terms)), v ∈ t.occurrences) ↔
      ∃ t ∈ o, v ∈ (strip (castsOf r.terms) t).occurrences := by
    intro o
    cases o <;> simp
  rw [hterms, hterms]
  show _ ∨ (∃ t ∈ sideCondition skip (r.requires.map (strip (castsOf r.terms))) r.body.lhs, _) ∨
    (∃ t ∈ r.ensures.map (strip (castsOf r.terms)), _) ↔ _
  rw [mem_occurrences_sideCondition, hmap, hmap]
  simp only [or_assoc, or_comm, or_left_comm]
  rfl

/-- What is left of a term of the rule sorts a variable by its first cast, or as it was. -/
theorem sort_of_mem_occurrences_strip {t : Term} {v : Variable}
    (hv : v ∈ (strip (castsOf r.terms) t).occurrences) :
    ∃ u ∈ t.occurrences, v = ⟨u.name, (firstCast? r.terms u.name).or u.sort⟩ := by
  rw [occurrences_strip] at hv
  obtain ⟨u, hu, rfl⟩ := List.mem_map.1 hv
  exact ⟨u, hu, by rw [sorted, firstCast?_eq_get?]⟩

theorem mem_occurrences_strip {t : Term} {u : Variable} (hu : u ∈ t.occurrences) :
    ⟨u.name, (firstCast? r.terms u.name).or u.sort⟩ ∈
      (strip (castsOf r.terms) t).occurrences := by
  rw [occurrences_strip, firstCast?_eq_get?]
  exact List.mem_map_of_mem hu

/-- A variable has one sort exactly if what the rule writes of it is left with one sort, and every
predicate that comes in for it has that sort too. -/
theorem hasOneSort_resolveRule : (resolveRule skip r).HasOneSort x ↔ ∃ one : Option SortName,
    (∀ t ∈ r.terms, ∀ v ∈ t.occurrences, v.name = x → (firstCast? r.terms x).or v.sort = one) ∧
      ∀ other, AddsMembership skip r.body.lhs x other → some other = one := by
  refine exists_congr fun one => ⟨fun hone => ?_, fun ⟨hwritten, hadded⟩ t ht v hv hname => ?_⟩
  · have hall : ∀ v : Variable, (∃ t ∈ (resolveRule skip r).terms, v ∈ t.occurrences) →
        v.name = x → v.sort = one := fun v ⟨t, ht, hv⟩ => hone t ht v hv
    refine ⟨fun t ht v hv hname => ?_, fun other hadds => ?_⟩
    · subst hname
      exact hall _ (mem_occurrences_resolveRule.2 (.inl ⟨t, ht, mem_occurrences_strip hv⟩)) rfl
    · exact hall ⟨x, some other⟩ (mem_occurrences_resolveRule.2 (.inr ⟨other, hadds, rfl⟩)) rfl
  · rcases mem_occurrences_resolveRule.1 ⟨t, ht, hv⟩ with ⟨u, hu, hv⟩ | ⟨other, hadds, hsort⟩
    · obtain ⟨w, hw, rfl⟩ := sort_of_mem_occurrences_strip hv
      have hname : w.name = x := hname
      rw [hname]
      exact hwritten u hu w hw hname
    · rw [hsort, hadded other (hname ▸ hadds)]

/-- A variable that the rule casts has one sort exactly if every predicate that comes in for it has
the sort of its first cast. A variable that only the left-hand side casts, because a cast stands
around a rewrite, has one sort exactly if the rule writes it with that sort everywhere. -/
theorem hasOneSort_resolveRule_iff (skip : Bool) (r : Rule) (x : String) :
    (∀ sort, firstCast? r.terms x = some sort → ((resolveRule skip r).HasOneSort x ↔
      ∀ other, AddsMembership skip r.body.lhs x other → other = sort)) ∧
    (firstCast? r.terms x = none → ∀ other, AddsMembership skip r.body.lhs x other →
      ((resolveRule skip r).HasOneSort x ↔
        ∀ t ∈ r.terms, ∀ v ∈ t.occurrences, v.name = x → v.sort = some other)) := by
  refine ⟨fun sort hcast => ?_, fun hnone other hadds => ?_⟩
  · rw [hasOneSort_resolveRule, hcast]
    constructor
    · rintro ⟨one, hwritten, hadded⟩ other hadds
      obtain ⟨t, ht, hx⟩ := exists_occurrence_of_firstCast? hcast
      obtain ⟨v, hv, hname⟩ := mem_variableNames.1 hx
      have hsort : some sort = one := hwritten t ht v hv hname
      exact Option.some.inj ((hadded other hadds).trans hsort.symm)
    · intro hsame
      exact ⟨some sort, fun _ _ _ _ _ => rfl, fun other hadds => congrArg some (hsame other hadds)⟩
  · rw [hasOneSort_resolveRule, hnone]
    constructor
    · rintro ⟨one, hwritten, hadded⟩ t ht v hv hname
      rw [hadded other hadds]
      exact hwritten t ht v hv hname
    · intro hwritten
      refine ⟨some other, hwritten, fun another hadds' => ?_⟩
      exact hadds'.2.1.symm.trans hadds.2.1

/-! ## Variables with two sorts -/

/-- A rule that casts a variable on its left-hand side, and before that to another sort where it
rewrites a constant to the variable. -/
def twoCasts : Rule :=
  .ofBody (.app "f" [.rewrite (.constant "a") (.app (Label.cast .int) [.ofName "X"]),
    .app (Label.cast .bool) [.ofName "X"]])

/-- A rule that casts what it rewrites a variable to together with the variable. -/
def castRewrite : Rule :=
  .ofBody (.bag [.app "f" [.ofName "X"],
    .app (Label.cast .int) [.rewrite (.ofName "X") (.constant "a")]])

/-- Without predicates the first rule is left with one sort. The second rule is not left with one,
for it writes the variable without a sort. -/
theorem hasOneSort_twoCasts_castRewrite :
    (firstCast? twoCasts.terms "X" = some .int ∧ (resolveRule true twoCasts).HasOneSort "X") ∧
    (firstCast? castRewrite.terms "X" = none ∧
      AddsMembership false castRewrite.body.lhs "X" .int ∧
      ∃ t ∈ castRewrite.terms, ∃ v ∈ t.occurrences, v.name = "X" ∧ v.sort = none ∧
        ¬(resolveRule false castRewrite).HasOneSort "X") := by
  have hcast : firstCast? twoCasts.terms "X" = some .int := by decide
  have hnone : firstCast? castRewrite.terms "X" = none := by decide
  have hint : AddsMembership false castRewrite.body.lhs "X" .int := ⟨rfl, by decide, by decide⟩
  refine ⟨⟨hcast, ?_⟩, hnone, hint, castRewrite.body, by decide, ⟨"X", none⟩, by decide, rfl, rfl,
    fun h => ?_⟩
  · exact ((hasOneSort_resolveRule_iff true twoCasts "X").1 _ hcast).2
      fun _ hadds => nomatch hadds.1
  · have hsorts := ((hasOneSort_resolveRule_iff false castRewrite "X").2 hnone _ hint).1 h
    cases hsorts castRewrite.body (by decide) ⟨"X", none⟩ (by decide) rfl

/-- A variable is left with one sort and gets a predicate for another, or is left without any. -/
theorem exists_two_sorts :
    (firstCast? twoCasts.terms "X" = some .int ∧
      ¬(resolveRule false twoCasts).HasOneSort "X") ∧
    AddsMembership false castRewrite.body.lhs "X" .int ∧
      ¬(resolveRule false castRewrite).HasOneSort "X" := by
  have hcast : firstCast? twoCasts.terms "X" = some .int := by decide
  have hbool : AddsMembership false twoCasts.body.lhs "X" .bool := ⟨rfl, by decide, by decide⟩
  have hint : AddsMembership false castRewrite.body.lhs "X" .int := ⟨rfl, by decide, by decide⟩
  refine ⟨⟨hcast, fun h => ?_⟩, hint, fun h => ?_⟩
  · obtain ⟨one, hwritten, hadded⟩ := hasOneSort_resolveRule.1 h
    have hone := hwritten twoCasts.body (by decide) ⟨"X", none⟩ (by decide) rfl
    rw [hcast, ← hadded _ hbool] at hone
    exact absurd hone (by decide)
  · obtain ⟨one, hwritten, hadded⟩ := hasOneSort_resolveRule.1 h
    have hone := hwritten castRewrite.body (by decide) ⟨"X", none⟩ (by decide) rfl
    rw [show firstCast? castRewrite.terms "X" = none by decide, ← hadded _ hint] at hone
    cases hone

end SemanticCasts

end RewriteSemantics
