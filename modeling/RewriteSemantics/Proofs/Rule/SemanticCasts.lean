/-
# Terms without casts

Removing casts drops labels and sorts variables, so a term keeps the names of its variables, its
sides, and the label at its head that is not a cast.
-/
import RewriteSemantics.Proofs.Ordered.Map
import RewriteSemantics.Proofs.Term.Images
import RewriteSemantics.Rule.SemanticCasts

namespace RewriteSemantics.SemanticCasts

variable {casts : Casts}

/-! ## Node by node -/

theorem strip_app (label : String) (args : List Term) :
    strip casts (.app label args) = stripHere casts (.app label (args.map (strip casts))) := by
  rw [strip, Term.transform, Term.transformAll_eq_map]
  rfl

theorem strip_var (v : Variable) :
    strip casts (.var v) = .var ⟨v.name, (casts.get? v.name).or v.sort⟩ := by
  show stripHere casts (.var v) = _
  rw [stripHere]
  cases casts.get? v.name <;> rfl

theorem strip_rewrite (l r : Term) :
    strip casts (.rewrite l r) = .rewrite (strip casts l) (strip casts r) :=
  rfl

theorem strip_seq (items : List Term) :
    strip casts (.seq items) = .seq (items.map (strip casts)) := by
  rw [strip, Term.transform, Term.transformAll_eq_map]
  rfl

theorem strip_bag (items : List Term) :
    strip casts (.bag items) = .bag (items.map (strip casts)) := by
  rw [strip, Term.transform, Term.transformAll_eq_map]
  rfl

theorem strip_cell (tag : CellTag) (body : Term) :
    strip casts (.cell tag body) = .cell tag (strip casts body) :=
  rfl

/-- A label over one argument goes if it is a cast. -/
theorem stripHere_one (label : String) (t : Term) :
    stripHere casts (.app label [t]) = if (Label.castSort? label).isSome then t
      else .app label [t] := by
  rw [stripHere]
  cases Label.castSort? label <;> rfl

/-- A label that is no cast stays over its arguments. -/
theorem strip_app_of_castSort? {label : String} (h : Label.castSort? label = none)
    (args : List Term) :
    strip casts (.app label args) = .app label (args.map (strip casts)) := by
  rw [strip_app]
  rcases args with _ | ⟨t, _ | ⟨u, rest⟩⟩
  · rfl
  · rw [List.map_cons, List.map_nil, stripHere_one, h]
    rfl
  · rfl

/-- A term without casts depends on the sorts of its own variables only. -/
theorem strip_congr {casts' : Casts} {t : Term}
    (h : ∀ x ∈ t.variableNames, casts'.get? x = casts.get? x) : strip casts' t = strip casts t := by
  induction t using Term.induct with
  | app label args ih =>
    have hargs : args.map (strip casts') = args.map (strip casts) := by
      refine List.map_congr_left fun t ht => ih t ht fun x hx => h x ?_
      exact Term.mem_variableNames_app.2 ⟨t, ht, hx⟩
    rw [strip_app, strip_app, hargs]
    rcases args with _ | ⟨t, _ | ⟨u, rest⟩⟩
    · rfl
    · rw [List.map_cons, List.map_nil, stripHere_one, stripHere_one]
    · rfl
  | var v => rw [strip_var, strip_var, h v.name (Term.mem_variableNames_var.2 rfl)]
  | token text sort => rfl
  | rewrite l r ihl ihr =>
    rw [strip_rewrite, strip_rewrite,
      ihl fun x hx => h x (Term.mem_variableNames_rewrite.2 (.inl hx)),
      ihr fun x hx => h x (Term.mem_variableNames_rewrite.2 (.inr hx))]
  | seq items ih =>
    rw [strip_seq, strip_seq]
    refine congrArg Term.seq (List.map_congr_left fun t ht => ih t ht fun x hx => h x ?_)
    exact Term.mem_variableNames_seq.2 ⟨t, ht, hx⟩
  | bag items ih =>
    rw [strip_bag, strip_bag]
    refine congrArg Term.bag (List.map_congr_left fun t ht => ih t ht fun x hx => h x ?_)
    exact Term.mem_variableNames_bag.2 ⟨t, ht, hx⟩
  | cell tag body ih =>
    rw [strip_cell, strip_cell, ih fun x hx => h x (Term.mem_variableNames_cell.2 hx)]

/-! ## Variables -/

theorem mem_variableNames_stripHere {t : Term} {x : String} :
    x ∈ (stripHere casts t).variableNames ↔ x ∈ t.variableNames := by
  unfold stripHere
  split
  · rename_i v
    split
    · rw [Term.mem_variableNames_var, Term.mem_variableNames_var]
    · rfl
  · rename_i label u
    split
    · rw [Term.mem_variableNames_app]
      simp
    · rfl
  · rfl

theorem exists_variable_strip {ts : List Term} {x : String}
    (h : ∀ t ∈ ts, (x ∈ (strip casts t).variableNames ↔ x ∈ t.variableNames)) :
    (∃ u ∈ ts.map (strip casts), x ∈ u.variableNames) ↔ ∃ t ∈ ts, x ∈ t.variableNames := by
  constructor
  · rintro ⟨u, hu, hx⟩
    obtain ⟨t, ht, rfl⟩ := List.mem_map.1 hu
    exact ⟨t, ht, (h t ht).1 hx⟩
  · rintro ⟨t, ht, hx⟩
    exact ⟨strip casts t, List.mem_map_of_mem ht, (h t ht).2 hx⟩

/-- A term without casts has the same variables, by name. -/
theorem mem_variableNames_strip {t : Term} {x : String} :
    x ∈ (strip casts t).variableNames ↔ x ∈ t.variableNames := by
  induction t using Term.induct with
  | app label args ih =>
    rw [strip_app, mem_variableNames_stripHere, Term.mem_variableNames_app,
      Term.mem_variableNames_app]
    exact exists_variable_strip ih
  | var v => rw [strip_var, Term.mem_variableNames_var, Term.mem_variableNames_var]
  | token text sort => rfl
  | rewrite l r ihl ihr =>
    rw [strip_rewrite, Term.mem_variableNames_rewrite, Term.mem_variableNames_rewrite, ihl, ihr]
  | seq items ih =>
    rw [strip_seq, Term.mem_variableNames_seq, Term.mem_variableNames_seq]
    exact exists_variable_strip ih
  | bag items ih =>
    rw [strip_bag, Term.mem_variableNames_bag, Term.mem_variableNames_bag]
    exact exists_variable_strip ih
  | cell tag body ih =>
    rw [strip_cell, Term.mem_variableNames_cell, Term.mem_variableNames_cell, ih]

/-! ## Cast variables -/

/-- The sort of a variable is that of its first cast. -/
theorem get?_castsOf (ts : List Term) (x : String) : (castsOf ts).get? x =
    (((ts.flatMap (·.subterms)).filterMap castHere?).find? (·.1 = x)).map (·.2) := by
  rw [castsOf, OrderedMap.get?_foldl_insertIfNew]
  rfl

theorem get?_castsOf_append (ts us : List Term) (x : String) :
    (castsOf (ts ++ us)).get? x = ((castsOf ts).get? x).or ((castsOf us).get? x) := by
  rw [get?_castsOf, get?_castsOf, get?_castsOf, List.flatMap_append, List.filterMap_append,
    List.find?_append]
  cases List.find? _ _ <;> rfl

theorem get?_castsOf_cons (t : Term) (ts : List Term) (x : String) :
    (castsOf (t :: ts)).get? x = ((castsOf [t]).get? x).or ((castsOf ts).get? x) :=
  get?_castsOf_append [t] ts x

/-- Where nothing is cast in any of some terms, nothing is cast in all of them. -/
theorem get?_castsOf_eq_none {ts : List Term} {x : String}
    (h : ∀ t ∈ ts, (castsOf [t]).get? x = none) : (castsOf ts).get? x = none := by
  induction ts with
  | nil => rfl
  | cons t ts ih =>
    rw [get?_castsOf_cons, h t List.mem_cons_self, ih fun u hu => h u (List.mem_cons_of_mem _ hu)]
    rfl

theorem castHere?_of_castSort? {label : String} (h : Label.castSort? label = none)
    (args : List Term) : castHere? (.app label args) = none := by
  unfold castHere?
  split
  · rename_i heq
    cases heq
    rw [h]
    rfl
  · rfl

/-- The casts of a term that is no cast are those of its children, left to right. -/
theorem get?_castsOf_children {t : Term} (ht : castHere? t = none) (x : String) :
    (castsOf [t]).get? x = (castsOf t.children).get? x := by
  have hsubterms : t.subterms = t :: t.children.flatMap (·.subterms) := by
    cases t <;> simp [Term.subterms, Term.children, Term.subtermsAll_eq_flatMap]
  rw [get?_castsOf, get?_castsOf, List.flatMap_singleton, hsubterms, List.filterMap_cons, ht]

theorem get?_castsOf_rewrite (l r : Term) (x : String) :
    (castsOf [.rewrite l r]).get? x = ((castsOf [l]).get? x).or ((castsOf [r]).get? x) := by
  rw [get?_castsOf_children rfl]
  exact get?_castsOf_cons l [r] x

/-- A cast variable is a variable of the term. -/
theorem mem_variableNames_of_get?_castsOf {t : Term} {x : String} {sort : SortName}
    (h : (castsOf [t]).get? x = some sort) : x ∈ t.variableNames := by
  rw [get?_castsOf] at h
  obtain ⟨found, hfound, -⟩ := Option.map_eq_some_iff.1 h
  have hname : found.1 = x := by simpa using List.find?_some hfound
  obtain ⟨u, hu, hcast⟩ := List.mem_filterMap.1 (List.mem_of_find?_eq_some hfound)
  rw [List.flatMap_singleton] at hu
  unfold castHere? at hcast
  split at hcast
  · rename_i label v
    obtain ⟨sort', -, rfl⟩ := Option.map_eq_some_iff.1 hcast
    refine Term.mem_variableNames_of_subterm hu (Term.mem_variableNames_app.2 ?_)
    exact ⟨_, List.mem_singleton_self _, Term.mem_variableNames_var.2 hname⟩
  · cases hcast

/-! ## Heads -/

/-- The head of a term without casts depends neither on the sorts of its variables nor on their
names. -/
theorem topLabel?_strip_threadVariables {casts' : Casts} {σ : Type}
    {f : Variable → σ → Variable × σ} (t : Term) (s : σ) :
    (strip casts (t.threadVariables f s).1).lhs.topLabel? = (strip casts' t).lhs.topLabel? := by
  induction t using Term.induct generalizing s with
  | app label args ih =>
    rw [Term.threadVariables, strip_app, strip_app]
    rcases args with _ | ⟨t, _ | ⟨u, rest⟩⟩
    · rfl
    · show (stripHere casts (.app label [strip casts (t.threadVariables f s).1])).lhs.topLabel? = _
      rw [List.map_cons, List.map_nil, stripHere_one, stripHere_one]
      split
      · exact ih t List.mem_cons_self s
      · rfl
    · rfl
  | var v =>
    rw [Term.threadVariables, strip_var, strip_var]
    rfl
  | token text sort => rfl
  | rewrite l r ihl _ => exact ihl s
  | seq items ih => rw [Term.threadVariables, strip_seq, strip_seq]; rfl
  | bag items ih => rw [Term.threadVariables, strip_bag, strip_bag]; rfl
  | cell tag body ih => rfl

end RewriteSemantics.SemanticCasts
