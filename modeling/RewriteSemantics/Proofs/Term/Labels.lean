/-
# Labels in terms

Which labels a term applies. Renaming variables and taking sides leave no others in, and a rebuilt
term applies none that the rebuilding of its nodes does not bring in.
-/
import RewriteSemantics.Proofs.Related
import RewriteSemantics.Proofs.Term.Hereditary

namespace RewriteSemantics.Term

variable {Q Q' : String → Prop} {t : Term} {label : String}

/-- A label is applied somewhere in a term. -/
def Applies (t : Term) (label : String) : Prop :=
  ∃ args, .app label args ∈ t.subterms

/-- All labels that a term applies are of a kind. -/
def AppliesOnly (Q : String → Prop) (t : Term) : Prop :=
  ∀ label, t.Applies label → Q label

theorem AppliesOnly.mono (h : t.AppliesOnly Q) (hQ : ∀ label, Q label → Q' label) :
    t.AppliesOnly Q' :=
  fun label hlabel => hQ label (h label hlabel)

/-- The label that is applied at a node. -/
def labelHere? : Term → Option String
  | .app label _ => some label
  | _ => none

theorem labelHere?_eq_some_iff : t.labelHere? = some label ↔ ∃ args, t = .app label args := by
  cases t <;> simp [labelHere?]

theorem applies_iff_mem : t.Applies label ↔ label ∈ t.subterms.filterMap labelHere? := by
  simp only [Applies, List.mem_filterMap, labelHere?_eq_some_iff]
  constructor
  · rintro ⟨args, hargs⟩
    exact ⟨_, hargs, args, rfl⟩
  · rintro ⟨_, hu, args, rfl⟩
    exact ⟨args, hu⟩

instance (t : Term) (label : String) : Decidable (t.Applies label) :=
  decidable_of_iff' _ applies_iff_mem

/-! ## Node by node -/

/-- A label is applied at a node or in one of its children. -/
theorem applies_iff :
    t.Applies label ↔ (∃ args, t = .app label args) ∨ ∃ c ∈ t.children, c.Applies label := by
  constructor
  · rintro ⟨args, hargs⟩
    rcases mem_subterms.1 hargs with rfl | ⟨c, hc, hargs⟩
    · exact .inl ⟨args, rfl⟩
    · exact .inr ⟨c, hc, args, hargs⟩
  · rintro (⟨args, rfl⟩ | ⟨c, hc, args, hargs⟩)
    · exact ⟨args, self_mem_subterms _⟩
    · exact ⟨args, mem_subterms_of_child hc hargs⟩

theorem appliesOnly_iff : t.AppliesOnly Q ↔
    (∀ label args, t = .app label args → Q label) ∧ ∀ c ∈ t.children, c.AppliesOnly Q := by
  constructor
  · intro h
    exact ⟨fun label args ht => h label (applies_iff.2 (.inl ⟨args, ht⟩)),
      fun c hc label hlabel => h label (applies_iff.2 (.inr ⟨c, hc, hlabel⟩))⟩
  · rintro ⟨hself, hchildren⟩ label hlabel
    rcases applies_iff.1 hlabel with ⟨args, ht⟩ | ⟨c, hc, hlabel⟩
    · exact hself label args ht
    · exact hchildren c hc label hlabel

theorem appliesOnly_app {args : List Term} :
    (Term.app label args).AppliesOnly Q ↔ Q label ∧ ∀ t ∈ args, t.AppliesOnly Q := by
  rw [appliesOnly_iff]
  refine and_congr_left fun _ => ⟨fun h => h label args rfl, fun h _ _ ht => ?_⟩
  cases ht
  exact h

theorem appliesOnly_constant : (constant label).AppliesOnly Q ↔ Q label :=
  appliesOnly_app.trans (and_iff_left fun _ h => (nomatch h))

theorem appliesOnly_var (v : Variable) : (Term.var v).AppliesOnly Q :=
  appliesOnly_iff.2 ⟨fun _ _ h => (nomatch h), fun _ h => (nomatch h)⟩

theorem appliesOnly_token (text : String) (sort : SortName) :
    (Term.token text sort).AppliesOnly Q :=
  appliesOnly_iff.2 ⟨fun _ _ h => (nomatch h), fun _ h => (nomatch h)⟩

theorem appliesOnly_rewrite {l r : Term} :
    (Term.rewrite l r).AppliesOnly Q ↔ l.AppliesOnly Q ∧ r.AppliesOnly Q := by
  rw [appliesOnly_iff]
  simp [children]

theorem hereditary_appliesOnly (Q : String → Prop) : Hereditary (AppliesOnly Q) where
  seq items := by
    rw [appliesOnly_iff]
    simp [children]
  bag items := by
    rw [appliesOnly_iff]
    simp [children]
  cell tag body := by
    rw [appliesOnly_iff]
    simp [children]
  new stem n _ := appliesOnly_var _

/-! ## Rebuilt terms -/

theorem appliesOnly_andBool {left : Option Term} {right : Term} (hand : Q "_andBool_")
    (hleft : ∀ t ∈ left, t.AppliesOnly Q) (hright : right.AppliesOnly Q) :
    (andBool left right).AppliesOnly Q := by
  unfold andBool
  split
  · exact hright
  · split
    · exact hright
    · exact appliesOnly_app.2 ⟨hand, List.forall_mem_cons.2 ⟨hleft _ rfl,
        List.forall_mem_singleton.2 hright⟩⟩

theorem appliesOnly_map {f : Term → Term} {ts : List Term}
    (ih : ∀ t ∈ ts, t.AppliesOnly Q → (f t).AppliesOnly Q) (hts : ∀ t ∈ ts, t.AppliesOnly Q) :
    ∀ u ∈ ts.map f, u.AppliesOnly Q :=
  List.forall_mem_map.2 fun t ht => ih t ht (hts t ht)

/-- A function that brings no labels into a node brings none into a term. -/
theorem AppliesOnly.transform {f : Term → Term} (hf : ∀ t, t.AppliesOnly Q → (f t).AppliesOnly Q)
    (h : t.AppliesOnly Q) : (t.transform f).AppliesOnly Q := by
  have hq := hereditary_appliesOnly Q
  induction t using induct with
  | app label args ih =>
    obtain ⟨hlabel, hargs⟩ := appliesOnly_app.1 h
    rw [Term.transform, transformAll_eq_map]
    exact hf _ (appliesOnly_app.2 ⟨hlabel, appliesOnly_map ih hargs⟩)
  | var v => exact hf _ h
  | token text sort => exact hf _ h
  | rewrite l r ihl ihr =>
    obtain ⟨hl, hr⟩ := appliesOnly_rewrite.1 h
    exact hf _ (appliesOnly_rewrite.2 ⟨ihl hl, ihr hr⟩)
  | seq items ih =>
    rw [Term.transform, transformAll_eq_map]
    exact hf _ ((hq.seq _).2 (appliesOnly_map ih ((hq.seq _).1 h)))
  | bag items ih =>
    rw [Term.transform, transformAll_eq_map]
    exact hf _ ((hq.bag _).2 (appliesOnly_map ih ((hq.bag _).1 h)))
  | cell tag body ih => exact hf _ ((hq.cell _ _).2 (ih ((hq.cell _ _).1 h)))

theorem AppliesOnly.lhs (h : t.AppliesOnly Q) : t.lhs.AppliesOnly Q := by
  have hq := hereditary_appliesOnly Q
  induction t using induct with
  | app label args ih =>
    obtain ⟨hlabel, hargs⟩ := appliesOnly_app.1 h
    rw [Term.lhs, lhsAll_eq_map]
    exact appliesOnly_app.2 ⟨hlabel, appliesOnly_map ih hargs⟩
  | var v => exact h
  | token text sort => exact h
  | rewrite l r ihl _ => exact ihl (appliesOnly_rewrite.1 h).1
  | seq items ih =>
    rw [Term.lhs, lhsAll_eq_map]
    exact (hq.seq _).2 (appliesOnly_map ih ((hq.seq _).1 h))
  | bag items ih =>
    rw [Term.lhs, lhsAll_eq_map]
    exact (hq.bag _).2 (appliesOnly_map ih ((hq.bag _).1 h))
  | cell tag body ih => exact (hq.cell _ _).2 (ih ((hq.cell _ _).1 h))

theorem AppliesOnly.threadVariables {σ : Type} {f : Variable → σ → Variable × σ}
    (h : t.AppliesOnly Q) (s : σ) : (t.threadVariables f s).1.AppliesOnly Q := by
  have hmap : ∀ (ts : List Term) (s : σ),
      (∀ t ∈ ts, ∀ s, t.AppliesOnly Q → (t.threadVariables f s).1.AppliesOnly Q) →
      (∀ t ∈ ts, t.AppliesOnly Q) → ∀ u ∈ (threadVariablesAll f ts s).1, u.AppliesOnly Q := by
    intro ts s ih hts u hu
    obtain ⟨t, ht, s', rfl⟩ := (threadVariablesAll_related ts s).flip.exists_of_mem hu
    exact ih t ht s' (hts t ht)
  have hq := hereditary_appliesOnly Q
  induction t using induct generalizing s with
  | app label args ih =>
    obtain ⟨hlabel, hargs⟩ := appliesOnly_app.1 h
    exact appliesOnly_app.2 ⟨hlabel, hmap args s (fun t ht s h => ih t ht h s) hargs⟩
  | var v => exact appliesOnly_var _
  | token text sort => exact h
  | rewrite l r ihl ihr =>
    obtain ⟨hl, hr⟩ := appliesOnly_rewrite.1 h
    exact appliesOnly_rewrite.2 ⟨ihl hl s, ihr hr _⟩
  | seq items ih =>
    exact (hq.seq _).2 (hmap items s (fun t ht s h => ih t ht h s) ((hq.seq _).1 h))
  | bag items ih =>
    exact (hq.bag _).2 (hmap items s (fun t ht s h => ih t ht h s) ((hq.bag _).1 h))
  | cell tag body ih => exact (hq.cell _ _).2 (ih ((hq.cell _ _).1 h) s)

end RewriteSemantics.Term
