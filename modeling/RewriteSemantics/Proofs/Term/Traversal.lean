/-
# Walks by children

What a walk of a term finds, said of a node and its children: so a statement about all terms need
not tell the constructors apart, nor terms from lists of terms.
-/
import RewriteSemantics.Term.Traversal

namespace RewriteSemantics.Term

/-- Induction over terms, by the children of a node. -/
theorem induct_children {motive : Term → Prop}
    (step : ∀ t, (∀ c ∈ t.children, motive c) → motive t) (t : Term) : motive t := by
  induction t using induct with
  | app label args ih => exact step _ ih
  | var v => exact step _ fun _ h => (nomatch h)
  | token text sort => exact step _ fun _ h => (nomatch h)
  | rewrite l r ihl ihr =>
    refine step _ fun c hc => ?_
    rcases List.mem_cons.1 hc with rfl | hc
    · exact ihl
    · exact List.mem_singleton.1 hc ▸ ihr
  | seq items ih => exact step _ ih
  | bag items ih => exact step _ ih
  | cell tag body ih => exact step _ fun c hc => List.mem_singleton.1 hc ▸ ih

/-! ## Subterms -/

theorem subtermsAll_eq_flatMap (ts : List Term) : subtermsAll ts = ts.flatMap subterms := by
  induction ts with
  | nil => rfl
  | cons t ts ih => rw [subtermsAll, ih, List.flatMap_cons]

theorem occurrencesAll_eq_flatMap (ts : List Term) :
    occurrencesAll ts = ts.flatMap occurrences := by
  induction ts with
  | nil => rfl
  | cons t ts ih => rw [occurrencesAll, ih, List.flatMap_cons]

theorem mem_subtermsAll {ts : List Term} {u : Term} :
    u ∈ subtermsAll ts ↔ ∃ t ∈ ts, u ∈ t.subterms := by
  induction ts with
  | nil => simp [subtermsAll]
  | cons t ts ih => simp [subtermsAll, ih]

/-- A subterm is the term itself or a subterm of a child. -/
theorem mem_subterms {t u : Term} : u ∈ t.subterms ↔ u = t ∨ ∃ c ∈ t.children, u ∈ c.subterms := by
  cases t <;> simp [subterms, children, mem_subtermsAll]

theorem self_mem_subterms (t : Term) : t ∈ t.subterms :=
  mem_subterms.2 (.inl rfl)

theorem mem_subterms_of_child {t u c : Term} (hc : c ∈ t.children) (hu : u ∈ c.subterms) :
    u ∈ t.subterms :=
  mem_subterms.2 (.inr ⟨c, hc, hu⟩)

theorem subterms_trans {t u w : Term} (hu : u ∈ t.subterms) (hw : w ∈ u.subterms) :
    w ∈ t.subterms := by
  induction t using induct_children with
  | step t ih =>
    rcases mem_subterms.1 hu with rfl | ⟨c, hc, hu⟩
    · exact hw
    · exact mem_subterms_of_child hc (ih c hc hu)

/-! ## Variables -/

theorem mem_occurrencesAll {ts : List Term} {v : Variable} :
    v ∈ occurrencesAll ts ↔ ∃ t ∈ ts, v ∈ t.occurrences := by
  induction ts with
  | nil => simp [occurrencesAll]
  | cons t ts ih => simp [occurrencesAll, ih]

/-- An occurrence of a variable is the term itself or lies in a child. -/
theorem mem_occurrences {t : Term} {v : Variable} :
    v ∈ t.occurrences ↔ t = .var v ∨ ∃ c ∈ t.children, v ∈ c.occurrences := by
  cases t <;> simp [occurrences, children, mem_occurrencesAll, eq_comm]

theorem mem_variableNames_iff {t : Term} {x : String} :
    x ∈ t.variableNames ↔
      (∃ v, t = .var v ∧ v.name = x) ∨ ∃ c ∈ t.children, x ∈ c.variableNames := by
  simp only [mem_variableNames, mem_occurrences (t := t)]
  constructor
  · rintro ⟨v, rfl | ⟨c, hc, hv⟩, rfl⟩
    · exact .inl ⟨v, rfl, rfl⟩
    · exact .inr ⟨c, hc, v, hv, rfl⟩
  · rintro (⟨v, rfl, rfl⟩ | ⟨c, hc, v, hv, rfl⟩)
    · exact ⟨v, .inl rfl, rfl⟩
    · exact ⟨v, .inr ⟨c, hc, hv⟩, rfl⟩

theorem mem_variableNames_children {t : Term} (ht : t.asVariable? = none) {x : String} :
    x ∈ t.variableNames ↔ ∃ c ∈ t.children, x ∈ c.variableNames := by
  rw [mem_variableNames_iff]
  refine or_iff_right ?_
  rintro ⟨v, rfl, -⟩
  cases ht

theorem eq_var_of_asVariable? {t : Term} {v : Variable} (ht : t.asVariable? = some v) :
    t = .var v := by
  cases t with
  | var w =>
    cases ht
    rfl
  | _ => cases ht

@[simp] theorem mem_variableNames_var {v : Variable} {x : String} :
    x ∈ (Term.var v).variableNames ↔ v.name = x := by
  rw [mem_variableNames_iff]
  simp [children]

@[simp] theorem mem_variableNames_app {label : String} {args : List Term} {x : String} :
    x ∈ (Term.app label args).variableNames ↔ ∃ t ∈ args, x ∈ t.variableNames := by
  rw [mem_variableNames_iff]
  simp [children]

@[simp] theorem mem_variableNames_cell {tag : CellTag} {body : Term} {x : String} :
    x ∈ (Term.cell tag body).variableNames ↔ x ∈ body.variableNames := by
  rw [mem_variableNames_iff]
  simp [children]

@[simp] theorem mem_variableNames_bag {items : List Term} {x : String} :
    x ∈ (Term.bag items).variableNames ↔ ∃ t ∈ items, x ∈ t.variableNames := by
  rw [mem_variableNames_iff]
  simp [children]

@[simp] theorem mem_variableNames_seq {items : List Term} {x : String} :
    x ∈ (Term.seq items).variableNames ↔ ∃ t ∈ items, x ∈ t.variableNames := by
  rw [mem_variableNames_iff]
  simp [children]

@[simp] theorem mem_variableNames_rewrite {l r : Term} {x : String} :
    x ∈ (Term.rewrite l r).variableNames ↔ x ∈ l.variableNames ∨ x ∈ r.variableNames := by
  rw [mem_variableNames_iff]
  simp [children]

theorem mem_variableNames_of_subterm {t u : Term} {x : String} (hu : u ∈ t.subterms)
    (hx : x ∈ u.variableNames) : x ∈ t.variableNames := by
  induction t using induct_children with
  | step t ih =>
    rcases mem_subterms.1 hu with rfl | ⟨c, hc, hu⟩
    · exact hx
    · exact mem_variableNames_iff.2 (.inr ⟨c, hc, ih c hc hu⟩)

/-! ## Sequences -/

theorem mem_variableNames_sequenceItems {t : Term} {x : String} :
    x ∈ t.variableNames ↔ ∃ u ∈ t.sequenceItems, x ∈ u.variableNames := by
  cases t <;> simp [sequenceItems]

theorem mem_variableNames_sequence {items : List Term} {x : String} :
    x ∈ (sequence items).variableNames ↔ ∃ t ∈ items, x ∈ t.variableNames := by
  have hitems : (∃ u ∈ items.flatMap sequenceItems, x ∈ u.variableNames) ↔
      ∃ t ∈ items, x ∈ t.variableNames := by
    simp only [List.mem_flatMap]
    constructor
    · rintro ⟨u, ⟨t, ht, hu⟩, hx⟩
      exact ⟨t, ht, mem_variableNames_sequenceItems.2 ⟨u, hu, hx⟩⟩
    · rintro ⟨t, ht, hx⟩
      obtain ⟨u, hu, hx⟩ := mem_variableNames_sequenceItems.1 hx
      exact ⟨u, ⟨t, ht, hu⟩, hx⟩
  unfold sequence
  split
  · rename_i item hitem
    rw [← hitems, hitem]
    simp
  · rw [mem_variableNames_seq, hitems]

theorem mem_subterms_of_sequenceItems {t u w : Term} (hu : u ∈ t.sequenceItems)
    (hw : w ∈ u.subterms) : w ∈ t.subterms := by
  cases t with
  | seq items => exact mem_subterms_of_child hu hw
  | _ => exact List.mem_singleton.1 hu ▸ hw

/-- A cell in a term lies in one of its items. -/
theorem exists_mem_sequenceItems {tag : CellTag} {body t : Term}
    (h : .cell tag body ∈ t.subterms) : ∃ u ∈ t.sequenceItems, .cell tag body ∈ u.subterms := by
  cases t with
  | seq items =>
    rcases mem_subterms.1 h with heq | hitem
    · cases heq
    · exact hitem
  | _ => exact ⟨_, List.mem_singleton_self _, h⟩

/-- A sequence has the items of what it is made of if one of these is a single item. -/
theorem sequenceItems_sequence {items : List Term} {u : Term} (hu : u ∈ items)
    (hone : u.sequenceItems = [u]) :
    (sequence items).sequenceItems = items.flatMap sequenceItems := by
  unfold sequence
  split
  · rename_i t ht
    have hmem : u ∈ items.flatMap sequenceItems := by
      refine List.mem_flatMap.2 ⟨u, hu, ?_⟩
      rw [hone]
      exact List.mem_singleton_self u
    rw [ht] at hmem ⊢
    rw [← List.mem_singleton.1 hmem, hone]
  · rfl

end RewriteSemantics.Term
