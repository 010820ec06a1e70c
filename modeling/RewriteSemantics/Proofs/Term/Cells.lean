/-
# Cells inside cells

Which cells occur in a term, and which of them inside which others. Both are questions about the
subterms that are cells, so they are answered node by node.
-/
import RewriteSemantics.Proofs.Term.Traversal

namespace RewriteSemantics.Term

/-! ## Some cell of a term -/

/-- Whether some cell that occurs in a term satisfies a condition on its tags and its content. -/
def HasCell (P : CellTag → Term → Prop) (t : Term) : Prop :=
  ∃ tag body, .cell tag body ∈ t.subterms ∧ P tag body

section

variable {P : CellTag → Term → Prop} {t : Term}

theorem hasCell_cell {tag : CellTag} {body : Term} :
    (cell tag body).HasCell P ↔ P tag body ∨ body.HasCell P := by
  constructor
  · rintro ⟨tag', body', hmem, hP⟩
    rcases mem_subterms.1 hmem with heq | ⟨c, hc, hmem⟩
    · cases heq
      exact .inl hP
    · exact .inr ⟨tag', body', List.mem_singleton.1 hc ▸ hmem, hP⟩
  · rintro (hP | ⟨tag', body', hmem, hP⟩)
    · exact ⟨tag, body, self_mem_subterms _, hP⟩
    · exact ⟨tag', body', mem_subterms_of_child List.mem_cons_self hmem, hP⟩

/-- A term that is no cell has the cells of its children. -/
theorem hasCell_children (ht : t.isCell = false) :
    t.HasCell P ↔ ∃ c ∈ t.children, c.HasCell P := by
  constructor
  · rintro ⟨tag, body, hmem, hP⟩
    rcases mem_subterms.1 hmem with rfl | ⟨c, hc, hmem⟩
    · cases ht
    · exact ⟨c, hc, tag, body, hmem, hP⟩
  · rintro ⟨c, hc, tag, body, hmem, hP⟩
    exact ⟨tag, body, mem_subterms_of_child hc hmem, hP⟩

theorem hasCell_bag {items : List Term} :
    (bag items).HasCell P ↔ ∃ c ∈ items, c.HasCell P :=
  hasCell_children rfl

theorem hasCell_beside {extra : Term} :
    (t.beside extra).HasCell P ↔ t.HasCell P ∨ extra.HasCell P := by
  cases t with
  | bag items => simp [beside, hasCell_bag, or_and_right, exists_or]
  | _ => simp [beside, hasCell_bag]

theorem not_hasCell_var (v : Variable) : ¬ (var v).HasCell P := by
  rw [hasCell_children rfl]
  rintro ⟨c, hc, -⟩
  cases hc

/-- A term has the cells of its items as part of a sequence. -/
theorem hasCell_sequenceItems : t.HasCell P ↔ ∃ u ∈ t.sequenceItems, u.HasCell P := by
  cases t with
  | seq items => exact hasCell_children rfl
  | _ => simp [sequenceItems]

end

/-! ## Cells by name -/

theorem mentionsCell_iff {name : String} {t : Term} :
    t.mentionsCell name = true ↔ t.HasCell fun tag _ => tag.name = name := by
  rw [mentionsCell, anySubterm, List.any_eq_true]
  constructor
  · rintro ⟨u, hu, hname⟩
    cases u with
    | cell tag body => exact ⟨tag, body, hu, beq_iff_eq.1 hname⟩
    | _ => cases hname
  · rintro ⟨tag, body, hu, hname⟩
    exact ⟨_, hu, beq_iff_eq.2 hname⟩

theorem hasCells_iff {t : Term} : t.hasCells = true ↔ t.HasCell fun _ _ => True := by
  rw [hasCells, anySubterm, List.any_eq_true]
  constructor
  · rintro ⟨u, hu, hcell⟩
    cases u with
    | cell tag body => exact ⟨tag, body, hu, trivial⟩
    | _ => cases hcell
  · rintro ⟨tag, body, hu, -⟩
    exact ⟨_, hu, rfl⟩

theorem HasCell.hasCells {P : CellTag → Term → Prop} {t : Term} (h : t.HasCell P) :
    t.hasCells = true := by
  obtain ⟨tag, body, hmem, -⟩ := h
  exact hasCells_iff.2 ⟨tag, body, hmem, trivial⟩

/-- One cell occurs inside another one. -/
def Nests (t : Term) (outer inner : String) : Prop :=
  t.HasCell fun tag body => tag.name = outer ∧ body.mentionsCell inner = true

theorem mentionsCell_cell {tag : CellTag} {body : Term} {name : String} :
    (cell tag body).mentionsCell name = true ↔ tag.name = name ∨ body.mentionsCell name = true := by
  rw [mentionsCell_iff, mentionsCell_iff, hasCell_cell]

theorem nests_cell {tag : CellTag} {body : Term} {outer inner : String} :
    (cell tag body).Nests outer inner ↔
      tag.name = outer ∧ body.mentionsCell inner = true ∨ body.Nests outer inner :=
  hasCell_cell

theorem Nests.mentionsCell_outer {t : Term} {outer inner : String} (h : t.Nests outer inner) :
    t.mentionsCell outer = true := by
  obtain ⟨tag, body, hmem, hname, -⟩ := h
  exact mentionsCell_iff.2 ⟨tag, body, hmem, hname⟩

end RewriteSemantics.Term
