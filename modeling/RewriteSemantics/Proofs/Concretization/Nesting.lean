/-
# Cells inside cells in placed bodies

A rule writes cells inside cells, and so does the body that its contents are placed into, but the
two need not agree: reading keeps each content under the name of its cell only, and building puts it
where the configuration has that cell. So one cell comes to lie inside another exactly if the
configuration says so and a content is placed there, or if it occurs in a content below the other.
What a rule writes is respected, then, if the cells written around each content are those that the
configuration has around it, in the same order. A cell that is written around contents of others
only, where the configuration has none of them, is lost.
-/
import RewriteSemantics.Proofs.Concretization.Shape
import RewriteSemantics.Proofs.Term.Cells

namespace RewriteSemantics

/-! ## Above and below in a layout -/

namespace Layout

variable {name outer inner : String} {ls : List Layout}

theorem Above.outer_mem {l : Layout} (h : Above l outer inner) : outer ∈ l.names := by
  induction h with
  | here _ => exact List.mem_cons_self
  | deeper hl _ ih => exact List.mem_cons_of_mem _ (mem_namesAll.2 ⟨_, hl, ih⟩)

/-- Around a cell below the outermost one lie the outermost one and those in the same branch. -/
theorem above_node_iff (hnodup : (node name ls).names.Nodup) {l : Layout} (hl : l ∈ ls)
    (hinner : inner ∈ l.names) :
    (node name ls).Above outer inner ↔ outer = name ∨ l.Above outer inner := by
  constructor
  · intro h
    cases h with
    | here _ => exact .inl rfl
    | deeper hl' habove =>
      obtain rfl := eq_of_mem_names (nodup_node hnodup).2 hl hl' hinner habove.inner_mem
      exact .inr habove
  · rintro (rfl | habove)
    · exact .here (mem_namesAll.2 ⟨l, hl, hinner⟩)
    · exact .deeper hl habove

/-- Nothing lies around the outermost cell. -/
theorem not_above_name (hnodup : (node name ls).names.Nodup) :
    ¬ (node name ls).Above outer name := by
  intro h
  obtain ⟨hname, -⟩ := nodup_node hnodup
  cases h with
  | here hmem => exact hname hmem
  | deeper hl habove => exact hname (mem_namesAll.2 ⟨_, hl, habove.inner_mem⟩)

end Layout

namespace Concretization

open Layout

/-! ## Nesting by contents -/

section

/-- Whether a cell is met in a body because a content is placed there: it is the cell of the content
or one around it, or it occurs in the content. -/
def MentionedBy (above : String → String → Prop) (name : String) (body : Term) (inner : String) :
    Prop :=
  inner = name ∨ above inner name ∨ body.mentionsCell inner = true

/-- Whether a cell lies inside another one because a content is placed there: both lie on the way
down to the content, or only the outer one does and the inner one occurs in the content, or both
occur in the content. -/
def NestedBy (above : String → String → Prop) (name : String) (body : Term) (outer inner : String) :
    Prop :=
  above outer inner ∧ (inner = name ∨ above inner name) ∨
    (outer = name ∨ above outer name) ∧ body.mentionsCell inner = true ∨ body.Nests outer inner

variable {name x outer inner : String} {ls : List Layout} {body : Term}

theorem mentionedBy_node (hnodup : (node name ls).names.Nodup) {l : Layout} (hl : l ∈ ls)
    (hx : x ∈ l.names) : MentionedBy (node name ls).Above x body inner ↔
      inner = name ∨ MentionedBy l.Above x body inner := by
  rw [MentionedBy, MentionedBy, above_node_iff hnodup hl hx]
  constructor
  · rintro (h | (h | h) | h)
    · exact .inr (.inl h)
    · exact .inl h
    · exact .inr (.inr (.inl h))
    · exact .inr (.inr (.inr h))
  · rintro (h | h | h | h)
    · exact .inr (.inl (.inl h))
    · exact .inl h
    · exact .inr (.inl (.inr h))
    · exact .inr (.inr h)

theorem nestedBy_node (hnodup : (node name ls).names.Nodup) {l : Layout} (hl : l ∈ ls)
    (hx : x ∈ l.names) : NestedBy (node name ls).Above x body outer inner ↔
      outer = name ∧ MentionedBy l.Above x body inner ∨ NestedBy l.Above x body outer inner := by
  rw [NestedBy, NestedBy, MentionedBy, above_node_iff hnodup hl hx, above_node_iff hnodup hl hx]
  constructor
  · rintro (⟨habove, hinner⟩ | ⟨houter, hbody⟩ | hbody)
    · -- the outermost cell lies inside no other, so the inner one is in the branch of the content
      have hbranch : inner = x ∨ l.Above inner x := by
        rcases hinner with hinner | rfl | hinner
        · exact .inl hinner
        · exact absurd habove (not_above_name hnodup)
        · exact .inr hinner
      have hmem : inner ∈ l.names := by
        rcases hbranch with rfl | hinner
        · exact hx
        · exact hinner.outer_mem
      rcases (above_node_iff hnodup hl hmem).1 habove with rfl | habove
      · exact .inl ⟨rfl, hbranch.imp_right .inl⟩
      · exact .inr (.inl ⟨habove, hbranch⟩)
    · rcases houter with houter | rfl | houter
      · exact .inr (.inr (.inl ⟨.inl houter, hbody⟩))
      · exact .inl ⟨rfl, .inr (.inr hbody)⟩
      · exact .inr (.inr (.inl ⟨.inr houter, hbody⟩))
    · exact .inr (.inr (.inr hbody))
  · rintro (⟨rfl, rfl | hinner | hbody⟩ | ⟨habove, hinner⟩ | ⟨houter, hbody⟩ | hbody)
    · exact .inl ⟨(above_node_iff hnodup hl hx).2 (.inl rfl), .inl rfl⟩
    · exact .inl ⟨(above_node_iff hnodup hl hinner.outer_mem).2 (.inl rfl), .inr (.inr hinner)⟩
    · exact .inr (.inl ⟨.inr (.inl rfl), hbody⟩)
    · exact .inl ⟨(above_node_iff hnodup hl habove.inner_mem).2 (.inr habove),
        hinner.imp_right .inr⟩
    · exact .inr (.inl ⟨houter.imp_right .inr, hbody⟩)
    · exact .inr (.inr hbody)

theorem NestedBy.congr {above above' : String → String → Prop}
    (h : ∀ outer inner, above outer inner ↔ above' outer inner) :
    NestedBy above name body outer inner ↔ NestedBy above' name body outer inner := by
  rw [NestedBy, NestedBy, h, h, h]

end

/-! ## Cells of a placed body -/

section

variable {P : CellTag → Term → Prop}

/-- Closing a cell brings no cells in. -/
theorem Closes.hasCell_iff {tag : CellTag} {body content : Term} {left right : List String}
    (h : Closes tag body left right content) : content.HasCell P ↔ body.HasCell P := by
  have hdots : ∀ names : List String, ¬ ∃ u ∈ names.map Term.ofName, u.HasCell P := by
    rintro names ⟨u, hu, hcell⟩
    obtain ⟨x, -, rfl⟩ := List.mem_map.1 hu
    exact Term.not_hasCell_var _ hcell
  rw [Term.hasCell_sequenceItems, h.items, exists_mem_append, exists_mem_append,
    Term.hasCell_sequenceItems (t := body)]
  simp only [hdots, or_false, false_or]

/-- What stands beside the children of a cell is no cell. -/
theorem Beside.not_hasCell {rest : Option Term} {missing : Prop} {ts : List Term}
    {new : List String} (h : Beside rest missing ts new) : ¬ ∃ t ∈ ts, t.HasCell P := by
  rintro ⟨t, ht, hcell⟩
  cases h with
  | written _ => exact Term.not_hasCell_var _ (List.mem_singleton.1 ht ▸ hcell)
  | new x _ _ => exact Term.not_hasCell_var _ (List.mem_singleton.1 ht ▸ hcell)
  | nothing _ _ => cases ht

theorem hasCell_contentOf {items : List Term} :
    (contentOf items).HasCell P ↔ ∃ t ∈ items, t.HasCell P := by
  unfold contentOf
  split
  · simp
  · exact Term.hasCell_bag

/-- The bodies placed along some layouts are those of the layouts that contents are placed into. -/
theorem exists_mem_placeAll (f : Fragments) {p : Term → Prop} {q : Layout → Prop}
    (ls : List Layout) (h : ∀ l ∈ ls, holds f l = true → ∀ names, p (place f l names).1 ↔ q l)
    (names : FreshNames) :
    (∃ t ∈ (placeAll f ls names).1, p t) ↔ ∃ l ∈ ls, holds f l = true ∧ q l := by
  induction ls generalizing names with
  | nil => simp [placeAll]
  | cons l ls ih =>
    have htail := ih fun m hm => h m (List.mem_cons_of_mem _ hm)
    rw [placeAll, List.exists_mem_cons_iff]
    by_cases hholds : holds f l = true
    · rw [if_pos hholds]
      show (∃ t ∈ (place f l names).1 :: (placeAll f ls (place f l names).2).1, p t) ↔ _
      rw [List.exists_mem_cons_iff, h l List.mem_cons_self hholds, htail]
      simp [hholds]
    · rw [if_neg hholds, htail]
      simp [hholds]

/-- A layout that has something to hold has a content placed in it. -/
theorem exists_placed {f : Fragments} {l : Layout} (h : holds f l = true) :
    ∃ name e, name ∈ placed f l ∧ f.cells.get? name = some e := by
  induction l using Layout.induct with
  | node name ls ih =>
    rw [placed]
    by_cases hwritten : f.cells.contains name = true
    · obtain ⟨e, he⟩ := OrderedMap.contains_iff.1 hwritten
      exact ⟨name, e, by simp [hwritten], he⟩
    · rw [holds_node, Bool.or_eq_true, List.any_eq_true] at h
      obtain ⟨l, hl, hholds⟩ := h.resolve_left hwritten
      obtain ⟨inner, e, hmem, he⟩ := ih l hl hholds
      exact ⟨inner, e, by simpa [hwritten] using mem_placedAll.2 ⟨l, hl, hmem⟩, he⟩

variable {tree : CellTree} {f : Fragments}

/-- A cell that is built from its children has the cells of the bodies placed into them. -/
theorem exists_content_of_place {name : String} (hf : f.Sound tree)
    (hnone : f.cells.get? name = none) (ls : List Layout) (names : FreshNames) :
    ∃ content, (place f (.node name ls) names).1 = .closedCell name content ∧
      ∀ P, content.HasCell P ↔ ∃ t ∈ (placeAll f ls names).1, t.HasCell P := by
  obtain ⟨new, hbeside, -⟩ := exists_beside (ls.any (!holds f ·)) (placeAll f ls names).2
    (hf.rest name)
  rw [place_of_children hnone]
  refine ⟨_, rfl, fun P => ?_⟩
  rw [hasCell_contentOf, exists_mem_append]
  exact or_iff_left hbeside.not_hasCell

/-- The cells of a placed body are those of its contents and those around them. -/
theorem mentionsCell_place {l : Layout} (hf : f.Sound tree) (hnodup : l.names.Nodup)
    (inner : String) (hholds : holds f l = true) (names : FreshNames) :
    (place f l names).1.mentionsCell inner = true ↔ ∃ name e, name ∈ placed f l ∧
      f.cells.get? name = some e ∧ MentionedBy l.Above name e.2 inner := by
  induction l using Layout.induct generalizing names with
  | node outer ls ih =>
    cases hwritten : f.cells.get? outer with
    | some written =>
      obtain ⟨tag, body⟩ := written
      have hname : tag.name = outer := hf.named outer _ hwritten
      obtain ⟨left, right, content, hcell, hcloses, -⟩ :=
        exists_closes tag body { f with names := names }
      rw [place_of_content hwritten, hcell, Term.mentionsCell_cell, Term.mentionsCell_iff,
        hcloses.hasCell_iff, ← Term.mentionsCell_iff, placed_of_content hwritten]
      constructor
      · rintro (hinner | hbody)
        · exact ⟨_, _, List.mem_cons_self, hwritten, .inl (hinner.symm.trans hname)⟩
        · exact ⟨_, _, List.mem_cons_self, hwritten, .inr (.inr hbody)⟩
      · rintro ⟨name, e, hmem, he, hinner⟩
        obtain rfl := List.mem_singleton.1 hmem
        cases hwritten.symm.trans he
        rcases hinner with hinner | habove | hbody
        · exact .inl (hname.trans hinner.symm)
        · exact absurd habove (not_above_name hnodup)
        · exact .inr hbody
    | none =>
      obtain ⟨content, hplace, hcontent⟩ := exists_content_of_place hf hwritten ls names
      have hplaced : placed f (.node outer ls) = placedAll f ls := placed_of_children hwritten
      have hbelow := exists_mem_placeAll f ls (fun l hl hholds names =>
        Term.mentionsCell_iff.symm.trans
          (ih l hl (nodup_of_mem (nodup_node hnodup).2 hl) hholds names)) names
      rw [hplace, Term.closedCell, Term.mentionsCell_cell, Term.mentionsCell_iff, hcontent, hbelow,
        hplaced]
      constructor
      · rintro (rfl | ⟨l, hl, -, name, e, hmem, he, hinner⟩)
        · obtain ⟨name, e, hmem, he⟩ := exists_placed hholds
          rw [hplaced] at hmem
          obtain ⟨l, hl, hmem'⟩ := mem_placedAll.1 hmem
          have hin := placed_subset f l name hmem'
          exact ⟨name, e, hmem, he, (mentionedBy_node hnodup hl hin).2 (.inl rfl)⟩
        · have hin := placed_subset f l name hmem
          exact ⟨name, e, mem_placedAll.2 ⟨l, hl, hmem⟩, he,
            (mentionedBy_node hnodup hl hin).2 (.inr hinner)⟩
      · rintro ⟨name, e, hmem, he, hinner⟩
        obtain ⟨l, hl, hmem⟩ := mem_placedAll.1 hmem
        have hin := placed_subset f l name hmem
        have hwithin := holds_iff.2 ⟨name, hin, OrderedMap.contains_iff.2 ⟨e, he⟩⟩
        rcases (mentionedBy_node hnodup hl hin).1 hinner with rfl | hinner
        · exact .inl rfl
        · exact .inr ⟨l, hl, hwithin, name, e, hmem, he, hinner⟩

/-- One cell lies inside another in a placed body because of one of the contents. -/
theorem nests_place {l : Layout} (hf : f.Sound tree) (hnodup : l.names.Nodup)
    (outer inner : String) (hholds : holds f l = true) (names : FreshNames) :
    (place f l names).1.Nests outer inner ↔ ∃ name e, name ∈ placed f l ∧
      f.cells.get? name = some e ∧ NestedBy l.Above name e.2 outer inner := by
  induction l using Layout.induct generalizing names with
  | node top ls ih =>
    cases hwritten : f.cells.get? top with
    | some written =>
      obtain ⟨tag, body⟩ := written
      have hname : tag.name = top := hf.named top _ hwritten
      obtain ⟨left, right, content, hcell, hcloses, -⟩ :=
        exists_closes tag body { f with names := names }
      rw [place_of_content hwritten, hcell, Term.nests_cell, Term.mentionsCell_iff,
        hcloses.hasCell_iff, ← Term.mentionsCell_iff, Term.Nests, hcloses.hasCell_iff,
        placed_of_content hwritten]
      constructor
      · rintro (⟨houter, hbody⟩ | hbody)
        · exact ⟨_, _, List.mem_cons_self, hwritten, .inr (.inl ⟨.inl (houter.symm.trans hname),
            hbody⟩)⟩
        · exact ⟨_, _, List.mem_cons_self, hwritten, .inr (.inr hbody)⟩
      · rintro ⟨name, e, hmem, he, hnested⟩
        obtain rfl := List.mem_singleton.1 hmem
        cases hwritten.symm.trans he
        rcases hnested with ⟨habove, rfl | hinner⟩ | ⟨rfl | houter, hbody⟩ | hbody
        · exact absurd habove (not_above_name hnodup)
        · exact absurd hinner (not_above_name hnodup)
        · exact .inl ⟨hname, hbody⟩
        · exact absurd houter (not_above_name hnodup)
        · exact .inr hbody
    | none =>
      obtain ⟨content, hplace, hcontent⟩ := exists_content_of_place hf hwritten ls names
      have hmentioned := exists_mem_placeAll f ls (fun l hl hholds names =>
        Term.mentionsCell_iff.symm.trans (mentionsCell_place hf
          (nodup_of_mem (nodup_node hnodup).2 hl) inner hholds names)) names
      have hnests := exists_mem_placeAll f ls (fun l hl hholds names =>
        ih l hl (nodup_of_mem (nodup_node hnodup).2 hl) hholds names) names
      rw [hplace, Term.closedCell, Term.nests_cell, Term.mentionsCell_iff, hcontent, hmentioned,
        Term.Nests, hcontent, hnests, placed_of_children hwritten]
      constructor
      · rintro (⟨houter, l, hl, -, name, e, hmem, he, hinner⟩ |
          ⟨l, hl, -, name, e, hmem, he, hnested⟩)
        · exact ⟨name, e, mem_placedAll.2 ⟨l, hl, hmem⟩, he,
            (nestedBy_node hnodup hl (placed_subset f l name hmem)).2 (.inl ⟨houter.symm, hinner⟩)⟩
        · exact ⟨name, e, mem_placedAll.2 ⟨l, hl, hmem⟩, he,
            (nestedBy_node hnodup hl (placed_subset f l name hmem)).2 (.inr hnested)⟩
      · rintro ⟨name, e, hmem, he, hnested⟩
        obtain ⟨l, hl, hmem⟩ := mem_placedAll.1 hmem
        have hin := placed_subset f l name hmem
        have hwithin := holds_iff.2 ⟨name, hin, OrderedMap.contains_iff.2 ⟨e, he⟩⟩
        rcases (nestedBy_node hnodup hl hin).1 hnested with ⟨houter, hinner⟩ | hnested
        · exact .inl ⟨houter.symm, l, hl, hwithin, name, e, hmem, he, hinner⟩
        · exact .inr ⟨l, hl, hwithin, name, e, hmem, he, hnested⟩

end

/-! ## What a rule writes around a content -/

/-- A content of a rule with the names of the cells written around it, from the outside in. -/
structure Written where
  around : List String
  tag : CellTag
  body : Term

namespace Written

/-- The cells around a content, and at last its own. -/
def names (w : Written) : List String :=
  w.around ++ [w.tag.name]

/-- The content with one more cell around it. -/
def inside (name : String) (w : Written) : Written :=
  { w with around := name :: w.around }

end Written

mutual

/-- The contents of a cell with the given content. -/
def writtenIn (tree : CellTree) (tag : CellTag) : Term → List Written
  | .cell inner body =>
    if tree.isLeaf tag.name then [⟨[], tag, .cell inner body⟩]
    else (writtenIn tree inner body).map (.inside tag.name)
  | .bag items =>
    if tree.isLeaf tag.name || !items.any Term.isCell then [⟨[], tag, .bag items⟩]
    else (writtenAmong tree items).map (.inside tag.name)
  | content => [⟨[], tag, content⟩]

/-- The contents of the cells among some terms. -/
def writtenAmong (tree : CellTree) : List Term → List Written
  | [] => []
  | .cell tag body :: items => writtenIn tree tag body ++ writtenAmong tree items
  | _ :: items => writtenAmong tree items

end

/-- The contents of the body of a rule. -/
def written (tree : CellTree) (body : Term) : List Written :=
  match topItems? body with
  | some items => writtenAmong tree items
  | none => []

/-- Some contents are all that some terms write: they are those among the pieces, the cells of the
terms are the ones around them and in them, and so are the cells inside one another. -/
structure Writes (ts : List Term) (ps : List Piece) (ws : List Written) : Prop where
  contents : ∀ tag body, .content tag body ∈ ps ↔ ∃ w ∈ ws, w.tag = tag ∧ w.body = body
  occurs : (∃ t ∈ ts, t.isCell = true) → ws ≠ []
  mentions : ∀ inner, (∃ t ∈ ts, t.mentionsCell inner = true) →
    ∃ w ∈ ws, inner ∈ w.names ∨ w.body.mentionsCell inner = true
  nests : ∀ outer inner, (∃ t ∈ ts, t.Nests outer inner) → ∃ w ∈ ws,
    [outer, inner].Sublist w.names ∨ outer ∈ w.names ∧ w.body.mentionsCell inner = true ∨
      w.body.Nests outer inner
  named : ∀ w ∈ ws, ∀ inner ∈ w.names, ∃ t ∈ ts, t.mentionsCell inner = true
  ordered : ∀ w ∈ ws, w.names.Pairwise fun outer inner => ∃ t ∈ ts, t.Nests outer inner

namespace Writes

theorem nil : Writes [] [] [] := by
  constructor <;> simp

theorem append {ts us : List Term} {ps qs : List Piece} {ws xs : List Written}
    (h : Writes ts ps ws) (h' : Writes us qs xs) : Writes (ts ++ us) (ps ++ qs) (ws ++ xs) := by
  constructor
  · intro tag body
    rw [List.mem_append, h.contents, h'.contents, exists_mem_append]
  · intro hcell
    rw [exists_mem_append] at hcell
    rcases hcell with hcell | hcell
    · exact List.append_ne_nil_of_left_ne_nil (h.occurs hcell) _
    · exact List.append_ne_nil_of_right_ne_nil _ (h'.occurs hcell)
  · intro inner hinner
    rw [exists_mem_append] at hinner ⊢
    exact hinner.imp (h.mentions inner) (h'.mentions inner)
  · intro outer inner hnests
    rw [exists_mem_append] at hnests ⊢
    exact hnests.imp (h.nests outer inner) (h'.nests outer inner)
  · intro w hw inner hinner
    rw [exists_mem_append]
    exact (List.mem_append.1 hw).imp (h.named w · inner hinner) (h'.named w · inner hinner)
  · intro w hw
    simp only [exists_mem_append]
    rcases List.mem_append.1 hw with hw | hw
    · exact (h.ordered w hw).imp .inl
    · exact (h'.ordered w hw).imp .inr

/-- A variable writes nothing. -/
theorem ofVar (parent : String) (v : Variable) : Writes [.var v] [.beside parent (.var v)] [] := by
  constructor
  · simp
  · simp [Term.isCell]
  · rintro inner ⟨t, ht, hinner⟩
    rw [List.mem_singleton.1 ht, Term.mentionsCell_iff] at hinner
    exact absurd hinner (Term.not_hasCell_var v)
  · rintro outer inner ⟨t, ht, hnests⟩
    rw [List.mem_singleton.1 ht] at hnests
    exact absurd hnests (Term.not_hasCell_var v)
  · simp
  · simp

theorem content (tag : CellTag) (body : Term) :
    Writes [.cell tag body] [.content tag body] [⟨[], tag, body⟩] := by
  constructor
  · intro tag' body'
    simp [eq_comm]
  · simp
  · rintro inner ⟨t, ht, hinner⟩
    rw [List.mem_singleton.1 ht, Term.mentionsCell_cell] at hinner
    exact ⟨_, List.mem_cons_self, hinner.imp_left fun hname => List.mem_singleton.2 hname.symm⟩
  · rintro outer inner ⟨t, ht, hnests⟩
    rw [List.mem_singleton.1 ht, Term.nests_cell] at hnests
    refine ⟨_, List.mem_cons_self, .inr (hnests.imp_left fun ⟨hname, hinner⟩ => ⟨?_, hinner⟩)⟩
    exact List.mem_singleton.2 hname.symm
  · intro w hw inner hinner
    rw [List.mem_singleton.1 hw] at hinner
    refine ⟨_, List.mem_cons_self, Term.mentionsCell_cell.2 (.inl ?_)⟩
    exact (List.mem_singleton.1 hinner).symm
  · intro w hw
    rw [List.mem_singleton.1 hw]
    exact List.pairwise_singleton _ _

/-- A cell around cells adds itself in front. -/
theorem inside {tag : CellTag} {body : Term} {us : List Term} {ps : List Piece} {ws : List Written}
    (h : Writes us ps ws) (hbody : ∀ P, body.HasCell P ↔ ∃ u ∈ us, u.HasCell P)
    (hcell : ∃ u ∈ us, u.isCell = true) :
    Writes [.cell tag body] ps (ws.map (.inside tag.name)) := by
  have hmentions : ∀ inner, body.mentionsCell inner = true ↔
      ∃ u ∈ us, u.mentionsCell inner = true := by
    intro inner
    simp only [Term.mentionsCell_iff, hbody]
  constructor
  · intro tag' body'
    rw [h.contents]
    constructor
    · rintro ⟨w, hw, hpiece⟩
      exact ⟨_, List.mem_map_of_mem hw, hpiece⟩
    · rintro ⟨_, hw, hpiece⟩
      obtain ⟨w, hw', rfl⟩ := List.mem_map.1 hw
      exact ⟨w, hw', hpiece⟩
  · intro _
    rw [ne_eq, List.map_eq_nil_iff]
    exact h.occurs hcell
  · rintro inner ⟨t, ht, hinner⟩
    rw [List.mem_singleton.1 ht, Term.mentionsCell_cell, hmentions] at hinner
    rcases hinner with rfl | hinner
    · obtain ⟨w, hw⟩ := List.exists_mem_of_ne_nil ws (h.occurs hcell)
      exact ⟨_, List.mem_map_of_mem hw, .inl List.mem_cons_self⟩
    · obtain ⟨w, hw, hinner⟩ := h.mentions inner hinner
      exact ⟨_, List.mem_map_of_mem hw, hinner.imp_left (List.mem_cons_of_mem _)⟩
  · rintro outer inner ⟨t, ht, hnests⟩
    rw [List.mem_singleton.1 ht, Term.nests_cell, hmentions, Term.Nests, hbody] at hnests
    rcases hnests with ⟨rfl, hinner⟩ | hnests
    · obtain ⟨w, hw, hinner | hinner⟩ := h.mentions inner hinner
      · exact ⟨_, List.mem_map_of_mem hw, .inl ((List.singleton_sublist.2 hinner).cons_cons _)⟩
      · exact ⟨_, List.mem_map_of_mem hw, .inr (.inl ⟨List.mem_cons_self, hinner⟩)⟩
    · obtain ⟨w, hw, hpair | ⟨houter, hinner⟩ | hinner⟩ := h.nests outer inner hnests
      · exact ⟨_, List.mem_map_of_mem hw, .inl (hpair.cons _)⟩
      · exact ⟨_, List.mem_map_of_mem hw, .inr (.inl ⟨List.mem_cons_of_mem _ houter, hinner⟩)⟩
      · exact ⟨_, List.mem_map_of_mem hw, .inr (.inr hinner)⟩
  · intro _ hw inner hinner
    obtain ⟨w, hw', rfl⟩ := List.mem_map.1 hw
    refine ⟨_, List.mem_cons_self, Term.mentionsCell_cell.2 ?_⟩
    rcases List.mem_cons.1 hinner with rfl | hinner
    · exact .inl rfl
    · exact .inr ((hmentions inner).2 (h.named w hw' inner hinner))
  · intro _ hw
    obtain ⟨w, hw', rfl⟩ := List.mem_map.1 hw
    refine List.pairwise_cons.2 ⟨fun inner hinner => ?_, (h.ordered w hw').imp fun hnests => ?_⟩
    · exact ⟨_, List.mem_cons_self, Term.nests_cell.2
        (.inl ⟨rfl, (hmentions inner).2 (h.named w hw' inner hinner)⟩)⟩
    · exact ⟨_, List.mem_cons_self, Term.nests_cell.2 (.inr ((hbody _).2 hnests))⟩

/-- Terms side by side write what they write one by one. -/
theorem bag {items : List Term} {ps : List Piece} {ws : List Written} (h : Writes items ps ws) :
    Writes [.bag items] ps ws := by
  have hmentions : ∀ inner, (Term.bag items).mentionsCell inner = true ↔
      ∃ t ∈ items, t.mentionsCell inner = true := by
    intro inner
    simp only [Term.mentionsCell_iff, Term.hasCell_bag]
  constructor
  · exact h.contents
  · rintro ⟨t, ht, hcell⟩
    rw [List.mem_singleton.1 ht] at hcell
    cases hcell
  · rintro inner ⟨t, ht, hinner⟩
    rw [List.mem_singleton.1 ht, hmentions] at hinner
    exact h.mentions inner hinner
  · rintro outer inner ⟨t, ht, hnests⟩
    rw [List.mem_singleton.1 ht] at hnests
    exact h.nests outer inner (Term.hasCell_bag.1 hnests)
  · intro w hw inner hinner
    exact ⟨_, List.mem_cons_self, (hmentions inner).2 (h.named w hw inner hinner)⟩
  · intro w hw
    exact (h.ordered w hw).imp fun hnests => ⟨_, List.mem_cons_self, Term.hasCell_bag.2 hnests⟩

end Writes

/-! ### Readings that succeed -/

section

variable {tree : CellTree} {r : Rule}

mutual

theorem writes_of_readCell : ∀ (content : Term) {tag : CellTag} {f f' : Fragments},
    readCell tree r tag f content = .ok f' →
      Writes [.cell tag content] (piecesIn tree tag content) (writtenIn tree tag content)
  | .cell inner body, tag, f, f', h => by
    rw [readCell] at h
    rw [piecesIn, writtenIn]
    split at h
    · split at h
      · rename_i hleaf
        rw [if_pos hleaf, if_pos hleaf]
        exact .content ..
      · rename_i hleaf
        rw [if_neg hleaf, if_neg hleaf]
        exact (writes_of_readCell body h).inside (fun P => by simp) ⟨_, List.mem_cons_self, rfl⟩
    · cases h
  | .bag items, tag, f, f', h => by
    rw [readCell] at h
    rw [piecesIn, writtenIn]
    split at h
    · split at h
      · rename_i hcontent
        rw [if_pos hcontent, if_pos hcontent]
        exact .content ..
      · rename_i hcontent
        rw [if_neg hcontent, if_neg hcontent]
        refine (writes_of_readItems items h).inside (fun P => Term.hasCell_bag) ?_
        simp only [Bool.or_eq_true, not_or, Bool.not_eq_true', Bool.not_eq_false] at hcontent
        exact List.any_eq_true.1 hcontent.2
    · cases h
  | .app .., _, _, _, _ => .content ..
  | .var _, _, _, _, _ => .content ..
  | .token .., _, _, _, _ => .content ..
  | .rewrite .., _, _, _, _ => .content ..
  | .seq _, _, _, _, _ => .content ..

theorem writes_of_readItems : ∀ (items : List Term) {parent : String} {f f' : Fragments},
    readItems tree r parent f items = .ok f' →
      Writes items (piecesAmong tree parent items) (writtenAmong tree items)
  | [], _, _, _, _ => .nil
  | .cell tag body :: items, parent, f, f', h => by
    obtain ⟨g, hcell, hitems⟩ := Except.bind_eq_ok.1 h
    exact (writes_of_readCell body hcell).append (writes_of_readItems items hitems)
  | .var v :: items, parent, f, f', h =>
    (Writes.ofVar parent v).append (writes_of_readItems items h)
  | .app .. :: _, _, _, _, h => nomatch h
  | .token .. :: _, _, _, _, h => nomatch h
  | .rewrite .. :: _, _, _, _, h => nomatch h
  | .seq _ :: _, _, _, _, h => nomatch h
  | .bag _ :: _, _, _, _, h => nomatch h

end

theorem writes_of_readTop : ∀ (items : List Term) {f f' : Fragments},
    readTop tree r f items = .ok f' →
      Writes items (piecesAtTop tree items) (writtenAmong tree items)
  | [], _, _, _ => .nil
  | .cell tag body :: items, f, f', h => by
    obtain ⟨g, hcell, hitems⟩ := Except.bind_eq_ok.1 h
    exact (writes_of_readCell body hcell).append (writes_of_readTop items hitems)
  | .var _ :: _, _, _, h => nomatch h
  | .app .. :: _, _, _, h => nomatch h
  | .token .. :: _, _, _, h => nomatch h
  | .rewrite .. :: _, _, _, h => nomatch h
  | .seq _ :: _, _, _, h => nomatch h
  | .bag _ :: _, _, _, h => nomatch h

/-- A rule that can be read writes its contents. -/
theorem writes_of_fragmentsOf {f : Fragments} (h : fragmentsOf tree r = .ok f) :
    Writes [r.body] (pieces tree r.body) (written tree r.body) := by
  rw [fragmentsOf] at h
  split at h
  · cases h
  · rename_i items htop
    obtain ⟨g, hread, -⟩ := Except.bind_eq_ok.1 h
    have hwrites := writes_of_readTop items hread
    rw [pieces, written, htop]
    cases hbody : r.body with
    | cell tag body =>
      rw [hbody] at htop
      cases htop
      exact hwrites
    | bag items' =>
      rw [hbody] at htop
      cases htop
      exact hwrites.bag
    | _ => simp [topItems?, hbody] at htop

end

/-! ## Rules -/

/-- Every content of a rule is written in cells that lie inside one another in the configuration, in
this order. -/
def WellNested (tree : CellTree) (body : Term) : Prop :=
  ∀ w ∈ written tree body, w.names.Pairwise tree.Inside

section

variable {tree : CellTree} {d : Definition} {r r' : Rule} {configuration : Term}

theorem nests_resolveRule (ht : CellTree.ofTerm configuration = .ok tree)
    (hfunction : d.isFunctionRule r = false) (hr : resolveRule tree d r = .ok r')
    (outer inner : String) : r'.body.Nests outer inner ↔
      ∃ w ∈ written tree r.body, NestedBy tree.Inside w.tag.name w.body outer inner := by
  obtain ⟨l, hl⟩ := CellTree.laidOut_ofTerm ht
  obtain ⟨f, hf, rfl, hplaced⟩ := placed_of_resolveRule hl hfunction hr
  obtain ⟨hreads, hcells⟩ := reads_of_fragmentsOf hf
  have hwrites := writes_of_fragmentsOf hf
  have hnests := nests_place (sound_of_fragmentsOf hf) hl.nodup outer inner
    (holds_of_placed hcells hplaced) f.names
  rw [hnests]
  constructor
  · rintro ⟨name, ⟨tag, body⟩, -, he, hnested⟩
    obtain ⟨hpiece, rfl⟩ := hreads.get?_cells.1 he
    obtain ⟨w, hw, rfl, rfl⟩ := (hwrites.contents tag body).1 hpiece
    exact ⟨w, hw, (NestedBy.congr fun _ _ => hl.inside_iff).2 hnested⟩
  · rintro ⟨w, hw, hnested⟩
    have he := hreads.get?_cells.2 ⟨(hwrites.contents w.tag w.body).2 ⟨w, hw, rfl, rfl⟩, rfl⟩
    exact ⟨w.tag.name, (w.tag, w.body), hplaced _ (OrderedMap.contains_iff.2 ⟨_, he⟩), he,
      (NestedBy.congr fun _ _ => hl.inside_iff).1 hnested⟩

/-- Where a content is written in cells as the configuration has them, the cells around it and in it
lie inside one another as they are written. -/
theorem nestedBy_of_pairwise {w : Written} {outer inner : String}
    (hw : w.names.Pairwise tree.Inside) (h : [outer, inner].Sublist w.names ∨
      outer ∈ w.names ∧ w.body.mentionsCell inner = true ∨ w.body.Nests outer inner) :
    NestedBy tree.Inside w.tag.name w.body outer inner := by
  have hdown : ∀ name ∈ w.names, name = w.tag.name ∨ tree.Inside name w.tag.name := by
    intro name hname
    rcases List.mem_append.1 hname with hname | hname
    · exact .inr ((List.pairwise_append.1 hw).2.2 name hname _ List.mem_cons_self)
    · exact .inl (List.mem_singleton.1 hname)
  rcases h with hpair | ⟨houter, hinner⟩ | hbody
  · exact .inl ⟨List.pairwise_iff_forall_sublist.1 hw hpair,
      hdown inner (hpair.subset (by simp))⟩
  · exact .inr (.inl ⟨hdown outer houter, hinner⟩)
  · exact .inr (.inr hbody)

/-- Which cells lie inside one another in a rule that has been placed into a configuration: those
that a content is placed into with those that the configuration has around it, and the cells in the
content. So what the rule writes inside a cell stays inside if all contents are written in cells as
the configuration has them; and if no content holds cells, this is the only way. -/
theorem nests_of_resolveRule (ht : CellTree.ofTerm configuration = .ok tree)
    (hfunction : d.isFunctionRule r = false) (hr : resolveRule tree d r = .ok r') :
    (∀ outer inner, r'.body.Nests outer inner ↔
      ∃ w ∈ written tree r.body, NestedBy tree.Inside w.tag.name w.body outer inner) ∧
    (WellNested tree r.body → ∀ outer inner, r.body.Nests outer inner → r'.body.Nests outer inner) ∧
    ((∀ w ∈ written tree r.body, w.body.hasCells = false) →
      (∀ outer inner, r.body.Nests outer inner → r'.body.Nests outer inner) →
        WellNested tree r.body) := by
  obtain ⟨l, hl⟩ := CellTree.laidOut_ofTerm ht
  obtain ⟨f, hf, -⟩ := placed_of_resolveRule hl hfunction hr
  have hwrites := writes_of_fragmentsOf hf
  have hplaced := nests_resolveRule ht hfunction hr
  refine ⟨hplaced, fun hwell outer inner hnests => ?_, fun hplain hkept w hw => ?_⟩
  · obtain ⟨w, hw, hwritten⟩ := hwrites.nests outer inner ⟨_, List.mem_cons_self, hnests⟩
    exact (hplaced outer inner).2 ⟨w, hw, nestedBy_of_pairwise (hwell w hw) hwritten⟩
  · refine (hwrites.ordered w hw).imp fun {outer inner} ⟨t, ht, hnests⟩ => ?_
    obtain rfl := List.mem_singleton.1 ht
    obtain ⟨v, hv, hnested⟩ := (hplaced outer inner).1 (hkept outer inner hnests)
    rcases hnested with ⟨hinside, -⟩ | ⟨-, hinner⟩ | hbody
    · exact hinside
    · rw [Term.mentionsCell_iff] at hinner
      exact absurd hinner.hasCells (by simp [hplain v hv])
    · exact absurd hbody.hasCells (by simp [hplain v hv])

/-! ### Two rules that write the group -/

/-- A rule that writes a cell into the group as the configuration has it. -/
def groupedRule : Rule :=
  .ofBody (.closedCell "g" (.closedCell "h" (.constant "b")))

/-- A rule that writes the computation into the group, where the configuration has no
computation. -/
def misplacedRule : Rule :=
  .ofBody (.closedCell "g" (.closedCell "k" (.constant "a")))

theorem resolveRule_groupedRule : resolveRule groupedTree emptyDefinition groupedRule = .ok
    (.ofBody (.closedCell "T" (.bag [.closedCell "g" (.closedCell "h" (.constant "b")),
      .ofName "DotVar0"]))) := by
  cbv

theorem resolveRule_misplacedRule : resolveRule groupedTree emptyDefinition misplacedRule = .ok
    (.ofBody (.closedCell "T" (.bag [.closedCell "k" (.constant "a"), .ofName "DotVar0"]))) := by
  cbv

theorem wellNested_groupedRule : WellNested groupedTree groupedRule.body := by
  have hinside : groupedTree.Inside "g" "h" := .single (by decide)
  intro w hw
  obtain rfl := List.mem_singleton.1 hw
  exact List.pairwise_pair.2 hinside

theorem nests_groupedRule : groupedRule.body.Nests "g" "h" :=
  Term.nests_cell.2 (.inl ⟨rfl, by decide⟩)

/-- The cell inside the group stays inside. -/
theorem nests_resolveRule_groupedRule : ∃ r',
    CellTree.ofTerm groupedConfiguration = .ok groupedTree ∧
    emptyDefinition.isFunctionRule groupedRule = false ∧
    resolveRule groupedTree emptyDefinition groupedRule = .ok r' ∧
    WellNested groupedTree groupedRule.body ∧ groupedRule.body.Nests "g" "h" ∧
    r'.body.Nests "g" "h" := by
  have hfunction : emptyDefinition.isFunctionRule groupedRule = false := by cbv
  obtain ⟨-, hkept, -⟩ :=
    nests_of_resolveRule ofTerm_groupedConfiguration hfunction resolveRule_groupedRule
  exact ⟨_, ofTerm_groupedConfiguration, hfunction, resolveRule_groupedRule, wellNested_groupedRule,
    nests_groupedRule, hkept wellNested_groupedRule "g" "h" nests_groupedRule⟩

/-- The computation that is written inside the group does not lie in it when it is placed, and the
group is lost. -/
theorem exists_nesting_lost : ∃ r', CellTree.ofTerm groupedConfiguration = .ok groupedTree ∧
    emptyDefinition.isFunctionRule misplacedRule = false ∧ groupedTree.contains "g" = true ∧
    groupedTree.contains "k" = true ∧ misplacedRule.body.Nests "g" "k" ∧
    resolveRule groupedTree emptyDefinition misplacedRule = .ok r' ∧ ¬ r'.body.Nests "g" "k" ∧
    r'.body.mentionsCell "g" = false := by
  refine ⟨_, ofTerm_groupedConfiguration, by cbv, by decide, by decide,
    Term.nests_cell.2 (.inl ⟨rfl, by decide⟩), resolveRule_misplacedRule, fun hnests => ?_,
    by decide⟩
  have hgroup := hnests.mentionsCell_outer
  revert hgroup
  decide

end

end Concretization

end RewriteSemantics
