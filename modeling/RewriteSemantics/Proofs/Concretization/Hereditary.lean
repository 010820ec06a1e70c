/-
# Properties that come through the placing of cells

The last passes over rules move what a rule writes into other cells. They cut a body at its cells
and put the pieces together again, with new variables and markers beside them. A property that terms
hand on comes through all of this. The body that comes out is the outermost cell of the
configuration.
-/
import RewriteSemantics.Proofs.Concretization.Survival
import RewriteSemantics.Proofs.Term.Hereditary
import RewriteSemantics.Rule.ComputationCell

namespace RewriteSemantics

variable {Q : Term → Prop}

section

variable (h : Term.Hereditary Q)

include h

/-! ## The computation cell and the strategy cell -/

theorem ComputationCell.wrap_of_hereditary {cell : String} {t : Term} (ht : Q t) :
    Q (wrap cell t) := by
  unfold wrap
  split
  · split
    · rename_i items _
      have hitems := (h.bag items).1 ht
      dsimp only
      split
      · exact ht
      · refine (h.bag _).2 (List.forall_mem_cons.2 ⟨(h.cell _ _).2 (h.sequence.2 ?_), ?_⟩)
        · exact fun u hu => hitems u (List.mem_filter.1 hu).1
        · exact fun u hu => hitems u (List.mem_filter.1 hu).1
    · exact ht
  · exact (h.cell _ _).2 ht

theorem StrategyCell.content_of_hereditary (hheat : Q (.constant heatMarker))
    (hcool : Q (.constant coolMarker)) (r : Rule) : Q (content r) := by
  unfold content
  split
  · exact hheat
  · split
    · exact hcool
    · exact h.new _ _ (.inl rfl)

end

namespace Concretization

variable {tree : CellTree}

/-! ## Pieces -/

section

variable (h : Term.Hereditary Q)

include h

mutual

theorem piecesIn_of_hereditary : ∀ (content : Term) {tag : CellTag}, Q content →
    ∀ p ∈ piecesIn tree tag content, Q p.term
  | content, tag, hcontent => by
    cases content with
    | cell inner body =>
      rw [piecesIn]
      split
      · exact List.forall_mem_singleton.2 hcontent
      · exact piecesIn_of_hereditary body ((h.cell _ _).1 hcontent)
    | bag items =>
      rw [piecesIn]
      split
      · exact List.forall_mem_singleton.2 hcontent
      · exact piecesAmong_of_hereditary items ((h.bag _).1 hcontent)
    | _ => exact List.forall_mem_singleton.2 hcontent

theorem piecesAmong_of_hereditary : ∀ (items : List Term) {parent : String}, (∀ t ∈ items, Q t) →
    ∀ p ∈ piecesAmong tree parent items, Q p.term
  | [], _, _ => fun _ hp => (nomatch hp)
  | t :: items, parent, hts => by
    obtain ⟨ht, hitems⟩ := List.forall_mem_cons.1 hts
    have hrest : ∀ p ∈ piecesAmong tree parent items, Q p.term :=
      piecesAmong_of_hereditary items hitems
    cases t with
    | cell tag body =>
      exact List.forall_mem_append.2 ⟨piecesIn_of_hereditary body ((h.cell _ _).1 ht), hrest⟩
    | _ => exact List.forall_mem_cons.2 ⟨ht, hrest⟩

end

theorem piecesAtTop_of_hereditary {items : List Term} (hitems : ∀ t ∈ items, Q t) :
    ∀ p ∈ piecesAtTop tree items, Q p.term := by
  induction items with
  | nil => exact fun _ hp => (nomatch hp)
  | cons t items ih =>
    obtain ⟨ht, hrest⟩ := List.forall_mem_cons.1 hitems
    cases t with
    | cell tag body =>
      exact List.forall_mem_append.2 ⟨piecesIn_of_hereditary h body ((h.cell _ _).1 ht), ih hrest⟩
    | _ => exact ih hrest

theorem pieces_of_hereditary {body : Term} (hbody : Q body) :
    ∀ p ∈ pieces tree body, Q p.term := by
  cases body with
  | cell tag content =>
    exact piecesAtTop_of_hereditary h (List.forall_mem_singleton.2 hbody)
  | bag items => exact piecesAtTop_of_hereditary h ((h.bag items).1 hbody)
  | _ => exact fun _ hp => (nomatch hp)

end

theorem mem_of_lastBeside {parent : String} {ps : List Piece} {t : Term}
    (ht : lastBeside parent ps = some t) : ∃ p ∈ ps, p.term = t := by
  obtain ⟨p, hp, hbeside⟩ := List.mem_filterMap.1 (List.mem_of_getLast? ht)
  refine ⟨p, hp, ?_⟩
  cases p with
  | content tag body => cases hbeside
  | beside name u =>
    rw [Piece.beside?] at hbeside
    split at hbeside
    · cases hbeside
      rfl
    · cases hbeside

/-! ## Placed bodies -/

/-- What a stock has to place has a property. -/
structure Fragments.Have (Q : Term → Prop) (f : Fragments) : Prop where
  cells : ∀ name e, f.cells.get? name = some e → Q e.2
  rest : ∀ name t, f.rest.get? name = some t → Q t

section

variable (h : Term.Hereditary Q)

include h

theorem fragmentsOf_of_hereditary {r : Rule} {f : Fragments} (hr : Q r.body)
    (hf : fragmentsOf tree r = .ok f) : f.Have Q := by
  obtain ⟨hreads, -⟩ := reads_of_fragmentsOf hf
  have hpieces : ∀ p ∈ pieces tree r.body, Q p.term := pieces_of_hereditary h hr
  constructor
  · intro name e he
    exact hpieces _ (hreads.get?_cells.1 he).1
  · intro name t ht
    rw [hreads.get?_rest] at ht
    obtain ⟨p, hp, rfl⟩ := mem_of_lastBeside ht
    exact hpieces p hp

theorem dotIf_of_hereditary (isOpen : Bool) (f : Fragments) : ∀ t ∈ (dotIf isOpen f).1, Q t := by
  cases isOpen with
  | false => exact fun _ ht => (nomatch ht)
  | true => exact List.forall_mem_singleton.2 (h.new _ _ (.inr rfl))

theorem close_of_hereditary (tag : CellTag) {body : Term} (hbody : Q body) (f : Fragments) :
    Q (close tag body f).1 := by
  rw [close]
  split
  · exact (h.cell _ _).2 hbody
  · refine (h.cell _ _).2 (h.sequence.2 ?_)
    refine List.forall_mem_append.2 ⟨List.forall_mem_append.2 ⟨?_, ?_⟩, ?_⟩
    · exact dotIf_of_hereditary h _ _
    · exact List.forall_mem_singleton.2 hbody
    · exact dotIf_of_hereditary h _ _

theorem besideChildren_of_hereditary {f : Fragments} (hf : f.Have Q) (name : String)
    (missing : Bool) (names : FreshNames) :
    ∀ t ∈ (besideChildren name missing { f with names := names }).1, Q t := by
  unfold besideChildren
  split
  · rename_i rest hrest
    exact List.forall_mem_singleton.2 (hf.rest name rest hrest)
  · exact dotIf_of_hereditary h _ _

theorem contentOf_of_hereditary {items : List Term} (hitems : ∀ t ∈ items, Q t) :
    Q (contentOf items) := by
  unfold contentOf
  split
  · exact List.forall_mem_singleton.1 hitems
  · exact (h.bag _).2 hitems

end

mutual

theorem place_of_hereditary (h : Term.Hereditary Q) {f : Fragments} (hf : f.Have Q) :
    ∀ (l : Layout) (names : FreshNames), Q (place f l names).1
  | .node name ls, names => by
    rw [place]
    cases hwritten : f.cells.get? name with
    | some e => exact close_of_hereditary h e.1 (hf.cells name e hwritten) _
    | none =>
      refine (h.cell _ _).2 (contentOf_of_hereditary h (List.forall_mem_append.2 ⟨?_, ?_⟩))
      · exact placeAll_of_hereditary h hf ls names
      · exact besideChildren_of_hereditary h hf _ _ _

theorem placeAll_of_hereditary (h : Term.Hereditary Q) {f : Fragments} (hf : f.Have Q) :
    ∀ (ls : List Layout) (names : FreshNames), ∀ t ∈ (placeAll f ls names).1, Q t
  | [], _ => fun _ ht => (nomatch ht)
  | l :: ls, names => by
    rw [placeAll]
    split
    · exact List.forall_mem_cons.2 ⟨place_of_hereditary h hf l names,
        placeAll_of_hereditary h hf ls _⟩
    · exact placeAll_of_hereditary h hf ls names

end

/-! ## Rules -/

/-- Placing changes the body of a rule only, and only if the rule belongs to no function. -/
theorem exists_body_of_resolveRule {configuration : Term} {d : Definition} {r r' : Rule}
    (ht : CellTree.ofTerm configuration = .ok tree) (hr : resolveRule tree d r = .ok r') :
    d.isFunctionRule r = true ∧ r' = r ∨
      ∃ l f, tree.LaidOut l ∧ fragmentsOf tree r = .ok f ∧
        r' = { r with body := (place f l f.names).1 } := by
  cases hfunction : d.isFunctionRule r with
  | true =>
    rw [resolveRule, hfunction, if_pos rfl] at hr
    cases hr
    exact .inl ⟨rfl, rfl⟩
  | false =>
    obtain ⟨l, hl⟩ := CellTree.laidOut_ofTerm ht
    obtain ⟨f, hf, hplaced, -⟩ := placed_of_resolveRule hl hfunction hr
    exact .inr ⟨l, f, hl, hf, hplaced⟩

/-- A body that is placed along the whole configuration is its outermost cell. -/
theorem exists_topCell_place {l : Layout} {f : Fragments} {r : Rule} (hl : tree.LaidOut l)
    (hf : fragmentsOf tree r = .ok f) :
    ∃ tag content, (place f l f.names).1 = .cell tag content ∧ tag.name = tree.top := by
  obtain ⟨name, ls⟩ := l
  rw [← hl.top, place]
  cases hwritten : f.cells.get? name with
  | some e =>
    obtain ⟨hreads, -⟩ := reads_of_fragmentsOf hf
    obtain ⟨content, _, _, hcell, -⟩ := exists_close e.1 e.2 f
    exact ⟨_, content, hcell, (hreads.get?_cells.1 hwritten).2⟩
  | none => exact ⟨_, _, rfl, rfl⟩

/-- The body of a placed rule is the outermost cell of the configuration. -/
theorem exists_topCell {configuration : Term} {d : Definition} {r r' : Rule}
    (ht : CellTree.ofTerm configuration = .ok tree) (hr : resolveRule tree d r = .ok r') :
    d.isFunctionRule r' = true ∨
      ∃ tag content, r'.body = .cell tag content ∧ tag.name = tree.top := by
  rcases exists_body_of_resolveRule ht hr with ⟨hfunction, rfl⟩ | ⟨l, f, hl, hf, rfl⟩
  · exact .inl hfunction
  · exact .inr (exists_topCell_place hl hf)

end Concretization

end RewriteSemantics
