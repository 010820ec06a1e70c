/-
# What a placed body holds

A body placed along a layout holds the contents of the placed cells and the variables beside the
children of the passed ones, and nothing else but new variables. The content of a placed cell stands
in a cell of the same name and attributes, with a new variable on each side that was open.
-/
import RewriteSemantics.Proofs.Concretization.Placement
import RewriteSemantics.Proofs.FreshNames
import RewriteSemantics.Proofs.Term.Traversal

namespace RewriteSemantics.Concretization

open Layout

/-! ## New variables -/

/-- Some terms are variables of names that are not taken. -/
def AreDots (names : FreshNames) (ts : List Term) : Prop :=
  ∀ t ∈ ts, ∃ name, t = .ofName name ∧ name ∉ names.taken

theorem AreDots.notMem {names : FreshNames} {ts : List Term} (h : AreDots names ts) {x : String}
    (hx : x ∈ names.taken) : ¬ ∃ t ∈ ts, x ∈ t.variableNames := by
  rintro ⟨t, ht, hxt⟩
  obtain ⟨name, rfl, hname⟩ := h t ht
  rw [Term.ofName, Term.mem_variableNames_var] at hxt
  rw [← hxt] at hx
  exact hname hx

theorem areDots_dotIf (isOpen : Bool) (f : Fragments) : AreDots f.names (dotIf isOpen f).1 := by
  cases isOpen with
  | false => exact fun _ h => (nomatch h)
  | true =>
    intro t ht
    rw [List.mem_singleton.1 ht]
    exact ⟨_, rfl, FreshNames.fresh_notMem f.names dotStem⟩

/-- A taken name stays taken. -/
theorem taken_dotIf (isOpen : Bool) {f : Fragments} {x : String} (hx : x ∈ f.names.taken) :
    x ∈ (dotIf isOpen f).2.names.taken := by
  cases isOpen with
  | false => exact hx
  | true => exact FreshNames.mem_taken_fresh.2 (.inr hx)

theorem AreDots.flatMap_sequenceItems {names : FreshNames} {ts : List Term} (h : AreDots names ts) :
    ts.flatMap Term.sequenceItems = ts := by
  induction ts with
  | nil => rfl
  | cons t ts ih =>
    obtain ⟨dot, rfl, -⟩ := h t List.mem_cons_self
    rw [List.flatMap_cons, ih fun u hu => h u (List.mem_cons_of_mem _ hu)]
    rfl

/-! ## Closed cells -/

/-- A closed cell holds what was written in it, between variables on the sides that were open. -/
theorem exists_close (tag : CellTag) (body : Term) (f : Fragments) :
    ∃ content left right,
      (close tag body f).1 = .cell ⟨tag.name, tag.attributes, false, false⟩ content ∧
      content.sequenceItems = left ++ body.sequenceItems ++ right ∧
      AreDots f.names left ∧ AreDots f.names right := by
  obtain ⟨name, attributes, isLeft, isRight⟩ := tag
  have hleft := areDots_dotIf isLeft f
  have hright : AreDots f.names (dotIf isRight (dotIf isLeft f).2).1 := by
    intro t ht
    obtain ⟨dot, rfl, hdot⟩ := areDots_dotIf isRight _ t ht
    exact ⟨dot, rfl, fun hmem => hdot (taken_dotIf isLeft hmem)⟩
  rw [close]
  split
  · rename_i h
    obtain ⟨rfl, rfl⟩ : isLeft = false ∧ isRight = false := by simpa using h
    exact ⟨body, [], [], rfl, by simp, hleft, hright⟩
  · rename_i h
    -- A variable stands on some side, so the sequence does not collapse into a sequence written.
    have hdot : ∃ dot, .ofName dot ∈ (dotIf isLeft f).1 ++ [body] ++
        (dotIf isRight (dotIf isLeft f).2).1 := by
      cases isLeft with
      | true => exact ⟨_, List.mem_append_left _ (List.mem_append_left _ List.mem_cons_self)⟩
      | false =>
        cases isRight with
        | true => exact ⟨_, List.mem_append_right _ List.mem_cons_self⟩
        | false => simp at h
    obtain ⟨dot, hdot⟩ := hdot
    refine ⟨_, _, _, rfl, ?_, hleft, hright⟩
    rw [Term.sequenceItems_sequence hdot rfl, List.flatMap_append, List.flatMap_append,
      hleft.flatMap_sequenceItems, hright.flatMap_sequenceItems, List.flatMap_singleton]

theorem taken_close (tag : CellTag) (body : Term) {f : Fragments} {x : String}
    (hx : x ∈ f.names.taken) : x ∈ (close tag body f).2.names.taken := by
  rw [close]
  split
  · exact hx
  · exact taken_dotIf _ (taken_dotIf _ hx)

theorem mem_variableNames_close {tag : CellTag} {body : Term} {f : Fragments} {x : String}
    (hx : x ∈ f.names.taken) :
    x ∈ (close tag body f).1.variableNames ↔ x ∈ body.variableNames := by
  obtain ⟨content, left, right, hcell, hitems, hleft, hright⟩ := exists_close tag body f
  have hl := hleft.notMem hx
  have hr := hright.notMem hx
  rw [hcell, Term.mem_variableNames_cell, Term.mem_variableNames_sequenceItems, hitems,
    Term.mem_variableNames_sequenceItems (t := body)]
  constructor
  · rintro ⟨t, ht, hxt⟩
    rcases List.mem_append.1 ht with ht | ht
    · rcases List.mem_append.1 ht with ht | ht
      · exact absurd ⟨t, ht, hxt⟩ hl
      · exact ⟨t, ht, hxt⟩
    · exact absurd ⟨t, ht, hxt⟩ hr
  · rintro ⟨t, ht, hxt⟩
    exact ⟨t, List.mem_append_left _ (List.mem_append_right _ ht), hxt⟩

/-! ## Passed cells -/

/-- Whether a variable occurs in what is to stand in a cell. -/
def InContent (f : Fragments) (name x : String) : Prop :=
  ∃ e, f.cells.get? name = some e ∧ x ∈ e.2.variableNames

/-- Whether a variable occurs beside the children of a cell. -/
def InRest (f : Fragments) (name x : String) : Prop :=
  ∃ t, f.rest.get? name = some t ∧ x ∈ t.variableNames

theorem mem_variableNames_contentOf {items : List Term} {x : String} :
    x ∈ (contentOf items).variableNames ↔ ∃ t ∈ items, x ∈ t.variableNames := by
  unfold contentOf
  split
  · simp
  · exact Term.mem_variableNames_bag

theorem mem_subterms_contentOf {items : List Term} {t u : Term} (ht : t ∈ items)
    (hu : u ∈ t.subterms) : u ∈ (contentOf items).subterms := by
  unfold contentOf
  split
  · rwa [← List.mem_singleton.1 ht]
  · exact Term.mem_subterms_of_child ht hu

theorem taken_besideChildren (name : String) (missing : Bool) {f : Fragments} {x : String}
    (hx : x ∈ f.names.taken) : x ∈ (besideChildren name missing f).2.names.taken := by
  unfold besideChildren
  split
  · exact hx
  · exact taken_dotIf missing hx

theorem mem_variableNames_besideChildren (name : String) (missing : Bool) {f : Fragments}
    {x : String} (hx : x ∈ f.names.taken) :
    (∃ t ∈ (besideChildren name missing f).1, x ∈ t.variableNames) ↔ InRest f name x := by
  unfold besideChildren InRest
  cases f.rest.get? name with
  | some t => simp
  | none => simp [(areDots_dotIf missing f).notMem hx]

/-! ## Placed bodies -/

theorem exists_mem_append {α : Type} {p : α → Prop} {l l' : List α} :
    (∃ a ∈ l ++ l', p a) ↔ (∃ a ∈ l, p a) ∨ ∃ a ∈ l', p a := by
  simp only [List.mem_append, or_and_right, exists_or]

mutual

/-- A taken name stays taken along a layout. -/
theorem taken_place {f : Fragments} {x : String} :
    ∀ (l : Layout) {names : FreshNames}, x ∈ names.taken → x ∈ (place f l names).2.taken
  | .node name ls, names, hx => by
    rw [place]
    split
    · exact taken_close _ _ hx
    · exact taken_besideChildren _ _ (taken_placeAll ls hx)

/-- A taken name stays taken along some layouts. -/
theorem taken_placeAll {f : Fragments} {x : String} :
    ∀ (ls : List Layout) {names : FreshNames}, x ∈ names.taken → x ∈ (placeAll f ls names).2.taken
  | [], _, hx => hx
  | l :: ls, names, hx => by
    rw [placeAll]
    split
    · exact taken_placeAll ls (taken_place l hx)
    · exact taken_placeAll ls hx

end

mutual

/-- The variables of a placed body, apart from the new ones: those of the contents of the placed
cells and those beside the children of the passed cells. -/
theorem mem_variableNames_place {f : Fragments} {x : String} :
    ∀ (l : Layout) {names : FreshNames}, x ∈ names.taken →
      (x ∈ (place f l names).1.variableNames ↔
        (∃ name ∈ placed f l, InContent f name x) ∨ ∃ name ∈ passed f l, InRest f name x)
  | .node name ls, names, hx => by
    rw [place, placed, passed, OrderedMap.contains]
    cases hwritten : f.cells.get? name with
    | some written =>
      obtain ⟨tag, body⟩ := written
      simp [mem_variableNames_close (f := { f with names := names }) hx, InContent, hwritten]
    | none =>
      have hall := mem_variableNames_placeAll (f := f) ls hx
      have hbeside := mem_variableNames_besideChildren name (ls.any (!holds f ·))
        (f := { f with names := (placeAll f ls names).2 }) (taken_placeAll (f := f) ls hx)
      show x ∈ (Term.closedCell name (contentOf _)).variableNames ↔ _
      rw [Term.closedCell, Term.mem_variableNames_cell, mem_variableNames_contentOf,
        exists_mem_append, hall, hbeside, or_assoc, if_neg (by simp), if_neg (by simp),
        List.exists_mem_cons_iff]
      exact or_congr_right or_comm

/-- The variables of the bodies placed along some layouts. -/
theorem mem_variableNames_placeAll {f : Fragments} {x : String} :
    ∀ (ls : List Layout) {names : FreshNames}, x ∈ names.taken →
      ((∃ t ∈ (placeAll f ls names).1, x ∈ t.variableNames) ↔
        (∃ name ∈ placedAll f ls, InContent f name x) ∨
          ∃ name ∈ passedAll f ls, InRest f name x)
  | [], _, _ => by simp [placeAll, placedAll, passedAll]
  | l :: ls, names, hx => by
    rw [placeAll, placedAll, passedAll]
    cases hholds : holds f l with
    | false => simpa [placed_of_not_holds hholds] using mem_variableNames_placeAll ls hx
    | true =>
      have hhead := mem_variableNames_place (f := f) l hx
      have htail := mem_variableNames_placeAll (f := f) ls (taken_place (f := f) l hx)
      show (∃ t ∈ (place f l names).1 :: (placeAll f ls (place f l names).2).1,
        x ∈ t.variableNames) ↔ _
      rw [if_pos rfl, List.exists_mem_cons_iff, hhead, htail, exists_mem_append,
        exists_mem_append]
      exact or_or_or_comm

end

mutual

/-- The content of a placed cell stands in a cell of its name and attributes. -/
theorem exists_cell_of_placed {f : Fragments} {name : String} {tag : CellTag} {body : Term}
    (hget : f.cells.get? name = some (tag, body)) :
    ∀ (l : Layout) {names : FreshNames}, name ∈ placed f l →
      ∃ content, .cell ⟨tag.name, tag.attributes, false, false⟩ content ∈
        (place f l names).1.subterms ∧ body.sequenceItems <:+: content.sequenceItems
  | .node outer ls, names, hname => by
    rw [place]
    cases hwritten : f.cells.get? outer with
    | some written =>
      rw [placed_of_content hwritten, List.mem_singleton] at hname
      subst hname
      cases hget.symm.trans hwritten
      obtain ⟨content, left, right, hcell, hitems, -⟩ :=
        exists_close tag body { f with names := names }
      refine ⟨content, ?_, hitems ▸ List.infix_append left _ right⟩
      show _ ∈ (close tag body { f with names := names }).1.subterms
      rw [hcell]
      exact Term.self_mem_subterms _
    | none =>
      rw [placed_of_children hwritten] at hname
      obtain ⟨content, item, hitem, hcell, hwithin⟩ := exists_cell_of_placedAll hget ls hname
      refine ⟨content, Term.mem_subterms_of_child List.mem_cons_self ?_, hwithin⟩
      exact mem_subterms_contentOf (List.mem_append_left _ hitem) hcell

/-- The content of a placed cell stands in one of the bodies placed along some layouts. -/
theorem exists_cell_of_placedAll {f : Fragments} {name : String} {tag : CellTag} {body : Term}
    (hget : f.cells.get? name = some (tag, body)) :
    ∀ (ls : List Layout) {names : FreshNames}, name ∈ placedAll f ls →
      ∃ content, ∃ t ∈ (placeAll f ls names).1,
        .cell ⟨tag.name, tag.attributes, false, false⟩ content ∈ t.subterms ∧
          body.sequenceItems <:+: content.sequenceItems
  | [], _, hname => nomatch hname
  | l :: ls, names, hname => by
    rw [placedAll, List.mem_append] at hname
    rw [placeAll]
    cases hholds : holds f l with
    | false =>
      rw [placed_of_not_holds hholds] at hname
      exact exists_cell_of_placedAll hget ls (hname.resolve_left (by simp))
    | true =>
      rcases hname with hname | hname
      · obtain ⟨content, hcell, hwithin⟩ := exists_cell_of_placed hget l hname
        exact ⟨content, _, List.mem_cons_self, hcell, hwithin⟩
      · obtain ⟨content, t, ht, hcell, hwithin⟩ := exists_cell_of_placedAll hget ls hname
        exact ⟨content, t, List.mem_cons_of_mem _ ht, hcell, hwithin⟩

end

end RewriteSemantics.Concretization
