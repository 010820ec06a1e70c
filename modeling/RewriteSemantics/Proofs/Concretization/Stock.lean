/-
# The stock of what is to be placed

Reading a rule fills a stock with contents of declared cells and with variables. A content is that
of a leaf, or it holds no cells. Each step of the placing takes its part out of the stock and puts
new variables beside it, at most one on each side.
-/
import RewriteSemantics.Proofs.Concretization.Hereditary

namespace RewriteSemantics.Concretization

open FreshNames (Draws)

variable {tree : CellTree} {r : Rule}

/-! ## What a reading can leave -/

/-- A stock as a reading leaves it: every content is under the name of its cell, which is declared,
and is a leaf if the content holds cells; and what stands beside cells is a variable. -/
structure Fragments.Sound (tree : CellTree) (f : Fragments) : Prop where
  named : ∀ name e, f.cells.get? name = some e → e.1.name = name
  declared : ∀ name e, f.cells.get? name = some e → tree.contains name = true
  plain : ∀ name e, f.cells.get? name = some e →
    tree.isLeaf name = true ∨ holdsCells e.2 = false
  rest : ∀ name t, f.rest.get? name = some t → ∃ v, t = .var v

namespace Fragments.Sound

variable {f f' : Fragments}

theorem empty (names : FreshNames) : Fragments.Sound tree ⟨∅, ∅, names⟩ :=
  ⟨fun _ _ h => (nomatch h), fun _ _ h => (nomatch h), fun _ _ h => (nomatch h),
    fun _ _ h => (nomatch h)⟩

theorem addCell {tag : CellTag} {body : Term} (hf : f.Sound tree)
    (hdeclared : tree.contains tag.name = true)
    (hplain : tree.isLeaf tag.name = true ∨ holdsCells body = false)
    (h : f.addCell r tag body = .ok f') : f'.Sound tree := by
  rw [Fragments.addCell] at h
  split at h
  · cases h
  · cases h
    refine ⟨fun name e he => ?_, fun name e he => ?_, fun name e he => ?_, hf.rest⟩
    · rw [OrderedMap.get?_insert] at he
      split at he
      · rename_i hname
        cases he
        exact hname.symm
      · exact hf.named name e he
    · rw [OrderedMap.get?_insert] at he
      split at he
      · rename_i hname
        rwa [hname]
      · exact hf.declared name e he
    · rw [OrderedMap.get?_insert] at he
      split at he
      · rename_i hname
        cases he
        rwa [hname]
      · exact hf.plain name e he

theorem beside (hf : f.Sound tree) (parent : String) (v : Variable) :
    Fragments.Sound tree { f with rest := f.rest.insert parent (.var v) } := by
  refine ⟨hf.named, hf.declared, hf.plain, fun name t ht => ?_⟩
  rw [OrderedMap.get?_insert] at ht
  split at ht
  · cases ht
    exact ⟨v, rfl⟩
  · exact hf.rest name t ht

end Fragments.Sound

theorem eq_ok_of_ite {c : Prop} [Decidable c] {x : Except PassError Fragments} {e : PassError}
    {f : Fragments} (h : (if c then x else .error e) = .ok f) : c ∧ x = .ok f := by
  by_cases hc : c
  · rw [if_pos hc] at h
    exact ⟨hc, h⟩
  · rw [if_neg hc] at h
    cases h

/-- Only declared cells are read. -/
theorem declared_of_readCell {content : Term} {tag : CellTag} {f f' : Fragments}
    (h : readCell tree r tag f content = .ok f') : tree.contains tag.name = true := by
  cases content with
  | cell inner body =>
    rw [readCell] at h
    exact (eq_ok_of_ite h).1
  | bag items =>
    rw [readCell] at h
    exact (eq_ok_of_ite h).1
  | _ => exact (eq_ok_of_ite h).1

/-- Reading a content in which there is nothing to go into. -/
theorem readCell_of_plain {tag : CellTag} {content : Term}
    (hdeclared : tree.contains tag.name = true)
    (hplain : tree.isLeaf tag.name = true ∨ holdsCells content = false) (f : Fragments) :
    readCell tree r tag f content = f.addCell r tag content := by
  cases content with
  | cell inner body =>
    have hleaf := hplain.resolve_right (by simp [holdsCells])
    rw [readCell, if_pos hdeclared, if_pos hleaf]
  | bag items =>
    have hcontent : (tree.isLeaf tag.name || !items.any Term.isCell) = true := by
      rcases hplain with hleaf | hnone
      · rw [hleaf, Bool.true_or]
      · rw [holdsCells] at hnone
        rw [hnone, Bool.not_false, Bool.or_true]
    rw [readCell, if_pos hdeclared, if_pos hcontent]
  | _ => exact if_pos hdeclared

mutual

theorem sound_of_readCell : ∀ (content : Term) {tag : CellTag} {f f' : Fragments},
    f.Sound tree → readCell tree r tag f content = .ok f' → f'.Sound tree
  | content, tag, f, f', hf, h => by
    have hdeclared := declared_of_readCell h
    by_cases hplain : tree.isLeaf tag.name = true ∨ holdsCells content = false
    · rw [readCell_of_plain hdeclared hplain] at h
      exact hf.addCell hdeclared hplain h
    · rw [not_or, Bool.not_eq_true, Bool.not_eq_false] at hplain
      obtain ⟨hleaf, hcells⟩ := hplain
      cases content with
      | cell inner body =>
        rw [readCell, if_pos hdeclared, hleaf, if_neg (by simp)] at h
        exact sound_of_readCell body hf h
      | bag items =>
        rw [holdsCells] at hcells
        rw [readCell, if_pos hdeclared, hleaf, hcells, if_neg (by simp)] at h
        exact sound_of_readItems items hf h
      | _ => cases hcells

theorem sound_of_readItems : ∀ (items : List Term) {parent : String} {f f' : Fragments},
    f.Sound tree → readItems tree r parent f items = .ok f' → f'.Sound tree
  | [], _, _, _, hf, h => by
    cases h
    exact hf
  | .cell tag body :: items, parent, f, f', hf, h => by
    obtain ⟨g, hcell, hitems⟩ := Except.bind_eq_ok.1 h
    exact sound_of_readItems items (sound_of_readCell body hf hcell) hitems
  | .var v :: items, parent, _, _, hf, h => sound_of_readItems items (hf.beside parent v) h
  | .app .. :: _, _, _, _, _, h => nomatch h
  | .token .. :: _, _, _, _, _, h => nomatch h
  | .rewrite .. :: _, _, _, _, _, h => nomatch h
  | .seq _ :: _, _, _, _, _, h => nomatch h
  | .bag _ :: _, _, _, _, _, h => nomatch h

end

theorem sound_of_readTop {items : List Term} {f f' : Fragments} (hf : f.Sound tree)
    (h : readTop tree r f items = .ok f') : f'.Sound tree := by
  induction items generalizing f with
  | nil =>
    cases h
    exact hf
  | cons t items ih =>
    cases t with
    | cell tag body =>
      obtain ⟨g, hcell, hitems⟩ := Except.bind_eq_ok.1 h
      exact ih (sound_of_readCell body hf hcell) hitems
    | _ => cases h

/-- The stock of a rule is sound. -/
theorem sound_of_fragmentsOf {f : Fragments} (h : fragmentsOf tree r = .ok f) : f.Sound tree := by
  rw [fragmentsOf] at h
  split at h
  · cases h
  · obtain ⟨g, hread, h⟩ := Except.bind_eq_ok.1 h
    split at h
    · cases h
    · cases h
      exact sound_of_readTop (.empty _) hread

/-! ## Closing a written cell -/

/-- What a closed cell holds: the content that was written in it, between new variables, one on each
side that was open. -/
structure Closes (tag : CellTag) (body : Term) (left right : List String) (content : Term) :
    Prop where
  length_left : left.length = tag.leftOpen.toNat
  length_right : right.length = tag.rightOpen.toNat
  items : content.sequenceItems =
    left.map Term.ofName ++ body.sequenceItems ++ right.map Term.ofName
  closed : left = [] → right = [] → content = body

theorem draws_dotIf (isOpen : Bool) (f : Fragments) :
    ∃ new, (dotIf isOpen f).1 = new.map Term.ofName ∧ new.length = isOpen.toNat ∧
      Draws dotStem f.names new (dotIf isOpen f).2.names := by
  cases isOpen with
  | false => exact ⟨[], rfl, rfl, .refl _ f.names⟩
  | true => exact ⟨[_], rfl, rfl, .fresh dotStem f.names⟩

theorem flatMap_sequenceItems_ofName (new : List String) :
    (new.map Term.ofName).flatMap Term.sequenceItems = new.map Term.ofName := by
  induction new with
  | nil => rfl
  | cons name new ih => rw [List.map_cons, List.flatMap_cons, ih]; rfl

/-- If a side was open, a variable stands there. -/
theorem exists_dot {left right : List String} (h : ¬ (left = [] ∧ right = [])) (items : List Term) :
    ∃ x, Term.ofName x ∈ left.map Term.ofName ++ items ++ right.map Term.ofName := by
  obtain ⟨x, hx⟩ : ∃ x, x ∈ left ++ right :=
    List.exists_mem_of_ne_nil _ fun hnil => h (List.append_eq_nil_iff.1 hnil)
  refine ⟨x, ?_⟩
  rcases List.mem_append.1 hx with hx | hx
  · exact List.mem_append_left _ (List.mem_append_left _ (List.mem_map_of_mem hx))
  · exact List.mem_append_right _ (List.mem_map_of_mem hx)

/-- Closing a cell draws the new variables from the left to the right. -/
theorem exists_closes (tag : CellTag) (body : Term) (f : Fragments) :
    ∃ left right content,
      (close tag body f).1 = .cell ⟨tag.name, tag.attributes, false, false⟩ content ∧
      Closes tag body left right content ∧
      Draws dotStem f.names (left ++ right) (close tag body f).2.names := by
  obtain ⟨name, attributes, isLeft, isRight⟩ := tag
  obtain ⟨left, hleft, hleftOpen, hdrawsLeft⟩ := draws_dotIf isLeft f
  obtain ⟨right, hright, hrightOpen, hdrawsRight⟩ := draws_dotIf isRight (dotIf isLeft f).2
  rw [close]
  split
  · rename_i hclosed
    obtain ⟨rfl, rfl⟩ : isLeft = false ∧ isRight = false := by simpa using hclosed
    exact ⟨[], [], body, rfl, ⟨rfl, rfl, by simp, fun _ _ => rfl⟩, .refl _ f.names⟩
  · rename_i hopen
    have hsome : ¬ (left = [] ∧ right = []) := by
      rintro ⟨rfl, rfl⟩
      cases isLeft <;> cases isRight <;> simp at hleftOpen hrightOpen hopen
    refine ⟨left, right, _, rfl, ⟨hleftOpen, hrightOpen, ?_, fun hl hr => absurd ⟨hl, hr⟩ hsome⟩,
      hdrawsLeft.append hdrawsRight⟩
    -- A variable stands on some side, so the sequence is not just what was written.
    obtain ⟨x, hdot⟩ := exists_dot hsome [body]
    rw [hleft, hright, Term.sequenceItems_sequence hdot rfl, List.flatMap_append,
      List.flatMap_append, flatMap_sequenceItems_ofName, flatMap_sequenceItems_ofName,
      List.flatMap_singleton]

/-- Closing brings no cells in. -/
theorem Closes.plain {tag : CellTag} {body content : Term} {left right : List String}
    (h : Closes tag body left right content) (hbody : holdsCells body = false) :
    holdsCells content = false := by
  by_cases hnone : left = [] ∧ right = []
  · rwa [h.closed hnone.1 hnone.2]
  · obtain ⟨x, hdot⟩ := exists_dot hnone body.sequenceItems
    rw [← h.items] at hdot
    cases content with
    | cell tag' body' => cases List.mem_singleton.1 hdot
    | bag items => cases List.mem_singleton.1 hdot
    | _ => rfl

/-! ## What stands beside the children of a cell -/

/-- What stands beside the children of a cell: the variable that was written there, or else a new
one if a child is missing. -/
inductive Beside (rest : Option Term) (missing : Prop) : List Term → List String → Prop
  | written {v : Variable} : rest = some (.var v) → Beside rest missing [.var v] []
  | new (x : String) : rest = none → missing → Beside rest missing [.ofName x] [x]
  | nothing : rest = none → ¬ missing → Beside rest missing [] []

theorem exists_beside {f : Fragments} {name : String} (missing : Bool) (names : FreshNames)
    (hrest : ∀ t, f.rest.get? name = some t → ∃ v, t = .var v) :
    ∃ new, Beside (f.rest.get? name) (missing = true)
        (besideChildren name missing { f with names := names }).1 new ∧
      Draws dotStem names new (besideChildren name missing { f with names := names }).2.names := by
  unfold besideChildren
  cases hwritten : f.rest.get? name with
  | some t =>
    obtain ⟨v, rfl⟩ := hrest t hwritten
    exact ⟨[], .written rfl, .refl _ names⟩
  | none =>
    cases missing with
    | false => exact ⟨[], .nothing rfl (by simp), .refl _ names⟩
    | true => exact ⟨[_], .new _ rfl rfl, .fresh dotStem names⟩

end RewriteSemantics.Concretization
