/-
# Reading what a rule writes

A rule writes pieces: contents of cells, and variables beside the cells inside a cell. A reading
that succeeds takes every piece into its stock. Nothing is left out on the way in but one thing: of
the variables beside the cells inside one cell, the stock keeps the last one.
-/
import RewriteSemantics.Proofs.Ordered.Map
import RewriteSemantics.Proofs.Result
import RewriteSemantics.Proofs.Term.Traversal
import RewriteSemantics.Rule.Concretization

namespace RewriteSemantics.Concretization

/-! ## Pieces -/

/-- A part of what a rule writes. -/
inductive Piece where
  /-- The content of a cell. -/
  | content (tag : CellTag) (body : Term)
  /-- A variable beside the cells inside a cell. -/
  | beside (parent : String) (t : Term)

/-- The term of a piece. -/
def Piece.term : Piece → Term
  | content _ body => body
  | beside _ t => t

/-- The term of a piece that stands beside the cells inside a given one. -/
def Piece.beside? (parent : String) : Piece → Option Term
  | content .. => none
  | beside name t => if name = parent then some t else none

/-- The last of the terms beside the cells inside a cell. -/
def lastBeside (parent : String) (ps : List Piece) : Option Term :=
  (ps.filterMap (Piece.beside? parent)).getLast?

/-- Whether the content of a cell is a cell or holds one among other terms. -/
def holdsCells : Term → Bool
  | .cell .. => true
  | .bag items => items.any Term.isCell
  | _ => false

mutual

/-- The pieces of a cell with the given content. -/
def piecesIn (tree : CellTree) (tag : CellTag) : Term → List Piece
  | .cell inner body =>
    if tree.isLeaf tag.name then [.content tag (.cell inner body)] else piecesIn tree inner body
  | .bag items =>
    if tree.isLeaf tag.name || !items.any Term.isCell then [.content tag (.bag items)]
    else piecesAmong tree tag.name items
  | content => [.content tag content]

/-- The pieces of the cells inside a cell and of what stands beside them. -/
def piecesAmong (tree : CellTree) (parent : String) : List Term → List Piece
  | [] => []
  | .cell tag body :: items => piecesIn tree tag body ++ piecesAmong tree parent items
  | t :: items => .beside parent t :: piecesAmong tree parent items

end

/-- The pieces of the outermost cells of a rule. -/
def piecesAtTop (tree : CellTree) : List Term → List Piece
  | [] => []
  | .cell tag body :: items => piecesIn tree tag body ++ piecesAtTop tree items
  | _ :: items => piecesAtTop tree items

/-- The pieces of the body of a rule. -/
def pieces (tree : CellTree) (body : Term) : List Piece :=
  match topItems? body with
  | some items => piecesAtTop tree items
  | none => []

theorem lastBeside_append (parent : String) (ps qs : List Piece) :
    lastBeside parent (ps ++ qs) = (lastBeside parent qs).or (lastBeside parent ps) := by
  rw [lastBeside, List.filterMap_append, List.getLast?_append]
  rfl

/-! ## What a reading takes in -/

/-- A reading of some terms has taken in some pieces: the contents are under the names of their
cells, the last of the variables under the name of the cell around it, and together the pieces are
all that the terms hold. -/
structure Reads (f f' : Fragments) (ts : List Term) (ps : List Piece) : Prop where
  cells : ∀ name e, f'.cells.get? name = some e ↔
    f.cells.get? name = some e ∨ Piece.content e.1 e.2 ∈ ps ∧ e.1.name = name
  rest : ∀ parent, f'.rest.get? parent = (lastBeside parent ps).or (f.rest.get? parent)
  names : f'.names = f.names
  vars : ∀ x, (∃ t ∈ ts, x ∈ t.variableNames) ↔ ∃ p ∈ ps, x ∈ p.term.variableNames
  inner : ∀ tag body, (∃ t ∈ ts, .cell tag body ∈ t.subterms) → holdsCells body = false →
    Piece.content tag body ∈ ps ∨
      ∃ tag' body', Piece.content tag' body' ∈ ps ∧ .cell tag body ∈ body'.subterms

namespace Reads

theorem nil (f : Fragments) : Reads f f [] [] := by
  constructor <;> simp [lastBeside]

theorem append {f g h : Fragments} {ts us : List Term} {ps qs : List Piece} (hf : Reads f g ts ps)
    (hg : Reads g h us qs) : Reads f h (ts ++ us) (ps ++ qs) := by
  constructor
  · intro name e
    rw [hg.cells, hf.cells, List.mem_append, or_and_right, or_assoc]
  · intro parent
    rw [hg.rest, hf.rest, lastBeside_append, Option.or_assoc]
  · rw [hg.names, hf.names]
  · intro x
    have hx := hf.vars x
    have hx' := hg.vars x
    simp only [List.mem_append, or_and_right, exists_or, hx, hx']
  · rintro tag body ⟨t, ht, hcell⟩ hplain
    rcases List.mem_append.1 ht with ht | ht
    · rcases hf.inner tag body ⟨t, ht, hcell⟩ hplain with hmem | ⟨tag', body', hp, hmem⟩
      · exact .inl (List.mem_append_left _ hmem)
      · exact .inr ⟨tag', body', List.mem_append_left _ hp, hmem⟩
    · rcases hg.inner tag body ⟨t, ht, hcell⟩ hplain with hmem | ⟨tag', body', hp, hmem⟩
      · exact .inl (List.mem_append_right _ hmem)
      · exact .inr ⟨tag', body', List.mem_append_right _ hp, hmem⟩

/-- A content is entered under a name that is not there yet. -/
theorem content {r : Rule} {f f' : Fragments} {tag : CellTag} {body : Term}
    (h : f.addCell r tag body = .ok f') :
    Reads f f' [.cell tag body] [.content tag body] := by
  rw [Fragments.addCell] at h
  split at h
  · cases h
  · rename_i hnew
    cases h
    have hget : f.cells.get? tag.name = none := by
      simpa [OrderedMap.contains] using hnew
    constructor
    · rintro name ⟨etag, ebody⟩
      rw [OrderedMap.get?_insert]
      by_cases hname : name = tag.name
      · subst hname
        simp [hget, eq_comm]
        intro h _
        rw [h]
      · rw [if_neg hname]
        refine (or_iff_left ?_).symm
        rintro ⟨hmem, hetag⟩
        cases List.mem_singleton.1 hmem
        exact hname hetag.symm
    · intro parent
      rfl
    · rfl
    · intro x
      simp [Piece.term]
    · rintro tag' body' ⟨t, ht, hcell⟩ -
      rw [List.mem_singleton.1 ht, Term.mem_subterms] at hcell
      rcases hcell with heq | ⟨c, hc, hcell⟩
      · cases heq
        exact .inl List.mem_cons_self
      · rw [List.mem_singleton.1 hc] at hcell
        exact .inr ⟨tag, body, List.mem_cons_self, hcell⟩

theorem beside (f : Fragments) (parent : String) (v : Variable) :
    Reads f { f with rest := f.rest.insert parent (.var v) } [.var v]
      [.beside parent (.var v)] := by
  constructor
  · intro name e
    simp
  · intro name
    rw [OrderedMap.get?_insert]
    by_cases hname : name = parent
    · simp [lastBeside, Piece.beside?, hname]
    · have hne : ¬ parent = name := fun h => hname h.symm
      simp [lastBeside, Piece.beside?, hname, hne]
  · rfl
  · intro x
    simp [Piece.term]
  · rintro tag body ⟨t, ht, hcell⟩ -
    rw [List.mem_singleton.1 ht] at hcell
    cases List.mem_singleton.1 hcell

/-- A stock that was empty has the contents that have been read. -/
theorem get?_cells {names : FreshNames} {f : Fragments} {ts : List Term} {ps : List Piece}
    (h : Reads ⟨∅, ∅, names⟩ f ts ps) {name : String} {tag : CellTag} {body : Term} :
    f.cells.get? name = some (tag, body) ↔ Piece.content tag body ∈ ps ∧ tag.name = name := by
  rw [h.cells]
  simp

/-- A stock that was empty has the last of the variables that have been read. -/
theorem get?_rest {names : FreshNames} {f : Fragments} {ts : List Term} {ps : List Piece}
    (h : Reads ⟨∅, ∅, names⟩ f ts ps) (parent : String) :
    f.rest.get? parent = lastBeside parent ps := by
  rw [h.rest]
  simp

/-- What a term without content of its own holds is what its children hold. -/
theorem around {f f' : Fragments} {t : Term} {ps : List Piece} (h : Reads f f' t.children ps)
    (hvar : t.asVariable? = none)
    (hcell : ∀ tag body, t = .cell tag body → holdsCells body = true) : Reads f f' [t] ps := by
  refine ⟨h.cells, h.rest, h.names, fun x => ?_, fun tag body hmem hplain => ?_⟩
  · rw [← h.vars x, ← Term.mem_variableNames_children hvar]
    simp
  · obtain ⟨u, hu, hmem⟩ := hmem
    rw [List.mem_singleton.1 hu, Term.mem_subterms] at hmem
    rcases hmem with heq | hmem
    · rw [hcell tag body heq.symm] at hplain
      cases hplain
    · exact h.inner tag body hmem hplain

end Reads

/-! ## Readings that succeed -/

variable {tree : CellTree} {r : Rule}

/-- Reading a content without cells takes it in as it is. -/
theorem readContent_reads {tag : CellTag} {content : Term} {f f' : Fragments}
    (hcontent : piecesIn tree tag content = [.content tag content])
    (h : (if tree.contains tag.name then f.addCell r tag content
      else .error (.unknownCell tag.name)) = .ok f') :
    Reads f f' [.cell tag content] (piecesIn tree tag content) := by
  rw [hcontent]
  split at h
  · exact .content h
  · cases h

mutual

/-- Reading a cell takes in its pieces. -/
theorem readCell_reads : ∀ (content : Term) {tag : CellTag} {f f' : Fragments},
    readCell tree r tag f content = .ok f' →
      Reads f f' [.cell tag content] (piecesIn tree tag content)
  | .cell inner body, tag, f, f', h => by
    rw [readCell] at h
    rw [piecesIn]
    split at h
    · split at h
      · rename_i hleaf
        rw [if_pos hleaf]
        exact .content h
      · rename_i hleaf
        rw [if_neg hleaf]
        exact (readCell_reads body h).around rfl fun _ _ heq => by cases heq; rfl
    · cases h
  | .bag items, tag, f, f', h => by
    rw [readCell] at h
    rw [piecesIn]
    split at h
    · split at h
      · rename_i hcontent
        rw [if_pos hcontent]
        exact .content h
      · rename_i hcontent
        rw [if_neg hcontent]
        have hbag : Reads f f' [.bag items] (piecesAmong tree tag.name items) :=
          (readItems_reads items h).around rfl fun _ _ heq => by cases heq
        refine hbag.around rfl fun _ _ heq => ?_
        cases heq
        simp only [Bool.or_eq_true, not_or, Bool.not_eq_true', Bool.not_eq_false] at hcontent
        exact hcontent.2
    · cases h
  | .app .., _, _, _, h => readContent_reads rfl h
  | .var _, _, _, _, h => readContent_reads rfl h
  | .token .., _, _, _, h => readContent_reads rfl h
  | .rewrite .., _, _, _, h => readContent_reads rfl h
  | .seq _, _, _, _, h => readContent_reads rfl h

/-- Reading what stands in a cell takes in its pieces. -/
theorem readItems_reads : ∀ (items : List Term) {parent : String} {f f' : Fragments},
    readItems tree r parent f items = .ok f' → Reads f f' items (piecesAmong tree parent items)
  | [], _, f, _, h => by
    cases h
    exact .nil f
  | .cell tag body :: items, parent, f, f', h => by
    obtain ⟨g, hcell, hitems⟩ := Except.bind_eq_ok.1 h
    exact (readCell_reads body hcell).append (readItems_reads items hitems)
  | .var v :: items, parent, f, f', h =>
    (Reads.beside f parent v).append (readItems_reads items h)
  | .app .. :: _, _, _, _, h => nomatch h
  | .token .. :: _, _, _, _, h => nomatch h
  | .rewrite .. :: _, _, _, _, h => nomatch h
  | .seq _ :: _, _, _, _, h => nomatch h
  | .bag _ :: _, _, _, _, h => nomatch h

end

theorem readTop_reads : ∀ (items : List Term) {f f' : Fragments},
    readTop tree r f items = .ok f' → Reads f f' items (piecesAtTop tree items)
  | [], f, _, h => by
    cases h
    exact .nil f
  | .cell tag body :: items, f, f', h => by
    obtain ⟨g, hcell, hitems⟩ := Except.bind_eq_ok.1 h
    exact (readCell_reads body hcell).append (readTop_reads items hitems)
  | .var _ :: _, _, _, h => nomatch h
  | .app .. :: _, _, _, h => nomatch h
  | .token .. :: _, _, _, h => nomatch h
  | .rewrite .. :: _, _, _, h => nomatch h
  | .seq _ :: _, _, _, h => nomatch h
  | .bag _ :: _, _, _, h => nomatch h

/-- The stock of a rule has all its pieces, and every name of the rule is taken. -/
theorem reads_of_fragmentsOf {f : Fragments} (h : fragmentsOf tree r = .ok f) :
    Reads ⟨∅, ∅, .avoiding r.variableNames⟩ f [r.body] (pieces tree r.body) ∧
      f.cells.isEmpty = false := by
  rw [fragmentsOf] at h
  split at h
  · cases h
  · rename_i items htop
    obtain ⟨g, hread, h⟩ := Except.bind_eq_ok.1 h
    split at h
    · cases h
    · rename_i hcells
      cases h
      refine ⟨?_, by simpa using hcells⟩
      have hreads := readTop_reads items hread
      rw [pieces, htop]
      cases hbody : r.body with
      | cell tag body =>
        rw [hbody] at htop
        cases htop
        exact hreads
      | bag items' =>
        rw [hbody] at htop
        cases htop
        exact hreads.around rfl fun _ _ heq => by cases heq
      | _ => simp [topItems?, hbody] at htop

end RewriteSemantics.Concretization
