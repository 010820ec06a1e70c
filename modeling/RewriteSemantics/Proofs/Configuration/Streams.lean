/-
# Cells that hold their streams

Streams are attached from the leaves of a configuration up, so a cell is looked at when everything
inside it holds its streams already. What is attached to a cell is found there when it is looked at
again, and a term that is not changed at any of its nodes is not changed at all.
-/
import RewriteSemantics.Configuration.Streams
import RewriteSemantics.Proofs.Related
import RewriteSemantics.Proofs.Result
import RewriteSemantics.Proofs.Term.Traversal

namespace RewriteSemantics

/-! ## Terms that are rebuilt as they are -/

namespace Term

variable {ε : Type} {f : Term → Except ε Term} {t u : Term}

theorem tryTransformAll_eq_ok {ts us : List Term} :
    tryTransformAll f ts = .ok us ↔ List.Forall₂ (fun t u => t.tryTransform f = .ok u) ts us := by
  rw [← Except.mapM_eq_ok]
  suffices h : tryTransformAll f ts = ts.mapM (tryTransform f) by rw [h]
  induction ts with
  | nil => rfl
  | cons t ts ih =>
    rw [tryTransformAll, List.mapM_cons, ih]
    rfl

/-- A rebuilt term is the image of the node with its children rebuilt. -/
theorem exists_of_tryTransform (h : t.tryTransform f = .ok u) : ∃ v,
    List.Forall₂ (fun c c' => c.tryTransform f = .ok c') t.children v.children ∧
      (v.children = t.children → v = t) ∧ f v = .ok u := by
  cases t with
  | app label args =>
    obtain ⟨args', hargs, hu⟩ := Except.bind_eq_ok.1 h
    exact ⟨.app label args', tryTransformAll_eq_ok.1 hargs, congrArg _, hu⟩
  | var v => exact ⟨.var v, .nil, fun _ => rfl, h⟩
  | token text sort => exact ⟨.token text sort, .nil, fun _ => rfl, h⟩
  | rewrite l r =>
    obtain ⟨l', hl, h⟩ := Except.bind_eq_ok.1 h
    obtain ⟨r', hr, hu⟩ := Except.bind_eq_ok.1 h
    refine ⟨.rewrite l' r', .cons hl (.cons hr .nil), fun heq => ?_, hu⟩
    cases heq
    rfl
  | seq items =>
    obtain ⟨items', hitems, hu⟩ := Except.bind_eq_ok.1 h
    exact ⟨.seq items', tryTransformAll_eq_ok.1 hitems, congrArg _, hu⟩
  | bag items =>
    obtain ⟨items', hitems, hu⟩ := Except.bind_eq_ok.1 h
    exact ⟨.bag items', tryTransformAll_eq_ok.1 hitems, congrArg _, hu⟩
  | cell tag body =>
    obtain ⟨body', hbody, hu⟩ := Except.bind_eq_ok.1 h
    refine ⟨.cell tag body', .cons hbody .nil, fun heq => ?_, hu⟩
    cases heq
    rfl

/-- A term whose children are rebuilt as they are is its image. -/
theorem tryTransform_of_children (h : ∀ c ∈ t.children, c.tryTransform f = .ok c) :
    t.tryTransform f = f t := by
  have hall : ∀ ts : List Term, (∀ c ∈ ts, c.tryTransform f = .ok c) →
      tryTransformAll f ts = .ok ts :=
    fun ts hts => tryTransformAll_eq_ok.2 (List.forall₂_same.2 hts)
  cases t with
  | app label args =>
    rw [tryTransform, hall args h]
    rfl
  | var v => rfl
  | token text sort => rfl
  | rewrite l r =>
    rw [tryTransform, h l List.mem_cons_self, h r (List.mem_cons_of_mem _ List.mem_cons_self)]
    rfl
  | seq items =>
    rw [tryTransform, hall items h]
    rfl
  | bag items =>
    rw [tryTransform, hall items h]
    rfl
  | cell tag body =>
    rw [tryTransform, h body List.mem_cons_self]
    rfl

/-- A rebuilt term is rebuilt as it is, if this is true of each node with such children below. -/
theorem tryTransform_tryTransform (hf : ∀ v u, (∀ c ∈ v.children, c.tryTransform f = .ok c) →
    f v = .ok u → u.tryTransform f = .ok u) (h : t.tryTransform f = .ok u) :
    u.tryTransform f = .ok u := by
  induction t using induct_children generalizing u with
  | step t ih =>
    obtain ⟨v, hchildren, -, hu⟩ := exists_of_tryTransform h
    refine hf v u (fun c' hc' => ?_) hu
    obtain ⟨c, hc, hcc'⟩ := hchildren.flip.exists_of_mem hc'
    exact ih c hc hcc'

/-- A term none of whose nodes is changed is rebuilt as it is. -/
theorem eq_of_tryTransform (hf : ∀ v ∈ t.subterms, ∀ u, f v = .ok u → u = v)
    (h : t.tryTransform f = .ok u) : u = t := by
  induction t using induct_children generalizing u with
  | step t ih =>
    obtain ⟨v, hchildren, hv, hu⟩ := exists_of_tryTransform h
    have hsame : v.children = t.children := by
      refine (List.forall₂_eq_eq_eq ▸ hchildren.imp_of_mem fun c hc c' hcc' => ?_).symm
      exact (ih c hc (fun w hw => hf w (mem_subterms_of_child hc hw)) hcc').symm
    cases hv hsame
    exact hf t (self_mem_subterms t) u hu

end Term

/-! ## Cells -/

/-- A text that is read from attributes is there. -/
theorem Attributes.asText?_of_text? {attributes : Attributes} {key content : String}
    (h : attributes.text? key = .ok (some content)) :
    (attributes.get? key).bind (·.asText?) = some content := by
  unfold text? read? at h
  split at h
  · cases h
  · split at h
    · cases h
    · rename_i value hvalue
      split at h
      · rename_i found hfound
        cases h
        rw [hvalue]
        exact hfound
      · cases h

namespace Stream

open Term

variable {t u : Term} {cell stream : String}

/-- The item of a stream has the stream in it and no cells. -/
theorem item_eq_ok (h : item cell stream = .ok t) :
    t.anySubterm isStream = true ∧ t.tryTransform resolveCell = .ok t := by
  unfold item at h
  split at h
  · cases h
    exact ⟨by decide, rfl⟩
  · split at h
    · cases h
      exact ⟨by decide, rfl⟩
    · cases h

/-- A content has a stream once one is attached to it, and asks for no more than it did. -/
theorem attach_eq_ok (h : attach cell stream t = .ok u) : u.anySubterm isStream = true ∧
    (t.tryTransform resolveCell = .ok t → u.tryTransform resolveCell = .ok u) := by
  unfold attach at h
  split at h
  · rename_i hfound
    cases h
    exact ⟨hfound, id⟩
  · obtain ⟨i, hi, hu⟩ := Except.bind_eq_ok.1 h
    obtain ⟨hstream, hitem⟩ := item_eq_ok hi
    cases hu
    split
    · exact ⟨hstream, fun _ => hitem⟩
    · constructor
      · rw [anySubterm, List.any_eq_true] at hstream ⊢
        obtain ⟨s, hs, hstream⟩ := hstream
        exact ⟨s, mem_subterms_of_child (List.mem_cons_of_mem _ List.mem_cons_self) hs, hstream⟩
      · refine fun ht => tryTransform_of_children fun c hc => ?_
        rcases List.mem_cons.1 hc with rfl | hc
        · exact ht
        · exact List.mem_singleton.1 hc ▸ hitem

/-- A cell gets a stream if it asks for one, and stays as it is if it does not. -/
theorem resolveCell_cell {tag : CellTag} {body : Term} (h : resolveCell (.cell tag body) = .ok u) :
    (∃ stream body', tag.attributes.text? Attributes.stream = .ok (some stream) ∧
      attach tag.name stream body = .ok body' ∧ u = .cell tag body') ∨
      tag.attributes.text? Attributes.stream = .ok none ∧ u = .cell tag body := by
  obtain ⟨asked, hasked, h⟩ := Except.bind_eq_ok.1 h
  rw [Except.mapError_eq_ok] at hasked
  cases asked with
  | some stream =>
    obtain ⟨body', hbody, hu⟩ := Except.bind_eq_ok.1 h
    cases hu
    exact .inl ⟨stream, body', hasked, hbody, rfl⟩
  | none =>
    cases h
    exact .inr ⟨hasked, rfl⟩

theorem resolveCell_eq_self_of_text? {tag : CellTag} {body : Term}
    (h : tag.attributes.text? Attributes.stream = .ok none) :
    resolveCell (.cell tag body) = .ok (.cell tag body) := by
  rw [resolveCell, h]
  rfl

theorem resolveCell_eq_self_of_anySubterm {tag : CellTag} {body : Term}
    (h : tag.attributes.text? Attributes.stream = .ok (some stream))
    (hbody : body.anySubterm isStream = true) :
    resolveCell (.cell tag body) = .ok (.cell tag body) := by
  rw [resolveCell, h]
  show (do .ok (Term.cell tag (← attach tag.name stream body))) = _
  rw [attach, if_pos hbody]
  rfl

/-- Attaching streams a second time changes nothing. -/
theorem tryTransform_resolveCell (h : t.tryTransform resolveCell = .ok u) :
    u.tryTransform resolveCell = .ok u := by
  refine tryTransform_tryTransform (fun v u hchildren hu => ?_) h
  cases v with
  | cell tag body =>
    have hbody := hchildren body List.mem_cons_self
    rcases resolveCell_cell hu with ⟨stream, body', hasked, hattach, rfl⟩ | ⟨hasked, rfl⟩
    · obtain ⟨hstream, hkept⟩ := attach_eq_ok hattach
      have hchildren' : ∀ c ∈ (Term.cell tag body').children, c.tryTransform resolveCell = .ok c :=
        List.forall_mem_singleton.2 (hkept hbody)
      rw [tryTransform_of_children hchildren']
      exact resolveCell_eq_self_of_anySubterm hasked hstream
    · rw [tryTransform_of_children hchildren]
      exact resolveCell_eq_self_of_text? hasked
  | _ =>
    cases hu
    rw [tryTransform_of_children hchildren]
    rfl

/-- A term without cells that ask for streams stays as it is. -/
theorem eq_of_tryTransform_resolveCell (ht : ∀ v ∈ t.subterms, isStreamCell v = false)
    (h : t.tryTransform resolveCell = .ok u) : u = t := by
  refine eq_of_tryTransform (fun v hv u hu => ?_) h
  cases v with
  | cell tag body =>
    rcases resolveCell_cell hu with ⟨stream, _, hasked, -, -⟩ | ⟨-, rfl⟩
    · have hnone := ht _ hv
      obtain ⟨value, hvalue, hcontent⟩ :=
        Option.bind_eq_some_iff.1 (Attributes.asText?_of_text? hasked)
      rw [isStreamCell, hvalue, Option.any_some, hcontent] at hnone
      cases hnone
    · rfl
  | _ =>
    cases hu
    rfl

end Stream

end RewriteSemantics
