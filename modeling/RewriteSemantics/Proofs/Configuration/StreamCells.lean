/-
# Which cells hold their own stream

A cell that asks for a stream is vacant if no stream and no other such cell stands in it. Vacant
cells get the stream they ask for, and a name that is none of a stream is noticed at vacant cells
only. Any other cell is left with what is in it: the streams that were written there, and those of
the vacant cells inside, which have been served before. So it holds its own stream only if that is
among these, whatever it asks for.
-/
import Mathlib
import RewriteSemantics.Proofs.Configuration.Streams
import RewriteSemantics.Proofs.Definition.Views
import RewriteSemantics.Proofs.Term.Labels

namespace RewriteSemantics

/-- What is read as a text, or as nothing, is what is there if it is a text. -/
theorem Attributes.eq_of_text? {attributes : Attributes} {key : String} {found : Option String}
    (h : attributes.text? key = .ok found) : found = (attributes.get? key).bind (·.asText?) := by
  cases found with
  | some content => exact (asText?_of_text? h).symm
  | none =>
    unfold text? read? at h
    split at h
    · rename_i hmarker
      rw [hmarker]
      rfl
    · split at h
      · rename_i hnone
        rw [hnone]
        rfl
      · split at h
        · cases h
        · cases h

/-! ## Terms that are rebuilt around their cells -/

namespace Term

variable {ε : Type} {f : Term → Except ε Term} {t u : Term}

theorem subterms_eq_cons (t : Term) : t.subterms = t :: t.children.flatMap subterms := by
  cases t <;> simp [subterms, children, subtermsAll_eq_flatMap]

theorem Applies.of_subterm {s : Term} {label : String} (hs : s ∈ t.subterms)
    (h : s.Applies label) : t.Applies label := by
  obtain ⟨args, hargs⟩ := h
  exact ⟨args, subterms_trans hs hargs⟩

/-- Where a term is rebuilt, so is everything in it. -/
theorem exists_tryTransform_subterm (h : t.tryTransform f = .ok u) {s : Term}
    (hs : s ∈ t.subterms) : ∃ s', s.tryTransform f = .ok s' := by
  induction t using induct_children generalizing u with
  | step t ih =>
    rcases mem_subterms.1 hs with rfl | ⟨c, hc, hs⟩
    · exact ⟨u, h⟩
    · obtain ⟨v, hchildren, -⟩ := exists_of_tryTransform h
      obtain ⟨c', -, hc'⟩ := hchildren.exists_of_mem hc
      exact ih c hc hc' hs

section

variable (hf : ∀ v, v.isCell = false → f v = .ok v) (ht : t.isCell = false)

include hf ht

/-- Where cells only are changed, any other node keeps its label and its children are rebuilt. -/
theorem children_of_tryTransform (h : t.tryTransform f = .ok u) : u.labelHere? = t.labelHere? ∧
    u.isCell = false ∧
      List.Forall₂ (fun c c' => c.tryTransform f = .ok c') t.children u.children := by
  cases t with
  | app label args =>
    obtain ⟨args', hargs, hu⟩ := Except.bind_eq_ok.1 h
    cases (hf _ rfl).symm.trans hu
    exact ⟨rfl, rfl, tryTransformAll_eq_ok.1 hargs⟩
  | var v =>
    cases (hf _ rfl).symm.trans h
    exact ⟨rfl, rfl, .nil⟩
  | token text sort =>
    cases (hf _ rfl).symm.trans h
    exact ⟨rfl, rfl, .nil⟩
  | rewrite l r =>
    obtain ⟨l', hl, h⟩ := Except.bind_eq_ok.1 h
    obtain ⟨r', hr, hu⟩ := Except.bind_eq_ok.1 h
    cases (hf _ rfl).symm.trans hu
    exact ⟨rfl, rfl, .cons hl (.cons hr .nil)⟩
  | seq items =>
    obtain ⟨items', hitems, hu⟩ := Except.bind_eq_ok.1 h
    cases (hf _ rfl).symm.trans hu
    exact ⟨rfl, rfl, tryTransformAll_eq_ok.1 hitems⟩
  | bag items =>
    obtain ⟨items', hitems, hu⟩ := Except.bind_eq_ok.1 h
    cases (hf _ rfl).symm.trans hu
    exact ⟨rfl, rfl, tryTransformAll_eq_ok.1 hitems⟩
  | cell tag body => cases ht

/-- Where cells only are changed, any other node can be rebuilt if its children can. -/
theorem exists_tryTransform (h : ∀ c ∈ t.children, ∃ c', c.tryTransform f = .ok c') :
    ∃ u, t.tryTransform f = .ok u := by
  have hall {ts : List Term} (hts : ∀ c ∈ ts, ∃ c', c.tryTransform f = .ok c') :
      ∃ us, tryTransformAll f ts = .ok us := by
    simp only [tryTransformAll_eq_ok]
    exact List.exists_forall₂ hts
  cases t with
  | app label args =>
    obtain ⟨args', hargs⟩ := hall h
    exact ⟨_, Except.bind_eq_ok.2 ⟨args', hargs, hf _ rfl⟩⟩
  | var v => exact ⟨_, hf _ rfl⟩
  | token text sort => exact ⟨_, hf _ rfl⟩
  | rewrite l r =>
    obtain ⟨l', hl⟩ := h l List.mem_cons_self
    obtain ⟨r', hr⟩ := h r (List.mem_cons_of_mem _ List.mem_cons_self)
    exact ⟨_, Except.bind_eq_ok.2 ⟨l', hl, Except.bind_eq_ok.2 ⟨r', hr, hf _ rfl⟩⟩⟩
  | seq items =>
    obtain ⟨items', hitems⟩ := hall h
    exact ⟨_, Except.bind_eq_ok.2 ⟨items', hitems, hf _ rfl⟩⟩
  | bag items =>
    obtain ⟨items', hitems⟩ := hall h
    exact ⟨_, Except.bind_eq_ok.2 ⟨items', hitems, hf _ rfl⟩⟩
  | cell tag body => cases ht

end

end Term

/-! ## Rewritings that always succeed -/

namespace Definition

/-- If every sentence has images, all sentences can be replaced by theirs. -/
theorem exists_mapSentences {d : Definition} {f : Sentence → Except PassError (List Sentence)}
    (h : ∀ s ∈ d.allSentences, ∃ image, f s = .ok image) : ∃ e, d.mapSentences f = .ok e := by
  have hentries : ∀ x ∈ d.modules.entries, ∃ y,
      ModuleMap.RewritesEntry (fun _ => Images f) x y := by
    intro x hx
    have hsentences : ∀ s ∈ x.2.sentences, ∃ image, f s = .ok image :=
      fun s hs => h s (mem_allSentences.2 ⟨x.2, List.mem_map_of_mem hx, hs⟩)
    obtain ⟨images, himages⟩ := List.exists_forall₂ hsentences
    exact ⟨(x.1, ⟨x.2.name, x.2.imports, images.flatten, x.2.attributes⟩), rfl, _,
      ⟨images, himages, rfl⟩, rfl⟩
  obtain ⟨entries, hrewrites⟩ := List.exists_forall₂ hentries
  obtain ⟨e, -, he⟩ := exists_rewrites hrewrites
  exact ⟨e, mapSentences_eq_ok.2 he⟩

end Definition

namespace Stream

open Definition Term

variable {t u : Term} {cell stream label : String}

/-! ## Streams -/

/-- A label is that of a stream. -/
def IsLabel (label : String) : Prop :=
  label = inputLabel ∨ label = outputLabel

/-- The label of the stream of a name. -/
def label? (stream : String) : Option String :=
  if stream = "stdin" then some inputLabel
  else if stream = "stdout" then some outputLabel
  else none

theorem isLabel_of_label? (h : label? stream = some label) : IsLabel label := by
  unfold label? at h
  split at h
  · cases h
    exact .inl rfl
  · split at h
    · cases h
      exact .inr rfl
    · cases h

theorem applies_of_topLabel? (h : t.topLabel? = some label) : t.Applies label := by
  induction t using induct with
  | app f args =>
    cases h
    exact applies_iff.2 (.inl ⟨args, rfl⟩)
  | rewrite l r ihl => exact applies_iff.2 (.inr ⟨l, List.mem_cons_self, ihl h⟩)
  | _ => cases h

/-- A term holds a stream if it applies the label of one. -/
theorem anySubterm_isStream_iff :
    t.anySubterm isStream = true ↔ ∃ label, IsLabel label ∧ t.Applies label := by
  rw [anySubterm, List.any_eq_true]
  constructor
  · rintro ⟨s, hs, hstream⟩
    rcases Bool.or_eq_true_iff.1 hstream with h | h
    · exact ⟨_, .inl rfl, .of_subterm hs (applies_of_topLabel? (of_decide_eq_true h))⟩
    · exact ⟨_, .inr rfl, .of_subterm hs (applies_of_topLabel? (of_decide_eq_true h))⟩
  · rintro ⟨label, rfl | rfl, args, hargs⟩
    · exact ⟨_, hargs, rfl⟩
    · exact ⟨_, hargs, rfl⟩

/-! ## Cells that ask for streams -/

/-- A cell that asks for a stream: its tag, the name of the stream, and its content. -/
structure Request where
  tag : CellTag
  stream : String
  body : Term
  deriving DecidableEq

/-- What a term asks for if it is a cell that asks for a stream. -/
def request? : Term → Option Request
  | .cell tag body =>
    ((tag.attributes.get? Attributes.stream).bind (·.asText?)).map fun stream => ⟨tag, stream, body⟩
  | _ => none

/-- The cells of a term that ask for streams, each before those in it. -/
def requests (t : Term) : List Request :=
  t.subterms.filterMap request?

theorem requests_of_none (h : request? t = none) : requests t = t.children.flatMap requests := by
  rw [requests, subterms_eq_cons, List.filterMap_cons_none h, List.filterMap_flatMap]
  rfl

theorem requests_cell {tag : CellTag} {body : Term} : requests (.cell tag body) =
    (request? (.cell tag body)).toList ++ requests body := by
  rw [requests, subterms_eq_cons, List.filterMap_cons]
  cases request? (.cell tag body) with
  | none => simp [children, requests]
  | some x => simp [children, requests]

/-- A request is that of a cell in the term. -/
theorem mem_subterms_of_mem_requests {x : Request} (h : x ∈ requests t) :
    .cell x.tag x.body ∈ t.subterms := by
  obtain ⟨s, hs, hx⟩ := List.mem_filterMap.1 h
  cases s with
  | cell tag body =>
    obtain ⟨_, -, rfl⟩ := Option.map_eq_some_iff.1 hx
    exact hs
  | _ => cases hx

/-- No stream and no other cell that asks for one stands in the cell. -/
def Request.IsVacant (x : Request) : Prop :=
  x.body.anySubterm isStream = false ∧ requests x.body = []

instance (x : Request) : Decidable x.IsVacant :=
  inferInstanceAs (Decidable (_ ∧ _))

/-- The cell asks for a stream that there is, and applies its label. -/
def Request.IsWired (x : Request) : Prop :=
  ∃ label, label? x.stream = some label ∧ x.body.Applies label

/-- A label is applied in a term already, or is that of a stream that a vacant cell in it gets. -/
def Finds (t : Term) (label : String) : Prop :=
  t.Applies label ∨ ∃ x ∈ requests t, x.IsVacant ∧ label? x.stream = some label

/-! ## Vacant cells -/

/-- The item of a stream applies the label of this stream and of no other. -/
theorem applies_item_iff (h : item cell stream = .ok t) :
    requests t = [] ∧ (label? stream).isSome = true ∧
      ∀ label, IsLabel label → (t.Applies label ↔ label? stream = some label) := by
  unfold item at h
  split at h
  · rename_i hstdin
    cases h
    rw [hstdin]
    refine ⟨rfl, rfl, ?_⟩
    rintro label (rfl | rfl) <;> decide
  · split at h
    · rename_i hstdout
      cases h
      rw [hstdout]
      refine ⟨rfl, rfl, ?_⟩
      rintro label (rfl | rfl) <;> decide
    · cases h

/-- A cell that has no stream gets that of the name it asks for, and no other. -/
theorem applies_attach_iff (hvacant : t.anySubterm isStream = false) (hrequests : requests t = [])
    (h : attach cell stream t = .ok u) : requests u = [] ∧ (label? stream).isSome = true ∧
      ∀ label, IsLabel label → (u.Applies label ↔ label? stream = some label) := by
  rw [attach, if_neg (Bool.eq_false_iff.1 hvacant)] at h
  obtain ⟨i, hi, hu⟩ := Except.bind_eq_ok.1 h
  obtain ⟨hi, hknown, hlabel⟩ := applies_item_iff hi
  cases hu
  split
  · exact ⟨hi, hknown, hlabel⟩
  · refine ⟨?_, hknown, fun label hstream => ?_⟩
    · rw [requests_of_none rfl]
      simp [children, hrequests, hi]
    · have ht : ¬t.Applies label := fun h =>
        Bool.eq_false_iff.1 hvacant (anySubterm_isStream_iff.2 ⟨label, hstream, h⟩)
      have hne : listConcatLabel ≠ label := by
        rintro rfl
        exact absurd hstream (by simp [IsLabel, listConcatLabel, inputLabel, outputLabel])
      rw [applies_iff, ← hlabel label hstream]
      simp [children, hne, ht]

/-- A vacant cell gets its stream if there is one of the name. -/
theorem exists_attach (h : (label? stream).isSome = true) : ∃ u, attach cell stream t = .ok u := by
  have hitem : ∃ i, item cell stream = .ok i := by
    unfold label? at h
    unfold item
    split
    · exact ⟨_, rfl⟩
    · rename_i hstdin
      rw [if_neg hstdin] at h
      split
      · exact ⟨_, rfl⟩
      · rename_i hstdout
        rw [if_neg hstdout] at h
        cases h
  obtain ⟨i, hi⟩ := hitem
  rw [attach]
  split
  · exact ⟨t, rfl⟩
  · exact ⟨_, Except.bind_eq_ok.2 ⟨i, hi, rfl⟩⟩

/-! ## One configuration -/

/-- What becomes of a cell that asks for a stream. It keeps its tag; if it is vacant, its stream is
attached to its content as it is; and the streams in it are those found in it and, if it is vacant,
its own. -/
structure Answers (x y : Request) : Prop where
  tag : y.tag = x.tag
  stream : y.stream = x.stream
  holds : y.body.anySubterm isStream = true
  attached : x.IsVacant → attach x.tag.name x.stream x.body = .ok y.body
  applies : ∀ label, IsLabel label → (y.body.Applies label ↔
    x.IsVacant ∧ label? x.stream = some label ∨ Finds x.body label)

/-- A term with its streams attached: its cells are answered, and the streams in it are those found
in it. -/
structure Attached (t u : Term) : Prop where
  requests : List.Forall₂ Answers (requests t) (requests u)
  applies : ∀ label, IsLabel label → (u.Applies label ↔ Finds t label)

/-- A cell that asks for a stream holds one afterwards. -/
theorem Attached.anySubterm_isStream (h : Attached t u) (hne : Stream.requests t ≠ []) :
    u.anySubterm isStream = true := by
  obtain ⟨x, hx⟩ := List.exists_mem_of_ne_nil _ hne
  obtain ⟨y, hy, hanswers⟩ := h.requests.exists_of_mem hx
  obtain ⟨label, hlabel, happlies⟩ := anySubterm_isStream_iff.1 hanswers.holds
  have hbody : y.body ∈ u.subterms :=
    subterms_trans (mem_subterms_of_mem_requests hy)
      (mem_subterms_of_child List.mem_cons_self (self_mem_subterms y.body))
  exact anySubterm_isStream_iff.2 ⟨label, hlabel, happlies.of_subterm hbody⟩

/-- A content that holds no stream once its cells are served had none, nor a cell to serve. -/
theorem Attached.isVacant (h : Attached t u) (hu : u.anySubterm isStream = false) :
    t.anySubterm isStream = false ∧ Stream.requests t = [] := by
  refine ⟨Bool.eq_false_iff.2 fun ht => ?_, by_contra fun hne => ?_⟩
  · obtain ⟨label, hlabel, happlies⟩ := anySubterm_isStream_iff.1 ht
    have hstream := anySubterm_isStream_iff.2
      ⟨label, hlabel, (h.applies label hlabel).2 (.inl happlies)⟩
    exact Bool.eq_false_iff.1 hu hstream
  · exact Bool.eq_false_iff.1 hu (h.anySubterm_isStream hne)

theorem resolveCell_of_not_isCell (v : Term) (hv : v.isCell = false) : resolveCell v = .ok v := by
  cases v with
  | cell tag body => cases hv
  | _ => rfl

theorem request?_of_not_isCell (ht : t.isCell = false) : request? t = none := by
  cases t with
  | cell tag body => cases ht
  | _ => rfl

theorem finds_iff_of_none (h : request? t = none) : Finds t label ↔
    t.labelHere? = some label ∨ ∃ c ∈ t.children, Finds c label := by
  simp only [Finds, requests_of_none h, List.mem_flatMap, applies_iff (t := t),
    labelHere?_eq_some_iff]
  constructor
  · rintro ((hself | ⟨c, hc, hfound⟩) | ⟨x, ⟨c, hc, hx⟩, hfound⟩)
    · exact .inl hself
    · exact .inr ⟨c, hc, .inl hfound⟩
    · exact .inr ⟨c, hc, .inr ⟨x, hx, hfound⟩⟩
  · rintro (hself | ⟨c, hc, hfound | ⟨x, hx, hfound⟩⟩)
    · exact .inl (.inl hself)
    · exact .inl (.inr ⟨c, hc, hfound⟩)
    · exact .inr ⟨x, ⟨c, hc, hx⟩, hfound⟩

/-- A node that asks for nothing is attached if its children are. -/
theorem Attached.of_children (ht : request? t = none) (hu : request? u = none)
    (hlabel : u.labelHere? = t.labelHere?)
    (hchildren : List.Forall₂ Attached t.children u.children) : Attached t u := by
  refine ⟨?_, fun label hstream => ?_⟩
  · rw [requests_of_none ht, requests_of_none hu]
    exact List.rel_flatMap hchildren fun _ _ h => h.requests
  · rw [finds_iff_of_none ht, applies_iff, ← labelHere?_eq_some_iff, hlabel]
    refine or_congr_right ⟨?_, ?_⟩
    · rintro ⟨c', hc', happlies⟩
      obtain ⟨c, hc, hattached⟩ := hchildren.flip.exists_of_mem hc'
      exact ⟨c, hc, (hattached.applies label hstream).1 happlies⟩
    · rintro ⟨c, hc, hfinds⟩
      obtain ⟨c', hc', hattached⟩ := hchildren.exists_of_mem hc
      exact ⟨c', hc', (hattached.applies label hstream).2 hfinds⟩

theorem request?_of_text? {tag : CellTag} {found : Option String} (body : Term)
    (h : tag.attributes.text? Attributes.stream = .ok found) :
    request? (.cell tag body) = found.map fun stream => ⟨tag, stream, body⟩ := by
  rw [Attributes.eq_of_text? h]
  rfl

theorem applies_cell_iff {tag : CellTag} {body : Term} :
    (Term.cell tag body).Applies label ↔ body.Applies label := by
  rw [applies_iff]
  simp [children]

theorem finds_cell_iff {x : Request} {tag : CellTag} {body : Term}
    (hx : request? (.cell tag body) = some x) : Finds (.cell tag body) label ↔
      x.IsVacant ∧ label? x.stream = some label ∨ Finds body label := by
  rw [Finds, Finds, requests_cell, hx, applies_cell_iff]
  simp only [Option.toList_some, List.singleton_append, List.exists_mem_cons_iff]
  exact or_left_comm

/-- A cell is served after its content. -/
theorem Attached.of_cell {tag : CellTag} {body body' : Term} (hbody : Attached body body')
    (hsame : Stream.requests body = [] → body' = body) (h : resolveCell (.cell tag body') = .ok u) :
    Attached (.cell tag body) u := by
  rcases resolveCell_cell h with ⟨stream, served, hasked, hattach, rfl⟩ | ⟨hasked, rfl⟩
  · have hx := request?_of_text? body hasked
    have hy := request?_of_text? served hasked
    have hcell (hanswers : Answers ⟨tag, stream, body⟩ ⟨tag, stream, served⟩)
        (hrequests : List.Forall₂ Answers (Stream.requests body) (Stream.requests served)) :
        Attached (.cell tag body) (.cell tag served) := by
      refine ⟨?_, fun label hstream => ?_⟩
      · rw [requests_cell, requests_cell, hx, hy]
        exact .cons hanswers hrequests
      · rw [finds_cell_iff hx, ← hanswers.applies label hstream, applies_cell_iff]
    obtain ⟨hholds, -⟩ := attach_eq_ok hattach
    cases hbody' : body'.anySubterm isStream with
    | true =>
      -- There is a stream in the content by now, so it stays as it is.
      have hserved : served = body' := by
        rw [attach, if_pos hbody'] at hattach
        exact (Except.ok.inj hattach).symm
      subst hserved
      have hfull : ¬Request.IsVacant ⟨tag, stream, body⟩ := by
        rintro ⟨hnone, hrequests⟩
        rw [hsame hrequests, hnone] at hbody'
        cases hbody'
      refine hcell ⟨rfl, rfl, hholds, fun hvacant => absurd hvacant hfull, fun label hstream => ?_⟩
        hbody.requests
      rw [hbody.applies label hstream]
      exact (or_iff_right fun hvacant => hfull hvacant.1).symm
    | false =>
      -- There is none, so none was there and no cell inside has been served: the cell is vacant.
      obtain ⟨hnone, hrequests⟩ := hbody.isVacant hbody'
      cases hsame hrequests
      obtain ⟨hserved, -, happlies⟩ := applies_attach_iff hnone hrequests hattach
      refine hcell ⟨rfl, rfl, hholds, fun _ => hattach, fun label hstream => ?_⟩ ?_
      · have hfinds : ¬Finds body label := by
          rw [← hbody.applies label hstream]
          exact fun h => Bool.eq_false_iff.1 hnone (anySubterm_isStream_iff.2 ⟨label, hstream, h⟩)
        rw [happlies label hstream, or_iff_left hfinds]
        exact (and_iff_right ⟨hnone, hrequests⟩).symm
      · rw [hserved, hrequests]
        exact .nil
  · exact .of_children (request?_of_text? body hasked) (request?_of_text? body' hasked) rfl
      (.cons hbody .nil)

theorem isStreamCell_eq (t : Term) : isStreamCell t = (request? t).isSome := by
  cases t with
  | cell tag body =>
    rw [isStreamCell, request?, Option.isSome_map]
    cases tag.attributes.get? Attributes.stream <;> rfl
  | _ => rfl

/-- Attaching streams to a configuration answers its cells. -/
theorem attached_of_tryTransform (h : t.tryTransform resolveCell = .ok u) : Attached t u := by
  induction t using induct_children generalizing u with
  | step t ih =>
    cases ht : t.isCell with
    | false =>
      obtain ⟨hlabel, hu, hchildren⟩ := children_of_tryTransform resolveCell_of_not_isCell ht h
      exact .of_children (request?_of_not_isCell ht) (request?_of_not_isCell hu) hlabel
        (hchildren.imp_of_mem fun c hc _ hcc' => ih c hc hcc')
    | true =>
      cases t with
      | cell tag body =>
        obtain ⟨body', hbody, hu⟩ := Except.bind_eq_ok.1 h
        refine .of_cell (ih body List.mem_cons_self hbody) (fun hrequests => ?_) hu
        refine eq_of_tryTransform_resolveCell (fun v hv => ?_) hbody
        rw [isStreamCell_eq, List.filterMap_eq_nil_iff.1 hrequests v hv]
        rfl
      | _ => cases ht

/-! ## Which configurations are accepted -/

/-- Wherever a cell has a value for its stream, it is a text or a bare marker. -/
def IsReadable (t : Term) : Prop :=
  ∀ tag body, .cell tag body ∈ t.subterms →
    ∃ found, tag.attributes.text? Attributes.stream = .ok found

/-- Streams can be attached exactly if all stream attributes are readable and every vacant cell asks
for a stream that there is. -/
theorem exists_tryTransform_iff : (∃ u, t.tryTransform resolveCell = .ok u) ↔
    IsReadable t ∧ ∀ x ∈ requests t, x.IsVacant → (label? x.stream).isSome = true := by
  constructor
  · rintro ⟨u, h⟩
    refine ⟨fun tag body hcell => ?_, fun x hx hvacant => ?_⟩
    · obtain ⟨_, h⟩ := exists_tryTransform_subterm h hcell
      obtain ⟨body', -, h⟩ := Except.bind_eq_ok.1 h
      rcases resolveCell_cell h with ⟨_, _, hasked, -⟩ | ⟨hasked, -⟩
      · exact ⟨_, hasked⟩
      · exact ⟨_, hasked⟩
    · obtain ⟨y, -, hanswers⟩ := (attached_of_tryTransform h).requests.exists_of_mem hx
      exact (applies_attach_iff hvacant.1 hvacant.2 (hanswers.attached hvacant)).2.1
  · rintro ⟨hreadable, hknown⟩
    induction t using induct_children with
    | step t ih =>
      have hchildren : ∀ c ∈ t.children, ∃ c', c.tryTransform resolveCell = .ok c' := by
        refine fun c hc => ih c hc (fun tag body hcell => ?_) fun x hx => hknown x ?_
        · exact hreadable tag body (mem_subterms_of_child hc hcell)
        · obtain ⟨s, hs, hxs⟩ := List.mem_filterMap.1 hx
          exact List.mem_filterMap.2 ⟨s, mem_subterms_of_child hc hs, hxs⟩
      cases ht : t.isCell with
      | false => exact exists_tryTransform resolveCell_of_not_isCell ht hchildren
      | true =>
        cases t with
        | cell tag body =>
          obtain ⟨body', hbody⟩ := hchildren body List.mem_cons_self
          obtain ⟨found, hfound⟩ := hreadable tag body (self_mem_subterms _)
          suffices h : ∃ u, resolveCell (.cell tag body') = .ok u by
            obtain ⟨u, hu⟩ := h
            exact ⟨u, Except.bind_eq_ok.2 ⟨body', hbody, hu⟩⟩
          cases found with
          | none => exact ⟨_, resolveCell_eq_self_of_text? hfound⟩
          | some stream =>
            -- Only a cell without a stream by now is asked for the name of its own.
            cases hbody' : body'.anySubterm isStream with
            | true => exact ⟨_, resolveCell_eq_self_of_anySubterm hfound hbody'⟩
            | false =>
              have hx := request?_of_text? body hfound
              have hmem : ⟨tag, stream, body⟩ ∈ requests (.cell tag body) :=
                List.mem_filterMap.2 ⟨_, self_mem_subterms _, hx⟩
              have hvacant := (attached_of_tryTransform hbody).isVacant hbody'
              obtain ⟨served, hserved⟩ := exists_attach (hknown _ hmem hvacant)
              rw [resolveCell, hfound]
              exact ⟨_, Except.bind_eq_ok.2 ⟨some stream, rfl,
                Except.bind_eq_ok.2 ⟨served, hserved, rfl⟩⟩⟩
        | _ => cases ht

/-! ## All configurations -/

variable {d e : Definition}

/-- The cells of all configurations that ask for streams. -/
def requestsOf (d : Definition) : List Request :=
  d.configurations.flatMap (requests ·.body)

theorem configurations_eq_filterMap (d : Definition) :
    d.configurations = d.allSentences.filterMap Sentence.asConfiguration? := by
  rw [Definition.allSentences, List.filterMap_flatMap]
  rfl

/-- The configurations are rebuilt one by one. -/
theorem forall₂_configurations (h : resolve d = .ok e) :
    List.Forall₂ (fun c c' => c.body.tryTransform resolveCell = .ok c'.body) d.configurations
      e.configurations := by
  obtain ⟨resolved, hresolved, he⟩ := Except.bind_eq_ok.1 h
  have hsame : e.configurations = resolved.configurations := by
    split at he
    · cases he
      rfl
    · refine (appendToMain_eq_ok.1 he).configurations_eq ?_
      rintro name ss _ rfl
      split
      · rw [List.filterMap_append, List.filterMap_map]
        exact (congrArg _ (List.filterMap_eq_nil_iff.2 fun _ _ => rfl)).trans (List.append_nil _)
      · rfl
  obtain ⟨images, himages, hflatten⟩ := images_allSentences hresolved
  rw [hsame, configurations_eq_filterMap, configurations_eq_filterMap, hflatten]
  clear hflatten
  generalize d.allSentences = ss at himages ⊢
  induction himages with
  | nil => exact .nil
  | @cons s image ss images hs _ ih =>
    rw [List.flatten_cons, List.filterMap_append]
    cases s with
    | configuration c =>
      obtain ⟨body, hbody, himage⟩ := Except.bind_eq_ok.1 hs
      cases himage
      exact .cons hbody ih
    | _ =>
      cases hs
      exact ih

/-- The pass succeeds if all configurations can be rebuilt. -/
theorem exists_resolve (h : ∀ c ∈ d.configurations, ∃ u, c.body.tryTransform resolveCell = .ok u) :
    ∃ e, resolve d = .ok e := by
  have hsentences : ∀ s ∈ d.allSentences, ∃ image, resolveSentence s = .ok image := by
    intro s hs
    cases s with
    | configuration c =>
      have hc : c ∈ d.configurations := by
        rw [configurations_eq_filterMap]
        exact List.mem_filterMap.2 ⟨_, hs, rfl⟩
      obtain ⟨body, hbody⟩ := h c hc
      exact ⟨_, Except.bind_eq_ok.2 ⟨body, hbody, rfl⟩⟩
    | _ => exact ⟨_, rfl⟩
  obtain ⟨resolved, hresolved⟩ := exists_mapSentences hsentences
  by_cases hcount : cellCount d = 0
  · exact ⟨resolved, Except.bind_eq_ok.2 ⟨resolved, hresolved, if_pos hcount⟩⟩
  · obtain ⟨e, he⟩ := exists_appendToMain resolved ((missingProductions resolved).map .production)
    exact ⟨e, Except.bind_eq_ok.2 ⟨resolved, hresolved, (if_neg hcount).trans he⟩⟩

/-- What becomes of the wiring of a cell: it is right afterwards if the cell was vacant, or else if
the label of its stream is found in it. -/
theorem Answers.isWired_iff {x y : Request} (h : Answers x y) :
    y.IsWired ↔ x.IsVacant ∨ ∃ label, label? x.stream = some label ∧ Finds x.body label := by
  rw [Request.IsWired, h.stream]
  constructor
  · rintro ⟨label, hlabel, happlies⟩
    rcases (h.applies label (isLabel_of_label? hlabel)).1 happlies with hvacant | hfinds
    · exact .inl hvacant.1
    · exact .inr ⟨label, hlabel, hfinds⟩
  · rintro (hvacant | ⟨label, hlabel, hfinds⟩)
    · obtain ⟨-, hknown, happlies⟩ := applies_attach_iff hvacant.1 hvacant.2 (h.attached hvacant)
      obtain ⟨label, hlabel⟩ := Option.isSome_iff_exists.1 hknown
      exact ⟨label, hlabel, (happlies label (isLabel_of_label? hlabel)).2 hlabel⟩
    · exact ⟨label, hlabel, (h.applies label (isLabel_of_label? hlabel)).2 (.inr hfinds)⟩

/-- Attaching streams succeeds exactly if the stream attributes are readable and every vacant cell
asks for a stream that there is. The cells that ask for streams are then the same with the same
names, each with some stream in it, and a cell has its own stream in it exactly if it was vacant, or
the label of its stream was written in it, or a vacant cell in it asks for the same stream. -/
theorem wires_vacant_cells (d : Definition) :
    ((∃ e, resolve d = .ok e) ↔ (∀ c ∈ d.configurations, IsReadable c.body) ∧
      ∀ x ∈ requestsOf d, x.IsVacant → (label? x.stream).isSome = true) ∧
    ∀ e, resolve d = .ok e → List.Forall₂ (fun x y => y.tag = x.tag ∧ y.stream = x.stream ∧
      y.body.anySubterm isStream = true ∧
      (y.IsWired ↔ x.IsVacant ∨ ∃ label, label? x.stream = some label ∧ Finds x.body label))
      (requestsOf d) (requestsOf e) := by
  refine ⟨⟨?_, ?_⟩, fun e h => ?_⟩
  · rintro ⟨e, h⟩
    have haccepted : ∀ c ∈ d.configurations, IsReadable c.body ∧
        ∀ x ∈ requests c.body, x.IsVacant → (label? x.stream).isSome = true := by
      intro c hc
      obtain ⟨c', -, hc'⟩ := (forall₂_configurations h).exists_of_mem hc
      exact exists_tryTransform_iff.1 ⟨_, hc'⟩
    refine ⟨fun c hc => (haccepted c hc).1, fun x hx => ?_⟩
    obtain ⟨c, hc, hx⟩ := List.mem_flatMap.1 hx
    exact (haccepted c hc).2 x hx
  · rintro ⟨hreadable, hknown⟩
    refine exists_resolve fun c hc => exists_tryTransform_iff.2 ⟨hreadable c hc, fun x hx => ?_⟩
    exact hknown x (List.mem_flatMap.2 ⟨c, hc, hx⟩)
  · refine List.rel_flatMap (forall₂_configurations h) fun c c' hcc' => ?_
    refine (attached_of_tryTransform hcc').requests.imp fun x y hanswers => ?_
    exact ⟨hanswers.tag, hanswers.stream, hanswers.holds, hanswers.isWired_iff⟩

/-- A cell that asks for a stream. -/
def streamCell (name stream : String) (body : Term) : Term :=
  .cell ⟨name, (∅ : Attributes).insert Attributes.stream (.text stream), false, false⟩ body

/-- An input cell that is vacant, a cell with a stream in it that asks for one that there is not,
and an input cell around an output cell. -/
def loopModule : Module :=
  ⟨"M", [], [.configuration ⟨.closedCell "T" (.bag [
    streamCell "in" "stdin" (.constant emptyListLabel),
    streamCell "err" "stderr" (.app listItemLabel [.app outputLabel [.int 1]]),
    streamCell "loop" "stdin" (streamCell "out" "stdout" (.constant emptyListLabel))]), ∅⟩], ∅⟩

def loopDefinition : Definition :=
  ⟨"M", .insert ∅ loopModule.name loopModule, ∅, ModuleMap.named_empty.insert loopModule, by cbv⟩

theorem wires_vacant_cells_loopDefinition : ∃ e, resolve loopDefinition = .ok e ∧
    List.Forall₂ (fun x y => y.IsWired ↔
      x.IsVacant ∨ ∃ label, label? x.stream = some label ∧ Finds x.body label)
      (requestsOf loopDefinition) (requestsOf e) := by
  have hisSome : (resolve loopDefinition).toOption.isSome = true := by cbv
  obtain ⟨e, he⟩ := Option.isSome_iff_exists.1 hisSome
  have he := Except.toOption_eq_some.1 he
  exact ⟨e, he, ((wires_vacant_cells loopDefinition).2 e he).imp fun _ _ h => h.2.2.2⟩

/-- A cell asks for a stream that there is not, and an input cell is left without its stream. -/
theorem exists_cell_not_wired : ∃ e, resolve loopDefinition = .ok e ∧
    (∃ y ∈ requestsOf e, y.stream ∉ ["stdin", "stdout"]) ∧
    ∃ y ∈ requestsOf e, y.stream = "stdin" ∧ ¬y.body.Applies inputLabel := by
  have hrun : (resolve loopDefinition).toOption.map (fun e =>
      decide ((∃ y ∈ requestsOf e, y.stream ∉ ["stdin", "stdout"]) ∧
        ∃ y ∈ requestsOf e, y.stream = "stdin" ∧ ¬y.body.Applies inputLabel)) = some true := by
    cbv
  obtain ⟨e, he, hlost⟩ := Option.map_eq_some_iff.1 hrun
  exact ⟨e, Except.toOption_eq_some.1 he, of_decide_eq_true hlost⟩

end Stream

end RewriteSemantics
