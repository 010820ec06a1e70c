/-
# The two sides of a term

Both sides keep every node but the rewrites, and put one side of each rewrite in its place. What
follows from that holds of both: no rewrite is left, a term without rewrites is its own side, and no
variable is new. A variable is lost where a rewrite stands inside another one, on the side that is
dropped; where rewrites stand apart, the two sides together have all variables.
-/
import RewriteSemantics.Proofs.Ordered.Map
import RewriteSemantics.Proofs.Term.Images

namespace RewriteSemantics.Term

/-! ## Rewrites in a term -/

/-- Whether a term is a rewrite. -/
def isRewrite : Term → Bool
  | .rewrite .. => true
  | _ => false

/-- No rewrite occurs in a term. -/
def RewriteFree (t : Term) : Prop :=
  ∀ u ∈ t.subterms, u.isRewrite = false

/-- No rewrite of a term lies inside another one. -/
def RewritesApart (t : Term) : Prop :=
  ∀ u ∈ t.subterms, u.isRewrite = true → ∀ c ∈ u.children, c.RewriteFree

instance (t : Term) : Decidable t.RewriteFree :=
  inferInstanceAs (Decidable (∀ u ∈ t.subterms, _))

instance (t : Term) : Decidable t.RewritesApart :=
  inferInstanceAs (Decidable (∀ u ∈ t.subterms, _))

theorem forall_mem_subterms {P : Term → Prop} {t : Term} :
    (∀ u ∈ t.subterms, P u) ↔ P t ∧ ∀ c ∈ t.children, ∀ u ∈ c.subterms, P u := by
  constructor
  · intro h
    exact ⟨h t (self_mem_subterms t), fun c hc u hu => h u (mem_subterms_of_child hc hu)⟩
  · rintro ⟨hself, hchildren⟩ u hu
    rcases mem_subterms.1 hu with rfl | ⟨c, hc, hu⟩
    · exact hself
    · exact hchildren c hc u hu

theorem rewriteFree_iff {t : Term} :
    t.RewriteFree ↔ t.isRewrite = false ∧ ∀ c ∈ t.children, c.RewriteFree :=
  forall_mem_subterms

theorem rewritesApart_iff {t : Term} :
    t.RewritesApart ↔ (t.isRewrite = true → ∀ c ∈ t.children, c.RewriteFree) ∧
      ∀ c ∈ t.children, c.RewritesApart :=
  forall_mem_subterms

/-! ## One side -/

/-- A side of terms: nodes are kept, and a rewrite gives way to one of its sides. -/
structure IsSide (f : Term → Term) : Prop where
  app : ∀ label args, f (.app label args) = .app label (args.map f)
  var : ∀ v, f (.var v) = .var v
  token : ∀ text sort, f (.token text sort) = .token text sort
  rewrite : ∀ l r, f (.rewrite l r) = f l ∨ f (.rewrite l r) = f r
  seq : ∀ items, f (.seq items) = .seq (items.map f)
  bag : ∀ items, f (.bag items) = .bag (items.map f)
  cell : ∀ tag body, f (.cell tag body) = .cell tag (f body)

theorem isSide_lhs : IsSide lhs where
  app label args := by rw [lhs, lhsAll_eq_map]
  var _ := rfl
  token _ _ := rfl
  rewrite _ _ := .inl rfl
  seq items := by rw [lhs, lhsAll_eq_map]
  bag items := by rw [lhs, lhsAll_eq_map]
  cell _ _ := rfl

theorem isSide_rhs : IsSide rhs where
  app label args := by rw [rhs, rhsAll_eq_map]
  var _ := rfl
  token _ _ := rfl
  rewrite _ _ := .inr rfl
  seq items := by rw [rhs, rhsAll_eq_map]
  bag items := by rw [rhs, rhsAll_eq_map]
  cell _ _ := rfl

namespace IsSide

variable {f : Term → Term}

theorem rewriteFree (hf : IsSide f) (t : Term) : (f t).RewriteFree := by
  induction t using induct with
  | app label args ih =>
    rw [hf.app]
    exact rewriteFree_iff.2 ⟨rfl, List.forall_mem_map.2 ih⟩
  | var v =>
    rw [hf.var]
    exact rewriteFree_iff.2 ⟨rfl, List.forall_mem_nil _⟩
  | token text sort =>
    rw [hf.token]
    exact rewriteFree_iff.2 ⟨rfl, List.forall_mem_nil _⟩
  | rewrite l r ihl ihr =>
    rcases hf.rewrite l r with h | h
    · rwa [h]
    · rwa [h]
  | seq items ih =>
    rw [hf.seq]
    exact rewriteFree_iff.2 ⟨rfl, List.forall_mem_map.2 ih⟩
  | bag items ih =>
    rw [hf.bag]
    exact rewriteFree_iff.2 ⟨rfl, List.forall_mem_map.2 ih⟩
  | cell tag body ih =>
    rw [hf.cell]
    exact rewriteFree_iff.2 ⟨rfl, List.forall_mem_singleton.2 ih⟩

/-- The children of a term without rewrites are their own sides if the term's are. -/
theorem map_children_eq_self {ts : List Term} (ih : ∀ t ∈ ts, t.RewriteFree → f t = t)
    (h : ∀ t ∈ ts, t.RewriteFree) : ts.map f = ts :=
  (List.map_congr_left fun t ht => ih t ht (h t ht)).trans (List.map_id' ts)

theorem eq_self (hf : IsSide f) {t : Term} (h : t.RewriteFree) : f t = t := by
  induction t using induct with
  | app label args ih => rw [hf.app, map_children_eq_self ih (rewriteFree_iff.1 h).2]
  | var v => exact hf.var v
  | token text sort => exact hf.token text sort
  | rewrite l r _ _ => cases (rewriteFree_iff.1 h).1
  | seq items ih => rw [hf.seq, map_children_eq_self ih (rewriteFree_iff.1 h).2]
  | bag items ih => rw [hf.bag, map_children_eq_self ih (rewriteFree_iff.1 h).2]
  | cell tag body ih => rw [hf.cell, ih (List.forall_mem_singleton.1 (rewriteFree_iff.1 h).2)]

/-- Sides that treat rewrites alike are the same. -/
theorem ext {g : Term → Term} (hf : IsSide f) (hg : IsSide g)
    (h : ∀ l r, f l = g l → f r = g r → f (.rewrite l r) = g (.rewrite l r)) (t : Term) :
    f t = g t := by
  induction t using induct with
  | app label args ih => rw [hf.app, hg.app, List.map_congr_left ih]
  | var v => rw [hf.var, hg.var]
  | token text sort => rw [hf.token, hg.token]
  | rewrite l r ihl ihr => exact h l r ihl ihr
  | seq items ih => rw [hf.seq, hg.seq, List.map_congr_left ih]
  | bag items ih => rw [hf.bag, hg.bag, List.map_congr_left ih]
  | cell tag body ih => rw [hf.cell, hg.cell, ih]

end IsSide

/-! ## Sides as images -/

/-- Puts what is picked of the sides of a rewrite in its place, and leaves other nodes. -/
def resolveRewrite (pick : Term → Term → Term) : Term → Term
  | .rewrite l r => pick l r
  | t => t

/-- Picking one side of each rewrite, from the leaves up, gives a side. -/
theorem isSide_transform {pick : Term → Term → Term} (h : ∀ l r, pick l r = l ∨ pick l r = r) :
    IsSide (transform (resolveRewrite pick)) where
  app label args := by
    rw [transform, transformAll_eq_map]
    rfl
  var _ := rfl
  token _ _ := rfl
  rewrite _ _ := h _ _
  seq items := by
    rw [transform, transformAll_eq_map]
    rfl
  bag items := by
    rw [transform, transformAll_eq_map]
    rfl
  cell _ _ := rfl

theorem lhs_eq_transform (t : Term) : t.lhs = t.transform (resolveRewrite fun l _ => l) :=
  isSide_lhs.ext (isSide_transform fun _ _ => .inl rfl) (fun _ _ hl _ => hl) t

theorem rhs_eq_transform (t : Term) : t.rhs = t.transform (resolveRewrite fun _ r => r) :=
  isSide_rhs.ext (isSide_transform fun _ _ => .inr rfl) (fun _ _ _ hr => hr) t

/-! ## Variables of the sides -/

/-- What occurs in some terms occurs in one side or the other if that holds of each. -/
theorem exists_side_of_exists {ts : List Term} {x : String}
    (ih : ∀ t ∈ ts, x ∈ t.variableNames → x ∈ t.lhs.variableNames ∨ x ∈ t.rhs.variableNames)
    (h : ∃ t ∈ ts, x ∈ t.variableNames) :
    (∃ u ∈ ts.map lhs, x ∈ u.variableNames) ∨ ∃ u ∈ ts.map rhs, x ∈ u.variableNames := by
  obtain ⟨t, ht, hx⟩ := h
  rcases ih t ht hx with hx | hx
  · exact .inl ⟨t.lhs, List.mem_map_of_mem ht, hx⟩
  · exact .inr ⟨t.rhs, List.mem_map_of_mem ht, hx⟩

/-- Where rewrites stand apart, each variable is on one side or the other. -/
theorem RewritesApart.mem_side {t : Term} {x : String} (h : t.RewritesApart)
    (hx : x ∈ t.variableNames) : x ∈ t.lhs.variableNames ∨ x ∈ t.rhs.variableNames := by
  induction t using induct with
  | app label args ih =>
    rw [isSide_lhs.app, isSide_rhs.app, mem_variableNames_app, mem_variableNames_app]
    exact exists_side_of_exists (fun t ht => ih t ht ((rewritesApart_iff.1 h).2 t ht))
      (mem_variableNames_app.1 hx)
  | var v => exact .inl hx
  | token text sort => exact .inl hx
  | rewrite l r _ _ =>
    -- Neither side of the rewrite has a rewrite in it, so none of its variables is dropped.
    have hfree := (rewritesApart_iff.1 h).1 rfl
    have hl := isSide_lhs.eq_self (hfree l List.mem_cons_self)
    have hr := isSide_rhs.eq_self (hfree r (List.mem_cons_of_mem _ List.mem_cons_self))
    rw [lhs, rhs, hl, hr]
    exact mem_variableNames_rewrite.1 hx
  | seq items ih =>
    rw [isSide_lhs.seq, isSide_rhs.seq, mem_variableNames_seq, mem_variableNames_seq]
    exact exists_side_of_exists (fun t ht => ih t ht ((rewritesApart_iff.1 h).2 t ht))
      (mem_variableNames_seq.1 hx)
  | bag items ih =>
    rw [isSide_lhs.bag, isSide_rhs.bag, mem_variableNames_bag, mem_variableNames_bag]
    exact exists_side_of_exists (fun t ht => ih t ht ((rewritesApart_iff.1 h).2 t ht))
      (mem_variableNames_bag.1 hx)
  | cell tag body ih =>
    rw [lhs, rhs, mem_variableNames_cell, mem_variableNames_cell]
    exact ih (List.forall_mem_singleton.1 (rewritesApart_iff.1 h).2) (mem_variableNames_cell.1 hx)

theorem mem_variableNames_of_side {t : Term} {x : String}
    (h : x ∈ t.lhs.variableNames ∨ x ∈ t.rhs.variableNames) : x ∈ t.variableNames :=
  h.elim mem_variableNames_of_lhs mem_variableNames_of_rhs

theorem variableNames_eq_union {t : Term} (h : t.RewritesApart) :
    t.variableNames = t.lhs.variableNames ∪ t.rhs.variableNames := by
  refine OrderedSet.ext_mem fun x => ?_
  rw [OrderedSet.mem_union]
  exact ⟨h.mem_side, mem_variableNames_of_side⟩

/-! ## Both sides -/

/-- Both sides are the images of a term under picking a side of each rewrite from the leaves up.
They have no rewrites and are their own sides, as is every term without rewrites. Their variables
are variables of the term, and all of them if its rewrites stand apart. -/
theorem sides_project (t : Term) :
    (t.lhs = t.transform (resolveRewrite fun l _ => l) ∧
      t.rhs = t.transform (resolveRewrite fun _ r => r)) ∧
    (t.lhs.RewriteFree ∧ t.rhs.RewriteFree) ∧
    (t.RewriteFree → t.lhs = t ∧ t.rhs = t) ∧
    (t.lhs.lhs = t.lhs ∧ t.lhs.rhs = t.lhs ∧ t.rhs.lhs = t.rhs ∧ t.rhs.rhs = t.rhs) ∧
    (∀ x, x ∈ t.lhs.variableNames ∨ x ∈ t.rhs.variableNames → x ∈ t.variableNames) ∧
    (t.RewritesApart → t.variableNames = t.lhs.variableNames ∪ t.rhs.variableNames) := by
  have hl := isSide_lhs.rewriteFree t
  have hr := isSide_rhs.rewriteFree t
  refine ⟨⟨lhs_eq_transform t, rhs_eq_transform t⟩, ⟨hl, hr⟩, fun h => ?_, ?_, fun x hx => ?_,
    variableNames_eq_union⟩
  · exact ⟨isSide_lhs.eq_self h, isSide_rhs.eq_self h⟩
  · exact ⟨isSide_lhs.eq_self hl, isSide_rhs.eq_self hl, isSide_lhs.eq_self hr,
      isSide_rhs.eq_self hr⟩
  · exact mem_variableNames_of_side hx

/-- A cell with a rewrite beside another one in its content, and one without. -/
theorem sides_project_openCell :
    let store := openCell "k" (.app "f" [ofName "X", .token "1" .int])
    let step := openCell "k" (.seq [.app "f" [.rewrite (ofName "X") (ofName "Y"), ofName "Z"],
      .bag [.rewrite (ofName "A") (.app "g" [ofName "B"])]])
    (store.RewriteFree ∧ store.lhs = store ∧ store.rhs = store) ∧
    ("Y" ∈ step.rhs.variableNames ∧ "Y" ∈ step.variableNames) ∧
    step.RewritesApart ∧ step.variableNames = step.lhs.variableNames ∪ step.rhs.variableNames := by
  intro store step
  obtain ⟨-, -, hself, -⟩ := sides_project store
  obtain ⟨-, -, -, -, hsubset, hunion⟩ := sides_project step
  have hfree : store.RewriteFree := by decide
  have hapart : step.RewritesApart := by decide
  have hmem : "Y" ∈ step.rhs.variableNames := by decide
  exact ⟨⟨hfree, hself hfree⟩, ⟨hmem, hsubset "Y" (.inr hmem)⟩, hapart, hunion hapart⟩

-- Of a rewrite inside another one, the side that is dropped takes its variables with it.
example : let t := Term.rewrite (.rewrite (ofName "X") (ofName "Y")) (ofName "Z")
    "Y" ∈ t.variableNames ∧ "Y" ∉ t.lhs.variableNames ∪ t.rhs.variableNames := by
  decide

end RewriteSemantics.Term
