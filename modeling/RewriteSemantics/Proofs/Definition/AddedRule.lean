/-
# A definition with one more rule

Two definitions that differ in one rule of the main module, behind which there are only productions
and configurations. What is read off the other sentences is the same for both, so whatever changes
the sentences one by one takes such a pair to such a pair: if it succeeds with the rule it succeeds
without it, and the rule goes its own way.
-/
import RewriteSemantics.Context.Strict
import RewriteSemantics.Proofs.Definition.Views

namespace RewriteSemantics

/-- A sentence that no pass makes a rule of: a configuration, or a production that is not strict. -/
def Sentence.IsInert : Sentence → Prop
  | .production p => Strict.key? p.attributes = none
  | .configuration _ => True
  | _ => False

/-- Some sentences with a rule put in, behind which all sentences are inert. -/
inductive InsertedRule (r : Rule) : List Sentence → List Sentence → Prop
  | intro (front back : List Sentence) : (∀ s ∈ back, s.IsInert) →
    InsertedRule r (front ++ back) (front ++ .rule r :: back)

namespace InsertedRule

variable {r : Rule} {ss ss' : List Sentence}

/-- What is collected from sentences without looking at rules is the same. -/
theorem filterMap_eq {β : Type} {k : Sentence → Option β} (h : InsertedRule r ss ss')
    (hk : k (.rule r) = none) : ss'.filterMap k = ss.filterMap k := by
  obtain ⟨front, back, -⟩ := h
  rw [List.filterMap_append, List.filterMap_append, List.filterMap_cons, hk]

theorem mem (h : InsertedRule r ss ss') : .rule r ∈ ss' := by
  obtain ⟨front, back, -⟩ := h
  exact List.mem_append_right _ List.mem_cons_self

theorem mem_of_mem (h : InsertedRule r ss ss') {s : Sentence} (hs : s ∈ ss) : s ∈ ss' := by
  obtain ⟨front, back, -⟩ := h
  rcases List.mem_append.1 hs with hs | hs
  · exact List.mem_append_left _ hs
  · exact List.mem_append_right _ (List.mem_cons_of_mem _ hs)

/-- The rule is the last one. -/
theorem getLast?_rules (h : InsertedRule r ss ss') :
    (ss'.filterMap Sentence.asRule?).getLast? = some r := by
  obtain ⟨front, back, hback⟩ := h
  have hnone : back.filterMap Sentence.asRule? = [] := by
    rw [List.filterMap_eq_nil_iff]
    intro s hs
    cases s with
    | rule r => exact (hback _ hs).elim
    | _ => rfl
  rw [List.filterMap_append, List.filterMap_cons]
  simp [hnone, Sentence.asRule?]

/-- Inert sentences may be added behind. -/
theorem append {extra : List Sentence} (h : InsertedRule r ss ss')
    (hextra : ∀ s ∈ extra, s.IsInert) : InsertedRule r (ss ++ extra) (ss' ++ extra) := by
  obtain ⟨front, back, hback⟩ := h
  rw [List.append_assoc, List.append_assoc, List.cons_append]
  refine .intro front (back ++ extra) fun s hs => ?_
  rcases List.mem_append.1 hs with hs | hs
  · exact hback s hs
  · exact hextra s hs

/-- The images of the sentences, if the rule has one rule for its image and inert sentences have
inert ones. -/
theorem images {f : Sentence → Except PassError (List Sentence)} {r₁ : Rule} {ts' : List Sentence}
    (h : InsertedRule r ss ss') (hrule : f (.rule r) = .ok [.rule r₁])
    (hinert : ∀ s, s.IsInert → ∀ image, f s = .ok image → ∀ t ∈ image, t.IsInert)
    (hts' : Definition.Images f ss' ts') :
    ∃ ts, Definition.Images f ss ts ∧ InsertedRule r₁ ts ts' := by
  obtain ⟨front, back, hback⟩ := h
  obtain ⟨fronts, rest, hfront, hrest, rfl⟩ := Definition.images_append_iff.1 hts'
  obtain ⟨image, backs, himage, hbacks, rfl⟩ := Definition.images_cons_iff.1 hrest
  cases hrule.symm.trans himage
  refine ⟨fronts ++ backs, hfront.append hbacks, .intro fronts backs fun t ht => ?_⟩
  obtain ⟨images, himages, rfl⟩ := hbacks
  obtain ⟨image, himage, ht⟩ := List.mem_flatten.1 ht
  obtain ⟨s, hs, hfs⟩ := himages.flip.exists_of_mem himage
  exact hinert s (hback s hs) image hfs t ht

end InsertedRule

/-- The main module gets a rule, and the other modules stay as they are. -/
def Rewriting.addsRule (main : String) (r : Rule) : Rewriting :=
  fun name ss ts => if name = main then InsertedRule r ss ts else ts = ss

theorem Rewriting.addsRule_of_ne {main name : String} (h : name ≠ main) (r : Rule)
    (ss : List Sentence) : Rewriting.addsRule main r name ss ss := by
  rw [Rewriting.addsRule, if_neg h]

/-- What is collected without looking at rules is kept. -/
theorem Rewriting.addsRule_keeps {main : String} {r : Rule} {β : Type} {k : Sentence → Option β}
    (hk : k (.rule r) = none) : (Rewriting.addsRule main r).Keeps k := by
  intro name ss ts h
  rw [Rewriting.addsRule] at h
  split at h
  · exact h.filterMap_eq hk
  · rw [h]

namespace Definition

/-- A definition has one more rule in its main module than another. -/
def AddsRule (r : Rule) (d d' : Definition) : Prop :=
  d.Rewrites (.addsRule d.main r) d'

variable {main : String} {r q : Rule} {d d' e' : Definition}

/-- What the modules that a module sees define is the same. -/
theorem Rewrites.definedSorts_closure (h : d.Rewrites (.addsRule main r) d') (name : String) :
    (d'.closure name).map (fun m => (m.name, m.definedSorts)) =
      (d.closure name).map fun m => (m.name, m.definedSorts) := by
  refine ((h.closure name).map_eq fun m m' hm => ?_).symm
  have hsorts : m'.definedSorts = m.definedSorts := by
    rw [Module.definedSorts, Module.definedSorts,
      hm.filterMap_eq (Rewriting.addsRule_keeps rfl)]
  obtain ⟨ss, -, rfl⟩ := hm
  rw [hsorts]

/-! ## Changing both -/

/-- Where the definition with the rule is rewritten, so is the one without, and the rule stays the
difference. -/
theorem AddsRule.square {T T' : Rewriting} (h : AddsRule r d d') (h' : d'.Rewrites T' e')
    (hmain : ∀ ss ss' ts', InsertedRule r ss ss' → T' d.main ss' ts' →
      ∃ ts, T d.main ss ts ∧ InsertedRule q ts ts')
    (hothers : ∀ name, name ≠ d.main → ∀ ss ts, T' name ss ts → T name ss ts) :
    ∃ e, d.Rewrites T e ∧ AddsRule q e e' := by
  obtain ⟨e, hT, he⟩ := Rewrites.square (T := T) (S := .addsRule d.main q) h h' (by
    intro name ss ss' ts' hss hts'
    unfold Rewriting.addsRule at hss ⊢
    by_cases hname : name = d.main
    · subst hname
      rw [if_pos rfl] at hss
      obtain ⟨ts, hts, hins⟩ := hmain ss ss' ts' hss hts'
      exact ⟨ts, hts, by rwa [if_pos rfl]⟩
    · rw [if_neg hname] at hss
      subst hss
      exact ⟨ts', hothers name hname _ _ hts', by rw [if_neg hname]⟩)
  refine ⟨e, hT, ?_⟩
  unfold AddsRule
  rwa [hT.main]

/-- Replacing the sentences by their images, where the rule has one rule for its image and inert
sentences have inert ones. -/
theorem AddsRule.mapSentences {f : Sentence → Except PassError (List Sentence)}
    (h : AddsRule r d d') (hrule : f (.rule r) = .ok [.rule q])
    (hinert : ∀ s, s.IsInert → ∀ image, f s = .ok image → ∀ t ∈ image, t.IsInert)
    (he' : d'.mapSentences f = .ok e') :
    ∃ e, d.mapSentences f = .ok e ∧ AddsRule q e e' := by
  obtain ⟨e, hT, he⟩ := h.square (T := fun _ => Images f) (mapSentences_eq_ok.1 he')
    (fun ss ss' ts' hss hts' => hss.images hrule hinert hts') fun _ _ _ _ hts => hts
  exact ⟨e, mapSentences_eq_ok.2 hT, he⟩

/-- Replacing the sentences by their images, where inert sentences are kept. -/
theorem AddsRule.mapSentences_of_kept {f : Sentence → Except PassError (List Sentence)}
    (h : AddsRule r d d') (hrule : f (.rule r) = .ok [.rule q])
    (hkept : ∀ s, s.IsInert → f s = .ok [s]) (he' : d'.mapSentences f = .ok e') :
    ∃ e, d.mapSentences f = .ok e ∧ AddsRule q e e' := by
  refine h.mapSentences hrule ?_ he'
  intro s hs image himage t ht
  rw [hkept s hs] at himage
  cases himage
  rw [List.mem_singleton.1 ht]
  exact hs

/-- Adding inert sentences to the main module. -/
theorem AddsRule.appendToMain {extra : List Sentence} (h : AddsRule r d d')
    (hextra : ∀ s ∈ extra, s.IsInert) (he' : d'.appendToMain extra = .ok e') :
    ∃ e, d.appendToMain extra = .ok e ∧ AddsRule r e e' := by
  have hT' := appendToMain_eq_ok.1 he'
  rw [h.main] at hT'
  obtain ⟨e, hT, he⟩ := h.square (T := .inModule d.main (· ++ extra)) hT' (by
    intro ss ss' ts' hss hts'
    rw [Rewriting.inModule, if_pos rfl] at hts'
    rw [hts']
    exact ⟨ss ++ extra, (if_pos rfl).symm, hss.append hextra⟩) fun _ _ _ _ hts => hts
  exact ⟨e, appendToMain_eq_ok.2 hT, he⟩

end Definition

end RewriteSemantics
