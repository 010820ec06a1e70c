/-
# Sentences and what stands in their place

A pass that goes through the sentences of a module puts some sentences in the place of each. Most
passes put one there of the same kind: a sort or a production is left alone, and a rule, a context
or a configuration keeps its attributes. Two passes put more: the contexts of a strict production
come behind it, and the place of a context is taken by its freezer and its two rules. So each
sentence has a block of its own in the end, and the blocks stand in the order of the sentences.
-/
import Mathlib
import RewriteSemantics.Proofs.Context.Freezer
import RewriteSemantics.Proofs.Pass.AddedRule

namespace RewriteSemantics

/-! ## Replacing each sentence -/

/-- Each of some sentences is replaced by sentences in its place. -/
def Expands (E : Sentence → List Sentence → Prop) (ss ts : List Sentence) : Prop :=
  ∃ images, List.Forall₂ E ss images ∧ ts = images.flatten

section

variable {E F : Sentence → List Sentence → Prop} {s : Sentence} {ss ss' ts us : List Sentence}

theorem expands_nil : Expands E [] us ↔ us = [] := by
  constructor
  · rintro ⟨images, himages, rfl⟩
    cases himages
    rfl
  · rintro rfl
    exact ⟨[], .nil, rfl⟩

theorem expands_cons :
    Expands E (s :: ss) us ↔ ∃ image ts, E s image ∧ Expands E ss ts ∧ us = image ++ ts := by
  constructor
  · rintro ⟨images, himages, rfl⟩
    cases himages with
    | cons hs himages => exact ⟨_, _, hs, ⟨_, himages, rfl⟩, rfl⟩
  · rintro ⟨image, _, hs, ⟨images, himages, rfl⟩, rfl⟩
    exact ⟨image :: images, .cons hs himages, rfl⟩

theorem expands_singleton : Expands E [s] us ↔ E s us := by
  rw [expands_cons]
  constructor
  · rintro ⟨image, ts, hs, hts, rfl⟩
    rw [expands_nil.1 hts, List.append_nil]
    exact hs
  · intro hs
    exact ⟨us, [], hs, expands_nil.2 rfl, (List.append_nil us).symm⟩

theorem Expands.exists_of_append (h : Expands E (ss ++ ss') us) :
    ∃ ts ts', Expands E ss ts ∧ Expands E ss' ts' ∧ us = ts ++ ts' := by
  induction ss generalizing us with
  | nil => exact ⟨[], us, expands_nil.2 rfl, h, rfl⟩
  | cons s ss ih =>
    obtain ⟨image, _, hs, hrest, rfl⟩ := expands_cons.1 h
    obtain ⟨ts, ts', hts, hts', rfl⟩ := ih hrest
    refine ⟨image ++ ts, ts', expands_cons.2 ⟨image, ts, hs, hts, rfl⟩, hts', ?_⟩
    rw [List.append_assoc]

/-- Sentences that stand in blocks are replaced block by block. -/
theorem Expands.exists_of_flatten {blocks : List (List Sentence)}
    (h : Expands E blocks.flatten us) :
    ∃ blocks', List.Forall₂ (Expands E) blocks blocks' ∧ us = blocks'.flatten := by
  induction blocks generalizing us with
  | nil => exact ⟨[], .nil, expands_nil.1 h⟩
  | cons block blocks ih =>
    obtain ⟨ts, ts', hts, hts', rfl⟩ := h.exists_of_append
    obtain ⟨blocks', hblocks, rfl⟩ := ih hts'
    exact ⟨ts :: blocks', .cons hts hblocks, rfl⟩

theorem Expands.mono (h : Expands E ss ts) (hEF : ∀ s image, E s image → F s image) :
    Expands F ss ts := by
  obtain ⟨images, himages, rfl⟩ := h
  exact ⟨images, himages.imp hEF, rfl⟩

end

/-! ## One sentence for another -/

/-- A sentence in the place of another: a sort or a production is the same, and a rule, a context or
a configuration has the same attributes. -/
inductive Sentence.Stays : Sentence → Sentence → Prop
  | sort (decl : SortDecl) : Stays (.sort decl) (.sort decl)
  | production (p : Production) : Stays (.production p) (.production p)
  | rule {r r' : Rule} : r'.attributes = r.attributes → Stays (.rule r) (.rule r')
  | context {c c' : Context} : c'.attributes = c.attributes → Stays (.context c) (.context c')
  | configuration {c c' : Configuration} :
      c'.attributes = c.attributes → Stays (.configuration c) (.configuration c')

theorem Sentence.Stays.refl (s : Sentence) : s.Stays s := by
  cases s with
  | sort decl => exact .sort decl
  | production p => exact .production p
  | rule r => exact .rule rfl
  | context c => exact .context rfl
  | configuration c => exact .configuration rfl

/-- The replacement of a sentence by one in its place. -/
def Sentence.StaysAs (s : Sentence) (image : List Sentence) : Prop :=
  ∃ t, s.Stays t ∧ image = [t]

theorem expands_of_forall₂_stays {ss ts : List Sentence} (h : List.Forall₂ Sentence.Stays ss ts) :
    Expands Sentence.StaysAs ss ts := by
  induction h with
  | nil => exact expands_nil.2 rfl
  | cons hst _ ih => exact expands_cons.2 ⟨_, _, ⟨_, hst, rfl⟩, ih, rfl⟩

/-! ## Blocks -/

/-- What stands in the place of a context: a context of the same attributes, or the freezer of such
a context with the rule that heats it and the rule that cools it. -/
inductive Context.Becomes : Bool → Context → List Sentence → Prop
  | context {c c' : Context} : c'.attributes = c.attributes → Becomes false c [.context c']
  | frozen {c c' : Context} {index : Nat} {heat cool : Rule} : c'.attributes = c.attributes →
      heat.attributes = c.attributes.withMarker Attributes.heat →
      cool.attributes = c.attributes.withMarker Attributes.cool →
      Becomes true c [.production (Freezer.production c' index), .rule heat, .rule cool]

/-- The contexts that stand behind a production: those that its strictness asks for, once they have
been added, and none before that. -/
def Production.AsksFor (p : Production) : Bool → List Context → Prop
  | true, contexts =>
    Strict.resolveSentence (.production p) = .ok (.production p :: contexts.map .context)
  | false, contexts => contexts = []

/-- What stands in the place of a sentence, once the contexts of strict productions have been added
and once contexts have been frozen, or before that. -/
inductive Sentence.Becomes (strict frozen : Bool) : Sentence → List Sentence → Prop
  | sort (decl : SortDecl) : Becomes strict frozen (.sort decl) [.sort decl]
  | production {p : Production} {contexts : List Context} {blocks : List (List Sentence)} :
      p.AsksFor strict contexts → List.Forall₂ (Context.Becomes frozen) contexts blocks →
      Becomes strict frozen (.production p) (.production p :: blocks.flatten)
  | rule {r r' : Rule} : r'.attributes = r.attributes → Becomes strict frozen (.rule r) [.rule r']
  | context {c : Context} {block : List Sentence} : c.Becomes frozen block →
      Becomes strict frozen (.context c) block
  | configuration {c c' : Configuration} : c'.attributes = c.attributes →
      Becomes strict frozen (.configuration c) [.configuration c']

theorem Sentence.becomes_self (s : Sentence) : s.Becomes false false [s] := by
  cases s with
  | sort decl => exact .sort decl
  | production p =>
    have hnone : p.AsksFor false [] := rfl
    exact .production hnone .nil
  | rule r => exact .rule rfl
  | context c => exact .context (.context rfl)
  | configuration c => exact .configuration rfl

/-! ## Going on -/

/-- A way to replace sentences that takes blocks at one stage to blocks at another, and leaves
productions alone that were added and are not strict. -/
structure Advances (E : Sentence → List Sentence → Prop) (strict frozen strict' frozen' : Bool) :
    Prop where
  block : ∀ {s : Sentence} {block block'}, s.Becomes strict frozen block → Expands E block block' →
    s.Becomes strict' frozen' block'
  production : ∀ {p image}, (Sentence.production p).IsInert → E (.production p) image →
    image = [.production p]
  configuration : ∀ {c image}, E (.configuration c) image → ∃ c', image = [.configuration c']

section

variable {strict frozen : Bool}

/-- One sentence for another keeps what stands in the place of a context. -/
theorem Context.Becomes.stays {c : Context} {block block' : List Sentence}
    (h : c.Becomes frozen block) (h' : Expands Sentence.StaysAs block block') :
    c.Becomes frozen block' := by
  cases h with
  | context hc =>
    obtain ⟨_, hstays, rfl⟩ := expands_singleton.1 h'
    cases hstays with
    | context hc' => exact .context (hc'.trans hc)
  | frozen hc hheat hcool =>
    obtain ⟨_, _, ⟨_, hp, rfl⟩, hrules, rfl⟩ := expands_cons.1 h'
    obtain ⟨_, _, ⟨_, hr, rfl⟩, hrule, rfl⟩ := expands_cons.1 hrules
    obtain ⟨_, hs, rfl⟩ := expands_singleton.1 hrule
    cases hp
    cases hr with
    | rule hr =>
      cases hs with
      | rule hs => exact .frozen hc (hr.trans hheat) (hs.trans hcool)

/-- Passes that put one sentence in the place of another keep the blocks. -/
theorem advances_stays : Advances Sentence.StaysAs strict frozen strict frozen where
  block := by
    intro s block block' h h'
    cases h with
    | sort decl =>
      obtain ⟨_, hstays, rfl⟩ := expands_singleton.1 h'
      cases hstays
      exact .sort decl
    | production hcontexts hblocks =>
      obtain ⟨_, _, ⟨_, hstays, rfl⟩, hrest, rfl⟩ := expands_cons.1 h'
      obtain ⟨blocks', hblocks', rfl⟩ := hrest.exists_of_flatten
      cases hstays
      exact .production hcontexts (hblocks.comp hblocks' fun _ _ _ => Context.Becomes.stays)
    | rule hr =>
      obtain ⟨_, hstays, rfl⟩ := expands_singleton.1 h'
      cases hstays with
      | rule hr' => exact .rule (hr'.trans hr)
    | context hc => exact .context (hc.stays h')
    | configuration hc =>
      obtain ⟨_, hstays, rfl⟩ := expands_singleton.1 h'
      cases hstays with
      | configuration hc' => exact .configuration (hc'.trans hc)
  production := by
    rintro p _ - ⟨_, hstays, rfl⟩
    cases hstays
    rfl
  configuration := by
    rintro c _ ⟨_, hstays, rfl⟩
    cases hstays with
    | configuration _ => exact ⟨_, rfl⟩

end

/-- Strictness puts contexts behind a production. -/
theorem Strict.exists_contexts {p : Production} {image : List Sentence}
    (h : resolveSentence (.production p) = .ok image) :
    ∃ contexts : List Context, image = .production p :: contexts.map .context := by
  obtain ⟨strictness, -, himage⟩ := Except.bind_eq_ok.1 h
  cases strictness with
  | none =>
    cases himage
    exact ⟨[], rfl⟩
  | some found =>
    cases himage
    exact ⟨_, rfl⟩

/-- The pass that adds the contexts of strict productions. -/
theorem advances_strict :
    Advances (fun s image => Strict.resolveSentence s = .ok image) false false true false where
  block := by
    intro s block block' h h'
    cases h with
    | sort decl =>
      cases expands_singleton.1 h'
      exact .sort decl
    | @production p contexts blocks hcontexts hblocks =>
      obtain rfl : contexts = [] := hcontexts
      cases hblocks
      have himage : Strict.resolveSentence (.production p) = .ok block' := expands_singleton.1 h'
      obtain ⟨contexts, rfl⟩ := Strict.exists_contexts himage
      have hblocks : List.Forall₂ (Context.Becomes false) contexts
          (contexts.map fun c => [.context c]) := by
        rw [List.forall₂_map_right_iff, List.forall₂_same]
        exact fun c _ => .context rfl
      have hflatten : contexts.map Sentence.context =
          (contexts.map fun c => [Sentence.context c]).flatten := by
        rw [← List.flatMap_def, List.map_eq_flatMap]
      rw [hflatten]
      exact .production himage hblocks
    | rule hr =>
      cases expands_singleton.1 h'
      exact .rule hr
    | context hc =>
      cases hc with
      | context hc =>
        cases expands_singleton.1 h'
        exact .context (.context hc)
    | configuration hc =>
      cases expands_singleton.1 h'
      exact .configuration hc
  production := by
    intro p image hinert himage
    have hkey : Strict.key? p.attributes = none := hinert
    rw [Strict.resolveSentence, Strict.ofProduction, hkey] at himage
    cases himage
    rfl
  configuration := by
    intro c image himage
    cases himage
    exact ⟨c, rfl⟩

/-- A context is frozen where it stands. -/
theorem Context.Becomes.freeze {c : Context} {block block' : List Sentence}
    (h : c.Becomes false block)
    (h' : Expands (fun s image => ∃ index, Freezer.expand index s = .ok image) block block') :
    c.Becomes true block' := by
  cases h with
  | context hc =>
    obtain ⟨index, himage⟩ := expands_singleton.1 h'
    obtain ⟨-, rfl⟩ := Freezer.expand_context_eq_ok.1 himage
    exact .frozen hc (congrArg (·.withMarker Attributes.heat) hc)
      (congrArg (·.withMarker Attributes.cool) hc)

/-- The pass that freezes contexts. -/
theorem advances_freeze :
    Advances (fun s image => ∃ index, Freezer.expand index s = .ok image) true false true true where
  block := by
    intro s block block' h h'
    cases h with
    | sort decl =>
      obtain ⟨_, himage⟩ := expands_singleton.1 h'
      cases himage
      exact .sort decl
    | production hcontexts hblocks =>
      obtain ⟨_, _, ⟨_, himage⟩, hrest, rfl⟩ := expands_cons.1 h'
      cases himage
      obtain ⟨blocks', hblocks', rfl⟩ := hrest.exists_of_flatten
      exact .production hcontexts (hblocks.comp hblocks' fun _ _ _ => Context.Becomes.freeze)
    | rule hr =>
      obtain ⟨_, himage⟩ := expands_singleton.1 h'
      cases himage
      exact .rule hr
    | context hc => exact .context (hc.freeze h')
    | configuration hc =>
      obtain ⟨_, himage⟩ := expands_singleton.1 h'
      cases himage
      exact .configuration hc
  production := by
    rintro p image - ⟨_, himage⟩
    cases himage
    rfl
  configuration := by
    rintro c image ⟨_, himage⟩
    cases himage
    exact ⟨c, rfl⟩

end RewriteSemantics
