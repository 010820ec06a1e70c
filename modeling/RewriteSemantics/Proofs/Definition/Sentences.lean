/-
# The sentences of a definition

All sentences of all modules, in the order of the module names. A rewriting of a definition changes
them module by module, and where it replaces every sentence by its images, the sentences afterwards
are the images of those before.
-/
import RewriteSemantics.Proofs.Definition.Rewriting
import RewriteSemantics.Term.Cast

namespace RewriteSemantics

/-! ## Sentences of one kind -/

theorem Sentence.mem_filterMap_asProduction? {ss : List Sentence} {p : Production} :
    p ∈ ss.filterMap asProduction? ↔ .production p ∈ ss := by
  rw [List.mem_filterMap]
  constructor
  · rintro ⟨s, hs, hsp⟩
    cases s with
    | production q =>
      cases hsp
      exact hs
    | _ => cases hsp
  · exact fun hp => ⟨_, hp, rfl⟩

theorem Sentence.mem_filterMap_asRule? {ss : List Sentence} {r : Rule} :
    r ∈ ss.filterMap asRule? ↔ .rule r ∈ ss := by
  rw [List.mem_filterMap]
  constructor
  · rintro ⟨s, hs, hsr⟩
    cases s with
    | rule q =>
      cases hsr
      exact hs
    | _ => cases hsr
  · exact fun hr => ⟨_, hr, rfl⟩

theorem Module.mem_productions {m : Module} {p : Production} :
    p ∈ m.productions ↔ .production p ∈ m.sentences :=
  Sentence.mem_filterMap_asProduction?

theorem Module.mem_rules {m : Module} {r : Rule} : r ∈ m.rules ↔ .rule r ∈ m.sentences :=
  Sentence.mem_filterMap_asRule?

/-! ## All sentences -/

namespace Definition

variable {d e : Definition}

/-- The sentences of all modules, in the order of the module names. -/
def allSentences (d : Definition) : List Sentence :=
  d.modules.values.flatMap (·.sentences)

theorem mem_allSentences {s : Sentence} :
    s ∈ d.allSentences ↔ ∃ m ∈ d.modules.values, s ∈ m.sentences :=
  List.mem_flatMap

theorem mem_productions {p : Production} : p ∈ d.productions ↔ .production p ∈ d.allSentences := by
  rw [productions, allSentences, List.mem_flatMap, List.mem_flatMap]
  exact exists_congr fun m => and_congr_right fun _ => Module.mem_productions

theorem mem_rules {r : Rule} : r ∈ d.rules ↔ .rule r ∈ d.allSentences := by
  rw [rules, allSentences, List.mem_flatMap, List.mem_flatMap]
  exact exists_congr fun m => and_congr_right fun _ => Module.mem_rules

theorem mem_labels {label : String} :
    label ∈ d.labels ↔ ∃ p ∈ d.productions, p.label = some label := by
  rw [labels, OrderedSet.mem_ofList, List.mem_filterMap]

/-- Every sentence of a rewritten definition comes from a module. -/
theorem Rewrites.exists_of_mem {R : Rewriting} (h : d.Rewrites R e) {t : Sentence}
    (ht : t ∈ e.allSentences) : ∃ m ∈ d.modules.values, ∃ ts, R m.name m.sentences ts ∧ t ∈ ts := by
  obtain ⟨_, hm', ht⟩ := mem_allSentences.1 ht
  obtain ⟨y, hy, rfl⟩ := List.mem_map.1 hm'
  obtain ⟨x, hx, -, ts, hts, hym⟩ := h.modules.flip.exists_of_mem hy
  rw [hym] at ht
  exact ⟨x.2, List.mem_map_of_mem hx, ts, hts, ht⟩

/-- What a rewriting makes of a sentence stands in the rewritten definition. -/
theorem Rewrites.mem_of_mem {R : Rewriting} (h : d.Rewrites R e) {s t : Sentence}
    (hs : s ∈ d.allSentences) (hR : ∀ name ss ts, s ∈ ss → R name ss ts → t ∈ ts) :
    t ∈ e.allSentences := by
  obtain ⟨_, hm, hs⟩ := mem_allSentences.1 hs
  obtain ⟨x, hx, rfl⟩ := List.mem_map.1 hm
  obtain ⟨y, hy, -, ts, hts, hym⟩ := h.modules.exists_of_mem hx
  refine mem_allSentences.2 ⟨y.2, List.mem_map_of_mem hy, ?_⟩
  rw [hym]
  exact hR _ _ ts hs hts

/-! ## Images -/

section

variable {f : Sentence → Except PassError (List Sentence)} {ss ts : List Sentence}

theorem Images.exists_of_mem (h : Images f ss ts) {t : Sentence} (ht : t ∈ ts) :
    ∃ s ∈ ss, ∃ image, f s = .ok image ∧ t ∈ image := by
  obtain ⟨images, himages, rfl⟩ := h
  obtain ⟨image, himage, ht⟩ := List.mem_flatten.1 ht
  obtain ⟨s, hs, hf⟩ := himages.flip.exists_of_mem himage
  exact ⟨s, hs, image, hf, ht⟩

theorem Images.mem_of_mem (h : Images f ss ts) {s : Sentence} (hs : s ∈ ss) :
    ∃ image, f s = .ok image ∧ ∀ t ∈ image, t ∈ ts := by
  obtain ⟨images, himages, rfl⟩ := h
  obtain ⟨image, himage, hf⟩ := himages.exists_of_mem hs
  exact ⟨image, hf, fun t ht => List.mem_flatten.2 ⟨image, himage, ht⟩⟩

/-- Replacing each sentence by its images replaces all sentences by theirs. -/
theorem images_allSentences (h : d.mapSentences f = .ok e) :
    Images f d.allSentences e.allSentences := by
  have hmodules := (mapSentences_eq_ok.1 h).modules
  rw [allSentences, allSentences, OrderedMap.values, OrderedMap.values, List.flatMap_map,
    List.flatMap_map]
  unfold ModuleMap.Rewrites at hmodules
  generalize d.modules.entries = entries at hmodules ⊢
  generalize e.modules.entries = entries' at hmodules ⊢
  induction hmodules with
  | nil => exact .nil
  | cons hxy _ ih =>
    obtain ⟨-, ts, hts, hy⟩ := hxy
    rw [List.flatMap_cons, List.flatMap_cons, hy]
    exact hts.append ih

end

/-! ## The images of rules -/

section

variable {r r' : Rule}

theorem mem_rules_of_mapSentences {f : Sentence → Except PassError (List Sentence)}
    (h : d.mapSentences f = .ok e) (hr : r ∈ d.rules)
    (hf : ∀ image, f (.rule r) = .ok image → .rule r' ∈ image) : r' ∈ e.rules := by
  obtain ⟨image, himage, hmem⟩ := (images_allSentences h).mem_of_mem (mem_rules.1 hr)
  exact mem_rules.2 (hmem _ (hf image himage))

theorem exists_mem_rules_of_mapRules {f : Rule → Except PassError Rule} (h : d.mapRules f = .ok e)
    (hr : r ∈ d.rules) : ∃ r', f r = .ok r' ∧ r' ∈ e.rules := by
  obtain ⟨image, himage, hmem⟩ := (images_allSentences h).mem_of_mem (mem_rules.1 hr)
  obtain ⟨r', hr', himage⟩ := Except.bind_eq_ok.1 himage
  cases himage
  exact ⟨r', hr', mem_rules.2 (hmem _ List.mem_cons_self)⟩

theorem mem_rules_of_mapRulesAndContexts {onRule : Rule → Rule} {onContext : Context → Context}
    (h : d.mapRulesAndContexts onRule onContext = .ok e) (hr : r ∈ d.rules) :
    onRule r ∈ e.rules := by
  refine mem_rules_of_mapSentences h hr fun image himage => ?_
  cases himage
  exact List.mem_cons_self

theorem mem_rules_of_appendToMain {extra : List Sentence} (h : d.appendToMain extra = .ok e)
    (hr : r ∈ d.rules) : r ∈ e.rules := by
  refine mem_rules.2 ((appendToMain_eq_ok.1 h).mem_of_mem (mem_rules.1 hr) ?_)
  rintro name ss _ hss rfl
  split
  · exact List.mem_append_left _ hss
  · exact hss

end

end Definition

/-! ## What is demanded of sentences -/

/-- Properties that productions, rules and contexts are demanded to have. -/
structure Demand where
  production : Production → Prop
  rule : Rule → Prop
  context : Context → Prop

/-- A sentence is as it is demanded to be. -/
def Sentence.Satisfies (D : Demand) : Sentence → Prop
  | .production p => D.production p
  | .rule r => D.rule r
  | .context c => D.context c
  | _ => True

namespace Definition

variable {d e : Definition} {D D' : String → Demand}

/-- The sentences of every module are as it is demanded of modules of its name. -/
def Satisfies (D : String → Demand) (d : Definition) : Prop :=
  ∀ m ∈ d.modules.values, ∀ s ∈ m.sentences, s.Satisfies (D m.name)

/-- Rewriting modules in which all sentences satisfy a demand to such modules. It may already be
known that the sentences that come out satisfy another one. -/
theorem Satisfies.rewrites_of {R : Rewriting} {E : String → Demand} (h : d.Satisfies D)
    (hE : e.Satisfies E) (he : d.Rewrites R e)
    (hR : ∀ name ss ts, (∀ s ∈ ss, s.Satisfies (D name)) → (∀ t ∈ ts, t.Satisfies (E name)) →
      R name ss ts → ∀ t ∈ ts, t.Satisfies (D' name)) : e.Satisfies D' := by
  intro m' hm'
  obtain ⟨y, hy, rfl⟩ := List.mem_map.1 hm'
  obtain ⟨x, hx, -, ts, hts, hym⟩ := he.modules.flip.exists_of_mem hy
  have hknown := hE y.2 hm'
  rw [hym] at hknown ⊢
  exact hR x.2.name x.2.sentences ts (h x.2 (List.mem_map_of_mem hx)) hknown hts

theorem satisfies_trivial (d : Definition) :
    d.Satisfies fun _ => ⟨fun _ => True, fun _ => True, fun _ => True⟩ := by
  intro m _ s _
  cases s <;> trivial

theorem Satisfies.rewrites {R : Rewriting} (h : d.Satisfies D) (he : d.Rewrites R e)
    (hR : ∀ name ss ts, (∀ s ∈ ss, s.Satisfies (D name)) → R name ss ts →
      ∀ t ∈ ts, t.Satisfies (D' name)) : e.Satisfies D' :=
  h.rewrites_of (satisfies_trivial e) he fun name ss ts hss _ => hR name ss ts hss

/-- Replacing sentences by images that satisfy a demand. -/
theorem Satisfies.mapSentences {f : Sentence → Except PassError (List Sentence)}
    (h : d.Satisfies D) (he : d.mapSentences f = .ok e)
    (hf : ∀ name s image, s.Satisfies (D name) → f s = .ok image →
      ∀ t ∈ image, t.Satisfies (D' name)) : e.Satisfies D' := by
  refine h.rewrites (mapSentences_eq_ok.1 he) fun name ss ts hss hts t ht => ?_
  obtain ⟨s, hs, image, himage, ht⟩ := hts.exists_of_mem ht
  exact hf name s image (hss s hs) himage t ht

theorem Satisfies.mapRules {f : Rule → Except PassError Rule} {P : String → Rule → Prop}
    (h : d.Satisfies D) (he : d.mapRules f = .ok e)
    (hf : ∀ name r r', (D name).rule r → f r = .ok r' → P name r') :
    e.Satisfies fun name => ⟨(D name).production, P name, (D name).context⟩ := by
  refine h.mapSentences he fun name s image hs himage t ht => ?_
  cases s with
  | rule r =>
    obtain ⟨r', hr', himage⟩ := Except.bind_eq_ok.1 himage
    cases himage
    rw [List.mem_singleton.1 ht]
    exact hf name r r' hs hr'
  | _ =>
    cases himage
    rw [List.mem_singleton.1 ht]
    exact hs

theorem Satisfies.mapRulesAndContexts {onRule : Rule → Rule} {onContext : Context → Context}
    {P : String → Rule → Prop} {C : String → Context → Prop} (h : d.Satisfies D)
    (he : d.mapRulesAndContexts onRule onContext = .ok e)
    (hrule : ∀ name r, (D name).rule r → P name (onRule r))
    (hcontext : ∀ name c, (D name).context c → C name (onContext c)) :
    e.Satisfies fun name => ⟨(D name).production, P name, C name⟩ := by
  refine h.mapSentences he fun name s image hs himage t ht => ?_
  cases s with
  | rule r =>
    cases himage
    rw [List.mem_singleton.1 ht]
    exact hrule name r hs
  | context c =>
    cases himage
    rw [List.mem_singleton.1 ht]
    exact hcontext name c hs
  | _ =>
    cases himage
    rw [List.mem_singleton.1 ht]
    exact hs

/-- Adding sentences that satisfy a demand. -/
theorem Satisfies.appendToMain {extra : List Sentence} (h : d.Satisfies D)
    (he : d.appendToMain extra = .ok e) (hextra : ∀ s ∈ extra, s.Satisfies (D d.main)) :
    e.Satisfies D := by
  refine h.rewrites (appendToMain_eq_ok.1 he) ?_
  rintro name ss _ hss rfl
  split
  · rename_i hname
    exact List.forall_mem_append.2 ⟨hss, hname ▸ hextra⟩
  · exact hss

end Definition

/-! ### The same of all modules -/

section

variable {P P' : Rule → Prop} {C C' : Context → Prop}

/-- A sentence whose rule or context has a given property, or whose label is no cast. -/
def Sentence.Meets (P : Rule → Prop) (C : Context → Prop) : Sentence → Prop
  | .production p => ∀ label ∈ p.label, Label.castSort? label = none
  | .rule r => P r
  | .context c => C c
  | _ => True

/-- The demand for no casts among the labels of productions, and for given properties of rules and
contexts. -/
def Demand.castless (P : Rule → Prop) (C : Context → Prop) : Demand :=
  ⟨fun p => ∀ label ∈ p.label, Label.castSort? label = none, P, C⟩

theorem Sentence.meets_iff {s : Sentence} : s.Meets P C ↔ s.Satisfies (.castless P C) := by
  cases s <;> rfl

namespace Definition

variable {d e : Definition}

/-- A definition in which no production declares a cast, and the rules and contexts have given
properties. -/
def Meets (P : Rule → Prop) (C : Context → Prop) (d : Definition) : Prop :=
  ∀ s ∈ d.allSentences, s.Meets P C

theorem meets_iff : d.Meets P C ↔ d.Satisfies fun _ => .castless P C := by
  simp only [Meets, Satisfies, mem_allSentences, Sentence.meets_iff]
  constructor
  · exact fun h m hm s hs => h s ⟨m, hm, hs⟩
  · rintro h s ⟨m, hm, hs⟩
    exact h m hm s hs

theorem Meets.mapRules {f : Rule → Except PassError Rule} (h : d.Meets P C)
    (he : d.mapRules f = .ok e) (hf : ∀ r r', P r → f r = .ok r' → P' r') : e.Meets P' C :=
  meets_iff.2 ((meets_iff.1 h).mapRules he fun _ => hf)

theorem Meets.mapRulesAndContexts {onRule : Rule → Rule} {onContext : Context → Context}
    (h : d.Meets P C) (he : d.mapRulesAndContexts onRule onContext = .ok e)
    (hrule : ∀ r, P r → P' (onRule r)) (hcontext : ∀ c, C c → C' (onContext c)) :
    e.Meets P' C' :=
  meets_iff.2 ((meets_iff.1 h).mapRulesAndContexts he (fun _ => hrule) fun _ => hcontext)

end Definition

end

end RewriteSemantics
