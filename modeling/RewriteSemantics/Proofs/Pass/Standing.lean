/-
# Where sentences stand

Once contexts are resolved, a pass changes rules one by one and leaves every sentence at its place.
What a pass adds comes behind the sentences that are there. So a few sentences that stand side by
side can be followed through the passes by the number of sentences in front of them.
-/
import RewriteSemantics.Proofs.Pass.Growth

namespace RewriteSemantics

namespace Definition

variable {d e : Definition} {name : String} {n : Nat} {ss : List Sentence}

/-- Some sentences stand in the module of a name, behind a number of others. -/
def StandsAt (d : Definition) (name : String) (n : Nat) (ss : List Sentence) : Prop :=
  ∃ m front back, d.module? name = some m ∧ m.sentences = front ++ ss ++ back ∧ front.length = n

/-- What a rewriting makes of some sentences, if it can be told which of the new ones these are. -/
theorem StandsAt.rewrites {R : Rewriting} {n' : Nat} {P : List Sentence → Prop}
    (hss : d.StandsAt name n ss) (h : d.Rewrites R e)
    (hR : ∀ front back us, front.length = n → R name (front ++ ss ++ back) us →
      ∃ front' ts back', us = front' ++ ts ++ back' ∧ front'.length = n' ∧ P ts) :
    ∃ ts, P ts ∧ e.StandsAt name n' ts := by
  obtain ⟨m, front, back, hm, hsentences, hfront⟩ := hss
  obtain ⟨m', he, hus⟩ := h.exists_module? hm
  rw [hsentences] at hus
  obtain ⟨front', ts, back', hus', hfront', hts⟩ := hR front back _ hfront hus
  exact ⟨ts, hts, m', front', back', he, hus', hfront'⟩

/-- Sentences that a rewriting leaves at their place. -/
theorem StandsAt.kept {R : Rewriting} (hss : d.StandsAt name n ss) (h : d.Rewrites R e)
    (hR : ∀ front back us, front.length = n → R name (front ++ ss ++ back) us →
      ∃ front' back', us = front' ++ ss ++ back' ∧ front'.length = n) : e.StandsAt name n ss := by
  obtain ⟨ts, rfl, hstands⟩ := hss.rewrites (P := (· = ss)) h fun front back us hfront hus => by
    obtain ⟨front', back', hus', hfront'⟩ := hR front back us hfront hus
    exact ⟨front', ss, back', hus', hfront', rfl⟩
  exact hstands

/-! ## Sentence by sentence -/

/-- A count of sentences is the same for the images if it is the same for each image. -/
theorem Images.count_eq {f : Sentence → Except PassError (List Sentence)}
    {count : List Sentence → Nat} (hcount : ∀ ss ts, count (ss ++ ts) = count ss + count ts)
    (hf : ∀ s image, f s = .ok image → count image = count [s]) {ss ts : List Sentence}
    (h : Images f ss ts) : count ts = count ss := by
  induction ss generalizing ts with
  | nil =>
    obtain ⟨_, himages, rfl⟩ := h
    cases himages
    rfl
  | cons s ss ih =>
    obtain ⟨image, rest, hs, hrest, rfl⟩ := images_cons_iff.1 h
    rw [hcount, hf s image hs, ih hrest, ← hcount]
    rfl

/-- Replacing each sentence by one keeps the places. -/
theorem StandsAt.mapSentences {f : Sentence → Except PassError (List Sentence)}
    (hss : d.StandsAt name n ss) (h : d.mapSentences f = .ok e)
    (hf : ∀ s image, f s = .ok image → image.length = 1) :
    ∃ ts, Images f ss ts ∧ e.StandsAt name n ts := by
  refine hss.rewrites (mapSentences_eq_ok.1 h) fun front back us hfront hus => ?_
  obtain ⟨first, back', hfirst, -, rfl⟩ := images_append_iff.1 hus
  obtain ⟨front', ts, hfront', hts, rfl⟩ := images_append_iff.1 hfirst
  exact ⟨front', ts, back', rfl,
    (hfront'.count_eq (fun _ _ => List.length_append) hf).trans hfront, hts⟩

section

variable {p : Production} {r s : Rule}

/-- Two rules behind a production stay where they are if productions are kept and each rule is
replaced by its image. -/
theorem StandsAt.mapSentences_rules {f : Sentence → Except PassError (List Sentence)}
    {g : Rule → Except PassError Rule}
    (hss : d.StandsAt name n [.production p, .rule r, .rule s]) (h : d.mapSentences f = .ok e)
    (hf : ∀ s image, f s = .ok image → image.length = 1)
    (hproduction : f (.production p) = .ok [.production p])
    (hrule : ∀ r, f (.rule r) = do .ok [.rule (← g r)]) :
    ∃ r' s', g r = .ok r' ∧ g s = .ok s' ∧
      e.StandsAt name n [.production p, .rule r', .rule s'] := by
  obtain ⟨_, hts, hstands⟩ := hss.mapSentences h hf
  obtain ⟨_, _, hp, hts₁, rfl⟩ := images_cons_iff.1 hts
  obtain ⟨_, _, hr, hts₂, rfl⟩ := images_cons_iff.1 hts₁
  obtain ⟨_, _, hs, ⟨_, himages, rfl⟩, rfl⟩ := images_cons_iff.1 hts₂
  cases hproduction.symm.trans hp
  cases himages
  rw [hrule] at hr hs
  obtain ⟨r', hr', himage⟩ := Except.bind_eq_ok.1 hr
  cases himage
  obtain ⟨s', hs', himage⟩ := Except.bind_eq_ok.1 hs
  cases himage
  exact ⟨r', s', hr', hs', hstands⟩

theorem StandsAt.mapRules {f : Rule → Except PassError Rule}
    (hss : d.StandsAt name n [.production p, .rule r, .rule s]) (h : d.mapRules f = .ok e) :
    ∃ r' s', f r = .ok r' ∧ f s = .ok s' ∧
      e.StandsAt name n [.production p, .rule r', .rule s'] := by
  refine hss.mapSentences_rules h (fun t image himage => ?_) rfl fun _ => rfl
  cases t with
  | rule r =>
    obtain ⟨r', -, himage⟩ := Except.bind_eq_ok.1 himage
    cases himage
    rfl
  | _ =>
    cases himage
    rfl

theorem StandsAt.mapRulesAndContexts {onRule : Rule → Rule} {onContext : Context → Context}
    (hss : d.StandsAt name n [.production p, .rule r, .rule s])
    (h : d.mapRulesAndContexts onRule onContext = .ok e) :
    e.StandsAt name n [.production p, .rule (onRule r), .rule (onRule s)] := by
  obtain ⟨r', s', hr, hs, hstands⟩ := hss.mapSentences_rules (g := fun r => .ok (onRule r)) h
    (fun t image himage => by cases t <;> cases himage <;> rfl) rfl fun _ => rfl
  cases hr
  cases hs
  exact hstands

end

/-! ## Contexts -/

section

variable {m : Module} {c : Context} {front back : List Sentence}

/-- A pass over rules and contexts leaves a context where it is, behind as many others. -/
theorem exists_context_of_mapRulesAndContexts {onRule : Rule → Rule}
    {onContext : Context → Context} (hm : d.module? name = some m)
    (hc : m.sentences = front ++ .context c :: back)
    (h : d.mapRulesAndContexts onRule onContext = .ok e) :
    ∃ m' front' back', e.module? name = some m' ∧
      m'.sentences = front' ++ .context (onContext c) :: back' ∧ front'.length = front.length ∧
      Freezer.contextCount front' = Freezer.contextCount front := by
  obtain ⟨m', he, hus⟩ := (mapSentences_eq_ok.1 h).exists_module? hm
  rw [hc] at hus
  obtain ⟨front', rest, hfront, hrest, hus⟩ := images_append_iff.1 hus
  obtain ⟨_, back', himage, -, rfl⟩ := images_cons_iff.1 hrest
  cases himage
  refine ⟨m', front', back', he, hus, ?_, ?_⟩
  · refine hfront.count_eq (fun _ _ => List.length_append) fun t image himage => ?_
    cases t <;> cases himage <;> rfl
  · refine hfront.count_eq Freezer.contextCount_append fun t image himage => ?_
    cases t <;> cases himage <;> rfl

/-- What a context is resolved to stands where the context stood, moved on by the rules of the
contexts in front of it. -/
theorem standsAt_of_context (hm : d.module? name = some m)
    (hc : m.sentences = front ++ .context c :: back) (h : Freezer.resolve d = .ok e) :
    ∃ i, Freezer.holeCount c.body = 1 ∧
      e.StandsAt name (front.length + 2 * Freezer.contextCount front)
        [.production (Freezer.production c i), .rule (Freezer.heatRule c i),
          .rule (Freezer.coolRule c i)] := by
  obtain ⟨m', he, hus⟩ := (Freezer.resolve_eq_ok.1 h).exists_module? hm
  rw [hc] at hus
  obtain ⟨front', rest, hfront, hrest, hus⟩ := Freezer.resolveFrom_append.1 hus
  obtain ⟨_, back', hsentences, -, rfl⟩ := Freezer.resolveFrom_cons.1 hrest
  obtain ⟨hhole, rfl⟩ := Freezer.expand_context_eq_ok.1 hsentences
  exact ⟨_, hhole, m', front', back', he, hus.trans (List.append_assoc ..).symm,
    Freezer.length_resolveFrom hfront⟩

end

/-! ## Additions -/

/-- What is added comes behind. -/
theorem StandsAt.appendToMain {extra : List Sentence} (hss : d.StandsAt name n ss)
    (h : d.appendToMain extra = .ok e) : e.StandsAt name n ss := by
  refine hss.kept (appendToMain_eq_ok.1 h) fun front back us hfront hus => ?_
  rw [hus]
  split
  · exact ⟨front, back ++ extra, List.append_assoc _ _ _, hfront⟩
  · exact ⟨front, back, rfl, hfront⟩

end Definition

open Definition

variable {d e : Definition} {name : String} {n : Nat} {ss : List Sentence} {p : Production}
  {r s : Rule}

theorem SortPredicates.standsAt (hss : d.StandsAt name n ss) (h : generate d = .ok e) :
    e.StandsAt name n ss := by
  refine hss.kept (generate_eq_ok.1 h) ?_
  rintro front back _ hfront rfl
  exact ⟨front, _, List.append_assoc _ _ _, hfront⟩

theorem Counter.standsAt {cell : String} (hnone : ∀ s ∈ ss, s.asConfiguration? = none)
    (hss : d.StandsAt name n ss) (h : declare cell d = .ok e) : e.StandsAt name n ss := by
  unfold declare at h
  split at h
  · rename_i m hm
    have hmodule := module?_of_mem_closure (List.mem_of_find?_eq_some hm)
    have hrewrites := (withModule_eq_ok hmodule).1 (Except.mapError_eq_ok.1 h)
    refine hss.kept hrewrites fun front back us hfront hus => ?_
    rw [hus]
    split
    · have hany : ss.any (·.asConfiguration?.isSome) = false := by
        rw [List.any_eq_false]
        intro s hs
        rw [hnone s hs]
        decide
      rw [List.append_assoc, extendFirst_append, extendFirst_append]
      split
      · exact ⟨extendFirst front, back, (List.append_assoc _ _ _).symm,
          (length_extendFirst front).trans hfront⟩
      · rw [hany]
        exact ⟨front, extendFirst back, (List.append_assoc _ _ _).symm, hfront⟩
    · exact ⟨front, back, rfl, hfront⟩
  · exact hss.appendToMain h

theorem FreshConstants.standsAt {cell : String}
    (hss : d.StandsAt name n [.production p, .rule r, .rule s]) (h : resolve cell d = .ok e) :
    ∃ r' s', resolveRule d r = .ok r' ∧ resolveRule d s = .ok s' ∧
      e.StandsAt name n [.production p, .rule r', .rule s'] := by
  obtain ⟨f, hf, h⟩ := Except.bind_eq_ok.1 h
  obtain ⟨r', s', hr, hs, hstands⟩ := hss.mapRules hf
  refine ⟨r', s', hr, hs, ?_⟩
  split at h
  · cases h
    exact hstands
  · refine Counter.standsAt (fun t ht => ?_) hstands h
    simp only [List.mem_cons, List.not_mem_nil, or_false] at ht
    rcases ht with rfl | rfl | rfl <;> rfl

theorem ComputationCell.standsAt {cell : String}
    (hss : d.StandsAt name n [.production p, .rule r, .rule s]) (h : add cell d = .ok e) :
    e.StandsAt name n
      [.production p, .rule (addToRule cell d r), .rule (addToRule cell d s)] := by
  obtain ⟨f, hf, h⟩ := Except.bind_eq_ok.1 h
  obtain ⟨r', s', hr, hs, hstands⟩ := hss.mapRules hf
  cases hr
  cases hs
  split at h
  · exact hstands.appendToMain h
  · cases h
    exact hstands

theorem Concretization.standsAt (hss : d.StandsAt name n [.production p, .rule r, .rule s])
    (h : resolve d = .ok e) :
    ∃ tree r' s', CellTree.ofModule d d.main = .ok tree ∧ resolveRule tree d r = .ok r' ∧
      resolveRule tree d s = .ok s' ∧ e.StandsAt name n [.production p, .rule r', .rule s'] := by
  obtain ⟨tree, htree, h⟩ := Except.bind_eq_ok.1 h
  obtain ⟨r', s', hr, hs, hstands⟩ := hss.mapRules h
  exact ⟨tree, r', s', Except.mapError_eq_ok.1 htree, hr, hs, hstands⟩

/-! ## Functions -/

/-- A configuration is no production. -/
theorem ComputationCell.isFunctionRule_eq {cell : String} (h : add cell d = .ok e) :
    e.isFunctionRule r = d.isFunctionRule r := by
  obtain ⟨f, hf, h⟩ := Except.bind_eq_ok.1 h
  have hfunction := isFunctionRule_of_mapRules hf r
  split at h
  · refine ((appendToMain_eq_ok.1 h).isFunctionRule_eq ?_ r).trans hfunction
    rintro name ss _ rfl
    split
    · rw [List.filterMap_append]
      exact List.append_nil _
    · rfl
  · cases h
    exact hfunction

theorem Concretization.isFunctionRule_eq (h : resolve d = .ok e) :
    e.isFunctionRule r = d.isFunctionRule r := by
  obtain ⟨tree, -, h⟩ := Except.bind_eq_ok.1 h
  exact isFunctionRule_of_mapRules h r

/-! ## Rules through the passes -/

/-- What the passes behind the resolution of contexts make of a rule. The generators of made-up
values are looked up in one definition, and functions in another. -/
def Rule.CompilesTo (o : Options) (d e : Definition) (tree : CellTree) (r r' : Rule) : Prop :=
  ∃ r₁ r₂, HeatCool.resolveRule r = .ok r₁ ∧
    FreshConstants.resolveRule d (SemanticCasts.resolveRule o.skipSortPredicates r₁) = .ok r₂ ∧
    Concretization.resolveRule tree e (ComputationCell.addToRule o.computationCell e r₂) = .ok r'

/-- The passes behind the resolution of contexts, up to the one that places cells. -/
def Pass.finishing (o : Options) : List Pass :=
  ((standard o).drop 4).take 7

/-- Two rules behind a production are compiled where they stand. -/
theorem Pass.exists_compilesTo {o : Options} (ho : o.heatCoolStrategies = false)
    (hss : d.StandsAt name n [.production p, .rule r, .rule s])
    (h : (Pipeline.run (finishing o) d).result = .ok e) :
    ∃ f tree configuration r' s', CellTree.ofTerm configuration = .ok tree ∧
      r.CompilesTo o f e tree r' ∧ s.CompilesTo o f e tree s' ∧
      e.StandsAt name n [.production p, .rule r', .rule s'] := by
  simp only [finishing, standard, List.drop, List.take, Pipeline.run_cons, Pipeline.run_nil] at h
  obtain ⟨d₁, h₁, d₂, h₂, d₃, h₃, d₄, h₄, d₅, h₅, d₆, h₆, d₇, h₇, rfl⟩ := h
  obtain ⟨r₁, s₁, hr₁, hs₁, hss₁⟩ := hss.mapRules h₁
  have hss₂ := hss₁.mapRulesAndContexts h₂
  have hss₃ := SortPredicates.standsAt hss₂ h₃
  obtain ⟨r₂, s₂, hr₂, hs₂, hss₄⟩ := FreshConstants.standsAt hss₃ h₄
  have hss₅ := ComputationCell.standsAt hss₄ h₅
  rw [ho] at h₆
  cases StrategyCell.add_disabled.1 h₆
  obtain ⟨tree, r₃, s₃, htree, hr₃, hs₃, hss₇⟩ := Concretization.standsAt hss₅ h₇
  obtain ⟨configuration, hconfiguration⟩ := exists_configuration htree
  -- Functions stay functions, so they may be asked for in the result.
  have hadd : ∀ q, ComputationCell.addToRule o.computationCell e q =
      ComputationCell.addToRule o.computationCell d₄ q := fun q =>
    ComputationCell.addToRule_congr
      ((Concretization.isFunctionRule_eq h₇).trans (ComputationCell.isFunctionRule_eq h₅))
  have hplace : ∀ q, Concretization.resolveRule tree e q = Concretization.resolveRule tree d₅ q :=
    fun q => Concretization.resolveRule_congr (Concretization.isFunctionRule_eq h₇)
  refine ⟨d₃, tree, configuration, r₃, s₃, hconfiguration, ⟨r₁, r₂, hr₁, hr₂, ?_⟩,
    ⟨s₁, s₂, hs₁, hs₂, ?_⟩, hss₇⟩
  · rw [hadd, hplace]
    exact hr₃
  · rw [hadd, hplace]
    exact hs₃

end RewriteSemantics
