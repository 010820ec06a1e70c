/-
# What the passes keep

The passes up to the one that places cells keep the modules with their names, imports and
attributes. Of the sentences of a module they lose none, double none and move none: each has its
block, and the blocks stand in the order of the sentences. Behind the last block come productions
that were added, and behind these, in the main module, a configuration if there was none to be seen.
-/
import Mathlib
import RewriteSemantics.Proofs.Definition.Imports
import RewriteSemantics.Proofs.Pass.Postconditions
import RewriteSemantics.Proofs.Sentence.Blocks

namespace RewriteSemantics

open Definition

/-- A production that a pass adds: one of streams and lists, or a membership predicate. -/
def Production.IsAdded (p : Production) : Prop :=
  p ∈ Stream.productions ∨ ∃ sort, p = SortPredicates.production sort

/-- Productions that are added are not strict. -/
theorem Production.IsAdded.isInert {p : Production} (h : p.IsAdded) :
    (Sentence.production p).IsInert := by
  rcases h with h | ⟨sort, rfl⟩
  · exact Stream.isInert_productions p h
  · exact SortPredicates.isInert_production sort

/-! ## The sentences of a module -/

/-- Each sentence has its block, and behind the blocks come added productions and, in the main
module, perhaps a configuration. -/
def Rewriting.framed (strict frozen configured : Bool) (main : String) : Rewriting :=
  fun name ss ts => ∃ (blocks : List (List Sentence)) (productions : List Production)
    (configuration : Option Configuration),
    List.Forall₂ (Sentence.Becomes strict frozen) ss blocks ∧ (∀ p ∈ productions, p.IsAdded) ∧
      (configuration.isSome = true → configured = true ∧ name = main) ∧
      ts = blocks.flatten ++
        (productions.map .production ++ configuration.toList.map .configuration)

namespace Rewriting

variable {strict frozen strict' frozen' configured : Bool} {main name : String}
  {ss ts us : List Sentence} {E : Sentence → List Sentence → Prop}

theorem framed_self (main name : String) (ss : List Sentence) :
    framed false false false main name ss ss := by
  have hflatten : (ss.map fun s => [s]).flatten = ss := by
    rw [← List.flatMap_def, List.flatMap_singleton']
  refine ⟨ss.map fun s => [s], [], none, ?_, by simp, by simp, by simp [hflatten]⟩
  rw [List.forall₂_map_right_iff, List.forall₂_same]
  exact fun s _ => s.becomes_self

theorem expands_productions (hE : Advances E strict frozen strict' frozen')
    {productions : List Production} (hadded : ∀ p ∈ productions, p.IsAdded)
    (h : Expands E (productions.map .production) us) : us = productions.map .production := by
  induction productions generalizing us with
  | nil => exact expands_nil.1 h
  | cons p productions ih =>
    obtain ⟨hp, hadded⟩ := List.forall_mem_cons.1 hadded
    obtain ⟨image, ts, himage, hts, rfl⟩ := expands_cons.1 h
    rw [hE.production hp.isInert himage, ih hadded hts]
    rfl

/-- Going through all sentences advances the blocks and leaves what is behind them. -/
theorem framed_expands (hE : Advances E strict frozen strict' frozen')
    (h : framed strict frozen configured main name ss ts) (h' : Expands E ts us) :
    framed strict' frozen' configured main name ss us := by
  obtain ⟨blocks, productions, configuration, hblocks, hadded, hmain, rfl⟩ := h
  obtain ⟨_, _, hfirst, hsecond, rfl⟩ := h'.exists_of_append
  obtain ⟨blocks', hblocks', rfl⟩ := hfirst.exists_of_flatten
  obtain ⟨_, last, hproductions, hlast, rfl⟩ := hsecond.exists_of_append
  have hconfiguration : ∃ configuration' : Option Configuration,
      configuration'.isSome = configuration.isSome ∧
        last = configuration'.toList.map .configuration := by
    cases configuration with
    | none => exact ⟨none, rfl, expands_nil.1 hlast⟩
    | some c =>
      obtain ⟨c', hc'⟩ := hE.configuration (expands_singleton.1 hlast)
      exact ⟨some c', rfl, hc'⟩
  obtain ⟨configuration', hsome, rfl⟩ := hconfiguration
  rw [expands_productions hE hadded hproductions]
  exact ⟨blocks', productions, configuration', hblocks.comp hblocks' fun _ _ _ => hE.block, hadded,
    fun h => hmain (hsome ▸ h), rfl⟩

/-- Productions are added before any configuration is. -/
theorem framed_append_productions {productions : List Production}
    (h : framed strict frozen false main name ss ts) (hadded : ∀ p ∈ productions, p.IsAdded) :
    framed strict frozen false main name ss (ts ++ productions.map .production) := by
  obtain ⟨blocks, others, configuration, hblocks, hothers, hmain, rfl⟩ := h
  cases configuration with
  | some c => exact absurd (hmain rfl).1 Bool.false_ne_true
  | none =>
    refine ⟨blocks, others ++ productions, none, hblocks,
      List.forall_mem_append.2 ⟨hothers, hadded⟩, hmain, ?_⟩
    simp

/-- A configuration is added to the main module only if it has none. -/
theorem framed_append_configuration {c : Configuration}
    (h : framed strict frozen configured main main ss ts)
    (hnone : ∀ s ∈ ts, s.asConfiguration? = none) :
    framed strict frozen true main main ss (ts ++ [.configuration c]) := by
  obtain ⟨blocks, productions, configuration, hblocks, hadded, -, rfl⟩ := h
  cases configuration with
  | some c' =>
    have hmem := hnone (.configuration c') (by simp)
    cases hmem
  | none =>
    refine ⟨blocks, productions, some c, hblocks, hadded, fun _ => ⟨rfl, rfl⟩, ?_⟩
    simp

theorem framed_configured (h : framed strict frozen configured main name ss ts) :
    framed strict frozen true main name ss ts := by
  obtain ⟨blocks, productions, configuration, hblocks, hadded, hmain, hts⟩ := h
  exact ⟨blocks, productions, configuration, hblocks, hadded, fun h => ⟨rfl, (hmain h).2⟩, hts⟩

end Rewriting

/-! ## Definitions -/

namespace Definition

variable {R : Rewriting} {d e f : Definition}

/-- What is known of the modules before a rewriting may be used to describe it. -/
theorem Rewrites.knowing {P : String → List Sentence → Prop} (h : d.Rewrites R e)
    (hP : ∀ m, d.module? m.name = some m → P m.name m.sentences) :
    d.Rewrites (fun name ss ts => P name ss ∧ R name ss ts) e := by
  refine ⟨h.main, h.attributes, h.modules.imp_of_mem ?_⟩
  rintro x hx y ⟨hkey, ts, hts, hy⟩
  have hm := hP x.2 (module?_of_mem_values (List.mem_map_of_mem hx))
  exact ⟨hkey, ts, ⟨hm, hts⟩, hy⟩

/-- A definition with the sentences of another in their blocks. -/
def Framed (strict frozen configured : Bool) (d e : Definition) : Prop :=
  d.Rewrites (.framed strict frozen configured d.main) e

theorem framed_self (d : Definition) : d.Framed false false false d := by
  refine ⟨rfl, rfl, List.forall₂_same.2 fun x _ => ⟨rfl, x.2.sentences, ?_, rfl⟩⟩
  exact Rewriting.framed_self _ _ _

section

variable {strict frozen strict' frozen' configured : Bool}
  (h : d.Framed strict frozen configured e)

include h

theorem Framed.main : e.main = d.main :=
  Rewrites.main h

theorem Framed.weaken : d.Framed strict frozen true e :=
  Rewrites.mono h fun _ _ _ => Rewriting.framed_configured

/-- Going through all sentences advances the blocks. -/
theorem Framed.mapSentences {g : Sentence → Except PassError (List Sentence)}
    (he : e.mapSentences g = .ok f)
    (hg : Advances (fun s image => g s = .ok image) strict frozen strict' frozen') :
    d.Framed strict' frozen' configured f :=
  Rewrites.comp h (mapSentences_eq_ok.1 he) fun _ _ _ _ => Rewriting.framed_expands hg

/-- Putting one sentence in the place of another keeps the blocks. -/
theorem Framed.stays (he : e.Rewrites (fun _ => Expands Sentence.StaysAs) f) :
    d.Framed strict frozen configured f :=
  Rewrites.comp h he fun _ _ _ _ => Rewriting.framed_expands advances_stays

theorem Framed.stays_of_mapSentences {g : Sentence → Except PassError (List Sentence)}
    (he : e.mapSentences g = .ok f) (hg : ∀ s image, g s = .ok image → s.StaysAs image) :
    d.Framed strict frozen configured f := by
  refine Framed.stays h ((mapSentences_eq_ok.1 he).mono fun _ ss ts hts => ?_)
  exact Expands.mono hts hg

theorem Framed.mapRules {g : Rule → Except PassError Rule} (he : e.mapRules g = .ok f)
    (hg : ∀ r r', g r = .ok r' → r'.attributes = r.attributes) :
    d.Framed strict frozen configured f := by
  refine Framed.stays_of_mapSentences h he fun s image himage => ?_
  cases s with
  | rule r =>
    obtain ⟨r', hr', himage⟩ := Except.bind_eq_ok.1 himage
    cases himage
    exact ⟨_, .rule (hg r r' hr'), rfl⟩
  | _ =>
    cases himage
    exact ⟨_, .refl _, rfl⟩

theorem Framed.mapRulesAndContexts {onRule : Rule → Rule} {onContext : Context → Context}
    (he : e.mapRulesAndContexts onRule onContext = .ok f)
    (hrule : ∀ r, (onRule r).attributes = r.attributes)
    (hcontext : ∀ c, (onContext c).attributes = c.attributes) :
    d.Framed strict frozen configured f := by
  refine Framed.stays_of_mapSentences h he fun s image himage => ?_
  cases s with
  | rule r =>
    cases himage
    exact ⟨_, .rule (hrule r), rfl⟩
  | context c =>
    cases himage
    exact ⟨_, .context (hcontext c), rfl⟩
  | _ =>
    cases himage
    exact ⟨_, .refl _, rfl⟩

/-- A configuration is added where the main module declares none. -/
theorem Framed.appendConfiguration {c : Configuration}
    (he : e.appendToMain [.configuration c] = .ok f)
    (hnone : ∀ s ∈ e.mainModule.sentences, s.asConfiguration? = none) :
    d.Framed strict frozen true f := by
  have hmain : ∀ m, e.module? m.name = some m → m.name = e.main →
      ∀ s ∈ m.sentences, s.asConfiguration? = none := by
    intro m hm hname
    rw [hname, e.module?_main] at hm
    cases hm
    exact hnone
  have hknown := (appendToMain_eq_ok.1 he).knowing
    (P := fun name ss => name = e.main → ∀ s ∈ ss, s.asConfiguration? = none) hmain
  refine Rewrites.comp h hknown fun name ss ts us hts ⟨hts', hus⟩ => ?_
  rw [hus]
  split
  · rename_i hname
    have hdmain : name = d.main := hname.trans (Framed.main h)
    subst hdmain
    exact Rewriting.framed_append_configuration hts (hts' hname)
  · exact Rewriting.framed_configured hts

end

end Definition

/-! ## The passes -/

section

variable {d e f : Definition} {strict frozen configured : Bool}

theorem Stream.framed (h : d.Framed strict frozen false e) (he : resolve e = .ok f) :
    d.Framed strict frozen false f := by
  obtain ⟨resolved, hresolved, he⟩ := Except.bind_eq_ok.1 he
  have hstays : d.Framed strict frozen false resolved := by
    refine h.stays_of_mapSentences hresolved fun s image himage => ?_
    cases s with
    | configuration c =>
      obtain ⟨body, -, himage⟩ := Except.bind_eq_ok.1 himage
      cases himage
      exact ⟨.configuration ⟨body, c.attributes⟩, .configuration rfl, rfl⟩
    | _ =>
      cases himage
      exact ⟨_, .refl _, rfl⟩
  split at he
  · cases he
    exact hstays
  · have hadded : ∀ p ∈ missingProductions resolved, p.IsAdded := fun p hp =>
      .inl (List.mem_of_mem_filter hp)
    refine Rewrites.comp hstays (appendToMain_eq_ok.1 he) fun name ss ts us hts hus => ?_
    rw [hus]
    split
    · exact Rewriting.framed_append_productions hts hadded
    · exact hts

theorem Strict.framed (h : d.Framed false false configured e)
    (he : e.mapSentences resolveSentence = .ok f) : d.Framed true false configured f :=
  h.mapSentences he advances_strict

/-- Freezing the contexts of a module replaces each of its sentences. -/
theorem Freezer.expands_of_resolveFrom {index : Nat} {ss ts : List Sentence}
    (h : resolveFrom index ss = .ok ts) :
    Expands (fun s image => ∃ index, expand index s = .ok image) ss ts := by
  induction ss generalizing index ts with
  | nil =>
    cases h
    exact expands_nil.2 rfl
  | cons s ss ih =>
    obtain ⟨first, others, hfirst, hothers, rfl⟩ := resolveFrom_cons.1 h
    exact expands_cons.2 ⟨first, others, ⟨index, hfirst⟩, ih hothers, rfl⟩

theorem Freezer.framed (h : d.Framed true false configured e) (he : resolve e = .ok f) :
    d.Framed true true configured f :=
  Rewrites.comp h (resolve_eq_ok.1 he) fun _ _ _ _ hts hus =>
    Rewriting.framed_expands advances_freeze hts (expands_of_resolveFrom hus)

theorem HeatCool.attributes_of_resolveRule {r r' : Rule} (h : resolveRule r = .ok r') :
    r'.attributes = r.attributes := by
  rw [resolveRule] at h
  split at h
  · cases h
    rfl
  · split at h
    · cases h
      rfl
    · cases h

theorem SortPredicates.framed (h : d.Framed strict frozen false e) (he : generate e = .ok f) :
    d.Framed strict frozen false f := by
  refine Rewrites.comp h (generate_eq_ok.1 he) fun name ss ts us hts hus => ?_
  have hadded : ∀ p ∈ (missing e ⟨name, [], ts, ∅⟩).map production, p.IsAdded := by
    intro p hp
    obtain ⟨sort, -, rfl⟩ := List.mem_map.1 hp
    exact .inr ⟨sort, rfl⟩
  have happend := Rewriting.framed_append_productions hts hadded
  rw [List.map_map] at happend
  rw [hus]
  exact happend

/-! ### Configurations -/

/-- Where the main module sees no configuration, it has none. -/
theorem Definition.asConfiguration?_eq_none (h : e.configuration? e.main = none) :
    ∀ s ∈ e.mainModule.sentences, s.asConfiguration? = none := by
  intro s hs
  refine List.findSome?_eq_none_iff.1 h s ?_
  exact List.mem_flatMap.2 ⟨e.mainModule, mem_closure_self e.module?_main, hs⟩

/-- The first configuration keeps its attributes, and any other sentence is kept. -/
theorem Counter.forall₂_extendFirst (ss : List Sentence) :
    List.Forall₂ Sentence.Stays ss (extendFirst ss) := by
  induction ss with
  | nil => exact .nil
  | cons s ss ih =>
    cases s with
    | configuration c => exact .cons (.configuration rfl) (List.forall₂_same.2 fun s _ => .refl s)
    | _ => exact .cons (.refl _) ih

theorem Counter.framed {cell : String} (h : d.Framed strict frozen configured e)
    (he : declare cell e = .ok f) : d.Framed strict frozen true f := by
  unfold declare at he
  split at he
  · rename_i m hm
    have hmodule := module?_of_mem_closure (List.mem_of_find?_eq_some hm)
    have hrewrites := (withModule_eq_ok hmodule).1 (Except.mapError_eq_ok.1 he)
    refine (h.stays (hrewrites.mono fun name ss ts hts => ?_)).weaken
    refine expands_of_forall₂_stays ?_
    rw [hts]
    split
    · exact forall₂_extendFirst ss
    · exact List.forall₂_same.2 fun s _ => .refl s
  · rename_i hnone
    refine h.appendConfiguration he (asConfiguration?_eq_none ?_)
    refine List.findSome?_eq_none_iff.2 fun s hs => ?_
    obtain ⟨m, hm, hs⟩ := List.mem_flatMap.1 hs
    have hdeclares := List.find?_eq_none.1 hnone m hm
    by_contra hconfiguration
    exact hdeclares (List.any_eq_true.2 ⟨s, hs, Option.isSome_iff_ne_none.2 hconfiguration⟩)

theorem FreshConstants.attributes_of_resolveRule {r r' : Rule} (h : resolveRule e r = .ok r') :
    r'.attributes = r.attributes := by
  rw [resolveRule] at h
  split at h
  · cases h
    rfl
  · obtain ⟨values, -, h⟩ := Except.bind_eq_ok.1 h
    cases h
    rfl

theorem FreshConstants.framed {cell : String} (h : d.Framed strict frozen configured e)
    (he : resolve cell e = .ok f) : d.Framed strict frozen true f := by
  obtain ⟨resolved, hresolved, he⟩ := Except.bind_eq_ok.1 he
  have hrules := h.mapRules hresolved fun _ _ => attributes_of_resolveRule
  split at he
  · cases he
    exact hrules.weaken
  · exact Counter.framed hrules he

theorem ComputationCell.attributes_addToRule (cell : String) (e : Definition) (r : Rule) :
    (addToRule cell e r).attributes = r.attributes := by
  rw [addToRule]
  split
  · rfl
  · rfl

theorem ComputationCell.framed {cell : String} (h : d.Framed strict frozen true e)
    (he : add cell e = .ok f) : d.Framed strict frozen true f := by
  obtain ⟨wrapped, hwrapped, he⟩ := Except.bind_eq_ok.1 he
  have hrules : d.Framed strict frozen true wrapped := h.mapRules hwrapped fun r _ hr => by
    cases hr
    exact attributes_addToRule cell e r
  split at he
  · rename_i hneeds
    have hunseen : e.configuration? e.main = none :=
      Option.isNone_iff_eq_none.1 (Bool.and_eq_true_iff.1 hneeds).1
    obtain ⟨R, hR, hkeeps⟩ := exists_rewriting_of_mapRules hwrapped
    refine hrules.appendConfiguration he (asConfiguration?_eq_none ?_)
    rw [hR.configuration?_eq (hkeeps fun _ => rfl), hR.main]
    exact hunseen
  · cases he
    exact hrules

theorem StrategyCell.attributes_addToRule (e : Definition) (r : Rule) :
    (addToRule e r).attributes = r.attributes := by
  rw [addToRule]
  split
  · rfl
  · rfl

theorem StrategyCell.framed {enabled : Bool} (h : d.Framed strict frozen configured e)
    (he : add enabled e = .ok f) : d.Framed strict frozen configured f := by
  unfold add at he
  split at he
  · obtain ⟨tree, -, he⟩ := Except.bind_eq_ok.1 he
    split at he
    · refine h.mapRules he fun r _ hr => ?_
      cases hr
      exact attributes_addToRule e r
    · cases he
      exact h
  · cases he
    exact h

theorem Concretization.attributes_of_resolveRule {tree : CellTree} {r r' : Rule}
    (h : resolveRule tree e r = .ok r') : r'.attributes = r.attributes := by
  rw [resolveRule] at h
  split at h
  · cases h
    rfl
  · obtain ⟨f, -, h⟩ := Except.bind_eq_ok.1 h
    simp only at h
    split at h
    · cases h
      rfl
    · cases h

theorem Concretization.framed (h : d.Framed strict frozen configured e) (he : resolve e = .ok f) :
    d.Framed strict frozen configured f := by
  obtain ⟨tree, -, he⟩ := Except.bind_eq_ok.1 he
  exact h.mapRules he fun _ _ => attributes_of_resolveRule

/-! ### Runs -/

/-- A definition after a number of passes, with the sentences in their blocks: contexts are added by
the second pass and frozen by the fourth, and a configuration is added by the eighth or a later
one. -/
def Definition.FramedAfter (k : Nat) (d e : Definition) : Prop :=
  d.Framed (decide (2 ≤ k)) (decide (4 ≤ k)) (decide (8 ≤ k)) e

/-- Each pass takes the blocks to where they should be behind it. -/
theorem Pass.framedAfter_succ {o : Options} {k : Nat} {p : Pass} (hk : k < 11)
    (hp : (standard o)[k]? = some p) (h : d.FramedAfter k e) (he : p.run e = .ok f) :
    d.FramedAfter (k + 1) f := by
  match k, hk with
  | 0, _ =>
    cases hp
    exact Stream.framed h he
  | 1, _ =>
    cases hp
    exact Strict.framed h he
  | 2, _ =>
    cases hp
    exact Framed.mapRulesAndContexts h he (fun _ => rfl) fun _ => rfl
  | 3, _ =>
    cases hp
    exact Freezer.framed h he
  | 4, _ =>
    cases hp
    exact Framed.mapRules h he fun _ _ => HeatCool.attributes_of_resolveRule
  | 5, _ =>
    cases hp
    exact Framed.mapRulesAndContexts h he (fun _ => rfl) fun _ => rfl
  | 6, _ =>
    cases hp
    exact SortPredicates.framed h he
  | 7, _ =>
    cases hp
    exact FreshConstants.framed h he
  | 8, _ =>
    cases hp
    exact ComputationCell.framed h he
  | 9, _ =>
    cases hp
    exact StrategyCell.framed h he
  | 10, _ =>
    cases hp
    exact Concretization.framed h he

theorem Pass.framedAfter_of_run {o : Options} {k : Nat} (hk : k ≤ 11)
    (h : (Pipeline.run ((standard o).take k) d).result = .ok e) : d.FramedAfter k e := by
  induction k generalizing e with
  | zero =>
    rw [List.take_zero, Pipeline.run_nil] at h
    rw [h]
    exact framed_self d
  | succ k ih =>
    have hlength : k < (standard o).length := by
      show k < 12
      omega
    have hp : (standard o)[k]? = some (standard o)[k] := List.getElem?_eq_getElem hlength
    rw [List.take_add_one, hp, Option.toList_some, Pipeline.run_append] at h
    obtain ⟨d₁, h₁, h⟩ := h
    obtain ⟨d₂, h₂, h⟩ := Pipeline.run_cons.1 h
    rw [Pipeline.run_nil.1 h]
    exact framedAfter_succ (by omega) hp (ih (by omega) h₁) h₂

/-- The first passes keep the modules with their names, imports and attributes, and the sentences of
each module in their blocks. -/
theorem Pass.frame_of_run {o : Options} {k : Nat} (hk : k ≤ 11)
    (h : (Pipeline.run ((standard o).take k) d).result = .ok e) :
    e.main = d.main ∧ e.modules.keys = d.modules.keys ∧
      ∀ name m, d.module? name = some m → ∃ m', e.module? name = some m' ∧ m'.name = m.name ∧
        m'.imports = m.imports ∧ m'.attributes = m.attributes ∧
        Rewriting.framed (decide (2 ≤ k)) (decide (4 ≤ k)) (decide (8 ≤ k)) d.main name
          m.sentences m'.sentences := by
  have hframed := framedAfter_of_run hk h
  refine ⟨Framed.main hframed, hframed.modules.keys, fun name m hm => ?_⟩
  rcases hframed.modules.get? name with ⟨hnone, -⟩ | ⟨_, m', hm', he, ss, hss, rfl⟩
  · rw [module?, hnone] at hm
    cases hm
  · cases hm.symm.trans hm'
    rw [name_of_module? hm] at hss
    exact ⟨_, he, rfl, rfl, rfl, hss⟩

/-- The strict pairs and the rule about them after eleven passes. -/
theorem Pass.frame_of_pairDefinition : ∃ e m',
    (Pipeline.run ((standard .default).take 11) pairDefinition).result = .ok e ∧ e.main = "M" ∧
      e.module? "M" = some m' ∧ m'.sentences.length = 6 ∧
      Rewriting.framed true true true "M" "M" pairModule.sentences m'.sentences := by
  have hrun : ((Pipeline.run ((standard .default).take 11) pairDefinition).result.toOption.map
      fun e => (e.module? "M").map (·.sentences.length)) = some (some 6) := by cbv
  obtain ⟨e, he, hlength⟩ := Option.map_eq_some_iff.1 hrun
  have he := Except.toOption_eq_some.1 he
  obtain ⟨hmain, -, hmodules⟩ := frame_of_run (by decide : 11 ≤ 11) he
  obtain ⟨m', hm', -, -, -, hframed⟩ := hmodules "M" pairModule (by decide)
  rw [hm'] at hlength
  exact ⟨e, m', he, hmain, hm', Option.some.inj hlength, hframed⟩

end

end RewriteSemantics
