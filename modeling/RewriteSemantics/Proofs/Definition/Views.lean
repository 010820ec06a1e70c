/-
# What is read off a definition

Productions, configurations and what depends on them are collected from the sentences of modules. A
rewriting that keeps what is collected from sentences keeps what is read off the definition.
-/
import RewriteSemantics.CellTree
import RewriteSemantics.Proofs.Definition.Sentences

namespace RewriteSemantics

section

variable {β : Type} {k : Sentence → Option β} {R : Rewriting}

/-- A rewriting keeps what is collected from sentences. -/
def Rewriting.Keeps (R : Rewriting) (k : Sentence → Option β) : Prop :=
  ∀ name ss ts, R name ss ts → ts.filterMap k = ss.filterMap k

theorem Module.Rewrites.filterMap_eq {m m' : Module} (h : m.Rewrites R m') (hk : R.Keeps k) :
    m'.sentences.filterMap k = m.sentences.filterMap k := by
  obtain ⟨ss, hss, rfl⟩ := h
  exact hk _ _ _ hss

namespace Definition

variable {d d' : Definition}

theorem Rewrites.filterMap_sentencesOf (h : d.Rewrites R d') (hk : R.Keeps k) (name : String) :
    (d'.sentencesOf name).filterMap k = (d.sentencesOf name).filterMap k := by
  rw [sentencesOf, sentencesOf, List.filterMap_flatMap, List.filterMap_flatMap]
  exact ((h.closure name).flatMap_eq fun m m' hm => (hm.filterMap_eq hk).symm).symm

theorem Rewrites.filterMap_values (h : d.Rewrites R d') (hk : R.Keeps k) :
    d'.modules.values.flatMap (·.sentences.filterMap k) =
      d.modules.values.flatMap (·.sentences.filterMap k) := by
  rw [OrderedMap.values, OrderedMap.values, List.flatMap_map, List.flatMap_map]
  exact (h.modules.flatMap_eq fun x y hxy => (hxy.2.filterMap_eq hk).symm).symm

end Definition

end

namespace Definition

variable {R : Rewriting} {d d' : Definition}

/-! ## Configurations -/

/-- A cell tree is that of some configuration. -/
theorem exists_configuration {name : String} {tree : CellTree}
    (h : CellTree.ofModule d name = .ok tree) :
    ∃ configuration, CellTree.ofTerm configuration = .ok tree := by
  unfold CellTree.ofModule at h
  split at h
  · exact ⟨_, h⟩
  · exact ⟨_, h⟩

section

variable (h : d.Rewrites R d') (hk : R.Keeps Sentence.asConfiguration?)

include h hk

theorem Rewrites.configurations_eq : d'.configurations = d.configurations :=
  h.filterMap_values hk

theorem Rewrites.configuration?_eq (name : String) :
    d'.configuration? name = d.configuration? name := by
  rw [configuration?, configuration?, ← List.head?_filterMap, ← List.head?_filterMap,
    h.filterMap_sentencesOf hk name]

theorem Rewrites.cellTree_eq (name : String) :
    CellTree.ofModule d' name = CellTree.ofModule d name := by
  rw [CellTree.ofModule, CellTree.ofModule, h.configuration?_eq hk]

end

/-! ## Productions -/

theorem mem_visibleProductions {name : String} {p : Production} :
    p ∈ d.visibleProductions name ↔ .production p ∈ d.sentencesOf name :=
  Sentence.mem_filterMap_asProduction?

section

variable (h : d.Rewrites R d') (hk : R.Keeps Sentence.asProduction?)

include h hk

theorem Rewrites.productions_eq : d'.productions = d.productions :=
  h.filterMap_values hk

theorem Rewrites.visibleProductions_eq (name : String) :
    d'.visibleProductions name = d.visibleProductions name :=
  h.filterMap_sentencesOf hk name

theorem Rewrites.isFunctionLabel_eq (label : String) :
    d'.isFunctionLabel label = d.isFunctionLabel label := by
  rw [isFunctionLabel, isFunctionLabel, productionsFor, productionsFor, h.productions_eq hk]

theorem Rewrites.isFunctionRule_eq (s : Rule) : d'.isFunctionRule s = d.isFunctionRule s := by
  unfold isFunctionRule
  simp only [h.isFunctionLabel_eq hk]

end

/-- A label is that of a function if some production of some module says so. -/
theorem isFunctionLabel_iff {label : String} : d.isFunctionLabel label = true ↔
    ∃ m ∈ d.modules.values, ∃ p ∈ m.productions, p.label = some label ∧ p.isFunction = true := by
  rw [isFunctionLabel, List.any_eq_true, productionsFor, productions]
  constructor
  · rintro ⟨p, hp, hfunction⟩
    obtain ⟨hp, hlabel⟩ := List.mem_filter.1 hp
    obtain ⟨m, hm, hp⟩ := List.mem_flatMap.1 hp
    exact ⟨m, hm, p, hp, of_decide_eq_true hlabel, hfunction⟩
  · rintro ⟨m, hm, p, hp, hlabel, hfunction⟩
    refine ⟨p, List.mem_filter.2 ⟨List.mem_flatMap.2 ⟨m, hm, hp⟩, ?_⟩, hfunction⟩
    exact decide_eq_true hlabel

/-- Changing rules keeps what is collected from other sentences. -/
theorem exists_rewriting_of_mapRules {f : Rule → Except PassError Rule} {e : Definition}
    (h : d.mapRules f = .ok e) : ∃ R, d.Rewrites R e ∧
      ∀ {β : Type} {k : Sentence → Option β}, (∀ r, k (.rule r) = none) → R.Keeps k := by
  refine ⟨_, mapSentences_eq_ok.1 h, ?_⟩
  rintro β k hk name ss _ ⟨images, himages, rfl⟩
  induction himages with
  | nil => rfl
  | @cons s image ss images hs _ ih =>
    rw [List.flatten_cons, List.filterMap_append, ih]
    cases s with
    | rule r =>
      obtain ⟨r₁, -, himage⟩ := Except.bind_eq_ok.1 hs
      cases himage
      rw [List.filterMap_cons, List.filterMap_cons, hk, hk]
      rfl
    | _ =>
      cases hs
      rw [← List.filterMap_append]
      rfl

theorem isFunctionRule_of_mapRules {f : Rule → Except PassError Rule} {e : Definition}
    (h : d.mapRules f = .ok e) (r : Rule) : e.isFunctionRule r = d.isFunctionRule r := by
  obtain ⟨R, hR, hkeeps⟩ := exists_rewriting_of_mapRules h
  exact hR.isFunctionRule_eq (hkeeps fun _ => rfl) r

theorem cellTree_of_mapRules {f : Rule → Except PassError Rule} {e : Definition}
    (h : d.mapRules f = .ok e) :
    CellTree.ofModule e e.main = CellTree.ofModule d d.main := by
  obtain ⟨R, hR, hkeeps⟩ := exists_rewriting_of_mapRules h
  rw [hR.cellTree_eq (hkeeps fun _ => rfl), hR.main]

end Definition

/-! ## Growth -/

/-- Whether a sentence declares a sort or a production. -/
def Sentence.isDeclaration : Sentence → Bool
  | .sort _ => true
  | .production _ => true
  | _ => false

/-- The declarations of every module are kept. -/
def Rewriting.growing : Rewriting :=
  fun _ ss ts => ∀ s ∈ ss, s.isDeclaration = true → s ∈ ts

namespace Definition

variable {R : Rewriting} {d e : Definition}

/-- A definition has the modules of another, each with at least its declarations. -/
def GrowsTo (d e : Definition) : Prop :=
  d.Rewrites .growing e

theorem GrowsTo.refl (d : Definition) : d.GrowsTo d := by
  refine ⟨rfl, rfl, List.forall₂_same.2 fun x _ => ⟨rfl, x.2.sentences, ?_, rfl⟩⟩
  exact fun _ hs _ => hs

theorem GrowsTo.trans {f : Definition} (h : d.GrowsTo e) (h' : e.GrowsTo f) : d.GrowsTo f :=
  h.comp h' fun _ _ _ _ hss hts s hs hdecl => hts s (hss s hs hdecl) hdecl

theorem GrowsTo.main (h : d.GrowsTo e) : e.main = d.main :=
  Rewrites.main h

/-- No module comes in. -/
theorem GrowsTo.module?_eq_none (h : d.GrowsTo e) {name : String} (hd : d.module? name = none) :
    e.module? name = none := by
  rcases h.modules.get? name with ⟨-, he⟩ | ⟨_, _, hm, -⟩
  · exact he
  · rw [module?, hm] at hd
    cases hd

theorem GrowsTo.productions (h : d.GrowsTo e) : ∀ p ∈ d.productions, p ∈ e.productions := by
  intro p hp
  obtain ⟨m, hm, hp⟩ := List.mem_flatMap.1 hp
  obtain ⟨x, hx, rfl⟩ := List.mem_map.1 hm
  obtain ⟨y, hy, -, ss, hss, hym⟩ := h.modules.exists_of_mem hx
  refine List.mem_flatMap.2 ⟨y.2, List.mem_map_of_mem hy, ?_⟩
  rw [Module.mem_productions] at hp ⊢
  rw [hym]
  exact hss _ hp rfl

/-- What a module sees declared it sees declared afterwards. -/
theorem GrowsTo.mem_sentencesOf (h : d.GrowsTo e) {name : String} {s : Sentence}
    (hdecl : s.isDeclaration = true) (hs : s ∈ d.sentencesOf name) : s ∈ e.sentencesOf name := by
  obtain ⟨m, hm, hs⟩ := List.mem_flatMap.1 hs
  obtain ⟨_, hm', ss, hss, rfl⟩ := (h.closure name).exists_of_mem hm
  exact List.mem_flatMap.2 ⟨_, hm', hss s hs hdecl⟩

theorem GrowsTo.visibleProductions (h : d.GrowsTo e) {name : String} {p : Production}
    (hp : p ∈ d.visibleProductions name) : p ∈ e.visibleProductions name :=
  mem_visibleProductions.2 (h.mem_sentencesOf rfl (mem_visibleProductions.1 hp))

/-- What is defined stays defined. -/
theorem GrowsTo.exists_definedSorts (h : d.GrowsTo e) {name : String} {m : Module}
    (hm : m ∈ d.closure name) {sort : SortName} (hsort : sort ∈ m.definedSorts) :
    ∃ m' ∈ e.closure name, sort ∈ m'.definedSorts := by
  obtain ⟨_, hm', ss, hss, rfl⟩ := (h.closure name).exists_of_mem hm
  refine ⟨_, hm', ?_⟩
  rw [Module.definedSorts, OrderedSet.mem_ofList, List.mem_filterMap] at hsort ⊢
  obtain ⟨s, hs, hdefines⟩ := hsort
  refine ⟨s, hss s hs ?_, hdefines⟩
  cases s with
  | sort decl => rfl
  | production p => rfl
  | _ => cases hdefines

/-- More productions make for more functions. -/
theorem GrowsTo.isFunctionLabel {label : String} (h : d.GrowsTo e)
    (hlabel : d.isFunctionLabel label = true) : e.isFunctionLabel label = true := by
  rw [Definition.isFunctionLabel, List.any_eq_true, productionsFor] at hlabel ⊢
  obtain ⟨p, hp, hfunction⟩ := hlabel
  obtain ⟨hp, hname⟩ := List.mem_filter.1 hp
  exact ⟨p, List.mem_filter.2 ⟨h.productions p hp, hname⟩, hfunction⟩

theorem GrowsTo.isFunctionRule {r : Rule} (h : d.GrowsTo e) (hr : d.isFunctionRule r = true) :
    e.isFunctionRule r = true := by
  unfold Definition.isFunctionRule at hr ⊢
  split at hr
  · exact h.isFunctionLabel hr
  · cases hr

/-- A rewriting that keeps the declarations of every module lets a definition grow. -/
theorem Rewrites.growsTo (h : d.Rewrites R e)
    (hR : ∀ name ss ts s, R name ss ts → s.isDeclaration = true → s ∈ ss → s ∈ ts) :
    d.GrowsTo e :=
  h.mono fun name ss ts hts s hs hdecl => hR name ss ts s hts hdecl hs

/-- Replacing sentences keeps declarations that are among their own images. -/
theorem growsTo_of_mapSentences {f : Sentence → Except PassError (List Sentence)}
    (hf : ∀ s image, s.isDeclaration = true → f s = .ok image → s ∈ image)
    (h : d.mapSentences f = .ok e) : d.GrowsTo e := by
  refine (mapSentences_eq_ok.1 h).growsTo ?_
  rintro name ss _ s ⟨images, himages, rfl⟩ hdecl hs
  obtain ⟨image, himage, hfs⟩ := himages.exists_of_mem hs
  exact List.mem_flatten.2 ⟨image, himage, hf s image hdecl hfs⟩

theorem growsTo_of_mapRules {f : Rule → Except PassError Rule} {e : Definition}
    (h : d.mapRules f = .ok e) : d.GrowsTo e := by
  refine growsTo_of_mapSentences (fun s image hdecl himage => ?_) h
  cases s with
  | rule r => cases hdecl
  | _ =>
    cases himage
    exact List.mem_singleton_self _

theorem growsTo_of_mapRulesAndContexts {onRule : Rule → Rule} {onContext : Context → Context}
    (h : d.mapRulesAndContexts onRule onContext = .ok e) : d.GrowsTo e := by
  refine growsTo_of_mapSentences (fun s image hdecl himage => ?_) h
  cases s with
  | rule r => cases hdecl
  | context c => cases hdecl
  | _ =>
    cases himage
    exact List.mem_singleton_self _

theorem growsTo_of_appendToMain {extra : List Sentence} {e : Definition}
    (h : d.appendToMain extra = .ok e) : d.GrowsTo e := by
  refine (appendToMain_eq_ok.1 h).growsTo ?_
  rintro name ss _ s rfl - hs
  split
  · exact List.mem_append_left _ hs
  · exact hs

end Definition

end RewriteSemantics
