/-
# Rules of functions under the passes that place cells

The passes that put rules into cells leave rules of functions alone. Whether a rule is one of a
function is told by the label at the head of its left-hand side, and each pass asks anew. Making up
values puts the counter cell beside the body of a rule, whether it is one of a function or not, and
then no label is at the head. So a rule of a function that makes up no value goes through all these
passes unchanged, and one that makes up values ends up in the computation cell of the configuration.
-/
import RewriteSemantics.Proofs.Pass.NewNames

namespace RewriteSemantics

/-! ## Labels at the head -/

namespace Term

variable {t : Term} {label : String}

theorem topLabel?_lhs (t : Term) : t.lhs.topLabel? = t.topLabel? := by
  induction t using Term.induct with
  | rewrite l r hl _ => exact hl
  | _ => rfl

theorem isCell_of_topLabel? (h : t.topLabel? = some label) : t.isCell = false := by
  cases t with
  | cell tag body => cases h
  | _ => rfl

theorem sequenceItems_of_topLabel? (h : t.topLabel? = some label) : t.sequenceItems = [t] := by
  cases t with
  | seq items => cases h
  | _ => rfl

theorem beside_of_topLabel? (h : t.topLabel? = some label) (extra : Term) :
    t.beside extra = .bag [t, extra] := by
  cases t with
  | bag items => cases h
  | _ => rfl

/-- Made-up values stand below the label at the head. -/
theorem topLabel?_replace (h : t.topLabel? = some label) (values : List (String × Term)) :
    (FreshConstants.replace values t).topLabel? = some label := by
  induction t using Term.induct with
  | app head args _ =>
    rw [FreshConstants.replace_app]
    exact h
  | rewrite l r hl _ => exact hl h
  | _ => cases h

end Term

open Definition

variable {d e : Definition} {r : Rule} {name label : String} {n : Nat}

theorem Definition.isFunctionRule_of_bag {items : List Term} (hbody : r.body = .bag items) :
    d.isFunctionRule r = false := by
  rw [isFunctionRule, hbody]
  rfl

theorem Definition.exists_topLabel?_of_isFunctionRule (h : d.isFunctionRule r = true) :
    ∃ label, r.body.topLabel? = some label := by
  rw [isFunctionRule, Term.topLabel?_lhs] at h
  cases htop : r.body.topLabel? with
  | none =>
    rw [htop] at h
    cases h
  | some label => exact ⟨label, rfl⟩

/-! ## The pass that makes up values -/

theorem Counter.filterMap_extendFirst {β : Type} {k : Sentence → Option β}
    (hk : ∀ c, k (.configuration c) = none) (ss : List Sentence) :
    (extendFirst ss).filterMap k = ss.filterMap k := by
  induction ss with
  | nil => rfl
  | cons s ss ih =>
    cases s with
    | configuration c =>
      rw [extendFirst, List.filterMap_cons_none (hk _), List.filterMap_cons_none (hk _)]
    | _ =>
      rw [extendFirst, List.filterMap_cons, List.filterMap_cons, ih]
      nofun

/-- A configuration is no production. -/
theorem Counter.isFunctionRule_eq {cell : String} (h : declare cell d = .ok e) (r : Rule) :
    e.isFunctionRule r = d.isFunctionRule r := by
  unfold declare at h
  split at h
  · rename_i m hm
    have hmodule := module?_of_mem_closure (List.mem_of_find?_eq_some hm)
    have hrewrites := (withModule_eq_ok hmodule).1 (Except.mapError_eq_ok.1 h)
    refine hrewrites.isFunctionRule_eq ?_ r
    rintro name ss _ rfl
    split
    · exact filterMap_extendFirst (fun _ => rfl) ss
    · rfl
  · refine (appendToMain_eq_ok.1 h).isFunctionRule_eq ?_ r
    rintro name ss _ rfl
    split
    · rw [List.filterMap_append]
      exact List.append_nil _
    · rfl

theorem FreshConstants.isFunctionRule_eq {cell : String} (h : resolve cell d = .ok e) (r : Rule) :
    e.isFunctionRule r = d.isFunctionRule r := by
  obtain ⟨f, hf, h⟩ := Except.bind_eq_ok.1 h
  have hfunction := isFunctionRule_of_mapRules hf r
  split at h
  · cases h
    exact hfunction
  · exact (Counter.isFunctionRule_eq h r).trans hfunction

/-- A rule that makes up no value stays as it is; beside the body of any other rule of a function
the counter cell is put. -/
theorem FreshConstants.resolveRule_of_topLabel? {r' : Rule} (htop : r.body.topLabel? = some label)
    (h : resolveRule d r = .ok r') :
    (freshVariables r).isEmpty = true ∧ r' = r ∨
      (freshVariables r).isEmpty = false ∧ ∃ values,
        valuesFrom d (counterOf r) 0 (freshVariables r).entries = .ok values ∧
        r'.body = .bag [replace values r.body,
          counterCell (counterOf r) (freshVariables r).size] := by
  simp only [resolveRule] at h
  split at h
  · rename_i hempty
    cases h
    exact .inl ⟨hempty, rfl⟩
  · rename_i hempty
    obtain ⟨values, hvalues, h⟩ := Except.bind_eq_ok.1 h
    cases h
    exact .inr ⟨Bool.eq_false_iff.2 hempty, values, hvalues,
      Term.beside_of_topLabel? (Term.topLabel?_replace htop _) _⟩

/-! ## Where a rule stands -/

/-- A single sentence stands where it is found by its number. -/
theorem Definition.standsAt_singleton_iff {s : Sentence} : d.StandsAt name n [s] ↔
    ∃ m, d.module? name = some m ∧ m.sentences[n]? = some s := by
  constructor
  · rintro ⟨m, front, back, hm, hsentences, rfl⟩
    refine ⟨m, hm, ?_⟩
    rw [hsentences, List.append_assoc, List.getElem?_append_right le_rfl, Nat.sub_self]
    rfl
  · rintro ⟨m, hm, hs⟩
    obtain ⟨hn, rfl⟩ := List.getElem?_eq_some_iff.1 hs
    refine ⟨m, m.sentences.take n, m.sentences.drop (n + 1), hm, ?_, ?_⟩
    · rw [List.append_assoc, List.singleton_append, List.getElem_cons_drop, List.take_append_drop]
    · exact List.length_take_of_le hn.le

/-- Replacing each rule keeps the places of rules. -/
theorem Definition.StandsAt.mapRules_rule {f : Rule → Except PassError Rule}
    (hr : d.StandsAt name n [.rule r]) (h : d.mapRules f = .ok e) :
    ∃ r', f r = .ok r' ∧ e.StandsAt name n [.rule r'] := by
  obtain ⟨_, hts, hstands⟩ := hr.mapSentences h fun s image himage => by
    cases s with
    | rule r =>
      obtain ⟨r', -, himage⟩ := Except.bind_eq_ok.1 himage
      cases himage
      rfl
    | _ =>
      cases himage
      rfl
  obtain ⟨_, _, himage, ⟨_, himages, rfl⟩, rfl⟩ := images_cons_iff.1 hts
  cases himages
  obtain ⟨r', hr', himage⟩ := Except.bind_eq_ok.1 himage
  cases himage
  exact ⟨r', hr', hstands⟩

theorem FreshConstants.standsAt_rule {cell : String} (hr : d.StandsAt name n [.rule r])
    (h : resolve cell d = .ok e) :
    ∃ r', resolveRule d r = .ok r' ∧ e.StandsAt name n [.rule r'] := by
  obtain ⟨f, hf, h⟩ := Except.bind_eq_ok.1 h
  obtain ⟨r', hr', hstands⟩ := hr.mapRules_rule hf
  refine ⟨r', hr', ?_⟩
  split at h
  · cases h
    exact hstands
  · exact Counter.standsAt (List.forall_mem_singleton.2 rfl) hstands h

theorem ComputationCell.standsAt_rule {cell : String} (hr : d.StandsAt name n [.rule r])
    (h : add cell d = .ok e) : e.StandsAt name n [.rule (addToRule cell d r)] := by
  obtain ⟨f, hf, h⟩ := Except.bind_eq_ok.1 h
  obtain ⟨_, hr', hstands⟩ := hr.mapRules_rule hf
  cases hr'
  split at h
  · exact hstands.appendToMain h
  · cases h
    exact hstands

theorem StrategyCell.standsAt_rule {enabled : Bool} (hr : d.StandsAt name n [.rule r])
    (h : add enabled d = .ok e) :
    ∃ r', (r' = r ∨ r' = addToRule d r) ∧ e.StandsAt name n [.rule r'] := by
  rcases eq_or_mapRules h with rfl | h
  · exact ⟨r, .inl rfl, hr⟩
  · obtain ⟨_, hr', hstands⟩ := hr.mapRules_rule h
    cases hr'
    exact ⟨_, .inr rfl, hstands⟩

theorem Concretization.standsAt_rule (hr : d.StandsAt name n [.rule r]) (h : resolve d = .ok e) :
    ∃ tree r', CellTree.ofModule d d.main = .ok tree ∧ resolveRule tree d r = .ok r' ∧
      e.StandsAt name n [.rule r'] := by
  obtain ⟨tree, htree, h⟩ := Except.bind_eq_ok.1 h
  obtain ⟨r', hr', hstands⟩ := hr.mapRules_rule h
  exact ⟨tree, r', Except.mapError_eq_ok.1 htree, hr', hstands⟩

/-! ## A rule with the counter beside it -/

/-- A term with a label at its head goes into the computation cell, unless that is the cell beside
it. -/
theorem ComputationCell.wrap_bag {cell : String} {t inner : Term} {tag : CellTag}
    (htop : t.topLabel? = some label) : wrap cell (.bag [t, .cell tag inner]) =
      if tag.name = cell then .bag [t, .cell tag inner]
      else .bag [.openCell cell t, .cell tag inner] := by
  have hcells : (Term.bag [t, .cell tag inner]).hasCells = true :=
    List.any_eq_true.2 ⟨.cell tag inner, Term.mem_subterms_of_child
      (List.mem_cons_of_mem _ List.mem_cons_self) (Term.self_mem_subterms _), rfl⟩
  have hcell := Term.isCell_of_topLabel? htop
  have hinner : (Term.cell tag inner).isCell = true := rfl
  have hnamed : t.isCellNamed cell = false := by
    cases t with
    | cell tag body => cases htop
    | _ => rfl
  have hinnerNamed : (Term.cell tag inner).isCellNamed cell = (tag.name == cell) := rfl
  have hsequence : Term.sequence [t] = t := by
    rw [Term.sequence, List.flatMap_singleton, Term.sequenceItems_of_topLabel? htop]
  rw [wrap, if_pos hcells]
  by_cases hname : tag.name = cell <;>
    simp [hcell, hinner, hnamed, hinnerNamed, hname, hsequence]

/-- The strategy cell comes behind what stands side by side. -/
theorem StrategyCell.exists_bag_of_addToRule {items : List Term} (hbody : r.body = .bag items) :
    ∃ extra, (addToRule d r).body = .bag (items ++ extra) := by
  rw [addToRule]
  split
  · exact ⟨[], by rw [hbody, List.append_nil]⟩
  · exact ⟨[.openCell cellName (content r)], by rw [hbody]; rfl⟩

/-- A term with a label at its head has no place among the outermost cells. -/
theorem Concretization.fragmentsOf_of_topLabel? {tree : CellTree} {t : Term} {items : List Term}
    {f : Fragments} (htop : t.topLabel? = some label) (hbody : r.body = .bag (t :: items)) :
    fragmentsOf tree r ≠ .ok f := by
  intro h
  rw [fragmentsOf, hbody] at h
  obtain ⟨g, hread, -⟩ := Except.bind_eq_ok.1 h
  cases t with
  | app head args => cases hread
  | rewrite left right => cases hread
  | _ => cases htop

/-- A rule that writes the computation cell beside others is placed into the outermost cell, with
the term in its computation cell. -/
theorem Concretization.exists_cell_of_bag {tree : CellTree} {configuration t : Term} {cell : String}
    {items : List Term} {r' : Rule} (ht : CellTree.ofTerm configuration = .ok tree)
    (htop : t.topLabel? = some label) (hbody : r.body = .bag (.openCell cell t :: items))
    (hr : resolveRule tree d r = .ok r') :
    ∃ tag content tag' inner, r'.body = .cell tag content ∧ tag.name = tree.top ∧
      tag'.name = cell ∧ .cell tag' inner ∈ r'.body.subterms ∧ t ∈ inner.sequenceItems := by
  have hfunction : d.isFunctionRule r = false := isFunctionRule_of_bag hbody
  have hwritten : .openCell cell t ∈ r.body.subterms := by
    rw [hbody]
    exact Term.mem_subterms_of_child List.mem_cons_self (Term.self_mem_subterms _)
  have hplain : holdsCells t = false := by
    cases t with
    | app head args => rfl
    | rewrite left right => rfl
    | _ => cases htop
  obtain ⟨tag', inner, hname, -, hcell, hwithin⟩ :=
    exists_cell_of_resolveRule ht hfunction hr hwritten hplain
  rw [Term.sequenceItems_of_topLabel? htop] at hwithin
  obtain ⟨l, hl⟩ := CellTree.laidOut_ofTerm ht
  obtain ⟨f, hf, rfl, -⟩ := placed_of_resolveRule hl hfunction hr
  obtain ⟨tag, content, hplace, htag⟩ := exists_topCell_place hl hf
  exact ⟨tag, content, tag', inner, hplace, htag, hname, hcell, hwithin.subset List.mem_cons_self⟩

/-! ## Rules of functions through the passes -/

/-- The passes from making up values to the placing of cells. -/
def Pass.completing (o : Options) : List Pass :=
  ((standard o).drop 7).take 4

/-- A rule has become one that is still one of the same function, and whose body is no cell. -/
structure Rule.StaysFunction (e : Definition) (r r' : Rule) : Prop where
  isFunctionRule : e.isFunctionRule r' = true
  topLabel? : r'.body.lhs.topLabel? = r.body.lhs.topLabel?
  isCell : r'.body.isCell = false

/-- A rule of a function has been put into the computation cell of a configuration, with its made-up
values. -/
def Rule.PutIntoCells (o : Options) (tree : CellTree) (r r' : Rule) : Prop :=
  ∃ values tag content tag' inner, r'.body = .cell tag content ∧ tag.name = tree.top ∧
    tag'.name = o.computationCell ∧ .cell tag' inner ∈ r'.body.subterms ∧
    FreshConstants.replace values r.body ∈ inner.sequenceItems

/-- A rule of a function stays one of the same function and out of all cells exactly if it makes up
no value, and then it stays as it is. If it makes up values, it is put into cells. -/
theorem Pass.standsAt_functionRule {o : Options} (hr : d.StandsAt name n [.rule r])
    (hfunction : d.isFunctionRule r = true) (h : (Pipeline.run (completing o) d).result = .ok e) :
    ∃ r', e.StandsAt name n [.rule r'] ∧
      (r.StaysFunction e r' ↔ (FreshConstants.freshVariables r).isEmpty = true) ∧
      ((FreshConstants.freshVariables r).isEmpty = true → r' = r) ∧
      ((FreshConstants.freshVariables r).isEmpty = false →
        ∃ tree, CellTree.ofModule e e.main = .ok tree ∧ r.PutIntoCells o tree r') := by
  simp only [completing, standard, List.drop, List.take, Pipeline.run_cons, Pipeline.run_nil] at h
  obtain ⟨d₁, h₁, d₂, h₂, d₃, h₃, d₄, h₄, rfl⟩ := h
  obtain ⟨label, htop⟩ := exists_topLabel?_of_isFunctionRule hfunction
  obtain ⟨r₁, hr₁, hstands₁⟩ := FreshConstants.standsAt_rule hr h₁
  have hstands₂ := ComputationCell.standsAt_rule hstands₁ h₂
  obtain ⟨r₃, hr₃, hstands₃⟩ := StrategyCell.standsAt_rule hstands₂ h₃
  obtain ⟨tree, r₄, htree, hr₄, hstands₄⟩ := Concretization.standsAt_rule hstands₃ h₄
  have hfunction₁ : d₁.isFunctionRule r = true :=
    (FreshConstants.isFunctionRule_eq h₁ r).trans hfunction
  have hfunction₂ : d₂.isFunctionRule r = true :=
    (ComputationCell.isFunctionRule_eq h₂).trans hfunction₁
  have hfunction₃ : d₃.isFunctionRule r = true :=
    (StrategyCell.isFunctionRule_eq h₃ r).trans hfunction₂
  refine ⟨r₄, hstands₄, ?_⟩
  rcases FreshConstants.resolveRule_of_topLabel? htop hr₁ with
    ⟨hempty, rfl⟩ | ⟨hvalued, values, -, hbody₁⟩
  · -- Every pass sees the rule of a function and leaves it alone.
    have hsame₂ : ComputationCell.addToRule o.computationCell d₁ r₁ = r₁ := if_pos hfunction₁
    rw [hsame₂] at hr₃
    have hsame₃ : r₃ = r₁ := hr₃.elim id fun hr₃ => by
      rw [hr₃, StrategyCell.addToRule, hfunction₂]
      rfl
    rw [hsame₃, Concretization.resolveRule, if_pos hfunction₃] at hr₄
    obtain rfl := Except.ok.inj hr₄
    have hstays : r₁.StaysFunction e r₁ :=
      ⟨(Concretization.isFunctionRule_eq h₄).trans hfunction₃, rfl, Term.isCell_of_topLabel? htop⟩
    refine ⟨⟨fun _ => hempty, fun _ => hstays⟩, fun _ => rfl, fun hvalued => ?_⟩
    rw [hempty] at hvalued
    cases hvalued
  · -- The counter cell hides the label, and the term goes into the computation cell.
    have htop₁ := Term.topLabel?_replace htop values
    have hplain₁ : d₁.isFunctionRule r₁ = false := isFunctionRule_of_bag hbody₁
    have hbody₂ : (ComputationCell.addToRule o.computationCell d₁ r₁).body =
        ComputationCell.wrap o.computationCell r₁.body := by
      rw [ComputationCell.addToRule, hplain₁]
      rfl
    rw [hbody₁, FreshConstants.counterCell, Term.closedCell,
      ComputationCell.wrap_bag htop₁] at hbody₂
    have hbody₃ : ∀ {items : List Term},
        (ComputationCell.addToRule o.computationCell d₁ r₁).body = .bag items →
        ∃ extra, r₃.body = .bag (items ++ extra) := by
      intro items hbody
      rcases hr₃ with rfl | rfl
      · exact ⟨[], by rw [hbody, List.append_nil]⟩
      · exact StrategyCell.exists_bag_of_addToRule hbody
    obtain ⟨configuration, hconfiguration⟩ := exists_configuration htree
    split at hbody₂
    · obtain ⟨extra, hbody₃⟩ := hbody₃ hbody₂
      have hplain₃ : d₃.isFunctionRule r₃ = false := isFunctionRule_of_bag hbody₃
      rw [Concretization.resolveRule, hplain₃] at hr₄
      obtain ⟨f, hf, -⟩ := Except.bind_eq_ok.1 hr₄
      exact absurd hf (Concretization.fragmentsOf_of_topLabel? htop₁ hbody₃)
    · obtain ⟨extra, hbody₃⟩ := hbody₃ hbody₂
      obtain ⟨tag, content, tag', inner, hbody₄, htag, hname, hcell, hmem⟩ :=
        Concretization.exists_cell_of_bag hconfiguration htop₁ hbody₃ hr₄
      have htree₄ := (Concretization.cellTree_eq h₄).trans htree
      refine ⟨⟨fun hstays => ?_, fun hempty => ?_⟩, fun hempty => ?_, fun _ => ⟨tree, htree₄,
        values, tag, content, tag', inner, hbody₄, htag, hname, hcell, hmem⟩⟩
      · have hcell := hstays.isCell
        rw [hbody₄] at hcell
        cases hcell
      · rw [hempty] at hvalued
        cases hvalued
      · rw [hempty] at hvalued
        cases hvalued

/-! ### Two rules of one function -/

/-- A rule of a function that gives its argument back. -/
def copyRule : Rule :=
  .ofBody (.rewrite (.app "f" [.ofName "X"]) (.ofName "X"))

/-- A rule of the same function that makes up its value. -/
def makeRule : Rule :=
  .ofBody (.rewrite (.app "f" [.ofName "X"]) (.ofName "!N"))

/-- Both rules, behind the function and the one that makes up integers. -/
def functionModule : Module :=
  ⟨"M", [], [.production ⟨.int, some "f", [.int],
      (∅ : Attributes).withMarker Attributes.function⟩,
    .production ⟨.int, some "freshInt", [.int], ((∅ : Attributes).withMarker
      Attributes.function).withMarker Attributes.freshGenerator⟩,
    .rule copyRule, .rule makeRule], ∅⟩

def functionDefinition : Definition :=
  ⟨"M", .insert ∅ functionModule.name functionModule, ∅,
    ModuleMap.named_empty.insert functionModule, by cbv⟩

/-- What is found at a place behind the passes. -/
def Pass.placedAt (o : Options) (d : Definition) (name : String) (n : Nat) : Option Sentence := do
  let e ← (Pipeline.run (completing o) d).result.toOption
  let m ← e.module? name
  m.sentences[n]?

theorem Pass.exists_standsAt_of_placedAt {o : Options} {s : Sentence}
    (h : placedAt o d name n = some s) :
    ∃ e, (Pipeline.run (completing o) d).result = .ok e ∧ e.StandsAt name n [s] := by
  obtain ⟨e, he, h⟩ := Option.bind_eq_some_iff.1 h
  obtain ⟨m, hm, h⟩ := Option.bind_eq_some_iff.1 h
  exact ⟨e, Except.toOption_eq_some.1 he, standsAt_singleton_iff.2 ⟨m, hm, h⟩⟩

/-- The rule that makes up its value, in the computation cell and beside the counter. -/
def placedMakeRule : Rule :=
  .ofBody (.closedCell "generatedTop" (.bag
    [.closedCell "k" (.seq [.rewrite (.app "f" [.ofName "X"])
      (.app "freshInt" [.app "_+Int_" [.sortedVar "_Gen0" .int, .int 0]]), .ofName "DotVar0"]),
    .closedCell "generatedCounter" (.rewrite (.sortedVar "_Gen0" .int)
      (.app "_+Int_" [.sortedVar "_Gen0" .int, .int 1]))]))

theorem Pass.placedAt_makeRule :
    placedAt .default functionDefinition "M" 3 = some (.rule placedMakeRule) := by
  cbv

/-- The rule that makes up no value stays as it is. -/
theorem Pass.standsAt_copyRule : ∃ e,
    (Pipeline.run (completing .default) functionDefinition).result = .ok e ∧
    functionDefinition.StandsAt "M" 2 [.rule copyRule] ∧
    functionDefinition.isFunctionRule copyRule = true ∧
    e.StandsAt "M" 2 [.rule copyRule] ∧ copyRule.StaysFunction e copyRule := by
  have hstands : functionDefinition.StandsAt "M" 2 [.rule copyRule] :=
    standsAt_singleton_iff.2 ⟨functionModule, by decide, rfl⟩
  have hfunction : functionDefinition.isFunctionRule copyRule = true := by decide
  obtain ⟨e, he, -⟩ := exists_standsAt_of_placedAt placedAt_makeRule
  obtain ⟨r', hr', hstays, hsame, -⟩ := standsAt_functionRule hstands hfunction he
  obtain rfl := hsame (by decide)
  exact ⟨e, he, hstands, hfunction, hr', hstays.2 (by decide)⟩

/-- The rule that makes up its value is no rule of a function in the end, but one of the computation
cell. -/
theorem Pass.exists_functionRule_in_cells : ∃ (o : Options) (d e : Definition) (r r' : Rule),
    (Pipeline.run (completing o) d).result = .ok e ∧ d.StandsAt "M" 3 [.rule r] ∧
      d.isFunctionRule r = true ∧ e.StandsAt "M" 3 [.rule r'] ∧ e.isFunctionRule r' = false ∧
      r'.body.isCell = true ∧ ¬ r.StaysFunction e r' := by
  obtain ⟨e, he, hstands⟩ := exists_standsAt_of_placedAt placedAt_makeRule
  refine ⟨.default, functionDefinition, e, makeRule, placedMakeRule, he,
    standsAt_singleton_iff.2 ⟨functionModule, by decide, rfl⟩, by decide, hstands, ?_, rfl, ?_⟩
  · rfl
  · intro hstays
    cases hstays.isCell

end RewriteSemantics
