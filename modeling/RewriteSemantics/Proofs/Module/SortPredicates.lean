/-
# Which membership predicates there are

A module that defines a sort leaves the membership predicate to the modules it imports if one of
them defines the sort too. Imports form no cycle, so in the end some module declares the predicate,
and every module that sees the sort defined sees its predicate. So the predicates that come in are
those that were missing, and once they are there none is missing any more.
-/
import RewriteSemantics.Proofs.Definition.Imports
import RewriteSemantics.Proofs.Pass.Growth

namespace RewriteSemantics

/-! ## Where sorts are defined -/

/-- A sentence defines a sort: it declares the sort, or is a production of the sort that is no
membership predicate. -/
def Sentence.Defines (sort : SortName) : Sentence → Prop
  | .sort decl => decl.sort = sort
  | .production p => p.isPredicate = false ∧ p.sort = sort
  | _ => False

/-- A sentence of the module itself defines a sort. -/
def Module.Defines (m : Module) (sort : SortName) : Prop :=
  ∃ s ∈ m.sentences, s.Defines sort

theorem Module.mem_definedSorts {m : Module} {sort : SortName} :
    sort ∈ m.definedSorts ↔ m.Defines sort := by
  rw [definedSorts, OrderedSet.mem_ofList, List.mem_filterMap, Defines]
  refine exists_congr fun s => and_congr_right fun _ => ?_
  cases s with
  | production p =>
    dsimp only [Sentence.Defines]
    cases p.isPredicate <;> simp
  | _ => simp [Sentence.Defines]

namespace Definition

open Relation

variable {d : Definition} {name label : String} {sort : SortName}

/-- A module defines a sort, or a module that its imports lead to. -/
def DefinesSort (d : Definition) (name : String) (sort : SortName) : Prop :=
  ∃ other m, d.modules.Reaches name other ∧ d.module? other = some m ∧ m.Defines sort

/-- A module that the imports of a module lead to defines a sort. -/
def ImportsSort (d : Definition) (name : String) (sort : SortName) : Prop :=
  ∃ other m, TransGen d.modules.Imports name other ∧ d.module? other = some m ∧ m.Defines sort

/-- A module has a production of a label, or a module that its imports lead to. -/
def SeesLabel (d : Definition) (name label : String) : Prop :=
  ∃ other m, d.modules.Reaches name other ∧ d.module? other = some m ∧
    ∃ p, .production p ∈ m.sentences ∧ p.label = some label

/-- What holds of a module in the closure holds of one that imports lead to. -/
theorem exists_mem_closure_iff {P : Module → Prop} : (∃ m ∈ d.closure name, P m) ↔
    ∃ other m, d.modules.Reaches name other ∧ d.module? other = some m ∧ P m := by
  constructor
  · rintro ⟨m, hm, hP⟩
    obtain ⟨hreach, hfound⟩ := mem_closure_iff.1 hm
    exact ⟨m.name, m, hreach, hfound, hP⟩
  · rintro ⟨other, m, hreach, hfound, hP⟩
    rw [← name_of_module? hfound] at hreach hfound
    exact ⟨m, mem_closure_iff.2 ⟨hreach, hfound⟩, hP⟩

theorem seesLabel_iff :
    d.SeesLabel name label ↔ ∃ p ∈ d.visibleProductions name, p.label = some label := by
  rw [SeesLabel, ← exists_mem_closure_iff (P := fun m =>
    ∃ p, .production p ∈ m.sentences ∧ p.label = some label)]
  simp only [mem_visibleProductions, sentencesOf, List.mem_flatMap]
  constructor
  · rintro ⟨m, hm, p, hp, hlabel⟩
    exact ⟨p, ⟨m, hm, hp⟩, hlabel⟩
  · rintro ⟨p, ⟨m, hm, hp⟩, hlabel⟩
    exact ⟨m, hm, p, hp, hlabel⟩

/-- As imports form no cycle, the modules that the imports of a module lead to are those of its
closure that are another module. -/
theorem importsSort_iff : d.ImportsSort name sort ↔
    ∃ m ∈ d.closure name, m.name ≠ name ∧ m.Defines sort := by
  rw [exists_mem_closure_iff]
  constructor
  · rintro ⟨other, m, hbehind, hfound, hdefines⟩
    refine ⟨other, m, hbehind.to_reflTransGen, hfound, ?_, hdefines⟩
    rw [name_of_module? hfound]
    rintro rfl
    obtain ⟨i, hi, hreach⟩ := TransGen.head'_iff.1 hbehind
    exact not_reaches_of_import hi hreach
  · rintro ⟨other, m, hreach, hfound, hne, hdefines⟩
    refine ⟨other, m, ?_, hfound, hdefines⟩
    rw [name_of_module? hfound] at hne
    exact (reflTransGen_iff_eq_or_transGen.1 hreach).resolve_left hne

end Definition

namespace SortPredicates

open Definition

variable {d e : Definition} {name : String} {m : Module} {sort : SortName}

theorem mem_missing_iff : sort ∈ missing d m ↔ sort ∈ m.definedSorts ∧
    sort.isParserSort = false ∧ sort ∉ importedSorts d m ∧
      sort.predicateLabel ∉ visibleLabels d m := by
  rw [missing, List.mem_filter]
  refine and_congr Iff.rfl ?_
  simp [and_assoc]

theorem mem_importedSorts_iff : sort ∈ importedSorts d m ↔
    ∃ m' ∈ d.closure m.name, m'.name ≠ m.name ∧ sort ∈ m'.definedSorts := by
  rw [importedSorts, OrderedSet.mem_ofList, List.mem_flatMap]
  refine exists_congr fun m' => ?_
  rw [List.mem_filter, and_assoc, decide_eq_true_iff]
  rfl

/-- What is missing is added. -/
theorem mem_visibleProductions_of_missing (h : generate d = .ok e) (hm : d.module? name = some m)
    (hsort : sort ∈ missing d m) : production sort ∈ e.visibleProductions name := by
  obtain ⟨m', hm', hadded⟩ := (generate_eq_ok.1 h).exists_module? hm
  have hsame : missing d ⟨name, [], m.sentences, ∅⟩ = missing d m := by
    rw [← name_of_module? hm]
    rfl
  refine mem_visibleProductions.2 (List.mem_flatMap.2 ⟨m', mem_closure_self hm', ?_⟩)
  rw [hadded, hsame]
  exact List.mem_append_right _ (List.mem_map_of_mem hsort)

/-- Where a sort is seen defined, its membership predicate is seen declared. -/
theorem exists_predicate (h : generate d = .ok e) (hparser : sort.isParserSort = false)
    (hm : m ∈ d.closure name) (hsort : sort ∈ m.definedSorts) :
    ∃ p ∈ e.visibleProductions name, p.label = some sort.predicateLabel := by
  induction name using induct_imports (d := d) generalizing m with
  | hP name ih =>
    by_cases hbelow : ∃ i ∈ d.modules.importsOf name, ∃ m' ∈ d.closure i, sort ∈ m'.definedSorts
    · obtain ⟨i, hi, m', hm', hsort'⟩ := hbelow
      obtain ⟨p, hp, hlabel⟩ := ih i hi hm' hsort'
      refine ⟨p, ?_, hlabel⟩
      obtain ⟨n, hn, hp⟩ := List.mem_flatMap.1 (mem_visibleProductions.1 hp)
      rw [← (generate_eq_ok.1 h).modules.importsOf] at hi
      exact mem_visibleProductions.2 (List.mem_flatMap.2 ⟨n, closure_subset_of_import hi hn, hp⟩)
    · have hfound : d.module? name = some m := by
        refine (mem_closure_cases hm).resolve_right ?_
        rintro ⟨i, hi, hm⟩
        exact hbelow ⟨i, hi, m, hm, hsort⟩
      have hname := name_of_module? hfound
      by_cases hlabel : sort.predicateLabel ∈ visibleLabels d m
      · obtain ⟨p, hp, hlabel⟩ := List.mem_filterMap.1 hlabel
        exact ⟨p, (growsTo h).visibleProductions (hname ▸ hp), hlabel⟩
      · refine ⟨production sort, mem_visibleProductions_of_missing h hfound ?_, rfl⟩
        refine mem_missing_iff.2 ⟨hsort, hparser, fun himported => ?_, hlabel⟩
        obtain ⟨m', hm', hne, hsort'⟩ := mem_importedSorts_iff.1 himported
        rcases mem_closure_cases hm' with hsame | ⟨i, hi, hm'⟩
        · exact hne (name_of_module? hsame)
        · exact hbelow ⟨i, hname ▸ hi, m', hm', hsort'⟩

/-! ## All that are missing -/

/-- A module lacks the predicate of a sort: it defines the sort, which is none for reading programs,
no module its imports lead to defines it too, and no label of this name is seen. -/
structure Lacks (d : Definition) (m : Module) (sort : SortName) : Prop where
  defines : m.Defines sort
  ordinary : sort.isParserSort = false
  unimported : ¬ d.ImportsSort m.name sort
  unseen : ¬ d.SeesLabel m.name sort.predicateLabel

theorem mem_missing_iff_lacks : sort ∈ missing d m ↔ Lacks d m sort := by
  have himported : sort ∈ importedSorts d m ↔ d.ImportsSort m.name sort := by
    rw [mem_importedSorts_iff, importsSort_iff]
    simp only [Module.mem_definedSorts]
  have hseen : sort.predicateLabel ∈ visibleLabels d m ↔
      d.SeesLabel m.name sort.predicateLabel := by
    rw [seesLabel_iff, visibleLabels, List.mem_filterMap]
  rw [mem_missing_iff, Module.mem_definedSorts, himported, hseen]
  constructor
  · rintro ⟨hdefines, hparser, himported, hseen⟩
    exact ⟨hdefines, hparser, himported, hseen⟩
  · rintro ⟨hdefines, hparser, himported, hseen⟩
    exact ⟨hdefines, hparser, himported, hseen⟩

/-- Predicates define no sort. -/
theorem defines_append_predicates {sorts : List SortName} :
    (m.append (sorts.map fun sort => .production (production sort))).Defines sort ↔
      m.Defines sort := by
  constructor
  · rintro ⟨s, hs, hdefines⟩
    rcases List.mem_append.1 hs with hs | hs
    · exact ⟨s, hs, hdefines⟩
    · obtain ⟨other, -, rfl⟩ := List.mem_map.1 hs
      cases hdefines.1
  · rintro ⟨s, hs, hdefines⟩
    exact ⟨s, List.mem_append_left _ hs, hdefines⟩

/-- What generating the predicates makes of a definition. -/
structure Completes (d e : Definition) : Prop where
  main : e.main = d.main
  attributes : e.attributes = d.attributes
  /-- No module comes in and none goes. -/
  module?_eq_none_iff : ∀ name, e.module? name = none ↔ d.module? name = none
  /-- Behind the sentences of each module stand the predicates that it lacks, in the order of their
  sorts, and nothing else of it changes. -/
  module? : ∀ name m, d.module? name = some m → ∃ sorts : List SortName,
    sorts.Pairwise Ascends ∧ (∀ sort, sort ∈ sorts ↔ Lacks d m sort) ∧
    e.module? name = some (m.append (sorts.map fun sort => .production ⟨.bool,
      some sort.predicateLabel, [.k], .ofList [(Attributes.function, .marker),
        (Attributes.predicate, .text sort.name)]⟩))
  /-- Every module that sees a sort defined sees its predicate. -/
  seesLabel : ∀ name sort, d.DefinesSort name sort → sort.isParserSort = false →
    e.SeesLabel name sort.predicateLabel

theorem completes_of_generate (h : generate d = .ok e) : Completes d e := by
  have hrewrites := generate_eq_ok.1 h
  refine ⟨hrewrites.main, hrewrites.attributes, ?_, ?_, ?_⟩
  · intro name
    rcases hrewrites.modules.get? name with ⟨hd, he⟩ | ⟨_, _, hd, he, -⟩
    · rw [Definition.module?, Definition.module?, hd, he]
    · rw [Definition.module?, Definition.module?, hd, he]
      exact iff_of_false (Option.some_ne_none _) (Option.some_ne_none _)
  · intro name m hm
    refine ⟨missing d m, m.definedSorts.ascending.filter _, fun _ => mem_missing_iff_lacks, ?_⟩
    rcases hrewrites.modules.get? name with ⟨hd, -⟩ | ⟨_, _, hd, he, _, rfl, rfl⟩
    · cases hd.symm.trans hm
    · cases hd.symm.trans hm
      exact he
  · intro name sort hdefines hparser
    obtain ⟨m, hm, hdefines⟩ := exists_mem_closure_iff.2 hdefines
    exact seesLabel_iff.2 (exists_predicate h hparser hm (Module.mem_definedSorts.2 hdefines))

/-- Where every sort that is seen has its predicate, none is missing. -/
theorem generate_eq_self (h : ∀ name sort, d.DefinesSort name sort → sort.isParserSort = false →
    d.SeesLabel name sort.predicateLabel) : generate d = .ok d := by
  refine generate_eq_ok.2 ⟨rfl, rfl, List.forall₂_same.2 fun x hx => ⟨rfl, x.2.sentences, ?_, rfl⟩⟩
  have hfound := module?_of_mem_values (List.mem_map_of_mem hx)
  have hnone : missing d x.2 = [] := by
    apply List.eq_nil_iff_forall_not_mem.2
    intro sort hsort
    have hlacks := mem_missing_iff_lacks.1 hsort
    exact hlacks.unseen (h _ sort ⟨_, x.2, .refl, hfound, hlacks.defines⟩ hlacks.ordinary)
  show x.2.sentences = x.2.sentences ++ (missing d x.2).map _
  rw [hnone, List.map_nil, List.append_nil]

/-- Generating the predicates completes every definition, and does nothing when it is done again. -/
theorem completes_generate (d : Definition) :
    ∃ e, generate d = .ok e ∧ Completes d e ∧ generate e = .ok e := by
  obtain ⟨e, he⟩ := exists_rewrites_of_total (R := fun name ss ts =>
    ts = ss ++ (missing d ⟨name, [], ss, ∅⟩).map fun sort => .production (production sort))
    (fun _ _ => ⟨_, rfl⟩) d
  have h := generate_eq_ok.2 he
  have hcompletes := completes_of_generate h
  refine ⟨e, h, hcompletes, generate_eq_self fun name sort hdefines hparser => ?_⟩
  -- What is defined afterwards was defined before: predicates define nothing.
  obtain ⟨other, m', hreach, hm', hdefines⟩ := hdefines
  have hsome : d.module? other ≠ none := by
    intro hnone
    rw [(hcompletes.module?_eq_none_iff other).2 hnone] at hm'
    cases hm'
  obtain ⟨m, hm⟩ := Option.ne_none_iff_exists'.1 hsome
  obtain ⟨sorts, -, -, hadded⟩ := hcompletes.module? other m hm
  cases hm'.symm.trans hadded
  refine hcompletes.seesLabel name sort ⟨other, m, ?_, hm, ?_⟩ hparser
  · exact (he.modules.reaches name other).1 hreach
  · exact defines_append_predicates.1 hdefines

end SortPredicates

end RewriteSemantics
