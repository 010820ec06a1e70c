/-
# Rewriting sentences

Almost every pass keeps the modules of a definition, their names, imports and attributes, and
changes their sentences only. Which modules a module sees, and whether there is a fault, depends on
the imports alone. So such a rewriting never fails for the sake of the modules, and what the modules
see is rewritten along.
-/
import RewriteSemantics.Pass.Basic
import RewriteSemantics.Proofs.Ordered.Map
import RewriteSemantics.Proofs.Related
import RewriteSemantics.Proofs.Result

namespace RewriteSemantics

/-- How the sentences of the module of a name are changed. -/
abbrev Rewriting := String → List Sentence → List Sentence → Prop

/-- The sentences of one module are changed, and those of the others kept. -/
def Rewriting.inModule (name : String) (f : List Sentence → List Sentence) : Rewriting :=
  fun other ss ts => ts = if other = name then f ss else ss

/-- A module with other sentences, as a rewriting has it. -/
def Module.Rewrites (R : Rewriting) (m m' : Module) : Prop :=
  ∃ ss, R m.name m.sentences ss ∧ m' = ⟨m.name, m.imports, ss, m.attributes⟩

/-! ## Modules by name -/

namespace ModuleMap

/-- An entry of the same name with the module rewritten. -/
def RewritesEntry (R : Rewriting) (x y : String × Module) : Prop :=
  y.1 = x.1 ∧ x.2.Rewrites R y.2

/-- The modules of two maps are the same but for their sentences, which are rewritten. -/
def Rewrites (R : Rewriting) (a b : ModuleMap) : Prop :=
  List.Forall₂ (RewritesEntry R) a.entries b.entries

/-! ### Walks -/

theorem walk_of_seen {modules : ModuleMap} {seen agenda : List String} {name : String}
    (h : name ∈ seen) : modules.walk seen (name :: agenda) = modules.walk seen agenda := by
  rw [walk, dif_pos h]

theorem walk_of_some {modules : ModuleMap} {seen agenda : List String} {name : String} {m : Module}
    (h : name ∉ seen) (hm : modules.get? name = some m) :
    modules.walk seen (name :: agenda) =
      m :: modules.walk (name :: seen) (m.imports ++ agenda) := by
  have hcontains : modules.contains name = true := OrderedMap.contains_iff.2 ⟨m, hm⟩
  have hget : modules.get name hcontains = m := OrderedMap.get_eq_of_get? hm _
  rw [walk, dif_neg h, dif_pos hcontains]
  dsimp only
  rw [hget]

theorem walk_of_none {modules : ModuleMap} {seen agenda : List String} {name : String}
    (h : name ∉ seen) (hm : modules.get? name = none) :
    modules.walk seen (name :: agenda) = modules.walk seen agenda := by
  rw [walk, dif_neg h, dif_neg (OrderedMap.get?_eq_none_iff.1 hm)]

/-- A walk meets modules of the map, each under its own name. -/
theorem get?_of_mem_walk {modules : ModuleMap} (hnamed : modules.Named) {seen agenda : List String}
    {m : Module} (hm : m ∈ modules.walk seen agenda) : modules.get? m.name = some m := by
  induction seen, agenda using walk.induct modules with
  | case1 seen =>
    rw [walk] at hm
    cases hm
  | case2 seen name agenda hseen ih =>
    rw [walk_of_seen hseen] at hm
    exact ih hm
  | case3 seen name agenda hseen hcontains _ ih =>
    have hm' := OrderedMap.get?_eq_some_get hcontains
    rw [walk_of_some hseen hm'] at hm
    rcases List.mem_cons.1 hm with rfl | hm
    · rw [hnamed _ (OrderedMap.mem_entries_of_get? hm')]
      exact hm'
    · exact ih hm
  | case4 seen name agenda hseen hcontains ih =>
    rw [walk_of_none hseen (OrderedMap.get?_eq_none_iff.2 hcontains)] at hm
    exact ih hm

/-- A walk depends only on the modules that imports lead to. -/
theorem walk_congr {a b : ModuleMap} {P : String → Prop}
    (hget : ∀ name, P name → b.get? name = a.get? name)
    (himports : ∀ name m, P name → a.get? name = some m → ∀ i ∈ m.imports, P i)
    {seen seen' agenda : List String}
    (hseen : ∀ name, P name → (name ∈ seen' ↔ name ∈ seen))
    (hagenda : ∀ name ∈ agenda, P name) : b.walk seen' agenda = a.walk seen agenda := by
  induction seen, agenda using walk.induct a generalizing seen' with
  | case1 seen => rw [walk, walk]
  | case2 seen name agenda hmem ih =>
    have hname := hagenda name List.mem_cons_self
    rw [walk_of_seen hmem, walk_of_seen ((hseen name hname).2 hmem)]
    exact ih hseen fun x hx => hagenda x (List.mem_cons_of_mem _ hx)
  | case3 seen name agenda hmem hcontains _ ih =>
    have hm := OrderedMap.get?_eq_some_get hcontains
    have hname := hagenda name List.mem_cons_self
    have hmem' : name ∉ seen' := fun h => hmem ((hseen name hname).1 h)
    rw [walk_of_some hmem hm, walk_of_some hmem' ((hget name hname).trans hm)]
    congr 1
    refine ih (fun x hx => ?_) fun x hx => ?_
    · rw [List.mem_cons, List.mem_cons, hseen x hx]
    · rcases List.mem_append.1 hx with hx | hx
      · exact himports name _ hname hm x hx
      · exact hagenda x (List.mem_cons_of_mem _ hx)
  | case4 seen name agenda hmem hcontains ih =>
    have hm := OrderedMap.get?_eq_none_iff.2 hcontains
    have hname := hagenda name List.mem_cons_self
    have hmem' : name ∉ seen' := fun h => hmem ((hseen name hname).1 h)
    rw [walk_of_none hmem hm, walk_of_none hmem' ((hget name hname).trans hm)]
    exact ih hseen fun x hx => hagenda x (List.mem_cons_of_mem _ hx)

theorem enter_eq (modules : ModuleMap) (path clear : List String) (name : String) :
    modules.enter path clear name =
      if name ∈ clear then .ok clear
      else if name ∈ path then .error (.importCycle name)
      else match modules.get? name with
        | none => .ok (name :: clear)
        | some m => (do
          let clear ← modules.enterAll (name :: path) clear m.imports
          .ok (name :: clear)) := by
  rw [enter]
  split
  · rfl
  · split
    · rfl
    · split
      · rename_i hcontains
        rw [OrderedMap.get?_eq_some_get hcontains]
      · rename_i hcontains
        rw [OrderedMap.get?_eq_none_iff.2 hcontains]

section

variable {R : Rewriting} {a b : ModuleMap}

theorem Rewrites.keys (h : a.Rewrites R b) : b.keys = a.keys := by
  unfold Rewrites at h
  unfold OrderedMap.keys
  generalize a.entries = l at h ⊢
  generalize b.entries = l' at h ⊢
  induction h with
  | nil => rfl
  | cons hxy _ ih => rw [List.map_cons, List.map_cons, hxy.1, ih]

/-- A name has a module in both maps or in neither. -/
theorem Rewrites.get? (h : a.Rewrites R b) (name : String) :
    (a.get? name = none ∧ b.get? name = none) ∨
      ∃ m m', a.get? name = some m ∧ b.get? name = some m' ∧ m.Rewrites R m' := by
  unfold Rewrites at h
  unfold OrderedMap.get?
  generalize a.entries = l at h ⊢
  generalize b.entries = l' at h ⊢
  induction h with
  | nil => exact .inl ⟨rfl, rfl⟩
  | @cons x y _ _ hxy _ ih =>
    rw [OrderedMap.lookup_cons_eq_ite, OrderedMap.lookup_cons_eq_ite, hxy.1]
    by_cases hname : name = x.1
    · rw [if_pos hname, if_pos hname]
      exact .inr ⟨x.2, y.2, rfl, rfl, hxy.2⟩
    · rw [if_neg hname, if_neg hname]
      exact ih

theorem Rewrites.contains (h : a.Rewrites R b) (name : String) :
    b.contains name = a.contains name := by
  rcases h.get? name with ⟨ha, hb⟩ | ⟨m, m', ha, hb, -⟩
  · rw [OrderedMap.contains, OrderedMap.contains, ha, hb]
  · rw [OrderedMap.contains, OrderedMap.contains, ha, hb]
    rfl

/-- The same module may be added to both maps. -/
theorem Rewrites.insert (h : a.Rewrites R b) {m : Module} (hm : R m.name m.sentences m.sentences) :
    Rewrites R (a.insert m.name m) (b.insert m.name m) := by
  have hentry : RewritesEntry R (m.name, m) (m.name, m) := ⟨rfl, m.sentences, hm, rfl⟩
  unfold Rewrites at h ⊢
  show List.Forall₂ _ (OrderedMap.insertSorted m.name m a.entries)
    (OrderedMap.insertSorted m.name m b.entries)
  generalize a.entries = l at h ⊢
  generalize b.entries = l' at h ⊢
  induction h with
  | nil => exact .cons hentry .nil
  | cons hxy hrest ih =>
    rw [OrderedMap.insertSorted, OrderedMap.insertSorted, hxy.1]
    split
    · exact .cons hentry (.cons hxy hrest)
    · exact .cons hentry hrest
    · exact .cons hxy ih

/-- What a module sees is rewritten along. -/
theorem Rewrites.walk (h : a.Rewrites R b) (seen agenda : List String) :
    List.Forall₂ (Module.Rewrites R) (a.walk seen agenda) (b.walk seen agenda) := by
  induction seen, agenda using walk.induct a with
  | case1 seen =>
    rw [ModuleMap.walk, ModuleMap.walk]
    exact .nil
  | case2 seen name agenda hseen ih =>
    rw [walk_of_seen hseen, walk_of_seen hseen]
    exact ih
  | case3 seen name agenda hseen hcontains _ ih =>
    have hm := OrderedMap.get?_eq_some_get hcontains
    rcases h.get? name with ⟨ha, -⟩ | ⟨_, m', ha, hb, hrewrites⟩
    · rw [hm] at ha
      cases ha
    · rw [hm] at ha
      cases ha
      rw [walk_of_some hseen hm, walk_of_some hseen hb]
      obtain ⟨ss, hR, rfl⟩ := hrewrites
      exact .cons ⟨ss, hR, rfl⟩ ih
  | case4 seen name agenda hseen hcontains ih =>
    have hm := OrderedMap.get?_eq_none_iff.2 hcontains
    rcases h.get? name with ⟨-, hb⟩ | ⟨_, m', ha, -⟩
    · rw [walk_of_none hseen hm, walk_of_none hseen hb]
      exact ih
    · rw [hm] at ha
      cases ha

theorem Rewrites.closure (h : a.Rewrites R b) (name : String) :
    List.Forall₂ (Module.Rewrites R) (a.closure name) (b.closure name) :=
  h.walk [] [name]

/-! ### Faults -/

/-- The search for a cycle goes the same way through both maps. -/
theorem Rewrites.enter (h : a.Rewrites R b) :
    (∀ path clear name, b.enter path clear name = a.enter path clear name) ∧
      ∀ path clear names, b.enterAll path clear names = a.enterAll path clear names := by
  apply enter.mutual_induct a
    (fun path clear name => b.enter path clear name = a.enter path clear name)
    (fun path clear names => b.enterAll path clear names = a.enterAll path clear names)
  case case1 =>
    intro path clear name hclear
    rw [enter_eq, enter_eq, if_pos hclear, if_pos hclear]
  case case2 =>
    intro path clear name hclear hpath
    rw [enter_eq, enter_eq, if_neg hclear, if_pos hpath, if_neg hclear, if_pos hpath]
  case case3 =>
    intro path clear name hclear hpath hcontains _ ih
    have hm := OrderedMap.get?_eq_some_get hcontains
    rcases h.get? name with ⟨ha, -⟩ | ⟨_, m', ha, hb, ss, -, rfl⟩
    · rw [hm] at ha
      cases ha
    · rw [hm] at ha
      cases ha
      rw [enter_eq, enter_eq, hm, hb]
      simp only [ih]
  case case4 =>
    intro path clear name hclear hpath hcontains
    have hm := OrderedMap.get?_eq_none_iff.2 hcontains
    rcases h.get? name with ⟨-, hb⟩ | ⟨_, _, ha, -⟩
    · rw [enter_eq, enter_eq, hm, hb]
    · rw [hm] at ha
      cases ha
  case case5 =>
    intro path clear
    rw [enterAll, enterAll]
  case case6 =>
    intro path clear name names ihname ihnames
    rw [enterAll, enterAll, ihname]
    congr 1
    funext clear
    exact ihnames clear

theorem Rewrites.unresolvedImport? (h : a.Rewrites R b) :
    b.unresolvedImport? = a.unresolvedImport? := by
  have hcontains : ∀ m : Module, (m.imports.find? fun name => !b.contains name) =
      m.imports.find? fun name => !a.contains name := by
    intro m
    simp only [h.contains]
  unfold ModuleMap.unresolvedImport?
  simp only [hcontains]
  unfold Rewrites at h
  clear hcontains
  generalize a.contains = declared
  generalize a.entries = l at h ⊢
  generalize b.entries = l' at h ⊢
  induction h with
  | nil => rfl
  | cons hxy _ ih =>
    obtain ⟨-, ss, -, hm⟩ := hxy
    rw [List.findSome?_cons, List.findSome?_cons, hm, ih]

/-- A rewriting makes no fault and mends none. -/
theorem Rewrites.fault? (h : a.Rewrites R b) (main : String) : b.fault? main = a.fault? main := by
  have hcycle : b.cycle? = a.cycle? := by
    rw [cycle?, cycle?, h.keys, h.enter.2]
  rw [ModuleMap.fault?, ModuleMap.fault?, h.contains, h.unresolvedImport?, hcycle]

end

/-! ### Maps from entries -/

/-- The modules under their own names are what they were. -/
theorem relabelled_withValues {R : Rewriting} {a : ModuleMap} {values : List Module}
    (hnamed : a.Named) (h : List.Forall₂ (fun x v => x.2.Rewrites R v) a.entries values) :
    a.Rewrites R (relabelled (a.withValues values)) := by
  unfold Named at hnamed
  show List.Forall₂ _ a.entries
    ((List.zip (a.entries.map (·.1)) values).map fun e => (e.1, e.2.withName e.1))
  generalize a.entries = l at h hnamed ⊢
  induction h with
  | nil => exact .nil
  | @cons x v _ _ hxv _ ih =>
    refine .cons ⟨rfl, ?_⟩ (ih fun e he => hnamed e (List.mem_cons_of_mem _ he))
    obtain ⟨ss, hR, rfl⟩ := hxv
    refine ⟨ss, hR, ?_⟩
    show Module.mk x.1 _ _ _ = _
    rw [hnamed x List.mem_cons_self]

theorem relabelled_of_named {a b : ModuleMap} (hkeys : b.keys = a.keys) (hnamed : b.Named) :
    relabelled (a.withValues b.values) = b := by
  refine OrderedMap.ext_entries ?_
  show (List.zip a.keys b.values).map (fun e => (e.1, e.2.withName e.1)) = b.entries
  have hzip : List.zip b.keys b.values = b.entries := (List.zip_of_prod rfl rfl).symm
  rw [← hkeys, hzip]
  conv_rhs => rw [← List.map_id b.entries]
  refine List.map_congr_left fun e he => ?_
  show (e.1, Module.mk e.1 _ _ _) = (e.1, e.2)
  rw [← hnamed e he]

end ModuleMap

/-! ## Definitions -/

namespace Definition

theorem ext {d e : Definition} (hmain : d.main = e.main) (hmodules : d.modules = e.modules)
    (hattributes : d.attributes = e.attributes) : d = e := by
  cases d
  cases e
  cases hmain
  cases hmodules
  cases hattributes
  rfl

theorem ofMap_eq_ok {main : String} {modules : ModuleMap} {attributes : Attributes}
    {named : modules.Named} {e : Definition} :
    ofMap main modules attributes named = .ok e ↔ modules.fault? main = none ∧
      e.main = main ∧ e.modules = modules ∧ e.attributes = attributes := by
  rw [ofMap]
  split
  · rename_i hsound
    constructor
    · intro h
      cases h
      exact ⟨hsound, rfl, rfl, rfl⟩
    · rintro ⟨-, hmain, hmodules, hattributes⟩
      exact congrArg Except.ok (ext hmain.symm hmodules.symm hattributes.symm)
  · rename_i hfault
    constructor
    · intro h
      cases h
    · rintro ⟨hsound, -⟩
      exact absurd hsound hfault

/-- A definition with other sentences, as a rewriting has it. -/
structure Rewrites (R : Rewriting) (d e : Definition) : Prop where
  main : e.main = d.main
  attributes : e.attributes = d.attributes
  modules : d.modules.Rewrites R e.modules

variable {R : Rewriting} {d e : Definition}

theorem Rewrites.closure (h : d.Rewrites R e) (name : String) :
    List.Forall₂ (Module.Rewrites R) (d.closure name) (e.closure name) :=
  h.modules.closure name

theorem module?_of_mem_closure {name : String} {m : Module} (hm : m ∈ d.closure name) :
    d.module? m.name = some m :=
  ModuleMap.get?_of_mem_walk d.named hm

/-- Rewritten modules are those of a definition again. -/
theorem exists_rewrites {entries : List (String × Module)}
    (h : List.Forall₂ (ModuleMap.RewritesEntry R) d.modules.entries entries) :
    ∃ e, e.modules.entries = entries ∧ d.Rewrites R e := by
  have hkeys : entries.map (·.1) = d.modules.keys := by
    unfold OrderedMap.keys
    generalize d.modules.entries = l at h
    induction h with
    | nil => rfl
    | cons hxy _ ih => rw [List.map_cons, List.map_cons, hxy.1, ih]
  have hascending : (entries.map (·.1)).Pairwise Ascends := by
    rw [hkeys]
    exact List.pairwise_map.2 d.modules.ascending
  let modules : ModuleMap := ⟨entries, List.pairwise_map.1 hascending⟩
  have hmodules : d.modules.Rewrites R modules := h
  have hnamed : modules.Named := by
    have hd := d.named
    unfold ModuleMap.Named at hd
    show ∀ y ∈ entries, y.2.name = y.1
    generalize d.modules.entries = l at h hd
    clear hkeys hascending modules hmodules
    induction h with
    | nil => exact fun _ hy => (nomatch hy)
    | @cons x y _ _ hxy _ ih =>
      obtain ⟨hkey, ss, -, hy⟩ := hxy
      intro z hz
      rcases List.mem_cons.1 hz with rfl | hz
      · rw [hkey, hy]
        exact hd x List.mem_cons_self
      · exact ih (fun w hw => hd w (List.mem_cons_of_mem _ hw)) z hz
  have hsound : modules.fault? d.main = none := by
    rw [hmodules.fault?]
    exact d.sound
  exact ⟨⟨d.main, modules, d.attributes, hnamed, hsound⟩, rfl, rfl, rfl, hmodules⟩

/-- A rewriting that applies to all sentences applies to every definition. -/
theorem exists_rewrites_of_total (hR : ∀ name ss, ∃ ts, R name ss ts) (d : Definition) :
    ∃ e, d.Rewrites R e := by
  have hentry : ∀ x : String × Module, ∃ y, ModuleMap.RewritesEntry R x y := by
    intro x
    obtain ⟨ts, hts⟩ := hR x.2.name x.2.sentences
    exact ⟨(x.1, ⟨x.2.name, x.2.imports, ts, x.2.attributes⟩), rfl, ts, hts, rfl⟩
  choose f hf using hentry
  have hentries : List.Forall₂ (ModuleMap.RewritesEntry R) d.modules.entries
      (d.modules.entries.map f) := by
    rw [List.forall₂_map_right_iff, List.forall₂_same]
    exact fun x _ => hf x
  obtain ⟨e, -, he⟩ := exists_rewrites hentries
  exact ⟨e, he⟩

/-- What one rewriting does, a more liberal one does too. -/
theorem Rewrites.mono {S : Rewriting} (h : d.Rewrites R e)
    (hRS : ∀ name ss ts, R name ss ts → S name ss ts) : d.Rewrites S e := by
  refine ⟨h.main, h.attributes, h.modules.imp ?_⟩
  rintro x y ⟨hkey, ts, hts, hy⟩
  exact ⟨hkey, ts, hRS _ _ _ hts, hy⟩

/-- One rewriting after another. -/
theorem Rewrites.comp {S T : Rewriting} {f : Definition} (h : d.Rewrites R e)
    (h' : e.Rewrites S f) (hT : ∀ name ss ts us, R name ss ts → S name ts us → T name ss us) :
    d.Rewrites T f := by
  refine ⟨h'.main.trans h.main, h'.attributes.trans h.attributes,
    h.modules.comp h'.modules fun x y z hxy hyz => ?_⟩
  obtain ⟨hkey, ts, hR, hy⟩ := hxy
  obtain ⟨hkey', us, hS, hz⟩ := hyz
  rw [hy] at hS hz
  exact ⟨hkey'.trans hkey, us, hT _ _ _ _ hR hS, hz⟩

/-- Changing each module by a function that changes its sentences only is a rewriting. -/
theorem mapModules_eq_ok {ε : Type} {lift : DefinitionError → ε}
    {f : String → Module → Except ε Module}
    (hf : ∀ m m', f m.name m = .ok m' ↔ m.Rewrites R m') :
    d.mapModules lift f = .ok e ↔ d.Rewrites R e := by
  have hnamed : ∀ x ∈ d.modules.entries, ∀ m', f x.1 x.2 = .ok m' ↔ x.2.Rewrites R m' := by
    intro x hx m'
    rw [← d.named x hx]
    exact hf x.2 m'
  unfold mapModules
  constructor
  · intro h
    obtain ⟨modules, hmodules, h⟩ := Except.bind_eq_ok.1 h
    obtain ⟨values, hvalues, hmodules⟩ := Except.bind_eq_ok.1 hmodules
    cases hmodules
    rw [Except.mapError_eq_ok, ofMap_eq_ok] at h
    obtain ⟨-, hmain, heq, hattributes⟩ := h
    refine ⟨hmain, hattributes, heq ▸ ModuleMap.relabelled_withValues d.named ?_⟩
    exact (Except.mapM_eq_ok.1 hvalues).imp_of_mem fun x hx m' => (hnamed x hx m').1
  · intro h
    have hvalues : d.modules.entries.mapM (fun x => f x.1 x.2) = .ok e.modules.values := by
      rw [Except.mapM_eq_ok]
      refine List.forall₂_map_right_iff.2 (h.modules.imp_of_mem fun x hx y hxy => ?_)
      exact (hnamed x hx y.2).2 hxy.2
    have hmodules : d.modules.tryMapValues f = .ok (d.modules.withValues e.modules.values) := by
      unfold OrderedMap.tryMapValues
      rw [hvalues]
      rfl
    refine Except.bind_eq_ok.2 ⟨_, hmodules, ?_⟩
    rw [Except.mapError_eq_ok, ofMap_eq_ok]
    have hrelabelled := ModuleMap.relabelled_of_named h.modules.keys e.named
    rw [hrelabelled, h.modules.fault?]
    exact ⟨d.sound, h.main, rfl, h.attributes⟩

/-- Every step of two rewritings that start from related definitions. -/
theorem Rewrites.square {R S T T' : Rewriting} {d d' e' : Definition} (h : d.Rewrites R d')
    (h' : d'.Rewrites T' e')
    (hsquare : ∀ name ss ss' ts', R name ss ss' → T' name ss' ts' →
      ∃ ts, T name ss ts ∧ S name ts ts') :
    ∃ e, d.Rewrites T e ∧ e.Rewrites S e' := by
  obtain ⟨entries, hT, hS⟩ := h.modules.square h'.modules
    (U := ModuleMap.RewritesEntry T) (V := ModuleMap.RewritesEntry S) fun x _ y z hxy hyz => by
      obtain ⟨hkey, ss', hR, hy⟩ := hxy
      obtain ⟨hkey', ts', hT', hz⟩ := hyz
      rw [hy] at hT' hz
      obtain ⟨ts, hT, hS⟩ := hsquare _ _ _ _ hR hT'
      exact ⟨(x.1, ⟨x.2.name, x.2.imports, ts, x.2.attributes⟩), ⟨rfl, ts, hT, rfl⟩,
        hkey'.trans hkey, ts', hS, hz⟩
  obtain ⟨e, rfl, hrewrites⟩ := exists_rewrites hT
  refine ⟨e, hrewrites, ?_, ?_, hS⟩
  · rw [h'.main, h.main, hrewrites.main]
  · rw [h'.attributes, h.attributes, hrewrites.attributes]

/-! ### Single modules -/

/-- Where the old sentences determine the new ones, they determine the new definition. -/
theorem Rewrites.unique {e' : Definition} (h : d.Rewrites R e) (h' : d.Rewrites R e')
    (hR : ∀ name ss ts ts', R name ss ts → R name ss ts' → ts = ts') : e = e' := by
  have hunique : Relator.RightUnique (ModuleMap.RewritesEntry R) := by
    rintro x y z ⟨hy, ss, hss, hm⟩ ⟨hz, ts, hts, hm'⟩
    refine Prod.ext (hy.trans hz.symm) ?_
    rw [hm, hm', hR _ _ _ _ hss hts]
  refine ext (h.main.trans h'.main.symm) ?_ (h.attributes.trans h'.attributes.symm)
  exact OrderedMap.ext_entries (List.right_unique_forall₂' hunique h.modules h'.modules)

/-- Changing the sentences of one module is a rewriting. -/
theorem withModule_eq_ok {m : Module} (hm : d.module? m.name = some m)
    {f : List Sentence → List Sentence} :
    d.withModule ⟨m.name, m.imports, f m.sentences, m.attributes⟩ = .ok e ↔
      d.Rewrites (.inModule m.name f) e := by
  let m' : Module := ⟨m.name, m.imports, f m.sentences, m.attributes⟩
  have hinsert : d.modules.Rewrites (.inModule m.name f) (d.modules.insert m.name m') := by
    unfold ModuleMap.Rewrites
    rw [OrderedMap.entries_insert_of_get? hm, List.forall₂_map_right_iff, List.forall₂_same]
    intro x hx
    have hname := d.named x hx
    by_cases hkey : x.1 = m.name
    · rw [if_pos hkey]
      have hxm : x.2 = m := by
        have hget := OrderedMap.get?_eq_some_iff.2 hx
        rw [hkey] at hget
        exact Option.some.inj (hget.symm.trans hm)
      refine ⟨hkey.symm, f m.sentences, ?_, ?_⟩
      · rw [Rewriting.inModule, if_pos (hname.trans hkey), hxm]
      · rw [hxm]
    · rw [if_neg hkey]
      refine ⟨rfl, x.2.sentences, ?_, rfl⟩
      rw [Rewriting.inModule, if_neg (hname ▸ hkey)]
  have hsound := (hinsert.fault? d.main).trans d.sound
  rw [withModule, ofMap_eq_ok]
  constructor
  · rintro ⟨-, hmain, hmodules, hattributes⟩
    exact ⟨hmain, hattributes, hmodules ▸ hinsert⟩
  · intro h
    have hinserted : d.Rewrites (.inModule m.name f)
        ⟨d.main, d.modules.insert m.name m', d.attributes, d.named.insert m', hsound⟩ :=
      ⟨rfl, rfl, hinsert⟩
    rw [h.unique hinserted fun _ _ _ _ hts hts' => hts.trans hts'.symm]
    exact ⟨hsound, rfl, rfl, rfl⟩

theorem module?_main (d : Definition) : d.module? d.main = some d.mainModule := by
  have hsound := d.sound
  unfold ModuleMap.fault? at hsound
  split at hsound
  · rename_i hcontains
    obtain ⟨m, hm⟩ := OrderedMap.contains_iff.1 hcontains
    have hm : d.module? d.main = some m := hm
    rw [mainModule, hm]
    rfl
  · cases hsound

/-- A module is found under its own name. -/
theorem name_of_module? {name : String} {m : Module} (h : d.module? name = some m) :
    m.name = name :=
  d.named _ (OrderedMap.mem_entries_of_get? h)

/-- A module that is there is there afterwards, with its sentences rewritten. -/
theorem Rewrites.exists_module? (h : d.Rewrites R e) {name : String} {m : Module}
    (hm : d.module? name = some m) :
    ∃ m', e.module? name = some m' ∧ R name m.sentences m'.sentences := by
  rcases h.modules.get? name with ⟨hnone, -⟩ | ⟨_, m', hm', he, ss, hss, rfl⟩
  · rw [module?, hnone] at hm
    cases hm
  · cases hm.symm.trans hm'
    rw [name_of_module? hm] at hss
    exact ⟨_, he, hss⟩

/-- Adding sentences to the main module is a rewriting. -/
theorem appendToMain_eq_ok {extra : List Sentence} :
    d.appendToMain extra = .ok e ↔ d.Rewrites (.inModule d.main (· ++ extra)) e := by
  have hname := name_of_module? d.module?_main
  have hmain : d.module? d.mainModule.name = some d.mainModule := by
    rw [hname]
    exact d.module?_main
  have hmodule := withModule_eq_ok (e := e) hmain (f := (· ++ extra))
  rw [hname] at hmodule
  rw [appendToMain, Except.mapError_eq_ok, ← hmodule, Module.append, hname]

/-- Sentences can be added to the main module of every definition. -/
theorem exists_appendToMain (d : Definition) (extra : List Sentence) :
    ∃ e, d.appendToMain extra = .ok e := by
  have htotal : ∀ name ss, ∃ ts, Rewriting.inModule d.main (· ++ extra) name ss ts :=
    fun _ _ => ⟨_, rfl⟩
  obtain ⟨e, he⟩ := exists_rewrites_of_total htotal d
  exact ⟨e, appendToMain_eq_ok.2 he⟩

/-! ### Single sentences -/

/-- Some sentences are the images of others, one after the other. -/
def Images (f : Sentence → Except PassError (List Sentence)) (ss ts : List Sentence) : Prop :=
  ∃ images, List.Forall₂ (fun s image => f s = .ok image) ss images ∧ ts = images.flatten

/-- Replacing each sentence by its images is a rewriting. -/
theorem mapSentences_eq_ok {f : Sentence → Except PassError (List Sentence)} :
    d.mapSentences f = .ok e ↔ d.Rewrites (fun _ => Images f) e := by
  refine mapModules_eq_ok fun m m' => ?_
  unfold Module.mapSentences
  rw [Except.bind_eq_ok]
  constructor
  · rintro ⟨images, himages, hm'⟩
    cases hm'
    exact ⟨_, ⟨images, Except.mapM_eq_ok.1 himages, rfl⟩, rfl⟩
  · rintro ⟨_, ⟨images, himages, rfl⟩, rfl⟩
    exact ⟨images, Except.mapM_eq_ok.2 himages, rfl⟩

variable {f : Sentence → Except PassError (List Sentence)}

theorem Images.nil : Images f [] [] :=
  ⟨[], .nil, rfl⟩

theorem Images.append {ss ss' ts ts' : List Sentence} (h : Images f ss ts)
    (h' : Images f ss' ts') : Images f (ss ++ ss') (ts ++ ts') := by
  obtain ⟨images, himages, rfl⟩ := h
  obtain ⟨images', himages', rfl⟩ := h'
  exact ⟨images ++ images', List.rel_append himages himages', List.flatten_append.symm⟩

theorem Images.cons {s : Sentence} {image ss ts : List Sentence} (hs : f s = .ok image)
    (h : Images f ss ts) : Images f (s :: ss) (image ++ ts) := by
  obtain ⟨images, himages, rfl⟩ := h
  exact ⟨image :: images, .cons hs himages, rfl⟩

theorem images_cons_iff {s : Sentence} {ss us : List Sentence} :
    Images f (s :: ss) us ↔ ∃ image ts, f s = .ok image ∧ Images f ss ts ∧ us = image ++ ts := by
  constructor
  · rintro ⟨images, himages, rfl⟩
    cases himages with
    | cons hs himages => exact ⟨_, _, hs, ⟨_, himages, rfl⟩, rfl⟩
  · rintro ⟨image, ts, hs, h, rfl⟩
    exact h.cons hs

/-- Where all sentences have images, each of them has one. -/
theorem exists_image_of_mapSentences (h : d.mapSentences f = .ok e) {name : String} {m : Module}
    (hm : d.module? name = some m) {s : Sentence} (hs : s ∈ m.sentences) :
    ∃ image, f s = .ok image := by
  obtain ⟨_, -, images, himages, -⟩ := (mapSentences_eq_ok.1 h).exists_module? hm
  obtain ⟨image, -, himage⟩ := himages.exists_of_mem hs
  exact ⟨image, himage⟩

/-- The images of some sentences in front of others. -/
theorem images_append_iff {ss ss' us : List Sentence} :
    Images f (ss ++ ss') us ↔ ∃ ts ts', Images f ss ts ∧ Images f ss' ts' ∧ us = ts ++ ts' := by
  constructor
  · intro h
    induction ss generalizing us with
    | nil => exact ⟨[], us, .nil, h, rfl⟩
    | cons s ss ih =>
      obtain ⟨image, us', hs, hrest, rfl⟩ := images_cons_iff.1 h
      obtain ⟨ts, ts', hts, hts', rfl⟩ := ih hrest
      exact ⟨image ++ ts, ts', hts.cons hs, hts', (List.append_assoc _ _ _).symm⟩
  · rintro ⟨ts, ts', h, h', rfl⟩
    exact h.append h'

end Definition

end RewriteSemantics
