/-
# Modules as they are read

The reader of modules takes exactly what the grammar of modules writes, and a text is read as the
modules that its tokens write up to the last one.
-/
import RewriteSemantics.Proofs.Sentence.Parser

namespace RewriteSemantics

open Grammar
open Token (kinds kinds_eq_cons)

namespace Grammar

variable {ks rest : List TokenKind}

/-- A sentence starts with the keyword of its kind. -/
theorem IsSentence.exists_keyword {s : Sentence} (h : IsSentence ks s rest) :
    ∃ word, ks.head? = some (.keyword word) ∧ word ∈ [.sort, .rule, .context, .configuration] := by
  cases h with
  | sort | production | rule | context | configuration => exact ⟨_, rfl, by decide⟩

theorem IsBody.stops {imports : List String} {sentences : List Sentence}
    (h : IsBody ks imports sentences rest) (hrest : Stops TokenKind.continuesSentence rest) :
    Stops TokenKind.continuesSentence ks := by
  cases h with
  | nil => exact hrest
  | imports => exact stops_cons.2 rfl
  | sentence hs =>
    obtain ⟨word, hhead, hword⟩ := hs.exists_keyword
    intro k hk
    cases Option.mem_unique hhead hk
    revert hword
    cases word <;> decide

theorem AreModules.stops {ms : List Module} (h : AreModules ks ms) :
    Stops (fun k => k = .punctuation .leftBracket) ks := by
  cases h with
  | nil => exact stops_cons.2 rfl
  | cons hfirst =>
    cases hfirst
    exact stops_cons.2 rfl

end Grammar

namespace Parse

variable {ts rest : List Token} {ks left : List TokenKind}

/-! ## Items -/

/-- The names that are imported by some items. -/
def importsOf (items : List Item) : List String :=
  items.filterMap fun
    | .imports name => some name
    | .sentence _ => none

/-- The sentences among some items. -/
def sentencesOf (items : List Item) : List Sentence :=
  items.filterMap fun
    | .imports _ => none
    | .sentence s => some s

theorem takes_item_iff {i : Item} : Takes (item ts) i rest ↔
    (∃ s s' name, ts = ⟨.keyword .imports, s⟩ :: ⟨.ident name, s'⟩ :: rest ∧ i = .imports name) ∨
      ∃ s, (kinds ts).head? ≠ some (.keyword .imports) ∧ at? .finish ts = false ∧
        Takes (sentence ts) s rest ∧ i = .sentence s := by
  rw [item.eq_def]
  constructor
  · rintro ⟨_, heq⟩
    split at heq
    · obtain ⟨⟨name, rest, hrest⟩, hname, heq⟩ := Except.bind_eq_ok.1 heq
      cases heq
      obtain ⟨s', rfl⟩ := takes_ident_iff.1 ⟨_, hname⟩
      exact .inl ⟨_, s', name, rfl, rfl⟩
    · rename_i hnone
      split at heq
      · cases heq
      · rename_i hfinish
        obtain ⟨⟨s, rest, hrest⟩, hs, heq⟩ := Except.bind_eq_ok.1 heq
        cases heq
        refine .inr ⟨s, fun hhead => ?_, Bool.not_eq_true _ ▸ hfinish, ⟨_, hs⟩, rfl⟩
        obtain ⟨sp, more, rfl⟩ := Token.head?_kinds_eq_some hhead
        exact hnone sp more rfl
  · rintro (⟨s, s', name, rfl, rfl⟩ | ⟨s, hhead, hfinish, ⟨hrest, hs⟩, rfl⟩)
    · exact ⟨Nat.lt_succ_of_lt (Nat.lt_succ_self _), rfl⟩
    · refine ⟨hrest, ?_⟩
      split
      · exact absurd rfl hhead
      · rw [if_neg (Bool.eq_false_iff.1 hfinish)]
        exact Except.bind_eq_ok.2 ⟨_, hs, rfl⟩

theorem takes_items_iff {is : List Item} : Takes (items ts) is rest ↔
    (∃ s, ts = ⟨.keyword .endModule, s⟩ :: rest ∧ is = []) ∨
      (kinds ts).head? ≠ some (.keyword .endModule) ∧ ∃ first mid others,
        Takes (item ts) first mid ∧ Takes (items mid) others rest ∧ is = first :: others := by
  rw [items.eq_def]
  constructor
  · rintro ⟨_, heq⟩
    split at heq
    · cases heq
      exact .inl ⟨_, rfl, rfl⟩
    · rename_i hnone
      obtain ⟨⟨first, mid, hmid⟩, hfirst, heq⟩ := Except.bind_eq_ok.1 heq
      obtain ⟨⟨others, rest, hrest⟩, hothers, heq⟩ := Except.bind_eq_ok.1 heq
      cases heq
      refine .inr ⟨fun hhead => ?_, first, mid, others, ⟨_, hfirst⟩, ⟨_, hothers⟩, rfl⟩
      obtain ⟨sp, more, rfl⟩ := Token.head?_kinds_eq_some hhead
      exact hnone sp more rfl
  · rintro (⟨s, rfl, rfl⟩ | ⟨hhead, first, mid, others, ⟨hmid, hfirst⟩, ⟨hrest, hothers⟩, rfl⟩)
    · exact ⟨Nat.lt_succ_self _, rfl⟩
    · refine ⟨Nat.lt_trans hrest hmid, ?_⟩
      split
      · exact absurd rfl hhead
      · exact Except.bind_eq_ok.2 ⟨_, hfirst, Except.bind_eq_ok.2 ⟨_, hothers, rfl⟩⟩

theorem isBody_of_takes {is : List Item} (h : Takes (items ts) is rest) :
    IsBody (kinds ts) (importsOf is) (sentencesOf is) (.keyword .endModule :: kinds rest) := by
  induction is generalizing ts with
  | nil =>
    rcases takes_items_iff.1 h with ⟨s, rfl, -⟩ | ⟨-, _, _, _, _, _, heq⟩
    · exact .nil _
    · cases heq
  | cons i is ih =>
    rcases takes_items_iff.1 h with ⟨_, _, heq⟩ | ⟨-, first, mid, others, hfirst, hothers, heq⟩
    · cases heq
    · cases heq
      rcases takes_item_iff.1 hfirst with ⟨s, s', name, rfl, rfl⟩ | ⟨s, -, -, hs, rfl⟩
      · exact .imports name (ih hothers)
      · exact .sentence (reads_sentence.sound hs) (ih hothers)

/-- What is written as the body of a module is read as items that import and hold the same. -/
theorem exists_takes_items {imports : List String} {sentences : List Sentence}
    (h : IsBody ks imports sentences (.keyword .endModule :: left)) (hts : kinds ts = ks) :
    ∃ is rest, Takes (items ts) is rest ∧ kinds rest = left ∧ importsOf is = imports ∧
      sentencesOf is = sentences := by
  generalize hend : TokenKind.keyword .endModule :: left = end_ at h
  induction h generalizing ts with
  | nil =>
    obtain ⟨s, rest, rfl, hrest⟩ := kinds_eq_cons (hts.trans hend.symm)
    exact ⟨[], rest, takes_items_iff.2 (.inl ⟨s, rfl, rfl⟩), hrest, rfl, rfl⟩
  | imports name _ ih =>
    obtain ⟨s, behind, rfl, hbehind⟩ := kinds_eq_cons hts
    obtain ⟨s', more, rfl, hmore⟩ := kinds_eq_cons hbehind
    obtain ⟨is, rest, his, hrest, himports, hsentences⟩ := ih hmore hend
    have hitem : Takes (item (⟨.keyword .imports, s⟩ :: ⟨.ident name, s'⟩ :: more)) (.imports name)
        more :=
      takes_item_iff.2 (.inl ⟨s, s', name, rfl, rfl⟩)
    exact ⟨.imports name :: is, rest,
      takes_items_iff.2 (.inr ⟨nofun, _, more, is, hitem, his, rfl⟩), hrest,
      congrArg (name :: ·) himports, hsentences⟩
  | @sentence ks mid rest s imports sentences hs hbody ih =>
    have hstops := hbody.stops (hend ▸ stops_cons.2 rfl)
    obtain ⟨more, htake, hmore⟩ := reads_sentence.complete hs hstops hts
    obtain ⟨is, rest, his, hrest, himports, hsentences⟩ := ih hmore hend
    obtain ⟨word, hhead, hword⟩ := hs.exists_keyword
    obtain ⟨sp, behind, rfl⟩ := Token.head?_kinds_eq_some (hts ▸ hhead)
    have hitem : Takes (item (⟨.keyword word, sp⟩ :: behind)) (.sentence s) more := by
      refine takes_item_iff.2 (.inr ⟨s, fun heq => ?_, rfl, htake, rfl⟩)
      cases heq
      exact absurd hword (by decide)
    refine ⟨.sentence s :: is, rest, takes_items_iff.2 (.inr ⟨fun heq => ?_, _, more, is, hitem,
      his, rfl⟩), hrest, himports, congrArg (s :: ·) hsentences⟩
    cases heq
    exact absurd hword (by decide)

/-! ## Modules -/

theorem takes_module_iff {m : Module} : Takes (module ts) m rest ↔
    ∃ s s' name more is end_ a,
      ts = ⟨.keyword .module, s⟩ :: ⟨.ident name, s'⟩ :: more ∧ Takes (items more) is end_ ∧
      MayTake (attributes end_) a rest ∧ m = moduleOf name is a := by
  rw [module]
  constructor
  · rintro ⟨_, heq⟩
    obtain ⟨⟨_, behind, _⟩, hkeyword, heq⟩ := Except.bind_eq_ok.1 heq
    obtain ⟨⟨name, more, _⟩, hname, heq⟩ := Except.bind_eq_ok.1 heq
    obtain ⟨⟨is, end_, _⟩, his, heq⟩ := Except.bind_eq_ok.1 heq
    obtain ⟨⟨a, rest, _⟩, ha, heq⟩ := Except.bind_eq_ok.1 heq
    cases heq
    obtain ⟨s', rfl⟩ := takes_ident_iff.1 ⟨_, hname⟩
    obtain ⟨s, rfl⟩ := takes_expect_iff.1 ⟨_, hkeyword⟩
    exact ⟨s, s', name, more, is, end_, a, rfl, ⟨_, his⟩, ⟨_, ha⟩, rfl⟩
  · rintro ⟨s, s', name, more, is, end_, a, rfl, ⟨hend, his⟩, ⟨hrest, ha⟩, rfl⟩
    obtain ⟨_, hkeyword⟩ := takes_expect_iff.2 ⟨s, rfl⟩
    obtain ⟨_, hname⟩ := takes_ident_iff.2 ⟨s', rfl⟩
    refine ⟨by simp only [List.length_cons]; omega, Except.bind_eq_ok.2 ⟨_, hkeyword, ?_⟩⟩
    refine Except.bind_eq_ok.2 ⟨_, hname, Except.bind_eq_ok.2 ⟨_, his, ?_⟩⟩
    exact Except.bind_eq_ok.2 ⟨_, ha, rfl⟩

theorem reads_module : Reads (fun ts => Takes (module ts)) IsModule
    (fun k => k = .punctuation .leftBracket) where
  sound {ts m rest} h := by
    obtain ⟨_, _, name, more, is, end_, a, rfl, his, ha, rfl⟩ := takes_module_iff.1 h
    exact .mk name (isBody_of_takes his) (reads_attributes.sound ha)
  complete {ks m left} h hleft ts hts := by
    cases h with
    | mk name hbody ha =>
      obtain ⟨s, behind, rfl, hbehind⟩ := kinds_eq_cons hts
      obtain ⟨s', more, rfl, hmore⟩ := kinds_eq_cons hbehind
      obtain ⟨is, end_, his, hend, rfl, rfl⟩ := exists_takes_items hbody hmore
      obtain ⟨rest, ha, hrest⟩ := reads_attributes.complete ha hleft hend
      exact ⟨rest, takes_module_iff.2 ⟨s, s', name, more, is, end_, _, rfl, his, ha, rfl⟩, hrest⟩

theorem modules_eq_ok {ms : List Module} : modules ts = .ok ms ↔
    at? .finish ts = true ∧ ms = [] ∨ at? .finish ts = false ∧ ∃ first rest others,
      Takes (module ts) first rest ∧ modules rest = .ok others ∧ ms = first :: others := by
  rw [modules]
  split
  · rename_i hfinish
    simp [hfinish, eq_comm]
  · rename_i hfinish
    constructor
    · intro heq
      obtain ⟨⟨first, rest, hrest⟩, hfirst, heq⟩ := Except.bind_eq_ok.1 heq
      obtain ⟨others, hothers, heq⟩ := Except.bind_eq_ok.1 heq
      cases heq
      exact .inr ⟨Bool.not_eq_true _ ▸ hfinish, first, rest, others, ⟨_, hfirst⟩, hothers, rfl⟩
    · rintro (⟨hat, -⟩ | ⟨-, first, rest, others, ⟨hrest, hfirst⟩, hothers, rfl⟩)
      · exact absurd hat hfinish
      · exact Except.bind_eq_ok.2 ⟨_, hfirst, Except.bind_eq_ok.2 ⟨_, hothers, rfl⟩⟩

/-- The tokens of a text are read as modules exactly if the grammar writes these modules with
them. -/
theorem modules_eq_ok_iff {ms : List Module} (h : IsText (kinds ts)) :
    modules ts = .ok ms ↔ AreModules (kinds ts) ms := by
  constructor
  · intro hms
    induction ms generalizing ts with
    | nil =>
      rcases modules_eq_ok.1 hms with ⟨hfinish, -⟩ | ⟨-, _, _, _, _, _, heq⟩
      · rw [(at?_finish_iff h).1 hfinish]
        exact .nil
      · cases heq
    | cons m ms ih =>
      rcases modules_eq_ok.1 hms with ⟨-, heq⟩ | ⟨-, first, rest, others, hfirst, hothers, heq⟩
      · cases heq
      · cases heq
        have hmodule := reads_module.sound hfirst
        exact .cons hmodule (ih (hmodule.spends.isText h) hothers)
  · intro hms
    generalize hks : kinds ts = ks at hms h
    induction hms generalizing ts with
    | nil => exact modules_eq_ok.2 (.inl ⟨(at?_finish_iff (hks ▸ h)).2 hks, rfl⟩)
    | cons hfirst hothers ih =>
      obtain ⟨rest, htake, hrest⟩ := reads_module.complete hfirst hothers.stops hks
      have hmodules := ih hrest (hfirst.spends.isText h)
      refine modules_eq_ok.2 (.inr ⟨?_, _, rest, _, htake, hmodules, rfl⟩)
      rw [← Bool.not_eq_true, at?_finish_iff (hks ▸ h), hks]
      cases hfirst
      nofun

end Parse

/-! ## Texts -/

theorem Module.parseAll_eq_ok_iff {text : String} {ts : List Token} (h : tokenize text = .ok ts)
    (ms : List Module) : Module.parseAll text = .ok ms ↔ AreModules (kinds ts) ms := by
  rw [← Parse.modules_eq_ok_iff (isText_of_tokenize h), Module.parseAll, h]
  rfl

/-- The texts that are read as modules are those whose tokens the grammar writes modules with, and
each of them is read as those modules. Every other text of tokens is refused. -/
theorem Module.parseAll_accepts_exactly {text : String} {ts : List Token}
    (h : tokenize text = .ok ts) :
    (∀ ms, Module.parseAll text = .ok ms ↔ AreModules (kinds ts) ms) ∧
      ((¬∃ ms, AreModules (kinds ts) ms) → ∃ e, Module.parseAll text = .error e) := by
  refine ⟨Module.parseAll_eq_ok_iff h, fun hnone => ?_⟩
  cases hparse : Module.parseAll text with
  | error e => exact ⟨e, rfl⟩
  | ok ms => exact absurd ⟨ms, (Module.parseAll_eq_ok_iff h ms).1 hparse⟩ hnone

theorem Module.parseAll_accepts_exactly_labelled_rule :
    ∃ ts, tokenize "module M rule [a]: X => 1 [label(b), strict(1, 2)] endmodule" = .ok ts ∧
      Module.parseAll "module M rule [a]: X => 1 [label(b), strict(1, 2)] endmodule" =
        .ok [⟨"M", [], [.rule ⟨.rewrite (.ofName "X") (.int 1), none, none,
          .ofList [("label", .text "b"), ("strict", .positions [1, 2])]⟩], ∅⟩] := by
  obtain ⟨ts, hts, hkinds⟩ : ∃ ts,
      tokenize "module M rule [a]: X => 1 [label(b), strict(1, 2)] endmodule" = .ok ts ∧ kinds ts =
        [.keyword .module, .ident "M", .keyword .rule, .punctuation .leftBracket, .ident "a",
          .punctuation .rightBracket, .punctuation .colon, .ident "X", .punctuation .arrow, .int 1,
          .punctuation .leftBracket, .ident "label", .punctuation .leftParen, .ident "b",
          .punctuation .rightParen, .punctuation .comma, .ident "strict", .punctuation .leftParen,
          .int 1, .punctuation .comma, .int 2, .punctuation .rightParen,
          .punctuation .rightBracket, .keyword .endModule, .finish] :=
    Scan.exists_tokenize (by cbv)
  refine ⟨ts, hts, ((Module.parseAll_accepts_exactly hts).1 _).2 ?_⟩
  rw [hkinds]
  have hattributes : AreAttributes _ (.ofList [("label", .text "b"), ("strict", .positions [1, 2])])
      [.keyword .endModule, .finish] :=
    .list (.cons (.valued "label" (.name _ (by decide) (by decide)))
      (.last (.valued "strict" (.positions (.cons (.number _ (by decide))
        (.last (.number _ (by decide)))))))) (binds_ofList _)
  have hbody (rest : List TokenKind) : IsTerm (.ident "X" :: .punctuation .arrow :: .int 1 :: rest)
      (.rewrite (.ofName "X") (.int 1)) rest :=
    .rewrite (.one (.one (.single (.named (by decide) (by simp)))))
      (.one (.one (.single (.int 1 _))))
  refine .cons (.mk "M" (.sentence (.rule (.name "a" _) (hbody _) (.absent _) (.absent _)
    hattributes fun key => ?_) (.nil _)) (.absent _)) .nil
  -- The attribute behind the rule counts, and not the label in front of it.
  by_cases hkey : key = Attributes.label
  · rw [hkey]
    rfl
  · rw [if_neg hkey, Option.or_none]

end RewriteSemantics
