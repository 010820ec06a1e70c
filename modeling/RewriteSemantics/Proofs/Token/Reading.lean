/-
# What readers take

A reader that succeeds takes a value from the front of some tokens and leaves the tokens behind it.
What the readers of single tokens take is said here once; the readers of phrases are put together
from them.
-/
import RewriteSemantics.Proofs.Grammar.Tokens
import RewriteSemantics.Proofs.Result

namespace RewriteSemantics.Parse

open Token (kinds)

variable {α : Type} {ts rest : List Token} {k : TokenKind}

/-- A reader takes a value and leaves some tokens. -/
def Takes (x : Except ParseError (Parsed α ts)) (value : α) (rest : List Token) : Prop :=
  ∃ h, x = .ok ⟨value, rest, h⟩

/-- A reader that may do without any token takes a value and leaves some tokens. -/
def MayTake (x : Except ParseError (MaybeParsed α ts)) (value : α) (rest : List Token) : Prop :=
  ∃ h, x = .ok ⟨value, rest, h⟩

/-- What is taken is what a grammar writes, as long as no token follows that the reader would go on
with. -/
structure Reads (takes : List Token → α → List Token → Prop)
    (writes : List TokenKind → α → List TokenKind → Prop) (goesOn : TokenKind → Bool) : Prop where
  sound : ∀ {ts a rest}, takes ts a rest → writes (kinds ts) a (kinds rest)
  complete : ∀ {ks a left}, writes ks a left → Grammar.Stops goesOn left →
    ∀ {ts}, kinds ts = ks → ∃ rest, takes ts a rest ∧ kinds rest = left

theorem Takes.length_lt {x : Except ParseError (Parsed α ts)} {value : α} (h : Takes x value rest) :
    rest.length < ts.length :=
  h.1

/-! ## The next token -/

theorem at?_iff (hk : k ≠ .finish) :
    at? k ts = true ↔ (kinds ts).head? = some k := by
  rw [at?, decide_eq_true_iff]
  cases ts with
  | nil => exact iff_of_false (fun h => hk h.symm) nofun
  | cons t more => exact Option.some_inj.symm

theorem at?_eq_false_iff (hk : k ≠ .finish) :
    at? k ts = false ↔ (kinds ts).head? ≠ some k := by
  rw [← Bool.not_eq_true, at?_iff hk]

/-- A term can start here exactly if there is a next token that one can start with. -/
theorem startsTerm_eq_false_iff (ts : List Token) :
    startsTerm ts = false ↔ Grammar.Stops TokenKind.startsTerm (kinds ts) := by
  cases ts with
  | nil => exact iff_of_true rfl (Grammar.stops_nil _)
  | cons t rest => exact Grammar.stops_cons.symm

/-- Of the tokens of a text, the end of the text is the next one only if nothing else is left. -/
theorem at?_finish_iff (h : Grammar.IsText (kinds ts)) :
    at? .finish ts = true ↔ kinds ts = [.finish] := by
  rw [at?, decide_eq_true_iff]
  cases ts with
  | nil =>
    obtain ⟨front, hfront, -⟩ := h
    exact absurd hfront.symm (List.append_ne_nil_of_right_ne_nil _ nofun)
  | cons t more =>
    exact ⟨fun hfinish => h.eq_finish (congrArg some hfinish), fun heq => (List.cons.inj heq).1⟩

theorem expectFinish_eq_ok_iff (h : Grammar.IsText (kinds ts)) :
    expectFinish ts = .ok () ↔ kinds ts = [.finish] := by
  rw [← at?_finish_iff h, expectFinish]
  split
  · rename_i hfinish
    exact iff_of_true rfl hfinish
  · rename_i hfinish
    exact iff_of_false nofun hfinish

/-! ## Single tokens -/

theorem takes_expect_iff : Takes (expect k ts) () rest ↔ ∃ s, ts = ⟨k, s⟩ :: rest := by
  constructor
  · rintro ⟨h, heq⟩
    cases ts with
    | nil => cases heq
    | cons t more =>
      rw [expect] at heq
      split at heq
      · rename_i hk
        cases heq
        exact ⟨t.span, by rw [← hk]⟩
      · cases heq
  · rintro ⟨s, rfl⟩
    exact ⟨Nat.lt_succ_self _, if_pos rfl⟩

theorem takes_ident_iff {name : String} :
    Takes (ident ts) name rest ↔ ∃ s, ts = ⟨.ident name, s⟩ :: rest := by
  constructor
  · rintro ⟨h, heq⟩
    unfold ident at heq
    split at heq
    · rename_i s more
      cases heq
      exact ⟨s, rfl⟩
    · cases heq
  · rintro ⟨s, rfl⟩
    exact ⟨Nat.lt_succ_self _, rfl⟩

theorem takes_sort_iff {s : SortName} :
    Takes (sort ts) s rest ↔ isSortName s.name = true ∧ ∃ sp, ts = ⟨.ident s.name, sp⟩ :: rest := by
  rw [← takes_ident_iff]
  constructor
  · rintro ⟨h, heq⟩
    obtain ⟨⟨name, more, hmore⟩, hident, heq⟩ := Except.bind_eq_ok.1 heq
    split at heq
    · rename_i hname
      cases heq
      exact ⟨hname, _, hident⟩
    · cases heq
  · rintro ⟨hname, h, hident⟩
    refine ⟨h, ?_⟩
    rw [sort, hident]
    exact if_pos hname

/-- A token is skipped if it is the next one. -/
theorem skip_cases (k : TokenKind) (ts : List Token) :
    (∃ s mid h, ts = ⟨k, s⟩ :: mid ∧ skip k ts = ⟨true, mid, h⟩) ∨
      (kinds ts).head? ≠ some k ∧ skip k ts = ⟨false, ts, Nat.le_refl _⟩ := by
  cases ts with
  | nil => exact .inr ⟨nofun, rfl⟩
  | cons t mid =>
    rw [skip]
    split
    · rename_i hk
      exact .inl ⟨t.span, mid, Nat.le_succ _, by rw [← hk], rfl⟩
    · rename_i hk
      exact .inr ⟨fun h => hk (Option.some.inj h), rfl⟩

theorem skip_cons (k : TokenKind) (s : Span) (mid : List Token) :
    skip k (⟨k, s⟩ :: mid) = ⟨true, mid, Nat.le_succ _⟩ :=
  if_pos rfl

theorem skip_eq_absent (h : (kinds ts).head? ≠ some k) :
    skip k ts = ⟨false, ts, Nat.le_refl _⟩ := by
  rcases skip_cases k ts with ⟨s, mid, -, rfl, -⟩ | ⟨-, hskip⟩
  · exact absurd rfl h
  · exact hskip

/-! ## Items with commas between them -/

/-- An item is taken, and behind it either a comma and others or the closing mark. -/
def TakesSeparated (item : List Token → α → List Token → Prop)
    (others : List Token → List α → List Token → Prop) (close : Punctuation) (ts : List Token)
    (items : List α) (rest : List Token) : Prop :=
  (∃ first s mid more, item ts first (⟨.punctuation .comma, s⟩ :: mid) ∧ others mid more rest ∧
      items = first :: more) ∨
    ∃ first s, item ts first (⟨.punctuation close, s⟩ :: rest) ∧ items = [first]

/-- What a reader of items does at each of them, given the reader of the others. -/
theorem takes_separated_iff {items : List α} (item : ∀ ts, Except ParseError (Parsed α ts))
    (others : ∀ ts, Except ParseError (Parsed (List α) ts)) {close : Punctuation}
    (hclose : close ≠ .comma) : Takes (do
      let ⟨first, rest, h⟩ ← item ts
      match rest, h with
      | ⟨.punctuation .comma, _⟩ :: more, h => do
        have hmore := Nat.lt_of_succ_lt h
        let others ← others more
        .ok ((others.map (first :: ·)).after hmore)
      | rest, h => do
        let close ← expect (.punctuation close) rest
        .ok ((close.map fun _ => [first]).after h)) items rest ↔
      TakesSeparated (fun ts => Takes (item ts)) (fun ts => Takes (others ts)) close ts items
        rest := by
  constructor
  · rintro ⟨_, heq⟩
    obtain ⟨⟨first, mid, hmid⟩, hfirst, heq⟩ := Except.bind_eq_ok.1 heq
    dsimp only at heq
    split at heq
    · obtain ⟨⟨more, rest, hrest⟩, hmore, heq⟩ := Except.bind_eq_ok.1 heq
      cases heq
      exact .inl ⟨first, _, _, more, ⟨_, hfirst⟩, ⟨_, hmore⟩, rfl⟩
    · obtain ⟨⟨_, rest, hrest⟩, hexpect, heq⟩ := Except.bind_eq_ok.1 heq
      cases heq
      obtain ⟨s, rfl⟩ := takes_expect_iff.1 ⟨_, hexpect⟩
      exact .inr ⟨first, s, ⟨_, hfirst⟩, rfl⟩
  · rintro (⟨first, s, mid, more, ⟨hmid, hfirst⟩, ⟨hrest, hmore⟩, rfl⟩ |
      ⟨first, s, ⟨hmid, hfirst⟩, rfl⟩)
    · refine ⟨Nat.lt_trans hrest (Nat.lt_of_succ_lt hmid), Except.bind_eq_ok.2 ⟨_, hfirst, ?_⟩⟩
      exact Except.bind_eq_ok.2 ⟨_, hmore, rfl⟩
    · refine ⟨Nat.lt_of_succ_lt hmid, Except.bind_eq_ok.2 ⟨_, hfirst, ?_⟩⟩
      dsimp only
      split
      · rename_i heq _
        cases heq
        exact absurd rfl hclose
      · obtain ⟨_, hexpect⟩ := takes_expect_iff.2 ⟨s, rfl⟩
        exact Except.bind_eq_ok.2 ⟨_, hexpect, rfl⟩

end RewriteSemantics.Parse
