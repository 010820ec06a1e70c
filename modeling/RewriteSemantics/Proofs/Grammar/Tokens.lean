/-
# Token lists in grammars

A grammar looks at the kinds of tokens only and not at the places where they stand. Its phrases
spend tokens from the front of a list, and never the one for the end of the text: so what is left
behind the phrases of a text always ends as the text does.
-/
import RewriteSemantics.Proofs.Ordered.Map
import RewriteSemantics.Token.Reading

namespace RewriteSemantics

/-- The kinds of some tokens. -/
def Token.kinds (ts : List Token) : List TokenKind :=
  ts.map (·.kind)

namespace Token

@[simp] theorem kinds_nil : kinds [] = [] :=
  rfl

@[simp] theorem kinds_cons (t : Token) (ts : List Token) : kinds (t :: ts) = t.kind :: kinds ts :=
  rfl

theorem kinds_eq_cons {ts : List Token} {k : TokenKind} {ks : List TokenKind}
    (h : kinds ts = k :: ks) : ∃ s rest, ts = ⟨k, s⟩ :: rest ∧ kinds rest = ks := by
  cases ts with
  | nil => cases h
  | cons t rest =>
    obtain ⟨kind, s⟩ := t
    rw [kinds_cons, List.cons.injEq] at h
    obtain ⟨rfl, hrest⟩ := h
    exact ⟨s, rest, rfl, hrest⟩

theorem head?_kinds_eq_some {ts : List Token} {k : TokenKind} (h : (kinds ts).head? = some k) :
    ∃ s rest, ts = ⟨k, s⟩ :: rest := by
  obtain ⟨ks, hks⟩ := List.head?_eq_some_iff.1 h
  obtain ⟨s, rest, hts, -⟩ := kinds_eq_cons hks
  exact ⟨s, rest, hts⟩

end Token

namespace Grammar

/-! ## Spent tokens -/

/-- The kinds of the tokens of a text: the last of them, and no other, stands for the end. -/
def IsText (ks : List TokenKind) : Prop :=
  ∃ front, ks = front ++ [.finish] ∧ .finish ∉ front

/-- Some tokens other than the end of the text are spent, and others are left. -/
def Spends (ks rest : List TokenKind) : Prop :=
  ∃ spent, ks = spent ++ rest ∧ .finish ∉ spent

namespace Spends

variable {ks mid rest : List TokenKind} {k : TokenKind}

theorem refl (ks : List TokenKind) : Spends ks ks :=
  ⟨[], rfl, List.not_mem_nil⟩

theorem trans (h : Spends ks mid) (h' : Spends mid rest) : Spends ks rest := by
  obtain ⟨front, rfl, hfront⟩ := h
  obtain ⟨back, rfl, hback⟩ := h'
  refine ⟨front ++ back, (List.append_assoc ..).symm, fun hmem => ?_⟩
  exact (List.mem_append.1 hmem).elim hfront hback

theorem cons (h : Spends ks rest) (hk : k ≠ .finish) : Spends (k :: ks) rest := by
  obtain ⟨spent, rfl, hspent⟩ := h
  exact ⟨k :: spent, rfl, fun hmem => (List.mem_cons.1 hmem).elim (hk ·.symm) hspent⟩

theorem one (hk : k ≠ .finish) : Spends (k :: rest) rest :=
  (refl rest).cons hk

/-- A token in front of what is left is spent too. -/
theorem tail (h : Spends ks (k :: rest)) (hk : k ≠ .finish) : Spends ks rest :=
  h.trans (one hk)

/-- What is left behind spent tokens of a text ends as the text does. -/
theorem isText (h : Spends ks rest) (hks : IsText ks) : IsText rest := by
  obtain ⟨spent, rfl, hspent⟩ := h
  obtain ⟨front, hfront, hfinish⟩ := hks
  rcases List.append_eq_append_iff.1 hfront with ⟨more, rfl, hmore⟩ | ⟨more, rfl, hmore⟩
  · exact ⟨more, hmore, fun hmem => hfinish (List.mem_append_right _ hmem)⟩
  · -- Otherwise the last token is among the spent ones.
    cases more with
    | nil => exact ⟨[], hmore.symm, List.not_mem_nil⟩
    | cons k more =>
      rw [List.cons_append, List.cons.injEq] at hmore
      refine absurd (List.mem_append_right _ ?_) hspent
      rw [← hmore.1]
      exact List.mem_cons_self

end Spends

theorem isText_finish : IsText [.finish] :=
  ⟨[], rfl, List.not_mem_nil⟩

theorem IsText.eq_finish {ks : List TokenKind} (h : IsText ks) (hhead : ks.head? = some .finish) :
    ks = [.finish] := by
  obtain ⟨front, rfl, hfinish⟩ := h
  cases front with
  | nil => rfl
  | cons k front =>
    cases Option.some.inj hhead
    exact absurd List.mem_cons_self hfinish

/-! ## What may come next -/

/-- The next token, if there is one, is not of a kind. -/
def Stops (goesOn : TokenKind → Bool) (ks : List TokenKind) : Prop :=
  ∀ k ∈ ks.head?, goesOn k = false

@[simp] theorem stops_nil (goesOn : TokenKind → Bool) : Stops goesOn [] := by
  simp [Stops]

@[simp] theorem stops_cons {goesOn : TokenKind → Bool} {k : TokenKind} {ks : List TokenKind} :
    Stops goesOn (k :: ks) ↔ goesOn k = false := by
  simp [Stops]

theorem stops_of_false (ks : List TokenKind) : Stops (fun _ => false) ks :=
  fun _ _ => rfl

theorem stops_of_head?_ne {k : TokenKind} {ks : List TokenKind} (h : ks.head? ≠ some k) :
    Stops (fun k' => k' = k) ks := by
  intro k' hk'
  exact decide_eq_false fun heq => h (heq ▸ hk')

theorem Stops.head?_ne {goesOn : TokenKind → Bool} {k : TokenKind} {ks : List TokenKind}
    (h : Stops goesOn ks) (hk : goesOn k = true) : ks.head? ≠ some k := by
  intro hhead
  rw [h k hhead] at hk
  cases hk

/-! ## Bindings -/

/-- A map binds each key to the last of its values in a list of bindings. -/
def Binds (a : Attributes) (bindings : List (String × AttributeValue)) : Prop :=
  ∀ key, a.get? key = bindings.reverse.lookup key

theorem binds_ofList (bindings : List (String × AttributeValue)) :
    Binds (OrderedMap.ofList bindings) bindings :=
  OrderedMap.get?_ofList bindings

theorem Binds.eq_ofList {a : Attributes} {bindings : List (String × AttributeValue)}
    (h : Binds a bindings) : a = OrderedMap.ofList bindings :=
  OrderedMap.ext_get? fun key => (h key).trans (OrderedMap.get?_ofList bindings key).symm

end Grammar

end RewriteSemantics
