/-
# Generated names in a text

A text is made of words: the runs of letters, digits and underscores, and every other character by
itself. A generated name is a word that is a stem and digits. The numbers of generated names are
replaced word by word, and nothing else of a text is lost, as long as no stem has the mark that
stands for numbers behind it already.
-/
import Mathlib.Data.List.SplitBy
import RewriteSemantics.Proofs.Term.Hereditary
import RewriteSemantics.Proofs.Token.Spelling
import RewriteSemantics.Rule.Comparison

namespace RewriteSemantics.GeneratedNames

open Scan (headIs takeWhile_append_of_headIs dropWhile_append_of_headIs)

variable {stem stem' : String} {c : Char} {cs v w rest : List Char} {vs ws : List (List Char)}

/-! ## Words -/

/-- Whether two characters that stand side by side stand in one word. -/
def joins (c d : Char) : Bool :=
  isWordChar c && isWordChar d

/-- The words of a text. -/
def words (cs : List Char) : List (List Char) :=
  cs.splitBy joins

theorem headIs_nil {p : Char → Bool} : headIs p [] = false :=
  rfl

theorem headIs_dropWhile (p : Char → Bool) (cs : List Char) :
    headIs p (cs.dropWhile p) = false := by
  have h := List.head?_dropWhile_not p cs
  rw [headIs]
  cases hhead : (cs.dropWhile p).head? with
  | none => rfl
  | some c => rwa [hhead] at h

theorem flatten_words (cs : List Char) : (words cs).flatten = cs :=
  List.flatten_splitBy _ _

/-- A character that is no part of a word stands between the words before and behind it. -/
theorem words_append_cons (hc : isWordChar c = false) (a b : List Char) :
    words (a ++ c :: b) = words a ++ [c] :: words b := by
  have hbefore : words (a ++ c :: b) = words a ++ words (c :: b) :=
    List.splitBy_append_cons b fun d _ => by rw [joins, hc, Bool.and_false]
  have hbehind : words ([c] ++ b) = words [c] ++ words b := by
    refine List.splitBy_append fun d hd _ _ => ?_
    rw [List.getLast?_singleton, Option.mem_some_iff] at hd
    rw [joins, ← hd, hc, Bool.false_and]
  rw [hbefore, ← List.singleton_append, hbehind]
  rfl

/-- A run of word characters is a word if the text goes on with another character. -/
theorem words_word (hne : w ≠ []) (hw : ∀ c ∈ w, isWordChar c = true)
    (hrest : headIs isWordChar rest = false) : words (w ++ rest) = w :: words rest := by
  have hchain : w.IsChain fun c d => joins c d = true :=
    List.Pairwise.isChain (List.pairwise_of_forall_mem_list fun c hc d hd =>
      Bool.and_eq_true_iff.2 ⟨hw c hc, hw d hd⟩)
  have happend : words (w ++ rest) = words w ++ words rest := by
    refine List.splitBy_append fun c _ d hd => ?_
    rw [headIs, hd] at hrest
    rw [joins, show isWordChar d = false from hrest, Bool.and_false]
  rw [happend, words, List.splitBy_of_isChain hne hchain]
  rfl

/-- Words that stand apart: no run of word characters has another one behind it. -/
inductive Spaced : List (List Char) → Prop where
  | nil : Spaced []
  | mark {c : Char} {ws : List (List Char)} (hc : isWordChar c = false) (hws : Spaced ws) :
      Spaced ([c] :: ws)
  | word {w : List Char} {ws : List (List Char)} (hne : w ≠ [])
      (hw : ∀ c ∈ w, isWordChar c = true) (hbreak : headIs isWordChar ws.flatten = false)
      (hws : Spaced ws) : Spaced (w :: ws)

/-- The words of a text stand apart. -/
theorem spaced_words : ∀ cs, Spaced (words cs)
  -- Not by induction on the text: a whole run of word characters is taken off at once.
  | [] => .nil
  | c :: cs => by
    by_cases hc : isWordChar c = true
    · have hne : (c :: cs).takeWhile isWordChar ≠ [] := by
        rw [List.takeWhile_cons_of_pos hc]
        exact List.cons_ne_nil _ _
      have hall : ∀ d ∈ (c :: cs).takeWhile isWordChar, isWordChar d = true :=
        fun _ => List.mem_takeWhile_imp
      have hend := headIs_dropWhile isWordChar (c :: cs)
      rw [← List.takeWhile_append_dropWhile (p := isWordChar) (l := c :: cs),
        words_word hne hall hend]
      refine .word hne hall ?_ (spaced_words _)
      rwa [flatten_words]
    · have hc := Bool.eq_false_iff.2 hc
      rw [← List.nil_append (c :: cs), words_append_cons hc]
      exact .mark hc (spaced_words cs)
termination_by cs => cs.length
decreasing_by
  · rw [List.dropWhile_cons_of_pos hc]
    exact Nat.lt_succ_of_le (List.dropWhile_suffix isWordChar).length_le
  · exact Nat.lt_succ_self _

/-- Words that stand apart are the words of the text they make up. -/
theorem Spaced.words_flatten (h : Spaced ws) : words ws.flatten = ws := by
  induction h with
  | nil => rfl
  | @mark c ws hc _ ih =>
    have h := words_append_cons hc [] ws.flatten
    rwa [ih] at h
  | word hne hw hbreak _ ih => rw [List.flatten_cons, words_word hne hw hbreak, ih]

/-! ## Generated names -/

/-- A word is a stem and digits. -/
def IsGenerated (stem : String) (w : List Char) : Prop :=
  IsNewStem stem ∧ ∃ digits : List Char, digits ≠ [] ∧ (∀ c ∈ digits, c.isDigit = true) ∧
    w = stem.toList ++ digits

/-- A word is a generated name. -/
def IsName (w : List Char) : Prop :=
  ∃ stem, IsGenerated stem w

theorem isWordChar_of_isDigit (h : c.isDigit = true) : isWordChar c = true := by
  rw [isWordChar, Char.isAlphanum, h, Bool.or_true, Bool.true_or]

theorem isWordChar_of_isNewStem (h : IsNewStem stem) : ∀ c ∈ stem.toList, isWordChar c = true := by
  rcases h with rfl | rfl <;> exact List.all_eq_true.1 (by decide)

theorem toList_ne_nil_of_isNewStem (h : IsNewStem stem) : stem.toList ≠ [] := by
  rcases h with rfl | rfl <;> decide

theorem headIs_of_isNewStem (h : IsNewStem stem) (cs : List Char) :
    headIs isWordChar (stem.toList ++ cs) = true := by
  rcases h with rfl | rfl <;> rfl

/-- The two stems start differently. -/
theorem eq_of_isNewStem (h : IsNewStem stem) (h' : IsNewStem stem')
    (heq : stem.toList ++ v = stem'.toList ++ w) : stem = stem' := by
  have hhead : (stem.toList ++ v).head? = (stem'.toList ++ w).head? := congrArg _ heq
  rcases h with rfl | rfl <;> rcases h' with rfl | rfl
  · rfl
  · exact absurd (show some '_' = some 'D' from hhead) (by decide)
  · exact absurd (show some 'D' = some '_' from hhead) (by decide)
  · rfl

/-- Two runs of word characters that end where their texts go on with no word are the same run. -/
theorem append_inj_of_headIs {rest' : List Char} (hv : ∀ c ∈ v, isWordChar c = true)
    (hw : ∀ c ∈ w, isWordChar c = true) (hrest : headIs isWordChar rest = false)
    (hrest' : headIs isWordChar rest' = false) (h : v ++ rest = w ++ rest') :
    v = w ∧ rest = rest' := by
  constructor
  · rw [← takeWhile_append_of_headIs hv hrest, h, takeWhile_append_of_headIs hw hrest']
  · rw [← dropWhile_append_of_headIs hv hrest, h, dropWhile_append_of_headIs hw hrest']

namespace IsGenerated

theorem isWordChar (h : IsGenerated stem w) : ∀ c ∈ w, isWordChar c = true := by
  obtain ⟨hstem, digits, -, hdigits, rfl⟩ := h
  refine List.forall_mem_append.2 ⟨isWordChar_of_isNewStem hstem, fun c hc => ?_⟩
  exact isWordChar_of_isDigit (hdigits c hc)

theorem ne_nil (h : IsGenerated stem w) : w ≠ [] := by
  obtain ⟨hstem, digits, -, -, rfl⟩ := h
  exact List.append_ne_nil_of_left_ne_nil (toList_ne_nil_of_isNewStem hstem) digits

theorem stem_eq (h : IsGenerated stem w) (h' : IsGenerated stem' w) : stem = stem' := by
  obtain ⟨hstem, digits, -, -, rfl⟩ := h
  obtain ⟨hstem', digits', -, -, heq⟩ := h'
  exact eq_of_isNewStem hstem hstem' heq

end IsGenerated

theorem not_isName_mark (hc : isWordChar c = false) : ¬ IsName [c] := fun ⟨_, h⟩ =>
  absurd (h.isWordChar c (List.mem_singleton_self c)) (Bool.eq_false_iff.1 hc)

/-- Whether a word is a stem and digits is decided by what is left of it behind the stem. -/
theorem isGenerated_iff : IsGenerated stem w ↔ IsNewStem stem ∧ stem.toList <+: w ∧
    w.drop stem.toList.length ≠ [] ∧ (w.drop stem.toList.length).all Char.isDigit = true := by
  rw [List.all_eq_true]
  refine and_congr_right fun _ => ⟨?_, ?_⟩
  · rintro ⟨digits, hne, hdigits, rfl⟩
    rw [List.drop_left]
    exact ⟨List.prefix_append _ _, hne, hdigits⟩
  · rintro ⟨⟨digits, rfl⟩, hne, hdigits⟩
    rw [List.drop_left] at hne hdigits
    exact ⟨digits, hne, hdigits, rfl⟩

instance : DecidablePred IsNewStem := fun stem =>
  inferInstanceAs (Decidable (stem = generatedStem ∨ stem = Concretization.dotStem))

instance : Decidable (IsGenerated stem w) :=
  decidable_of_iff _ isGenerated_iff.symm

theorem isName_iff :
    IsName w ↔ IsGenerated generatedStem w ∨ IsGenerated Concretization.dotStem w := by
  constructor
  · rintro ⟨stem, h⟩
    rcases h.1 with rfl | rfl
    · exact .inl h
    · exact .inr h
  · exact fun h => h.elim (⟨_, ·⟩) (⟨_, ·⟩)

instance : DecidablePred IsName := fun _ =>
  decidable_of_iff _ isName_iff.symm

theorem headIs_isDigit (h : headIs isWordChar rest = false) : headIs Char.isDigit rest = false := by
  cases rest with
  | nil => rfl
  | cons c rest => exact Bool.eq_false_iff.2 (mt isWordChar_of_isDigit (Bool.eq_false_iff.1 h))

theorem isGenerated_of_digitsBehind? (hstem : IsNewStem stem) (hw : ∀ c ∈ w, isWordChar c = true)
    (hrest : headIs isWordChar rest = false) {n : Nat}
    (h : digitsBehind? stem (w ++ rest) = some n) :
    IsGenerated stem w ∧ w.length = stem.length + n := by
  have hlength : stem.toList.length = stem.length := String.length_toList
  obtain ⟨hcond, hn⟩ := Option.ite_none_right_eq_some.1 h
  rw [Bool.and_eq_true, Bool.and_eq_true, Bool.not_eq_true', Bool.not_eq_true',
    List.isEmpty_eq_false_iff] at hcond
  obtain ⟨⟨hstarts, hne⟩, hend⟩ := hcond
  obtain ⟨more, hmore⟩ := List.isPrefixOf_iff_prefix.1 hstarts
  rw [← hmore, ← List.drop_drop] at hend
  rw [← hmore] at hne hn
  rw [← hlength, List.drop_left] at hne hn hend
  -- Nothing goes on behind the digits, so stem and digits are a run of word characters.
  have hsplit := List.takeWhile_append_dropWhile (p := Char.isDigit) (l := more)
  have hdrop : more.drop (more.takeWhile Char.isDigit).length = more.dropWhile Char.isDigit :=
    (congrArg (List.drop _) hsplit).symm.trans List.drop_left
  rw [hdrop] at hend
  have hgenerated : IsGenerated stem (stem.toList ++ more.takeWhile Char.isDigit) :=
    ⟨hstem, _, hne, fun _ => List.mem_takeWhile_imp, rfl⟩
  rw [← hsplit, ← List.append_assoc] at hmore
  obtain ⟨rfl, -⟩ := append_inj_of_headIs hgenerated.isWordChar hw hend hrest hmore
  exact ⟨hgenerated, by rw [List.length_append, hlength, Option.some.inj hn]⟩

theorem digitsBehind?_of_isGenerated (h : IsGenerated stem w)
    (hrest : headIs isWordChar rest = false) {n : Nat} (hn : w.length = stem.length + n) :
    digitsBehind? stem (w ++ rest) = some n := by
  obtain ⟨-, digits, hne, hdigits, rfl⟩ := h
  have hlength : stem.toList.length = stem.length := String.length_toList
  rw [List.length_append, hlength, Nat.add_left_cancel_iff] at hn
  have htake := takeWhile_append_of_headIs hdigits (headIs_isDigit hrest)
  have hend : (stem.toList ++ digits ++ rest).drop (stem.length + digits.length) = rest := by
    rw [← hlength, ← List.length_append, List.drop_left]
  rw [digitsBehind?, List.append_assoc, ← hlength, List.drop_left, htake, hlength,
    ← List.append_assoc, hend, hn, if_pos]
  rw [Bool.and_eq_true, Bool.and_eq_true, Bool.not_eq_true', Bool.not_eq_true',
    List.isEmpty_eq_false_iff, List.isPrefixOf_iff_prefix, List.append_assoc]
  exact ⟨⟨List.prefix_append _ _, hne⟩, hrest⟩

/-- The generated name that a text goes on with is the word that it goes on with. -/
theorem stemHere?_append (hw : ∀ c ∈ w, isWordChar c = true)
    (hrest : headIs isWordChar rest = false) {n : Nat} :
    stemHere? (w ++ rest) = some (stem, n) ↔ IsGenerated stem w ∧ w.length = stem.length + n := by
  constructor
  · intro h
    obtain ⟨stem', hmem, hfound⟩ := List.exists_of_findSome?_eq_some h
    obtain ⟨m, hm, heq⟩ := Option.map_eq_some_iff.1 hfound
    cases heq
    rw [List.mem_cons, List.mem_singleton] at hmem
    exact isGenerated_of_digitsBehind? hmem hw hrest hm
  · rintro ⟨h, hn⟩
    have hfound := digitsBehind?_of_isGenerated h hrest hn
    rw [stemHere?, List.findSome?_cons, List.findSome?_cons]
    rcases h.1 with rfl | rfl
    · rw [hfound]
      rfl
    · have hother : digitsBehind? generatedStem (w ++ rest) = none := by
        refine Option.eq_none_iff_forall_ne_some.2 fun m hm => ?_
        have hgen := (isGenerated_of_digitsBehind? (.inl rfl) hw hrest hm).1
        exact absurd (h.stem_eq hgen) (by decide)
      rw [hother, hfound]
      rfl

/-- What stands behind a word does not change whether it is a generated name. -/
theorem stemHere?_word (hw : ∀ c ∈ w, isWordChar c = true)
    (hrest : headIs isWordChar rest = false) : stemHere? (w ++ rest) = stemHere? w := by
  refine Option.ext fun (stem, n) => (stemHere?_append hw hrest).trans ?_
  rw [← stemHere?_append hw headIs_nil, List.append_nil]

theorem stemHere?_of_isGenerated (h : IsGenerated stem w) :
    ∃ n, stemHere? w = some (stem, n) ∧ w.length = stem.length + n := by
  have hw := h.isWordChar
  obtain ⟨-, digits, -, -, heq⟩ := id h
  have hlength : w.length = stem.length + digits.length := by
    rw [heq, List.length_append, String.length_toList]
  refine ⟨digits.length, ?_, hlength⟩
  rw [← stemHere?_word hw headIs_nil]
  exact (stemHere?_append hw rfl).2 ⟨h, hlength⟩

theorem stemHere?_eq_none (hw : ∀ c ∈ w, isWordChar c = true) (h : ¬ IsName w) :
    stemHere? w = none := by
  refine Option.eq_none_iff_forall_ne_some.2 fun (stem, n) hn => h ⟨stem, ?_⟩
  rw [← stemHere?_word hw headIs_nil] at hn
  exact ((stemHere?_append hw rfl).1 hn).1

theorem stemHere?_mark (hc : isWordChar c = false) (cs : List Char) :
    stemHere? (c :: cs) = none := by
  have hnone : ∀ stem, IsNewStem stem → digitsBehind? stem (c :: cs) = none := by
    intro stem hstem
    have hcond : stem.toList.isPrefixOf (c :: cs) = false := by
      refine Bool.eq_false_iff.2 fun hstarts => ?_
      obtain ⟨more, hmore⟩ := List.isPrefixOf_iff_prefix.1 hstarts
      have hhead := headIs_of_isNewStem hstem more
      rw [hmore] at hhead
      exact Bool.eq_false_iff.1 hc hhead
    rw [digitsBehind?, hcond, Bool.false_and, Bool.false_and, if_neg Bool.false_ne_true]
  rw [stemHere?, List.findSome?_cons, List.findSome?_cons, hnone _ (.inl rfl), hnone _ (.inr rfl)]
  rfl

/-! ## What is compared -/

/-- A word as it is compared: a generated name without its number. -/
def blurred (w : List Char) : List Char :=
  match stemHere? w with
  | some (stem, _) => stem.toList ++ ['#']
  | none => w

/-- A text as it is compared. -/
def blur (cs : List Char) : List Char :=
  normalizeFrom 0 false cs

theorem blurred_of_isGenerated (h : IsGenerated stem w) : blurred w = stem.toList ++ ['#'] := by
  obtain ⟨n, hn, -⟩ := stemHere?_of_isGenerated h
  rw [blurred, hn]

theorem blurred_of_word (hw : ∀ c ∈ w, isWordChar c = true) (h : ¬ IsName w) :
    blurred w = w := by
  rw [blurred, stemHere?_eq_none hw h]

theorem blurred_mark (hc : isWordChar c = false) : blurred [c] = [c] := by
  rw [blurred, stemHere?_mark hc]

theorem normalizeFrom_skip (hcs : ∀ c ∈ cs, isWordChar c = true) (rest : List Char) :
    normalizeFrom cs.length true (cs ++ rest) = normalizeFrom 0 true rest := by
  induction cs with
  | nil => rfl
  | cons c cs ih =>
    obtain ⟨hc, hcs⟩ := List.forall_mem_cons.1 hcs
    rw [List.length_cons, List.cons_append, normalizeFrom, hc, ih hcs]

theorem normalizeFrom_inWord (hcs : ∀ c ∈ cs, isWordChar c = true) (rest : List Char) :
    normalizeFrom 0 true (cs ++ rest) = cs ++ normalizeFrom 0 true rest := by
  induction cs with
  | nil => rfl
  | cons c cs ih =>
    obtain ⟨hc, hcs⟩ := List.forall_mem_cons.1 hcs
    rw [List.cons_append, normalizeFrom, if_pos rfl, hc, ih hcs, List.cons_append]

theorem blur_mark (hc : isWordChar c = false) (cs : List Char) : blur (c :: cs) = c :: blur cs := by
  rw [blur, normalizeFrom, if_neg Bool.false_ne_true, stemHere?_mark hc, hc, blur]

/-- Behind a word nothing starts that the word would have to be looked at for. -/
theorem normalizeFrom_behind_word (hrest : headIs isWordChar rest = false) :
    normalizeFrom 0 true rest = blur rest := by
  cases rest with
  | nil => rfl
  | cons c rest =>
    have hc : isWordChar c = false := hrest
    rw [blur_mark hc, normalizeFrom, if_pos rfl, hc, blur]

theorem blur_word (hne : w ≠ []) (hw : ∀ c ∈ w, isWordChar c = true)
    (hrest : headIs isWordChar rest = false) : blur (w ++ rest) = blurred w ++ blur rest := by
  cases w with
  | nil => exact absurd rfl hne
  | cons c cs =>
    obtain ⟨hc, hcs⟩ := List.forall_mem_cons.1 hw
    rw [blur, List.cons_append, normalizeFrom, if_neg Bool.false_ne_true, ← List.cons_append, hc]
    rw [stemHere?_word hw hrest]
    by_cases h : IsName (c :: cs)
    · obtain ⟨stem, h⟩ := h
      obtain ⟨n, hn, hlength⟩ := stemHere?_of_isGenerated h
      have hskip : stem.length + n - 1 = cs.length := by
        rw [← hlength, List.length_cons, Nat.add_sub_cancel]
      rw [hn, blurred_of_isGenerated h]
      dsimp only
      rw [hskip, normalizeFrom_skip hcs, normalizeFrom_behind_word hrest, List.append_assoc,
        List.singleton_append]
    · rw [stemHere?_eq_none hw h, blurred_of_word hw h, normalizeFrom_inWord hcs,
        normalizeFrom_behind_word hrest, List.cons_append]

/-- Blurring works word by word. -/
theorem blur_flatten (h : Spaced ws) : blur ws.flatten = (ws.map blurred).flatten := by
  induction h with
  | nil => rfl
  | mark hc _ ih =>
    rw [List.flatten_cons, List.singleton_append, blur_mark hc, ih, List.map_cons, blurred_mark hc]
    rfl
  | word hne hw hbreak _ ih =>
    rw [List.flatten_cons, blur_word hne hw hbreak, ih]
    rfl

theorem blur_eq (cs : List Char) : blur cs = ((words cs).map blurred).flatten := by
  rw [← blur_flatten (spaced_words cs), flatten_words]

theorem blur_append_cons (hc : isWordChar c = false) (a b : List Char) :
    blur (a ++ c :: b) = blur a ++ c :: blur b := by
  rw [blur_eq, words_append_cons hc, List.map_append, List.flatten_append, ← blur_eq, List.map_cons,
    List.flatten_cons, ← blur_eq, blurred_mark hc]
  rfl

/-- What blurring makes of the words of a text. -/
theorem Spaced.blurred_cases (h : Spaced ws) (hw : w ∈ ws) :
    (∃ stem, IsGenerated stem w ∧ blurred w = stem.toList ++ ['#']) ∨
      ¬ IsName w ∧ blurred w = w := by
  induction h with
  | nil => cases hw
  | mark hc _ ih =>
    rcases List.mem_cons.1 hw with rfl | hw
    · exact .inr ⟨not_isName_mark hc, blurred_mark hc⟩
    · exact ih hw
  | word _ hall _ _ ih =>
    rcases List.mem_cons.1 hw with rfl | hw
    · by_cases hname : IsName w
      · obtain ⟨stem, hgen⟩ := hname
        exact .inl ⟨stem, hgen, blurred_of_isGenerated hgen⟩
      · exact .inr ⟨hname, blurred_of_word hall hname⟩
    · exact ih hw

theorem mem_blur (hc : c ∈ blur cs) : c ∈ cs ∨ c = '#' := by
  rw [blur_eq] at hc
  obtain ⟨_, hb, hc⟩ := List.mem_flatten.1 hc
  obtain ⟨w, hw, rfl⟩ := List.mem_map.1 hb
  have hmem : c ∈ w → c ∈ cs := fun hc => flatten_words cs ▸ List.mem_flatten_of_mem hw hc
  rcases (spaced_words cs).blurred_cases hw with ⟨stem, ⟨-, digits, -, -, rfl⟩, heq⟩ | ⟨-, heq⟩
  · rw [heq, List.mem_append, List.mem_singleton] at hc
    exact hc.imp_left fun hc => hmem (List.mem_append_left _ hc)
  · exact .inl (hmem (heq ▸ hc))

/-- A text without the mark for numbers is what it was. -/
theorem blur_eq_self (h : '#' ∉ blur cs) : blur cs = cs := by
  rw [blur_eq] at h ⊢
  have hself : ∀ w ∈ words cs, blurred w = id w := by
    intro w hw
    rcases (spaced_words cs).blurred_cases hw with ⟨stem, -, heq⟩ | ⟨-, heq⟩
    · refine absurd (List.mem_flatten_of_mem (List.mem_map_of_mem hw) ?_) h
      rw [heq]
      exact List.mem_append_right _ (List.mem_singleton_self '#')
    · exact heq
  rw [List.map_congr_left hself, List.map_id, flatten_words]

/-! ## What is lost -/

/-- Two words are the same, or generated names with the same stem. -/
def Alike (v w : List Char) : Prop :=
  v = w ∨ ∃ stem, IsGenerated stem v ∧ IsGenerated stem w

/-- No stem has the mark for numbers behind it. -/
def Unmarked (ws : List (List Char)) : Prop :=
  ws.IsChain fun v w => ¬ (IsNewStem (String.ofList v) ∧ w = ['#'])

/-- Generated names with the same stem are blurred to the same, whatever their numbers. -/
theorem Alike.blurred_eq (h : Alike v w) : blurred v = blurred w := by
  rcases h with rfl | ⟨stem, hv, hw⟩
  · rfl
  · rw [blurred_of_isGenerated hv, blurred_of_isGenerated hw]

theorem head?_flatten_blurred (h : Spaced ws) :
    (ws.map blurred).flatten.head? = ws.flatten.head? := by
  cases h with
  | nil => rfl
  | mark hc _ =>
    rw [List.map_cons, blurred_mark hc]
    rfl
  | @word w ws hne hw hbreak hws =>
    rw [List.map_cons, List.flatten_cons, List.flatten_cons, List.head?_append_of_ne_nil _ hne]
    rcases (Spaced.word hne hw hbreak hws).blurred_cases List.mem_cons_self with
      ⟨stem, ⟨hstem, digits, -, -, rfl⟩, heq⟩ | ⟨-, heq⟩
    · have hstem := toList_ne_nil_of_isNewStem hstem
      rw [heq, List.append_assoc, List.head?_append_of_ne_nil _ hstem,
        List.head?_append_of_ne_nil _ hstem]
    · rw [heq, List.head?_append_of_ne_nil _ hne]

theorem eq_nil_of_flatten_blurred (h : Spaced ws) (heq : (ws.map blurred).flatten = []) :
    ws = [] := by
  have hhead := head?_flatten_blurred h
  rw [heq] at hhead
  cases h with
  | nil => rfl
  | mark _ _ => cases hhead
  | word hne _ _ _ =>
    rw [List.flatten_cons, List.head?_append_of_ne_nil _ hne] at hhead
    exact absurd (List.head?_eq_none_iff.1 hhead.symm) hne

/-- A mark stands in front of a text that is compared only if it stands in front of the text. -/
theorem eq_cons_of_flatten_blurred (h : Spaced ws) (hc : isWordChar c = false)
    (heq : (ws.map blurred).flatten = c :: cs) : ∃ vs, ws = [c] :: vs := by
  have hhead := head?_flatten_blurred h
  rw [heq] at hhead
  cases h with
  | nil => cases hhead
  | mark hd hws =>
    obtain rfl := Option.some.inj hhead
    exact ⟨_, rfl⟩
  | @word w ws hne hw _ _ =>
    cases w with
    | nil => exact absurd rfl hne
    | cons d w =>
      obtain rfl := Option.some.inj hhead
      exact absurd (hw c List.mem_cons_self) (Bool.eq_false_iff.1 hc)

theorem headIs_flatten_blurred (h : Spaced ws) (p : Char → Bool) :
    headIs p (ws.map blurred).flatten = headIs p ws.flatten :=
  congrArg (Option.any p) (head?_flatten_blurred h)

theorem Unmarked.head?_ne (h : Unmarked (w :: ws)) (hws : Spaced ws)
    (hstem : IsNewStem (String.ofList w)) : (ws.map blurred).flatten.head? ≠ some '#' := by
  intro hhead
  obtain ⟨cs, hcs⟩ := List.head?_eq_some_iff.1 hhead
  obtain ⟨vs, rfl⟩ := eq_cons_of_flatten_blurred hws (by decide) hcs
  exact (List.isChain_cons_cons.1 h).1 ⟨hstem, rfl⟩

/-- Words that texts start with are alike if the texts are compared as the same, unless one of them
is a stem that has the mark for numbers behind it. -/
theorem alike_of_blurred_append {xs ys : List Char} (hv : ∀ c ∈ v, isWordChar c = true)
    (hw : ∀ c ∈ w, isWordChar c = true) (hxs : headIs isWordChar xs = false)
    (hys : headIs isWordChar ys = false)
    (hvmark : IsNewStem (String.ofList v) → xs.head? ≠ some '#')
    (hwmark : IsNewStem (String.ofList w) → ys.head? ≠ some '#')
    (h : blurred v ++ xs = blurred w ++ ys) : Alike v w ∧ xs = ys := by
  have hmark : ∀ cs, headIs isWordChar ('#' :: cs) = false := fun _ => rfl
  -- A generated name is compared as a run of word characters with the mark for numbers behind it.
  -- If the other word is none, the run is that word, and the mark stands in its text.
  by_cases hgv : IsName v
  · obtain ⟨stem, hgv⟩ := hgv
    have hstem := isWordChar_of_isNewStem hgv.1
    rw [blurred_of_isGenerated hgv, List.append_assoc] at h
    by_cases hgw : IsName w
    · obtain ⟨stem', hgw⟩ := hgw
      rw [blurred_of_isGenerated hgw, List.append_assoc] at h
      obtain ⟨heq, hrest⟩ := append_inj_of_headIs hstem (isWordChar_of_isNewStem hgw.1) (hmark xs)
        (hmark ys) h
      obtain rfl := String.toList_inj.1 heq
      exact ⟨.inr ⟨stem, hgv, hgw⟩, List.cons.inj hrest |>.2⟩
    · rw [blurred_of_word hw hgw] at h
      obtain ⟨rfl, rfl⟩ := append_inj_of_headIs hstem hw (hmark xs) hys h
      exact absurd rfl (hwmark (String.ofList_toList ▸ hgv.1))
  · rw [blurred_of_word hv hgv] at h
    by_cases hgw : IsName w
    · obtain ⟨stem, hgw⟩ := hgw
      rw [blurred_of_isGenerated hgw, List.append_assoc] at h
      obtain ⟨rfl, rfl⟩ := append_inj_of_headIs hv (isWordChar_of_isNewStem hgw.1) hxs (hmark ys) h
      exact absurd rfl (hvmark (String.ofList_toList ▸ hgw.1))
    · rw [blurred_of_word hw hgw] at h
      obtain ⟨rfl, rfl⟩ := append_inj_of_headIs hv hw hxs hys h
      exact ⟨.inl rfl, rfl⟩

/-- Texts that are compared as the same are the same word by word, up to the numbers of generated
names. -/
theorem forall₂_alike (hvs : Spaced vs) (hws : Spaced ws) (hv : Unmarked vs) (hw : Unmarked ws)
    (h : (vs.map blurred).flatten = (ws.map blurred).flatten) : List.Forall₂ Alike vs ws := by
  induction hvs generalizing ws with
  | nil =>
    obtain rfl := eq_nil_of_flatten_blurred hws h.symm
    exact .nil
  | @mark c vs hc hvs ih =>
    rw [List.map_cons, blurred_mark hc] at h
    obtain ⟨ws, rfl⟩ := eq_cons_of_flatten_blurred hws hc h.symm
    rw [List.map_cons, blurred_mark hc] at h
    cases hws with
    | mark _ hws => exact .cons (.inl rfl) (ih hws hv.tail hw.tail (List.cons.inj h).2)
    | word _ hall _ _ =>
      exact absurd (hall c (List.mem_singleton_self c)) (Bool.eq_false_iff.1 hc)
  | @word v vs hne hall hbreak hvs ih =>
    have hspaced := Spaced.word hne hall hbreak hvs
    cases hws with
    | nil => cases eq_nil_of_flatten_blurred hspaced h
    | @mark c ws hc hws =>
      rw [List.map_cons (a := [c]), blurred_mark hc] at h
      obtain ⟨_, heq⟩ := eq_cons_of_flatten_blurred hspaced hc h
      obtain rfl := (List.cons.inj heq).1
      exact absurd (hall c (List.mem_singleton_self c)) (Bool.eq_false_iff.1 hc)
    | @word w ws hne' hall' hbreak' hws =>
      rw [List.map_cons, List.map_cons, List.flatten_cons, List.flatten_cons] at h
      obtain ⟨halike, h⟩ := alike_of_blurred_append hall hall'
        ((headIs_flatten_blurred hvs _).trans hbreak) ((headIs_flatten_blurred hws _).trans hbreak')
        (hv.head?_ne hvs) (hw.head?_ne hws) h
      exact .cons halike (ih hws hv.tail hw.tail h)

end RewriteSemantics.GeneratedNames
