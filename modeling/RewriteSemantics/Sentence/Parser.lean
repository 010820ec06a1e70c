/-
# Reading sentences

A sentence starts with a keyword that tells what it declares and ends with an attribute list, which
may be left out.
-/
import RewriteSemantics.Attribute.Parser
import RewriteSemantics.Sentence
import RewriteSemantics.Term.Parser

namespace RewriteSemantics

namespace Parse

/-! ## Productions -/

/-- Takes sorts with commas between them, and the closing parenthesis. -/
def someSorts (ts : List Token) : Except ParseError (Parsed (List SortName) ts) := do
  let ⟨first, rest, h⟩ ← sort ts
  match rest, h with
  | ⟨.punctuation .comma, _⟩ :: more, h => do
    have hmore := Nat.lt_of_succ_lt h
    let others ← someSorts more
    .ok ((others.map (first :: ·)).after hmore)
  | rest, h => do
    let close ← expect (.punctuation .rightParen) rest
    .ok ((close.map fun _ => [first]).after h)
termination_by ts.length

/-- Takes the parameters of a label, if it has any. -/
def parameters (ts : List Token) : Except ParseError (MaybeParsed (List SortName) ts) :=
  match ts with
  | ⟨.punctuation .leftParen, _⟩ :: ⟨.punctuation .rightParen, _⟩ :: rest =>
    .ok (Parsed.one [] _ rest).behind.toMaybe
  | ⟨.punctuation .leftParen, _⟩ :: more => do
    let sorts ← someSorts more
    .ok sorts.behind.toMaybe
  | ts => .ok (.absent [] ts)

/-- Takes the parameters of a label and makes the production of it. -/
def labelled (sort : SortName) (label : String) (ts : List Token) :
    Except ParseError (MaybeParsed Production ts) := do
  let params ← parameters ts
  .ok (params.map (.labelled sort label))

/-- Takes the right-hand side of a production: a sort, which becomes a subsort, or a label with its
parameters. -/
def alternative (sort : SortName) (ts : List Token) : Except ParseError (Parsed Production ts) :=
  match ts with
  | ⟨.ident name, _⟩ :: rest =>
    if isSortName name then .ok (.one (.subsort sort ⟨name⟩) _ rest)
    else do
      let p ← labelled sort name rest
      .ok p.behind
  | ⟨.quoted label, _⟩ :: rest => do
    let p ← labelled sort label rest
    .ok p.behind
  | ts => .error (unexpected "production" ts)

/-- Takes the declaration of a sort or a production of it, behind its keyword. -/
def sortSentence (ts : List Token) : Except ParseError (Parsed Sentence ts) := do
  let ⟨sort, rest, h⟩ ← sort ts
  match rest, h with
  | ⟨.punctuation .definedAs, _⟩ :: more, h => do
    let ⟨production, rest, _⟩ ← alternative sort more
    let attributes ← attributes rest
    .ok ⟨.production { production with attributes := attributes.value }, attributes.rest, by
      have := attributes.notLonger
      simp at h
      omega⟩
  | rest, h => do
    let attributes ← attributes rest
    .ok ⟨.sort ⟨sort, attributes.value⟩, attributes.rest, by
      have := attributes.notLonger
      omega⟩

/-! ## Rules, contexts and configurations -/

/-- Takes a keyword and a term, if the keyword is there. -/
def condition (word : Keyword) (ts : List Token) :
    Except ParseError (MaybeParsed (Option Term) ts) :=
  let ⟨found, rest, h⟩ := skip (.keyword word) ts
  if found then do
    let t ← term rest
    .ok (((t.map some).within h).toMaybe)
  else .ok (.absent none ts)

/-- Takes the label of a rule, if it has one: a name in brackets and a colon. -/
def ruleLabel (ts : List Token) : Except ParseError (MaybeParsed Attributes ts) :=
  match ts with
  | ⟨.punctuation .leftBracket, _⟩ :: more => do
    let ⟨label, rest, _⟩ ← ident more
    let ⟨_, rest, _⟩ ← expect (.punctuation .rightBracket) rest
    let ⟨_, rest, _⟩ ← expect (.punctuation .colon) rest
    .ok ⟨(∅ : Attributes).insert Attributes.label (.text label), rest, by simp; omega⟩
  | ts => .ok (.absent ∅ ts)

/-- Takes a rule behind its keyword. -/
def rule (ts : List Token) : Except ParseError (Parsed Rule ts) := do
  let ⟨label, rest, _⟩ ← ruleLabel ts
  let ⟨body, rest, _⟩ ← term rest
  let ⟨requires, rest, _⟩ ← condition .requires rest
  let ⟨ensures, rest, _⟩ ← condition .ensures rest
  let ⟨attributes, rest, _⟩ ← attributes rest
  .ok ⟨⟨body, requires, ensures, label.merge attributes⟩, rest, by omega⟩

/-- Takes a context behind its keyword. -/
def context (ts : List Token) : Except ParseError (Parsed Context ts) := do
  let ⟨body, rest, _⟩ ← term ts
  let ⟨requires, rest, _⟩ ← condition .requires rest
  let ⟨attributes, rest, _⟩ ← attributes rest
  .ok ⟨⟨body, requires, attributes⟩, rest, by omega⟩

/-- Takes a configuration behind its keyword. -/
def configuration (ts : List Token) : Except ParseError (Parsed Configuration ts) := do
  let ⟨body, rest, _⟩ ← term ts
  let ⟨attributes, rest, _⟩ ← attributes rest
  .ok ⟨⟨body, attributes⟩, rest, by omega⟩

/-! ## Sentences -/

/-- Takes a sentence. -/
def sentence (ts : List Token) : Except ParseError (Parsed Sentence ts) :=
  match ts with
  | ⟨.keyword .sort, _⟩ :: rest => do
    let r ← sortSentence rest
    .ok r.behind
  | ⟨.keyword .rule, _⟩ :: rest => do
    let r ← rule rest
    .ok (r.map .rule).behind
  | ⟨.keyword .context, _⟩ :: rest => do
    let r ← context rest
    .ok (r.map .context).behind
  | ⟨.keyword .configuration, _⟩ :: rest => do
    let r ← configuration rest
    .ok (r.map .configuration).behind
  | ts => .error (unexpected "sentence" ts)

end Parse

/-- The rule that some tokens hold, with nothing behind it. The keyword before it may be left out.
The rule records the source of the text and the place of the first token. -/
def Rule.ofTokens (source : String) (ts : List Token) : Except ParseError Rule := do
  let r ← Parse.rule (Parse.skip (.keyword .rule) ts).rest
  Parse.expectFinish r.rest
  let attributes := (r.value.attributes.insert Attributes.source (.text source)).insert
    Attributes.location (.location (Parse.peek ts).span.location)
  .ok { r.value with attributes := attributes }

/-- The rule that a text writes. Errors name the source of the text. -/
def Rule.parse (text source : String) : Except ParseError Rule :=
  ((tokenize text).bind (Rule.ofTokens source)).mapError (.inSource source)

end RewriteSemantics
