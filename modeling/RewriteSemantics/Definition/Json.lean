/-
# Definitions as documents

The documents of terms, sentences, modules and definitions. A term or sentence is an array that
starts with the name of its kind, and what may be missing is written as `null`. Modules are listed
by name.
-/
import RewriteSemantics.Attribute.Json
import RewriteSemantics.Definition.Basic
import RewriteSemantics.Sorts.Json

namespace RewriteSemantics

namespace Term

mutual

/-- The document of a term. -/
def toJson : Term → Json
  | .app label args => .arr [.str "app", .str label, .arr (toJsonAll args)]
  | .var v => .arr [.str "var", .str v.name, .optional SortName.toJson v.sort]
  | .token text sort => .arr [.str "tok", .str text, sort.toJson]
  | .rewrite lhs rhs => .arr [.str "rw", toJson lhs, toJson rhs]
  | .seq items => .arr [.str "seq", .arr (toJsonAll items)]
  | .bag items => .arr [.str "bag", .arr (toJsonAll items)]
  | .cell tag body =>
    .arr [.str "cell", .str tag.name, tag.attributes.toJson, .bool tag.leftOpen,
      .bool tag.rightOpen, toJson body]

/-- The documents of the members of a list. -/
def toJsonAll : List Term → List Json
  | [] => []
  | t :: ts => toJson t :: toJsonAll ts

end

end Term

/-- The document of a rule. -/
def Rule.toJson (r : Rule) : Json :=
  .arr [.str "rule", r.body.toJson, .optional Term.toJson r.requires,
    .optional Term.toJson r.ensures, r.attributes.toJson]

/-- The document of a context. -/
def Context.toJson (c : Context) : Json :=
  .arr [.str "context", c.body.toJson, .optional Term.toJson c.requires, c.attributes.toJson]

/-- The document of a sentence. -/
def Sentence.toJson : Sentence → Json
  | .sort decl => .arr [.str "sort", decl.sort.toJson, decl.attributes.toJson]
  | .production p =>
    .arr [.str "prod", p.sort.toJson, .optional .str p.label, .list SortName.toJson p.params,
      p.attributes.toJson]
  | .rule r => r.toJson
  | .context c => c.toJson
  | .configuration c => .arr [.str "config", c.body.toJson, c.attributes.toJson]

/-- The document of a module. -/
def Module.toJson (m : Module) : Json :=
  .obj [("name", .str m.name), ("imports", .list .str m.imports),
    ("sentences", .list Sentence.toJson m.sentences), ("attributes", m.attributes.toJson)]

/-- The document of a definition. -/
def Definition.toJson (d : Definition) : Json :=
  .obj [("main", .str d.main), ("modules", .list Module.toJson d.modules.values)]

end RewriteSemantics
