/-
# The symbol registry

A registry numbers labels. A label in a context is numbered once: asking for it again gives the
symbol that was given before. Symbols are kept in buckets, first by the context they were declared
in and then by label, and a count of the symbols created so far gives the next ordinal. So ordinals
are dense, and a symbol of a registry is told from every other by its ordinal.

Stored symbols are adopted in the order of their ordinals. One that is known must have the ordinal
it has here, and one that is new must have the next free ordinal; otherwise ordinals could no longer
serve as places, and the registry refuses.
-/
import RewriteSemantics.Definition.Basic
import RewriteSemantics.Log
import RewriteSemantics.Symbol.Record

namespace RewriteSemantics

/-! ## Errors -/

/-- Why a stored symbol is refused. -/
inductive RegistryError where
  /-- The symbol is known under another ordinal. -/
  | ordinalMismatch (label : String) (live persisted : Nat)
  /-- The ordinal is not the next free one. -/
  | ordinalGap (label : String) (persisted next : Nat)
  deriving DecidableEq, Repr, Inhabited

namespace RegistryError

/-- The name of the kind of an error. -/
def kind : RegistryError → String
  | ordinalMismatch .. => "OrdinalMismatch"
  | ordinalGap .. => "OrdinalGap"

/-- The wording of an error. -/
def message : RegistryError → String
  | ordinalMismatch label live persisted =>
    "Symbol '" ++ label ++ "' has ordinal " ++ toString live ++ " in the registry but " ++
      toString persisted ++ " in persisted data"
  | ordinalGap label persisted next =>
    "Symbol '" ++ label ++ "' was persisted with ordinal " ++ toString persisted ++
      " but the next free ordinal is " ++ toString next

/-- Whether ordinals can no longer be trusted. This is so after every error. -/
def isCritical : RegistryError → Bool
  | ordinalMismatch .. => true
  | ordinalGap .. => true

/-- What an error leaves in the log. -/
def report : RegistryError → LogEntry
  | ordinalMismatch label live persisted =>
    ⟨.error, "Critical registry inconsistency for '" ++ label ++ "': live ordinal " ++
      toString live ++ ", persisted " ++ toString persisted⟩
  | ordinalGap label persisted next =>
    ⟨.error, "Critical registry inconsistency for '" ++ label ++ "': persisted ordinal " ++
      toString persisted ++ ", next free " ++ toString next⟩

end RegistryError

/-! ## Buckets -/

/-- What is common to the symbols of a bucket: their signatures and their attributes. -/
structure Bucket where
  signatures : OrderedSet Signature
  attributes : Attributes
  deriving DecidableEq, Inhabited

/-- The bucket of a key. -/
def SymbolKey.bucket (key : SymbolKey) : Bucket :=
  ⟨key.signatures, key.attributes⟩

/-- The symbols of each bucket by label. -/
abbrev Buckets := List (Bucket × OrderedMap String Symbol)

namespace Buckets

/-- The symbol of a key. -/
def find? (buckets : Buckets) (key : SymbolKey) : Option Symbol :=
  (buckets.lookup key.bucket).bind (·.get? key.label)

/-- The buckets with a symbol under a key. The bucket is created if there is none yet. -/
def put (key : SymbolKey) (s : Symbol) : Buckets → Buckets
  | [] => [(key.bucket, (∅ : OrderedMap String Symbol).insert key.label s)]
  | (bucket, table) :: rest =>
    if bucket = key.bucket then (bucket, table.insert key.label s) :: rest
    else (bucket, table) :: put key s rest

end Buckets

/-! ## Registries -/

/-- A registry. -/
structure Registry where
  buckets : Buckets
  /-- The number of symbols created so far, which is also the next free ordinal. -/
  count : Nat
  deriving DecidableEq, Inhabited

namespace Registry

/-- The registry without symbols. -/
def empty : Registry :=
  ⟨[], 0⟩

instance : EmptyCollection Registry :=
  ⟨empty⟩

/-- The number of symbols. -/
def size (r : Registry) : Nat :=
  r.count

/-- The symbols, bucket by bucket. -/
def symbols (r : Registry) : List Symbol :=
  r.buckets.flatMap (·.2.values)

/-- The symbol of a key, if there is one. -/
def lookup (r : Registry) (key : SymbolKey) : Option Symbol :=
  r.buckets.find? key

/-- The symbol that the next free ordinal would give to a key. -/
def nextSymbol (r : Registry) (key : SymbolKey) (sorts : OrderedSet SortName) : Symbol :=
  .ofKey key r.count sorts

/-- The registry with a new symbol under its key. -/
def push (r : Registry) (s : Symbol) : Registry :=
  ⟨r.buckets.put s.key s, r.count + 1⟩

/-- The symbol of a key, which is created if there is none. The sorts decide whether a new symbol
is a membership predicate. -/
def intern (r : Registry) (key : SymbolKey) (sorts : OrderedSet SortName) : Symbol × Registry :=
  match r.lookup key with
  | some s => (s, r)
  | none => (r.nextSymbol key sorts, r.push (r.nextSymbol key sorts))

/-- The key of a label in a definition. -/
def keyIn (d : Definition) (label : String) : SymbolKey :=
  ⟨label, d.signaturesOf label, d.attributesOf label⟩

/-- The symbol of a label as a definition declares it. -/
def internFrom (r : Registry) (d : Definition) (label : String) : Symbol × Registry :=
  r.intern (keyIn d label) d.allSorts

/-- What is reported of the symbols that were created since an earlier state of a registry. -/
def reportSince (earlier r : Registry) : List LogEntry :=
  ((r.symbols.filter (earlier.count ≤ ·.ordinal)).mergeSort (·.ordinal ≤ ·.ordinal)).map fun s =>
    ⟨.debug, "Interned symbol " ++ s.shown⟩

/-! ## Stored symbols -/

/-- The symbol that a stored one stands for: the one known under the same key, or else a new one
with the next free ordinal. -/
def canonicalize (r : Registry) (record : SymbolRecord) :
    Except RegistryError (Symbol × Registry) :=
  match r.lookup record.key with
  | some s =>
    if s.ordinal = record.ordinal then .ok (s, r)
    else .error (.ordinalMismatch record.label s.ordinal record.ordinal)
  | none =>
    if record.ordinal = r.count then
      let s := r.nextSymbol record.key (.ofList record.predicateSort.toList)
      .ok (s, r.push s)
    else .error (.ordinalGap record.label record.ordinal r.count)

/-- Adopts stored symbols one after the other, up to the first error. What was adopted before the
error stays. -/
def adopt (r : Registry) : List SymbolRecord → Except RegistryError (List Symbol) × Registry
  | [] => (.ok [], r)
  | record :: rest => match r.canonicalize record with
    | .error e => (.error e, r)
    | .ok (s, r) =>
      let (result, r) := r.adopt rest
      (result.map (s :: ·), r)

/-- Stored symbols by ascending ordinal; those of equal ordinal keep their order. -/
def byOrdinal (records : List SymbolRecord) : List SymbolRecord :=
  records.mergeSort fun a b => a.ordinal ≤ b.ordinal

/-- Adopts stored symbols in the order of their ordinals. -/
def canonicalizeAll (r : Registry) (records : List SymbolRecord) :
    Except RegistryError (List Symbol) × Registry :=
  r.adopt (byOrdinal records)

end Registry

end RewriteSemantics
