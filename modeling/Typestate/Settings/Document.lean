import Typestate.Settings
import Typestate.Yaml.Node

/-!
# Settings as a document

A document names a version, a preset and the limits that differ from the preset. Unknown,
repeated and missing fields are refused before the version is looked at.
-/

namespace Typestate

namespace Yaml

/-- The values of the fields of a record, in their order. Only a mapping is a record, and it
may omit fields. -/
def Node.fields? (names : List String) : Node → Option (List (Option Node))
  | .mapping entries =>
    if (entries.map Prod.fst).Nodup ∧ ∀ e ∈ entries, e.1 ∈ names then
      some (names.map (List.lookup · entries))
    else none
  | _ => none

def number? (base : Nat) : List Char → Option Nat
  | [] => none
  | cs => cs.foldlM (fun n c => do return n * base + (← digit? base c)) 0

/-- The number that a text stands for. A decimal number has no needless zeros. -/
def natural? (text : String) : Option Nat :=
  let digits := match text.toList with
    | '+' :: r => r
    | cs => cs
  match digits with
  | '0' :: 'x' :: r => number? 16 r
  | '0' :: 'o' :: r => number? 8 r
  | '0' :: 'b' :: r => number? 2 r
  | '0' :: _ :: _ => none
  | cs => number? 10 cs

/-- A number below a bound, written without quotes. -/
def Node.natural? (bound : Nat) : Node → Option Nat
  | .scalar true text => (Yaml.natural? text).filter (· < bound)
  | _ => none

def Node.bool? : Node → Option Bool
  | .scalar true text =>
    if text ∈ ["true", "True", "TRUE"] then some true
    else if text ∈ ["false", "False", "FALSE"] then some false
    else none
  | _ => none

def Node.isNull : Node → Bool
  | .scalar true text => text ∈ ["", "~", "null", "Null", "NULL"]
  | _ => false

def optional? {α : Type} (read : Node → Option α) : Option Node → Option (Option α)
  | none => some none
  | some n => if n.isNull then some none else (read n).map some

end Yaml

namespace Settings

structure Overrides where
  maxVisits : Option Nat
  maxNodes : Option Nat
  maxExploded : Option Nat
  maxRounds : Option Nat
  notes : Option Bool
  deriving DecidableEq, Repr

def Overrides.none : Overrides := ⟨.none, .none, .none, .none, .none⟩

def override (s : Settings) (o : Overrides) : Settings :=
  { s with
    maxVisits := o.maxVisits.getD s.maxVisits
    maxNodes := o.maxNodes.getD s.maxNodes
    maxExploded := o.maxExploded.getD s.maxExploded
    maxRounds := o.maxRounds.getD s.maxRounds
    notes := o.notes.getD s.notes }

/-- The version of the documents that are understood. -/
def version : Nat := 1

def limitNames : List String :=
  ["max_fixpoint_iterations", "max_supergraph_nodes", "max_exploded_nodes", "max_prune_rounds",
    "emit_notes"]

def document (s : Settings) : String :=
  let values := [toString s.maxVisits, toString s.maxNodes, toString s.maxExploded,
    toString s.maxRounds, toString s.notes]
  let limits := (limitNames.zip values).map fun (k, v) => s!"  {k}: {v}\n"
  s!"version: {version}\npreset: {s.preset.name}\noverrides:\n" ++ String.join limits

def Overrides.ofNode? (node : Yaml.Node) : Option Overrides := do
  let size := Yaml.optional? (Yaml.Node.natural? 18446744073709551616)
  let [a, b, c, d, e] ← node.fields? limitNames | .none
  return ⟨← size a, ← size b, ← size c, ← size d, ← Yaml.optional? Yaml.Node.bool? e⟩

def parts? (text : String) : Option (Nat × String × Overrides) := do
  let [v, p, o] ← (← Yaml.read? text).fields? ["version", "preset", "overrides"] | .none
  let o ← Yaml.optional? Overrides.ofNode? o
  return (← (← v).natural? 4294967296, ← (← p).text?, o.getD .none)

/-- The settings of a document. Its shape is checked first, then its version, its preset and
its limits. -/
def ofDocument (text : String) : Except SettingsError Settings :=
  match parts? text with
  | .none => .error .malformed
  | some (v, name, o) => do
    if v ≠ version then throw (.unsupportedVersion v [version])
    let s := (ofPreset (← Preset.ofName name)).override o
    s.validate
    return s

end Settings

end Typestate
