import Typestate.Settings.Error
import Typestate.Text.Distance

/-!
# Settings

The limits of a run. Settings start from a preset, and single limits may be changed. A run
that reaches a limit says so and reports nothing.
-/

namespace Typestate

inductive Preset
  | fast | balanced | thorough
  deriving DecidableEq, Repr

namespace Preset

def name : Preset → String
  | fast => "fast" | balanced => "balanced" | thorough => "thorough"

def all : List Preset := [fast, balanced, thorough]

def ofName (name : String) : Except SettingsError Preset :=
  match all.find? (·.name = name.toLower) with
  | some p => .ok p
  | none => .error (.unknownPreset name (Text.suggestion name (all.map Preset.name)))

end Preset

structure Settings where
  preset : Preset
  /-- Visits allowed to each fixed point. -/
  maxVisits : Nat
  maxNodes : Nat
  /-- Nodes of an exploded graph. -/
  maxExploded : Nat
  maxRounds : Nat
  /-- Whether reports have notes. -/
  notes : Bool
  deriving DecidableEq, Repr

namespace Settings

def ofPreset : Preset → Settings
  | .fast => ⟨.fast, 50000, 5000, 20000, 4, false⟩
  | .balanced => ⟨.balanced, 200000, 50000, 200000, 16, true⟩
  | .thorough => ⟨.thorough, 2000000, 500000, 2000000, 64, true⟩

def checkRange (field : String) (value low high : Nat) (hint : String) :
    Except SettingsError Unit :=
  if low ≤ value ∧ value ≤ high then .ok () else .error (.range field value low high hint)

def validate (s : Settings) : Except SettingsError Unit := do
  checkRange "max_fixpoint_iterations" s.maxVisits 1 100000000
    "Each fixed-point pass needs at least one iteration"
  checkRange "max_supergraph_nodes" s.maxNodes 1 10000000
    "Supergraph size cap must be reasonable"
  checkRange "max_exploded_nodes" s.maxExploded (min s.maxNodes 1000) 100000000
    "The exploded graph is never smaller than the supergraph"
  checkRange "max_prune_rounds" s.maxRounds 1 1000
    "At least one pruning round is required"

end Settings

end Typestate
