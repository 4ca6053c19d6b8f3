/-!
# Errors of a configuration

A limit outside its range, an unsupported version of the document, an unknown preset, or a
document that is not a configuration at all.
-/

namespace Typestate

/-- Why a configuration is refused. -/
inductive SettingsError
  | range (field : String) (value low high : Nat) (hint : String)
  | unsupportedVersion (found : Nat) (supported : List Nat)
  | unknownPreset (name suggestion : String)
  /-- The text is no document of the expected shape. -/
  | malformed
  deriving DecidableEq, Repr

def SettingsError.message : SettingsError → String
  | range field value low high hint =>
    s!"Invalid range for field '{field}': {value} not in {low}..={high}. {hint}"
  | unsupportedVersion found supported =>
    s!"Unsupported configuration version {found}. Supported versions: " ++
      ", ".intercalate (supported.map toString)
  | unknownPreset name suggestion => s!"Unknown preset '{name}'. {suggestion}"
  | malformed => "malformed document"

end Typestate
