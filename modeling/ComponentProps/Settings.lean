import ComponentProps.OrderedMap
import ComponentProps.Member.Basic

/-!
# Settings

What the user may choose about an extraction.
-/

namespace ComponentProps

/-- The settings of an extraction. -/
structure Settings where
  /-- Write doc comments on one line. -/
  normalizeDocs : Bool := false
  /-- Bring types to normal form. -/
  normalizeTypes : Bool := false
  /-- Collapse the white space of default values. -/
  normalizeDefaults : Bool := false
  /-- Types for props whose type is not known, by name. -/
  fallbackTypes : OrderedMap Text Text := .empty
  /-- The call that hands over the props. -/
  intakeCall : Text := "$props".toList
  /-- The call that marks a default value as bindable. -/
  bindableMarker : Text := "$bindable".toList
  deriving DecidableEq, Repr

namespace Settings

/-- Settings that bring everything to normal form. -/
def normalized : Settings :=
  { normalizeDocs := true, normalizeTypes := true, normalizeDefaults := true }

def withFallbackType (s : Settings) (name type : Text) : Settings :=
  { s with fallbackTypes := s.fallbackTypes.insert name type }

def memberStyle (s : Settings) : Member.Style := ⟨s.normalizeTypes, s.normalizeDocs⟩

end Settings

end ComponentProps
