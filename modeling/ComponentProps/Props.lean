import ComponentProps.Text.Basic

/-!
# Props

What is known about the props of a component.
-/

namespace ComponentProps

/-- The type shown where none is known. -/
def unknownType : Text := "unknown".toList

/-- One prop of a component. -/
structure PropRecord where
  name : Text
  /-- The declared type as text. -/
  type : Text
  required : Bool
  /-- The prop can be bound by the user of the component. -/
  bindable : Bool
  default : Option Text
  doc : Option Text
  deriving DecidableEq, Repr

namespace PropRecord

/-- A prop of which only the name is known. -/
def untyped (name : Text) : PropRecord := ⟨name, unknownType, false, false, none, none⟩

def isUntyped (r : PropRecord) : Bool := r.type == unknownType

end PropRecord

/-- The props of a component and the outside types that it takes further props from. -/
structure PropSheet where
  props : List PropRecord := []
  inherits : List Text := []
  deriving DecidableEq, Repr

namespace PropSheet

def isEmpty (s : PropSheet) : Bool := s.props.isEmpty && s.inherits.isEmpty

/-- The first prop of a name. -/
def get? (s : PropSheet) (name : Text) : Option PropRecord := s.props.find? fun r => r.name == name

end PropSheet

end ComponentProps
