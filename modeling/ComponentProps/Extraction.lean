import ComponentProps.Binding
import ComponentProps.Intake
import ComponentProps.Props
import ComponentProps.Resolution
import ComponentProps.Script
import ComponentProps.Settings

/-!
# Extracting the props of a component

The members that the annotation of the intake statement resolves to come first, in order; the names
that only its pattern binds follow. The pattern says which props are bindable and what their default
values are.
-/

namespace ComponentProps

open Text

/-- The text inside a call of the marker that makes up the whole value. -/
def unwrapMarker? (marker value : Text) : Option Text :=
  match after? marker value with
  | none => none
  | some rest =>
    let c := (Cursor.ofText rest).skipTrivia
    if c.current? = some '(' then
      let (inner, c) := c.readGroup '(' ')'
      if c.skipTrivia.atEnd then some (trim inner) else none
    else none

namespace PropRecord

/-- A prop that is declared as a member and not bound. -/
def ofMember (name : Text) (m : Member) : PropRecord :=
  ⟨name, m.type, m.required, false, none, m.doc⟩

/-- A prop with the default value that the pattern gives it. -/
def bind (marker : Text) (default : Option Text) (r : PropRecord) : PropRecord :=
  match default with
  | none => { r with bindable := false, default := none }
  | some value =>
    match unwrapMarker? marker value with
    | some inner =>
      { r with bindable := true, default := if inner.isEmpty then none else some inner }
    | none => { r with bindable := false, default := some value }

/-- A prop whose type is not known takes its fallback type, if there is one. -/
def withFallback (fallbacks : OrderedMap Text Text) (r : PropRecord) : PropRecord :=
  if r.isUntyped then
    match fallbacks.get? r.name with
    | some type => { r with type := type }
    | none => r
  else r

end PropRecord

namespace PropSheet

/-- Enter a binding into the props known so far. -/
def enter (marker : Text) (props : OrderedMap Text PropRecord) (b : Binding) :
    OrderedMap Text PropRecord :=
  props.insert b.name (((props.get? b.name).getD (.untyped b.name)).bind marker b.default)

/-- Unite declared members and bindings. -/
def unite (settings : Settings) (members : OrderedMap Text Member) (inherits : List Text)
    (bindings : List Binding) : PropSheet :=
  let declared := members.mapValues PropRecord.ofMember
  let all := bindings.foldl (enter settings.bindableMarker) declared
  ⟨all.values.map (·.withFallback settings.fallbackTypes), inherits⟩

/-- The props that an intake statement receives, with the types declared in `scripts`. -/
def ofIntake (settings : Settings) (scripts : List Text) (intake : Intake) : PropSheet :=
  let bindings := Binding.ofPattern settings.normalizeDefaults intake.pattern
  match intake.ascription with
  | none => unite settings .empty [] bindings
  | some ascription =>
    let table := TypeTable.ofScripts settings.memberStyle scripts
    let resolved := resolve settings.memberStyle table ascription
    unite settings resolved.members resolved.inherits bindings

/-- The props of a component, given its scripts in source order. A component without an intake
statement has none. -/
def ofScripts (settings : Settings) (scripts : List Text) : PropSheet :=
  match scripts.findSome? (Intake.find? settings.intakeCall) with
  | none => {}
  | some intake => ofIntake settings scripts intake

/-- The props of a component, given its source. -/
def ofComponent (settings : Settings) (source : Text) : PropSheet :=
  ofScripts settings ((Script.blocks source).map Script.content)

end PropSheet

end ComponentProps
