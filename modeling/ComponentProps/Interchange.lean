import ComponentProps.Json.Reader
import ComponentProps.Json.Value
import ComponentProps.Props
import ComponentProps.Settings

/-!
# Settings and props as JSON

Settings are read, prop sheets are read and written. A field of a prop that is absent is left out,
and `null` reads as absent too.
-/

namespace ComponentProps

open Json

/-! ### Settings -/

/-- Settings of which only some have been given. -/
structure SettingsDraft where
  normalizeDocs : Option Bool := none
  normalizeTypes : Option Bool := none
  normalizeDefaults : Option Bool := none
  fallbackTypes : Option (OrderedMap Text Text) := none
  intakeCall : Option Text := none
  bindableMarker : Option Text := none

namespace Settings

/-- The settings with what a draft gives. -/
def ofDraft (d : SettingsDraft) : Settings :=
  let base : Settings := {}
  { normalizeDocs := d.normalizeDocs.getD base.normalizeDocs
    normalizeTypes := d.normalizeTypes.getD base.normalizeTypes
    normalizeDefaults := d.normalizeDefaults.getD base.normalizeDefaults
    fallbackTypes := d.fallbackTypes.getD base.fallbackTypes
    intakeCall := d.intakeCall.getD base.intakeCall
    bindableMarker := d.bindableMarker.getD base.bindableMarker }

def shape : Shape SettingsDraft Settings where
  name := "ExtractOptions".toList
  fields := [
    .of "normalizeComment".toList false (·.normalizeDocs)
      (fun d b => { d with normalizeDocs := some b }) readBool,
    .of "normalizeType".toList false (·.normalizeTypes)
      (fun d b => { d with normalizeTypes := some b }) readBool,
    .of "normalizeDefaultValue".toList false (·.normalizeDefaults)
      (fun d b => { d with normalizeDefaults := some b }) readBool,
    .of "fallbackTypes".toList false (·.fallbackTypes)
      (fun d m => { d with fallbackTypes := some m }) readTexts,
    .of "intakeCall".toList false (·.intakeCall)
      (fun d t => { d with intakeCall := some t }) readText,
    .of "bindableMarker".toList false (·.bindableMarker)
      (fun d t => { d with bindableMarker := some t }) readText]
  blank := {}
  build := ofDraft

/-- Read settings. What is not given is as usual. -/
def ofJson? (t : Text) : Except Json.Error Settings := parse shape.read t

def toJson (s : Settings) : Value :=
  .object [
    ("normalizeComment".toList, .bool s.normalizeDocs),
    ("normalizeType".toList, .bool s.normalizeTypes),
    ("normalizeDefaultValue".toList, .bool s.normalizeDefaults),
    ("fallbackTypes".toList, .object (s.fallbackTypes.entries.map fun e => (e.1, .string e.2))),
    ("intakeCall".toList, .string s.intakeCall),
    ("bindableMarker".toList, .string s.bindableMarker)]

end Settings

/-! ### Props -/

/-- A prop of which only some fields have been read. -/
structure PropDraft where
  name : Option Text := none
  type : Option Text := none
  required : Option Bool := none
  bindable : Option Bool := none
  default : Option (Option Text) := none
  doc : Option (Option Text) := none

namespace PropRecord

def ofDraft (d : PropDraft) : PropRecord :=
  ⟨d.name.getD [], d.type.getD [], d.required.getD false, d.bindable.getD false,
    d.default.getD none, d.doc.getD none⟩

def shape : Shape PropDraft PropRecord where
  name := "PropertyRecord".toList
  fields := [
    .of "name".toList true (·.name) (fun d t => { d with name := some t }) readText,
    .of "type".toList true (·.type) (fun d t => { d with type := some t }) readText,
    .of "required".toList true (·.required) (fun d b => { d with required := some b }) readBool,
    .of "bindable".toList true (·.bindable) (fun d b => { d with bindable := some b }) readBool,
    .of "defaultValue".toList false (·.default) (fun d t => { d with default := some t })
      readOptionalText,
    .of "comment".toList false (·.doc) (fun d t => { d with doc := some t }) readOptionalText]
  blank := {}
  build := ofDraft

/-- A field of a text, left out if there is none. -/
def optionalField (name : Text) (t : Option Text) : List (Text × Value) :=
  match t with
  | none => []
  | some t => [(name, .string t)]

def toJson (r : PropRecord) : Value :=
  .object ([
    ("name".toList, .string r.name),
    ("type".toList, .string r.type),
    ("required".toList, .bool r.required),
    ("bindable".toList, .bool r.bindable)] ++
    optionalField "defaultValue".toList r.default ++ optionalField "comment".toList r.doc)

end PropRecord

/-- A sheet of which only some fields have been read. -/
structure SheetDraft where
  props : Option (List PropRecord) := none
  inherits : Option (List Text) := none

namespace PropSheet

def ofDraft (d : SheetDraft) : PropSheet := ⟨d.props.getD [], d.inherits.getD []⟩

def shape : Shape SheetDraft PropSheet where
  name := "ExtractionResult".toList
  fields := [
    .of "props".toList true (·.props) (fun d ps => { d with props := some ps })
      (readList PropRecord.shape.read),
    .of "inherits".toList true (·.inherits) (fun d ts => { d with inherits := some ts })
      (readList readText)]
  blank := {}
  build := ofDraft

/-- Read a prop sheet. -/
def ofJson? (t : Text) : Except Json.Error PropSheet := parse shape.read t

def toJson (s : PropSheet) : Value :=
  .object [
    ("props".toList, .array (s.props.map PropRecord.toJson)),
    ("inherits".toList, .array (s.inherits.map .string))]

end PropSheet

end ComponentProps
