import ComponentProps.OrderedMap
import ComponentProps.Json.Skip

/-!
# Readers of JSON values

Values are read in one pass, so the first fault in the text is the one reported. A record is read
from an object, by the names of its fields, or from a list, by their order.
-/

namespace ComponentProps.Json

open Text

/-- The fault of a value that is not of the kind wanted, with the input at its first character. A
scalar is read first. -/
def wrongType (wanted : Wanted) (i : Input) : Fault :=
  let found (f : Found) (i : Input) : Fault := i.fault (.invalidType f wanted)
  let word (letters : Text) (f : Found) : Fault :=
    match readLetters letters (i.pass 1) with
    | .error e => e
    | .ok j => found f j
  let number (r : Except Fault (Found × Input)) : Fault :=
    match r with
    | .error e => e
    | .ok (f, j) => found f j
  match i.rest with
  | [] => i.fault .endInValue
  | c :: _ =>
    if c = 'n' then word "ull".toList .null
    else if c = 't' then word "rue".toList (.bool true)
    else if c = 'f' then word "alse".toList (.bool false)
    else if c = '-' then number (readNumber false (i.pass 1))
    else if c.isDigit then number (readNumber true i)
    else if c = '"' then number ((readQuoted i).map fun p => (.string p.1, p.2))
    else if c = '[' then found .sequence i
    else if c = '{' then found .map i
    else i.faultAhead .expectedValue

/-! ### Scalars -/

def readBool : Reader Bool := fun i =>
  let i := i.skipSpace
  match i.rest with
  | 't' :: _ => (readLetters "rue".toList (i.pass 1)).map fun i => (true, i)
  | 'f' :: _ => (readLetters "alse".toList (i.pass 1)).map fun i => (false, i)
  | _ => .error (wrongType .bool i)

def readText : Reader Text := fun i =>
  let i := i.skipSpace
  match i.rest with
  | '"' :: _ => readQuoted i
  | _ => .error (wrongType .string i)

/-- Read a text, or `null` for none. -/
def readOptionalText : Reader (Option Text) := fun i =>
  let i := i.skipSpace
  match i.rest with
  | 'n' :: _ => (readLetters "ull".toList (i.pass 1)).map fun i => (none, i)
  | _ => (readText i).map fun p => (some p.1, p.2)

/-! ### Lists -/

/-- Whether a list has another element; if so the input is at its first character, and otherwise at
the end of the list. -/
def hasElement (first : Bool) : Reader Bool := fun i =>
  let i := i.skipSpace
  match i.rest with
  | [] => .error (i.fault .endInList)
  | c :: _ =>
    if c = ']' then .ok (false, i)
    else if c = ',' && !first then
      let i := (i.pass 1).skipSpace
      match i.rest with
      | [] => .error (i.fault .endInValue)
      | c :: _ => if c = ']' then .error (i.faultAhead .trailingComma) else .ok (true, i)
    else if first then .ok (true, i)
    else .error (i.faultAhead .expectedListSeparator)

/-- Pass over the end of a list that has all its elements. -/
def endList (i : Input) : Except Fault Input :=
  let i := i.skipSpace
  match i.rest with
  | [] => .error (i.fault .endInList)
  | c :: _ =>
    if c = ']' then .ok (i.pass 1)
    else if c = ',' then
      let i := (i.pass 1).skipSpace
      if i.rest.head? = some ']' then .error (i.faultAhead .trailingComma)
      else .error (i.faultAhead .trailingCharacters)
    else .error (i.faultAhead .trailingCharacters)

/-- Read the elements of a list, of which there are fewer than `rounds`. -/
def readElements {α : Type} (element : Reader α) : Nat → Bool → Reader (List α)
  | 0, _, i => .error (i.fault .endInList)
  | rounds + 1, first, i =>
    match hasElement first i with
    | .error e => .error e
    | .ok (false, i) => .ok ([], i.pass 1)
    | .ok (true, i) =>
      match element i with
      | .error e => .error e
      | .ok (x, i) =>
        match readElements element rounds false i with
        | .error e => .error e
        | .ok (xs, i) => .ok (x :: xs, i)

def readList {α : Type} (element : Reader α) : Reader (List α) := fun i =>
  let i := i.skipSpace
  match i.rest with
  | '[' :: _ => readElements element i.rest.length true (i.pass 1)
  | _ => .error (wrongType .sequence i)

/-! ### Objects -/

/-- Whether an object has another key; if so the input is at its opening quote, and otherwise at the
end of the object. -/
def hasKey (first : Bool) : Reader Bool := fun i =>
  let key (i : Input) : Except Fault (Bool × Input) :=
    if i.rest.head? = some '"' then .ok (true, i) else .error (i.faultAhead .keyNotString)
  let i := i.skipSpace
  match i.rest with
  | [] => .error (i.fault .endInObject)
  | c :: _ =>
    if c = '}' then .ok (false, i)
    else if c = ',' && !first then
      let i := (i.pass 1).skipSpace
      match i.rest with
      | [] => .error (i.fault .endInValue)
      | c :: _ => if c = '}' then .error (i.faultAhead .trailingComma) else key i
    else if first then key i
    else .error (i.faultAhead .expectedObjectSeparator)

/-- Pass over the colon after a key. -/
def passColon (i : Input) : Except Fault Input :=
  let i := i.skipSpace
  match i.rest with
  | [] => .error (i.fault .endInObject)
  | c :: _ => if c = ':' then .ok (i.pass 1) else .error (i.faultAhead .expectedColon)

/-- Read the entries of an object of texts, of which there are fewer than `rounds`. -/
def readEntries : Nat → Bool → OrderedMap Text Text → Reader (OrderedMap Text Text)
  | 0, _, _, i => .error (i.fault .endInObject)
  | rounds + 1, first, m, i => do
    let (more, i) ← hasKey first i
    if more then
      let (key, i) ← readQuoted i
      let i ← passColon i
      let (value, i) ← readText i
      readEntries rounds false (m.insert key value) i
    else return (m, i.pass 1)

/-- Read an object of texts. A later value of a key takes the place of an earlier one. -/
def readTexts : Reader (OrderedMap Text Text) := fun i =>
  let i := i.skipSpace
  match i.rest with
  | '{' :: _ => readEntries i.rest.length true .empty (i.pass 1)
  | _ => .error (wrongType .map i)

/-! ### Records -/

/-- A field of a record that is read into a draft `ρ`. -/
structure Field (ρ : Type) where
  name : Text
  /-- The record cannot do without the field. -/
  required : Bool
  /-- Whether a draft has the field. -/
  given : ρ → Bool
  /-- Read the field into a draft. -/
  read : ρ → Reader ρ

namespace Field

/-- The field that is read by `reader`. -/
def of {ρ β : Type} (name : Text) (required : Bool) (get : ρ → Option β) (set : ρ → β → ρ)
    (reader : Reader β) : Field ρ :=
  ⟨name, required, fun r => (get r).isSome, fun r i => (reader i).map fun p => (set r p.1, p.2)⟩

end Field

/-- A kind of record: its name, its fields in order, and how a record is made of a draft that has
all required fields. -/
structure Shape (ρ α : Type) where
  name : Text
  fields : List (Field ρ)
  blank : ρ
  build : ρ → α

namespace Shape

variable {ρ α : Type}

/-- Read fields from a list, in order. `index` is the number of fields before them. -/
def readPositions (shape : Shape ρ α) : List (Field ρ) → Nat → Bool → ρ → Reader ρ
  | [], _, _, draft, i => .ok (draft, i)
  | field :: fields, index, first, draft, i =>
    match hasElement first i with
    | .error e => .error e
    | .ok (false, i) =>
      if field.required then
        .error ((i.passClosing ']').fault (.invalidLength index shape.name shape.fields.length))
      else shape.readPositions fields (index + 1) first draft i
    | .ok (true, i) =>
      match field.read draft i with
      | .error e => .error e
      | .ok (draft, i) => shape.readPositions fields (index + 1) false draft i

/-- Read fields from an object with fewer than `rounds` keys. Keys that name no field are passed
over with their values. -/
def readKeys (shape : Shape ρ α) : Nat → Bool → ρ → Reader ρ
  | 0, _, _, i => .error (i.fault .endInObject)
  | rounds + 1, first, draft, i => do
    let (more, i) ← hasKey first i
    if more then
      let (key, i) ← readQuoted i
      match shape.fields.find? fun f => f.name = key with
      | none =>
        let i ← passColon i
        let i ← skipValue i
        shape.readKeys rounds false draft i
      | some field =>
        if field.given draft then
          throw ((i.passClosing '}').fault (.duplicateField field.name))
        else
          let i ← passColon i
          let (draft, i) ← field.read draft i
          shape.readKeys rounds false draft i
    else
      match shape.fields.find? fun f => f.required && !f.given draft with
      | some field => throw ((i.pass 1).fault (.missingField field.name))
      | none => return (draft, i.pass 1)

/-- Read a record. -/
def read (shape : Shape ρ α) : Reader α := fun i =>
  let i := i.skipSpace
  match i.rest with
  | '[' :: _ => do
    let (draft, i) ← shape.readPositions shape.fields 0 true shape.blank (i.pass 1)
    let i ← endList i
    return (shape.build draft, i)
  | '{' :: _ => do
    let (draft, i) ← shape.readKeys i.rest.length true shape.blank (i.pass 1)
    return (shape.build draft, i)
  | _ => .error (wrongType (.record shape.name) i)

end Shape

/-- Read a whole text as one value. -/
def parse {α : Type} (reader : Reader α) (t : Text) : Except Error α :=
  let located (f : Fault) : Error := ⟨f.cause, Place.of t f.offset⟩
  match reader (Input.ofText t) with
  | .error f => .error (located f)
  | .ok (a, i) =>
    let i := i.skipSpace
    if i.rest.isEmpty then .ok a else .error (located (i.faultAhead .trailingCharacters))

end ComponentProps.Json
