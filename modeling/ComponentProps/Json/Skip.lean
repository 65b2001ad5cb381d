import ComponentProps.Json.Number

/-!
# Values that are passed over

A field that nothing asks for is passed over, but has to be JSON. Open lists and objects are kept on
a stack, so depth is not limited. Lone surrogates are let through, since no string is made of them.
-/

namespace ComponentProps.Json

open Text

/-- Pass over a string after its opening quote. -/
def skipStringBody (offset : Nat) : Text → Except Fault Input
  | [] => .error ⟨.endInString, offset⟩
  | '\\' :: [] => .error ⟨.endInString, offset + 1⟩
  | '\\' :: c :: rest =>
    if c = 'u' then
      match readHex ⟨offset + 2, rest⟩ with
      | .error e => .error e
      | .ok _ => skipStringBody (offset + 2) rest
    else
      match escapeChar? c with
      | some _ => skipStringBody (offset + 2) rest
      | none => .error ⟨.invalidEscape, offset + 2⟩
  | c :: rest =>
    if c = '"' then .ok ⟨offset + 1, rest⟩
    else if c.toNat < 0x20 then .error ⟨.controlCharacter, offset⟩
    else skipStringBody (offset + c.utf8Size) rest

/-- A list or an object that is open. -/
inductive Frame
  | list
  | object
  deriving DecidableEq, Repr

namespace Frame

def close : Frame → Char
  | list => ']'
  | object => '}'

def endCause : Frame → Cause
  | list => .endInList
  | object => .endInObject

def separatorCause : Frame → Cause
  | list => .expectedListSeparator
  | object => .expectedObjectSeparator

end Frame

/-- What comes next when a value is passed over. -/
inductive SkipState
  /-- A value, within the open frames. -/
  | value (frames : List Frame)
  /-- More of the innermost frame or its end. `comma` says that a value precedes. -/
  | inside (frame : Frame) (comma : Bool) (outer : List Frame)
  | done
  deriving DecidableEq, Repr

namespace SkipState

/-- What follows a complete value within the open frames. -/
def afterValue : List Frame → SkipState
  | [] => done
  | frame :: outer => inside frame true outer

/-- Pass over a scalar, or over the bracket that opens a frame. -/
def passValue (frames : List Frame) : Reader SkipState := fun i =>
  let scalar (r : Except Fault Input) : Except Fault (SkipState × Input) :=
    r.map fun i => (afterValue frames, i)
  match i.rest with
  | [] => .error (i.fault .endInValue)
  | c :: rest =>
    if c = 'n' then scalar (readLetters "ull".toList (i.pass 1))
    else if c = 't' then scalar (readLetters "rue".toList (i.pass 1))
    else if c = 'f' then scalar (readLetters "alse".toList (i.pass 1))
    else if c = '-' then scalar (skipNumber (i.pass 1))
    else if c.isDigit then scalar (skipNumber i)
    else if c = '"' then scalar (skipStringBody (i.offset + 1) rest)
    else if c = '[' then .ok (inside .list false frames, i.pass 1)
    else if c = '{' then .ok (inside .object false frames, i.pass 1)
    else .error (i.faultAhead .expectedValue)

/-- Pass over a key and its colon. -/
def passKey (i : Input) : Except Fault Input :=
  let i := i.skipSpace
  match i.rest with
  | [] => .error (i.fault .endInObject)
  | c :: rest =>
    if c = '"' then
      match skipStringBody (i.offset + 1) rest with
      | .error e => .error e
      | .ok i =>
        let i := i.skipSpace
        match i.rest with
        | [] => .error (i.fault .endInObject)
        | c :: _ => if c = ':' then .ok (i.pass 1) else .error (i.faultAhead .expectedColon)
    else .error (i.faultAhead .keyNotString)

/-- Go on to the next value of a frame. -/
def nextInside (frame : Frame) (outer : List Frame) : Reader SkipState := fun i =>
  match frame with
  | .list => .ok (value (.list :: outer), i)
  | .object => (passKey i).map fun i => (value (.object :: outer), i)

/-- Pass over what comes next. -/
def step (s : SkipState) : Reader SkipState := fun i =>
  let i := i.skipSpace
  match s with
  | done => .ok (done, i)
  | value frames => passValue frames i
  | inside frame comma outer =>
    match i.rest with
    | [] => .error (i.fault frame.endCause)
    | c :: _ =>
      if c = ',' && comma then nextInside frame outer (i.pass 1)
      else if c = frame.close then .ok (afterValue outer, i.pass 1)
      else if comma then .error (i.faultAhead frame.separatorCause)
      else nextInside frame outer i

/-- Pass over what is open, in at most `rounds` steps. -/
def run : Nat → SkipState → Input → Except Fault Input
  | 0, _, i => .error (i.fault .endInValue)
  | rounds + 1, s, i =>
    match s with
    | done => .ok i
    | s =>
      match s.step i with
      | .error e => .error e
      | .ok (s, i) => run rounds s i

end SkipState

/-- Pass over a value. Each character takes at most two steps. -/
def skipValue (i : Input) : Except Fault Input :=
  SkipState.run (2 * i.rest.length + 2) (.value []) i

end ComponentProps.Json
