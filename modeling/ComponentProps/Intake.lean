import ComponentProps.Code.Walk

/-!
# The intake statement

A component receives its props by a destructuring assignment,
`let { pattern }: Annotation = call<Argument>(...)`.
-/

namespace ComponentProps

open Text

/-- The statement that receives the props of a component. -/
structure Intake where
  /-- The text between the curly brackets of the pattern. -/
  pattern : Text
  /-- The type annotation, or else the type argument of the call. -/
  ascription : Option Text
  /-- The UTF-8 offset of the keyword. -/
  start : Nat
  /-- The UTF-8 offset just after the call. -/
  stop : Nat
  deriving DecidableEq, Repr

namespace Intake

/-- The words that begin a declaration of variables. -/
def keywords : List Text := ["let".toList, "const".toList, "var".toList]

/-- An annotation ends at a semicolon or at the `=` of the assignment. -/
def endsAscription (_ : Text) (c : Cursor) : Bool :=
  match c.ahead with
  | ';' :: _ => true
  | '=' :: rest => !(rest.head? == some '>' || rest.head? == some '=')
  | _ => false

/-- The pattern in curly brackets after a keyword, and the place after it. -/
def readPattern? (c : Cursor) : Option (Text × Cursor) :=
  let c := c.skipTrivia
  if c.current? = some '{' then some (c.readGroup '{' '}') else none

/-- The annotation after a pattern, if there is one, and the place after it. -/
def readAscription (c : Cursor) : Option Text × Cursor :=
  let c := c.skipTrivia
  if c.current? = some ':' then
    let (text, place) := c.advance.capture endsAscription
    (trimmed? text, place)
  else (none, c)

/-- The name of the call after the `=` of the assignment, passed over. -/
def passCallName? (call : Text) (c : Cursor) : Option Cursor :=
  if c.current? = some '=' then
    let c := c.advance.skipTrivia
    if c.atWord call then some (c.advanceBy call.length).skipTrivia else none
  else none

/-- The type argument of the call, if there is one, and the place after it. -/
def readArgument (c : Cursor) : Option Text × Cursor :=
  if c.current? = some '<' then
    let (text, place) := c.readGroup '<' '>'
    (trimmed? text, place.skipTrivia)
  else (none, c)

/-- The place after the arguments of the call. -/
def passArguments? (c : Cursor) : Option Cursor :=
  if c.current? = some '(' then some (c.readGroup '(' ')').2 else none

/-- Read the rest of an intake statement after its keyword: pattern, annotation and the place after
the call. -/
def read? (call : Text) (c : Cursor) : Option (Text × Option Text × Cursor) := do
  let (pattern, c) ← readPattern? c
  let (ascription, c) := readAscription c
  let c ← passCallName? call c
  let (argument, c) := readArgument c
  let c ← passArguments? c
  return (pattern, ascription.or argument, c)

/-- The first intake statement at or after the cursor. A keyword that begins none is passed over. -/
def findFrom? (call : Text) (c : Cursor) : Option Intake :=
  match _ : c.nextWord? with
  | none => none
  | some word =>
    let intake? :=
      if word.text ∈ keywords then
        (read? call word.stop).map fun (pattern, ascription, stop) =>
          Intake.mk pattern ascription word.start.byteOffset stop.byteOffset
      else none
    match intake? with
    | some intake => some intake
    | none => findFrom? call word.stop
termination_by c.ahead.length
decreasing_by exact Cursor.length_stop_nextWord? (by assumption)

/-- The first intake statement of a script. -/
def find? (call : Text) (script : Text) : Option Intake := findFrom? call (Cursor.ofText script)

end Intake

end ComponentProps
