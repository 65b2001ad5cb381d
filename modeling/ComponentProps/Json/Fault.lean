import ComponentProps.Text.Quoted

/-!
# Faults of JSON text

Why a JSON text could not be read, and where. Places are counted in UTF-8 bytes.
-/

namespace ComponentProps.Json

/-- A value that was found where another kind of value was wanted. -/
inductive Found
  | null
  | bool (b : Bool)
  | integer (n : Int)
  /-- A number that is not held as an integer, by its text. -/
  | float (text : Text)
  | string (t : Text)
  | sequence
  | map
  deriving DecidableEq, Repr

namespace Found

def message : Found → Text
  | null => "null".toList
  | bool b => "boolean `".toList ++ (if b then "true" else "false").toList ++ "`".toList
  | integer n =>
    "integer `".toList ++ (if n < 0 then ['-'] else []) ++ Nat.toDigits 10 n.natAbs ++ "`".toList
  | float text => "floating point `".toList ++ text ++ "`".toList
  | string t => "string ".toList ++ Text.quoted t
  | sequence => "sequence".toList
  | map => "map".toList

end Found

/-- The kind of value that was wanted. -/
inductive Wanted
  | bool
  | string
  | map
  | sequence
  | record (name : Text)
  deriving DecidableEq, Repr

namespace Wanted

def message : Wanted → Text
  | bool => "a boolean".toList
  | string => "a string".toList
  | map => "a map".toList
  | sequence => "a sequence".toList
  | record name => "struct ".toList ++ name

end Wanted

/-- Why a text could not be read. -/
inductive Cause
  | endInValue
  | endInObject
  | endInList
  | endInString
  | expectedValue
  | expectedIdent
  | expectedColon
  | expectedObjectSeparator
  | expectedListSeparator
  | keyNotString
  | trailingComma
  | trailingCharacters
  | invalidNumber
  | numberOutOfRange
  | invalidEscape
  | loneSurrogate
  | unfinishedSurrogates
  | controlCharacter
  | missingField (name : Text)
  | duplicateField (name : Text)
  | invalidLength (found : Nat) (name : Text) (fields : Nat)
  | invalidType (found : Found) (wanted : Wanted)
  deriving DecidableEq, Repr

namespace Cause

def message : Cause → Text
  | endInValue => "EOF while parsing a value".toList
  | endInObject => "EOF while parsing an object".toList
  | endInList => "EOF while parsing a list".toList
  | endInString => "EOF while parsing a string".toList
  | expectedValue => "expected value".toList
  | expectedIdent => "expected ident".toList
  | expectedColon => "expected `:`".toList
  | expectedObjectSeparator => "expected `,` or `\x7d`".toList
  | expectedListSeparator => "expected `,` or `]`".toList
  | keyNotString => "key must be a string".toList
  | trailingComma => "trailing comma".toList
  | trailingCharacters => "trailing characters".toList
  | invalidNumber => "invalid number".toList
  | numberOutOfRange => "number out of range".toList
  | invalidEscape => "invalid escape".toList
  | loneSurrogate => "lone leading surrogate in hex escape".toList
  | unfinishedSurrogates => "unexpected end of hex escape".toList
  | controlCharacter =>
    "control character (\\u0000-\\u001F) found while parsing a string".toList
  | missingField name => "missing field `".toList ++ name ++ "`".toList
  | duplicateField name => "duplicate field `".toList ++ name ++ "`".toList
  | invalidLength found name fields =>
    "invalid length ".toList ++ Nat.toDigits 10 found ++ ", expected struct ".toList ++ name ++
      " with ".toList ++ Nat.toDigits 10 fields ++ " elements".toList
  | invalidType found wanted =>
    "invalid type: ".toList ++ found.message ++ ", expected ".toList ++ wanted.message

end Cause

/-- A cause and the number of bytes before the place that it is reported for. -/
structure Fault where
  cause : Cause
  offset : Nat
  deriving DecidableEq, Repr

/-- A line, counted from one, and the number of bytes before the place in it. -/
structure Place where
  line : Nat
  column : Nat
  deriving DecidableEq, Repr

namespace Place

/-- The place `offset` bytes further on in a text. -/
def moveBy (p : Place) (offset : Nat) : Text → Place
  | [] => p
  | c :: rest =>
    if offset = 0 then p
    else if c = '\n' then moveBy ⟨p.line + 1, 0⟩ (offset - 1) rest
    else moveBy ⟨p.line, p.column + min offset c.utf8Size⟩ (offset - c.utf8Size) rest

/-- The place `offset` bytes into a text. -/
def of (t : Text) (offset : Nat) : Place := moveBy ⟨1, 0⟩ offset t

end Place

/-- A fault with the place in its text. -/
structure Error where
  cause : Cause
  place : Place
  deriving DecidableEq, Repr

namespace Error

def message (e : Error) : Text :=
  e.cause.message ++ " at line ".toList ++ Nat.toDigits 10 e.place.line ++ " column ".toList ++
    Nat.toDigits 10 e.place.column

end Error

end ComponentProps.Json
