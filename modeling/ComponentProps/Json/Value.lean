import ComponentProps.Text.Quoted

/-!
# Writing JSON

JSON values and their compact text. Only quotes, backslashes and control characters are escaped.
-/

namespace ComponentProps.Json

/-- A JSON value. Numbers are whole. -/
inductive Value
  | null
  | bool (b : Bool)
  | number (n : Int)
  | string (t : Text)
  | array (items : List Value)
  | object (fields : List (Text × Value))
  deriving Inhabited

/-- A character as it is written inside a string. -/
def escapedChar (c : Char) : Text :=
  if c = '"' then ['\\', '"']
  else if c = '\\' then ['\\', '\\']
  else if c = '\x08' then ['\\', 'b']
  else if c = '\x0c' then ['\\', 'f']
  else if c = '\n' then ['\\', 'n']
  else if c = '\r' then ['\\', 'r']
  else if c = '\t' then ['\\', 't']
  else if c.toNat < 0x20 then
    ['\\', 'u', '0', '0', Nat.digitChar (c.toNat / 16), Nat.digitChar (c.toNat % 16)]
  else [c]

def writeString (t : Text) : Text := '"' :: t.flatMap escapedChar ++ ['"']

def writeInt (n : Int) : Text :=
  (if n < 0 then ['-'] else []) ++ Nat.toDigits 10 n.natAbs

namespace Value

mutual

/-- The compact text of a value. -/
def write : Value → Text
  | null => "null".toList
  | bool b => (if b then "true" else "false").toList
  | number n => writeInt n
  | string t => writeString t
  | array items => '[' :: writeItems items ++ [']']
  | object fields => '{' :: writeFields fields ++ ['}']

/-- Values with commas between them. -/
def writeItems : List Value → Text
  | [] => []
  | [v] => v.write
  | v :: w :: vs => v.write ++ ',' :: writeItems (w :: vs)

/-- Fields with commas between them. -/
def writeFields : List (Text × Value) → Text
  | [] => []
  | [(k, v)] => writeString k ++ ':' :: v.write
  | (k, v) :: f :: fs => writeString k ++ ':' :: v.write ++ ',' :: writeFields (f :: fs)

end

end Value

end ComponentProps.Json
