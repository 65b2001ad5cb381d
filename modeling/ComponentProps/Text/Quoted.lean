import ComponentProps.Text.Basic
import ComponentProps.Text.ShapelessTable

/-!
# Quoted text

How a text is shown inside a message: in double quotes, with characters that cannot be seen written
by name or number.
-/

namespace ComponentProps.Text

/-- The digits of a number in lower-case hexadecimal. -/
def hexDigits (n : Nat) : Text := Nat.toDigits 16 n

/-- A character as it is shown inside quoted text. -/
def quotedChar (c : Char) : Text :=
  if c = '"' then ['\\', '"']
  else if c = '\\' then ['\\', '\\']
  else if c = '\t' then ['\\', 't']
  else if c = '\r' then ['\\', 'r']
  else if c = '\n' then ['\\', 'n']
  else if c.toNat = 0 then ['\\', '0']
  else if c.toNat < 0x20 || (0x7F ≤ c.toNat && ShapelessTable.isShapeless c.toNat) then
    ['\\', 'u', '{'] ++ hexDigits c.toNat ++ ['}']
  else [c]

def quoted (t : Text) : Text := '"' :: t.flatMap quotedChar ++ ['"']

end ComponentProps.Text
