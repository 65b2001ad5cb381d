import ComponentProps.Text.Basic
import ComponentProps.Text.IdentifierTable

/-!
# Identifier characters

Identifiers follow the Unicode identifier properties, with `$` and `_` allowed everywhere.
-/

namespace ComponentProps.Text

/-- Whether a character may begin an identifier. -/
def isIdentStart (c : Char) : Bool :=
  c == '$' || c == '_' ||
    if c.toNat < 0x80 then c.isAlpha else IdentifierTable.isStart c.toNat

/-- Whether a character may stand in an identifier. -/
def isIdentChar (c : Char) : Bool :=
  isIdentStart c ||
    if c.toNat < 0x80 then c.isDigit else IdentifierTable.isContinueOnly c.toNat

theorem isIdentChar_of_isIdentStart {c : Char} (h : isIdentStart c = true) :
    isIdentChar c = true := by
  simp [isIdentChar, h]

/-- The identifier characters that a text begins with. -/
def leadingWord (t : Text) : Text := t.takeWhile isIdentChar

theorem leadingWord_cons {c : Char} (h : isIdentChar c = true) (t : Text) :
    leadingWord (c :: t) = c :: leadingWord t := by
  simp [leadingWord, h]

theorem leadingWord_append_dropWhile (t : Text) : leadingWord t ++ t.dropWhile isIdentChar = t :=
  List.takeWhile_append_dropWhile

end ComponentProps.Text
