import ComponentProps.Text.Basic

/-!
# String literals

A literal is opened by one of three quotes and closed by the same quote. A quote after an odd run of
backslashes is escaped and does neither. Escapes are read off the characters that precede a quote,
whether or not those are part of a literal.
-/

namespace ComponentProps.Text

def isQuote (c : Char) : Bool := c == '"' || c == '\'' || c == '\x60'

/-- Whether a character that follows `behind` (nearest first) is escaped. -/
def isEscaped (behind : Text) : Bool :=
  (behind.takeWhile (· == '\\')).length % 2 == 1

/-- The quote of the literal that a place in a text lies in, if any. -/
abbrev OpenQuote := Option Char

namespace OpenQuote

/-- The open quote after one more character. Other quotes are inert inside a literal. -/
def feed (quote : OpenQuote) (c : Char) (escaped : Bool) : OpenQuote :=
  if !isQuote c || escaped then quote
  else
    match quote with
    | none => some c
    | some q => if q == c then none else some q

/-- The open quote after `c`, read behind the characters `behind`. -/
def next (quote : OpenQuote) (behind : Text) (c : Char) : OpenQuote :=
  feed quote c (isEscaped behind)

/-- Whether `c`, read behind the characters `behind`, is part of a literal, its quotes included. -/
def covers (quote : OpenQuote) (behind : Text) (c : Char) : Bool :=
  quote.isSome || (next quote behind c).isSome

end OpenQuote

end ComponentProps.Text
