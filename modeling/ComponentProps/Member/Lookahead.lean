import ComponentProps.Text.Identifier
import ComponentProps.Text.Quote

/-!
# Looking for the next member

A member need not be ended by a separator. Whether another one starts at a place is told by a
bounded look at the text ahead: `readonly` or not, a name, perhaps a question mark, and a colon.
-/

namespace ComponentProps.Member

open Text

/-- The number of characters looked at. -/
def reach : Nat := 128

/-- How far a look has got: the number of characters passed and those after them. -/
structure Look where
  used : Nat
  rest : Text
  deriving DecidableEq, Repr

namespace Look

def pass (l : Look) (n : Nat) : Look := ⟨l.used + n, l.rest.drop n⟩

/-- The length of the identifier or quoted name at the start of a text. Escapes are not minded. -/
def wordLength : Text → Nat
  | [] => 0
  | c :: rest =>
    if isQuote c then
      let inner := (rest.take (reach - 1)).takeWhile (· != c)
      if inner.length < min (reach - 1) rest.length then inner.length + 2 else inner.length + 1
    else (((c :: rest).take reach).takeWhile isIdentChar).length

def word (l : Look) : Look := l.pass (wordLength l.rest)

/-- Pass spaces and tabs within reach. -/
def spaces (l : Look) : Look :=
  l.pass ((l.rest.take (reach - l.used)).takeWhile fun c => c == ' ' || c == '\t').length

/-- Pass a question mark and the spaces after it. -/
def mark (l : Look) : Look :=
  if l.rest.head? == some '?' then (l.pass 1).spaces else l

/-- Whether a name that the look is past is that of a member. -/
def endsName (l : Look) : Bool :=
  let l := l.spaces.mark
  decide (l.used < reach) && l.rest.head? == some ':'

end Look

/-- Whether a member seems to start at the head of a text. -/
def startsMember (ahead : Text) : Bool :=
  match ahead with
  | [] => false
  | c :: _ =>
    if isIdentStart c || isQuote c then
      let first := (Look.mk 0 ahead).word
      if ahead.take first.used = "readonly".toList then
        let second := first.spaces
        match second.rest with
        | [] => false
        | c' :: _ => isIdentStart c' && second.word.endsName
      else first.endsName
    else false

end ComponentProps.Member
