import ComponentProps.Text.Basic

/-!
# Nesting

Round, square and curly brackets share one depth and angle brackets have another. The `>` of an
arrow is no bracket.
-/

namespace ComponentProps

/-- The brackets of script text, by what they do to the nesting. -/
inductive Bracket
  | opening
  | closing
  | angleOpening
  | angleClosing
  deriving DecidableEq, Repr

namespace Bracket

/-- The bracket that a code character behind `behind` is, if it is one. -/
def of? (behind : Text) (c : Char) : Option Bracket :=
  if c == '(' || c == '[' || c == '{' then some opening
  else if c == ')' || c == ']' || c == '}' then some closing
  else if c == '<' then some angleOpening
  else if c == '>' && behind.head? != some '=' then some angleClosing
  else none

end Bracket

/-- How deep a place in a text is nested in brackets. -/
structure Nesting where
  depth : Nat := 0
  angle : Nat := 0
  deriving DecidableEq, Repr

namespace Nesting

def top : Nesting := ⟨0, 0⟩

def isTop (n : Nesting) : Bool := n.depth == 0 && n.angle == 0

/-- The nesting after a bracket. A closing bracket that nothing opened leaves it as it is. -/
def track (n : Nesting) : Bracket → Nesting
  | .opening => { n with depth := n.depth + 1 }
  | .closing => { n with depth := n.depth - 1 }
  | .angleOpening => { n with angle := n.angle + 1 }
  | .angleClosing => { n with angle := n.angle - 1 }

/-- The nesting after the code character `c`. -/
def trackChar (n : Nesting) (behind : Text) (c : Char) : Nesting :=
  match Bracket.of? behind c with
  | some b => n.track b
  | none => n

end Nesting

end ComponentProps
