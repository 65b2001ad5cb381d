import ComponentProps.Text.Quote

/-!
# Cursors

A cursor is a place in a text. It keeps the characters passed, nearest first, and those still ahead,
so that looking either way is looking at the head of a list.
-/

namespace ComponentProps

open Text

/-- A place in a text. -/
structure Cursor where
  /-- The characters passed, nearest first. -/
  behind : Text
  /-- The characters still to come. -/
  ahead : Text
  deriving DecidableEq, Repr

namespace Cursor

def ofText (t : Text) : Cursor := ⟨[], t⟩

/-- The whole text that the cursor moves in. -/
def text (c : Cursor) : Text := c.behind.reverse ++ c.ahead

def pos (c : Cursor) : Nat := c.behind.length

def current? (c : Cursor) : Option Char := c.ahead.head?

def peek? (c : Cursor) (n : Nat) : Option Char := c.ahead[n]?

def previous? (c : Cursor) : Option Char := c.behind.head?

def atEnd (c : Cursor) : Bool := c.ahead.isEmpty

/-- Move over `n` characters, or to the end if there are fewer. -/
def advanceBy (c : Cursor) (n : Nat) : Cursor :=
  ⟨(c.ahead.take n).reverse ++ c.behind, c.ahead.drop n⟩

def advance (c : Cursor) : Cursor :=
  match c.ahead with
  | [] => c
  | x :: rest => ⟨x :: c.behind, rest⟩

/-- Go to the `n`-th place of the text, or to its end if that comes first. -/
def seek (c : Cursor) (n : Nat) : Cursor := (ofText c.text).advanceBy n

/-- The characters from place `start` up to place `stop`. -/
def slice (c : Cursor) (start stop : Nat) : Text := (c.text.take stop).drop start

def startsWith (c : Cursor) (t : Text) : Bool := t.isPrefixOf c.ahead

def isEscaped (c : Cursor) : Bool := Text.isEscaped c.behind

def atComment (c : Cursor) : Bool :=
  match c.ahead with
  | '/' :: '/' :: _ => true
  | '/' :: '*' :: _ => true
  | _ => false

/-- The open quote after the character under the cursor. -/
def quoteAfter (c : Cursor) (quote : OpenQuote) : OpenQuote :=
  match c.ahead with
  | [] => quote
  | x :: _ => quote.next c.behind x

/-- The number of UTF-8 bytes before the cursor. -/
def byteOffset (c : Cursor) : Nat := byteLength c.behind

@[simp] theorem text_advance (c : Cursor) : c.advance.text = c.text := by
  unfold advance
  split
  · rfl
  · rename_i h
    simp [text, h]

@[simp] theorem text_advanceBy (c : Cursor) (n : Nat) : (c.advanceBy n).text = c.text := by
  simp [advanceBy, text]

theorem length_ahead_advanceBy (c : Cursor) (n : Nat) :
    (c.advanceBy n).ahead.length = c.ahead.length - n := by
  simp [advanceBy]

theorem pos_advanceBy (c : Cursor) (n : Nat) :
    (c.advanceBy n).pos = c.pos + min n c.ahead.length := by
  simp only [pos, advanceBy, List.length_append, List.length_reverse, List.length_take]
  omega

theorem pos_add_length (c : Cursor) : c.pos + c.ahead.length = c.text.length := by
  simp [pos, text]

end Cursor

end ComponentProps
