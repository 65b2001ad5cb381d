/-!
# Text

Source text is handled as its list of characters. This module holds white space, trimming and the
length of a text in UTF-8.
-/

namespace ComponentProps

/-- A text is the list of its characters. -/
abbrev Text := List Char

namespace Text

/-- The Unicode property `White_Space`. -/
def isWhite (c : Char) : Bool :=
  let n := c.toNat
  (0x9 ≤ n && n ≤ 0xD) || n == 0x20 || n == 0x85 || n == 0xA0 || n == 0x1680 ||
    (0x2000 ≤ n && n ≤ 0x200A) || n == 0x2028 || n == 0x2029 || n == 0x202F || n == 0x205F ||
    n == 0x3000

/-- White space of markup: tab, line feed, form feed, carriage return and space. -/
def isMarkupSpace (c : Char) : Bool :=
  c == ' ' || c == '\t' || c == '\n' || c == '\x0c' || c == '\r'

def isBlank (t : Text) : Bool := t.all isWhite

def trimStart (t : Text) : Text := t.dropWhile isWhite

def trimEnd (t : Text) : Text := (t.reverse.dropWhile isWhite).reverse

def trim (t : Text) : Text := trimEnd (trimStart t)

/-- The trimmed text, unless nothing is left of it. -/
def trimmed? (t : Text) : Option Text :=
  match trim t with
  | [] => none
  | c :: rest => some (c :: rest)

/-- The first character that is not white space. -/
def firstVisible? (t : Text) : Option Char := t.find? fun c => !isWhite c

/-- What follows `start` in a text that begins with it. -/
def after? (start : Text) (t : Text) : Option Text :=
  if start.isPrefixOf t then some (t.drop start.length) else none

/-- The number of bytes of a text in UTF-8. -/
def byteLength : Text → Nat
  | [] => 0
  | c :: rest => c.utf8Size + byteLength rest

/-- Equality up to the case of ASCII letters. -/
def eqIgnoringCase (s t : Text) : Bool := s.map Char.toLower == t.map Char.toLower

@[simp] theorem trimStart_nil : trimStart [] = [] := rfl

@[simp] theorem trim_nil : trim [] = [] := rfl

theorem length_trim_le (t : Text) : (trim t).length ≤ t.length := by
  have h1 : (trimStart t).length ≤ t.length := (List.dropWhile_sublist _).length_le
  have h2 := (List.dropWhile_sublist (p := isWhite) (l := (trimStart t).reverse)).length_le
  simp only [trim, trimEnd, List.length_reverse] at h2 ⊢
  omega

theorem length_trimmed?_le {t u : Text} (h : trimmed? t = some u) : u.length ≤ t.length := by
  have ht := length_trim_le t
  unfold trimmed? at h
  split at h
  · contradiction
  · rename_i hc
    injection h with h
    rw [← h, ← hc]
    exact ht

@[simp] theorem byteLength_nil : byteLength [] = 0 := rfl

@[simp] theorem byteLength_cons (c : Char) (t : Text) :
    byteLength (c :: t) = c.utf8Size + byteLength t := rfl

theorem byteLength_append (s t : Text) : byteLength (s ++ t) = byteLength s + byteLength t := by
  induction s with
  | nil => simp
  | cons c s ih => simp [ih, Nat.add_assoc]

theorem byteLength_reverse (t : Text) : byteLength t.reverse = byteLength t := by
  induction t with
  | nil => rfl
  | cons c t ih => simp [byteLength_append, ih, Nat.add_comm]

end Text

end ComponentProps
