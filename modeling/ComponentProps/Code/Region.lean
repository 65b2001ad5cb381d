import ComponentProps.Text.Quote

/-!
# Regions of code

One pass over script text tells code from string literals and comments. The state of the pass is the
region that the next character is met in; reading a character gives its role and the next region.
-/

namespace ComponentProps

open Text

/-- What a character of script text is part of. -/
inductive Role
  | code
  | literal
  | comment
  deriving DecidableEq, Repr

/-- The region that the next character is met in. -/
inductive Region
  | code
  /-- Inside a string literal with this quote. -/
  | literal (quote : Char)
  /-- Inside a comment that ends before the next line feed. -/
  | lineComment
  /-- Between the two characters that open a block comment. -/
  | blockOpening
  | blockComment
  /-- Between the two characters that close a block comment. -/
  | blockClosing
  deriving DecidableEq, Repr

namespace Region

/-- The region after a slash that is met in code, where it opens a comment. -/
def comment? (c : Char) (rest : Text) : Option Region :=
  if c = '/' then
    match rest.head? with
    | some '/' => some .lineComment
    | some '*' => some .blockOpening
    | _ => none
  else none

/-- Read `c`, which stands between `behind` (nearest first) and `rest`. -/
def read (region : Region) (behind : Text) (c : Char) (rest : Text) : Role × Region :=
  match region with
  | code =>
    if isQuote c && !isEscaped behind then (.literal, literal c)
    else
      match comment? c rest with
      | some opened => (.comment, opened)
      | none => (.code, code)
  | literal quote =>
    (.literal, if c == quote && !isEscaped behind then code else literal quote)
  | lineComment => if c = '\n' then (.code, code) else (.comment, lineComment)
  | blockOpening => (.comment, blockComment)
  | blockComment =>
    (.comment, if c == '*' && rest.head? == some '/' then blockClosing else blockComment)
  | blockClosing => (.comment, code)

/-- The region after a whole text, read behind the characters `behind`. -/
def after (region : Region) (behind : Text) : Text → Region
  | [] => region
  | c :: rest => after (region.read behind c rest).2 (c :: behind) rest

/-- After a code character comes code. -/
theorem read_code {region next : Region} {behind rest : Text} {c : Char}
    (h : region.read behind c rest = (.code, next)) : next = code := by
  cases region <;> simp only [read] at h
  · split at h
    · simp at h
    · split at h <;> simp_all
  · simp at h
  · split at h <;> simp_all
  · simp at h
  · simp at h
  · simp at h

end Region

end ComponentProps
