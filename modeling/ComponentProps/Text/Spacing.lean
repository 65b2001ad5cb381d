import ComponentProps.Text.Quote

/-!
# Spacing

Normal forms of captured text. White space inside string literals is never touched.
-/

namespace ComponentProps.Text

/-- Replace each run of white space outside literals by a space. `gap` says that a run has just been
passed over. -/
def collapseFrom (quote : OpenQuote) (gap : Bool) (behind : Text) : Text → Text
  | [] => []
  | c :: rest =>
    let quote' := quote.next behind c
    if isWhite c && !quote.covers behind c then
      collapseFrom quote' true (c :: behind) rest
    else if gap then
      ' ' :: c :: collapseFrom quote' false (c :: behind) rest
    else
      c :: collapseFrom quote' false (c :: behind) rest

/-- Trim a text and put one space for each run of white space outside literals. -/
def collapse (t : Text) : Text := collapseFrom none false [] (trim t)

/-- Replace each run of white space by a space. -/
def collapseProseFrom (gap : Bool) : Text → Text
  | [] => []
  | c :: rest =>
    if isWhite c then collapseProseFrom true rest
    else if gap then ' ' :: c :: collapseProseFrom false rest
    else c :: collapseProseFrom false rest

/-- Trim a text and put one space for each run of white space. Quotes mean nothing in prose. -/
def collapseProse (t : Text) : Text := collapseProseFrom false (trim t)

/-- Whether white space may be written between the last character written and the next visible
one. -/
def keepsSpace (last next : Option Char) : Bool :=
  match last, next with
  | some l, some n =>
    !(l == '(' || l == '[' || l == '<' || isWhite l) &&
      !(n == ')' || n == ']' || n == '>' || n == '}')
  | _, _ => false

/-- The characters written for the code character `c` after `out` (nearest first), nearest first. -/
def tidyChar (out : Text) (c : Char) (rest : Text) : Text :=
  if isWhite c then
    if keepsSpace out.head? (firstVisible? rest) then ' ' :: out else out
  else if c = '{' then
    match firstVisible? rest with
    | some n => if n == '}' then c :: out else ' ' :: c :: out
    | none => c :: out
  else if c = '}' then
    match out with
    | [] => [c]
    | last :: _ => if last == '{' || last == ' ' then c :: out else c :: ' ' :: out
  else c :: out

def tidyFrom (quote : OpenQuote) (out behind : Text) : Text → Text
  | [] => out
  | c :: rest =>
    let out' := if quote.covers behind c then c :: out else tidyChar out c rest
    tidyFrom (quote.next behind c) out' (c :: behind) rest

/-- Tidy the space inside brackets: none within round, square and angle brackets, one space on each
side within curly brackets that hold something. -/
def tidy (t : Text) : Text := trim (tidyFrom none [] [] t).reverse

/-- The normal form of a type. -/
def normalizeType (t : Text) : Text := tidy (collapse t)

end ComponentProps.Text
