import ComponentProps.Text.Basic

/-!
# Lines

Splitting a text into lines, removing common indentation, and the prose of a doc comment.
-/

namespace ComponentProps.Text

/-- Put a character in front of the first part. -/
def consFirst (c : Char) : List Text → List Text
  | [] => [[c]]
  | part :: parts => (c :: part) :: parts

/-- The length of some parts with one separator for each. -/
def totalLength : List Text → Nat
  | [] => 0
  | part :: parts => part.length + 1 + totalLength parts

theorem totalLength_consFirst (c : Char) (ps : List Text) (h : ps ≠ []) :
    totalLength (consFirst c ps) = totalLength ps + 1 := by
  cases ps with
  | nil => exact absurd rfl h
  | cons p ps =>
    simp only [consFirst, totalLength, List.length_cons]
    omega

theorem consFirst_ne_nil (c : Char) (ps : List Text) : consFirst c ps ≠ [] := by
  cases ps <;> simp [consFirst]

/-- The lines of a text. A line feed ends a line, and a carriage return just before it goes with
it. -/
def lines : Text → List Text
  | [] => []
  | c :: rest =>
    if c = '\n' then [] :: lines rest
    else if c = '\r' && rest.head? == some '\n' then lines rest
    else consFirst c (lines rest)

/-- Texts joined by line feeds. -/
def unlines (parts : List Text) : Text := ['\n'].intercalate parts

/-- The least indentation of the lines that are not blank. -/
def commonIndent (rows : List Text) : Nat :=
  (((rows.filter (!isBlank ·)).map fun row => (row.takeWhile isWhite).length).min?).getD 0

/-- Trim a text and take the common indentation off the lines after the first, which follows a
delimiter and so says nothing about indentation. -/
def dedent (t : Text) : Text :=
  match lines (trim t) with
  | [] => []
  | first :: rows =>
    unlines (trimEnd first :: rows.map fun row =>
      if isBlank row then [] else trimEnd (row.drop (commonIndent rows)))

/-- A line of a doc comment without its margin: white space around it and one leading asterisk. -/
def withoutMargin (row : Text) : Text :=
  match trim row with
  | '*' :: rest => trimStart rest
  | prose => prose

/-- The prose of a doc comment, given the text between its delimiters. -/
def docProse (raw : Text) : Text :=
  let rows := ((lines raw).map withoutMargin).dropWhile List.isEmpty
  unlines (rows.reverse.dropWhile List.isEmpty).reverse

end ComponentProps.Text
