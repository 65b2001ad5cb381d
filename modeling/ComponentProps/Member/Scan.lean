import ComponentProps.OrderedMap
import ComponentProps.Text.Cursor
import ComponentProps.Text.Identifier
import ComponentProps.Member.Basic
import ComponentProps.Member.Lookahead

/-!
# Scanning a type body

The scanner is a machine over a cursor. A step either moves the cursor or hands the character under
it to another mode; at most two steps in a row leave the cursor where it is. The scan ends with the
text, and a type that is still being read then is taken as complete.
-/

namespace ComponentProps.Member

open Text

/-- A member whose type is being read. -/
structure Draft where
  name : Text
  optional : Bool
  /-- The type is a method signature. -/
  method : Bool
  /-- The type text so far, nearest first. -/
  taken : Text := []
  region : Region := .code
  nesting : Nesting := .top
  /-- Question marks of conditional types that wait for their colon. -/
  conditionals : Nat := 0
  deriving DecidableEq, Repr

/-- What the scanner is reading. Texts in a mode stand nearest character first. -/
inductive Mode
  /-- Between members. -/
  | seeking
  | lineComment
  | blockComment
  | docComment (raw : Text)
  | quotedName (quote : Char) (name : Text)
  /-- An index, call or construct signature in place of a name. -/
  | signature (opening : Char) (depth : Nat) (quote : OpenQuote) (text : Text)
  /-- A name. `ended` says that it is complete unless another word follows. -/
  | name (text : Text) (ended : Bool)
  /-- After the question mark of an optional member. -/
  | afterMark (name : Text)
  | afterColon (name : Text) (optional : Bool)
  | type (draft : Draft)
  deriving DecidableEq, Repr

/-- How many more steps a mode may take before the cursor moves. -/
def Mode.delay : Mode → Nat
  | .name .. | .afterMark .. | .afterColon .. => 2
  | .type _ => 1
  | _ => 0

theorem Mode.delay_le (m : Mode) : m.delay ≤ 2 := by
  cases m <;> simp [Mode.delay]

/-- The state of the scanner. -/
structure Scan where
  cursor : Cursor
  mode : Mode
  /-- The doc comment that waits for its member. -/
  pending : Option Text
  members : OrderedMap Text Member
  deriving DecidableEq, Repr

namespace Scan

def start (body : Text) : Scan := ⟨Cursor.ofText body, .seeking, none, .empty⟩

/-- Move over `n` characters and go on in `mode`. -/
def move (s : Scan) (n : Nat) (mode : Mode) : Scan :=
  { s with cursor := s.cursor.advanceBy n, mode := mode }

/-- Give up a name that no member follows, and its doc comment with it. -/
def abandon (s : Scan) : Scan := { s with mode := .seeking, pending := none }

/-- Take up the member that is complete with the type read so far. -/
def complete (style : Style) (s : Scan) (d : Draft) : Scan :=
  let members :=
    match make? style d.name d.optional d.method s.pending d.taken.reverse with
    | some m => s.members.insert m.name m
    | none => s.members
  { s with mode := .seeking, pending := none, members := members }

/-- Take the character under the cursor into the type. -/
def take (s : Scan) (d : Draft) (c : Char) : Scan :=
  s.move 1 (.type { d with taken := c :: d.taken })

/-- The bracket that closes a signature. -/
def signatureEnd (opening : Char) : Char :=
  if opening == '[' then ']' else if opening == '(' then ')' else '>'

/-! ### One step in each mode, with `c` under the cursor and `rest` after it -/

def stepSeeking (s : Scan) (c : Char) (rest : Text) : Scan :=
  if isWhite c then s.move 1 .seeking
  else if c == '/' && "**".toList.isPrefixOf rest && rest[2]? != some '/' then
    s.move 3 (.docComment [])
  else if c == '/' && rest.head? == some '*' then s.move 2 .blockComment
  else if c == '/' && rest.head? == some '/' then s.move 2 .lineComment
  else if isIdentStart c then s.move 1 (.name [c] false)
  else if isQuote c then s.move 1 (.quotedName c [])
  else if c == '[' || c == '(' || c == '<' then s.move 1 (.signature c 1 none [c])
  else s.move 1 .seeking

def stepBlockComment (s : Scan) (c : Char) (rest : Text) : Scan :=
  if c == '*' && rest.head? == some '/' then s.move 2 .seeking else s.move 1 .blockComment

def stepDocComment (style : Style) (s : Scan) (raw : Text) (c : Char) (rest : Text) : Scan :=
  if c == '*' && rest.head? == some '/' then
    { s.move 2 .seeking with pending := docText? style raw.reverse }
  else s.move 1 (.docComment (c :: raw))

def stepQuotedName (s : Scan) (quote : Char) (name : Text) (c : Char) : Scan :=
  if c == quote && !s.cursor.isEscaped then s.move 1 (.name name true)
  else s.move 1 (.quotedName quote (c :: name))

def stepSignature (s : Scan) (opening : Char) (depth : Nat) (quote : OpenQuote) (text : Text)
    (c : Char) : Scan :=
  let go (depth' : Nat) : Scan :=
    s.move 1 (.signature opening depth' (quote.next s.cursor.behind c) (c :: text))
  if quote.covers s.cursor.behind c then go depth
  else if c == opening then go (depth + 1)
  else if c == signatureEnd opening then
    if depth ≤ 1 then s.move 1 (.name (c :: text) true) else go (depth - 1)
  else go depth

/-- Read the signature of a method as its type, from the character under the cursor. -/
def beginMethod (s : Scan) (name : Text) (optional : Bool) : Scan :=
  { s with mode := .type { name := name, optional := optional, method := true } }

def stepName (s : Scan) (name : Text) (ended : Bool) (c : Char) (rest : Text) : Scan :=
  if isIdentChar c then s.move 1 (.name (if ended then [c] else c :: name) false)
  else if isWhite c then s.move 1 (.name name true)
  else if c == ':' then s.move 1 (.afterColon name.reverse false)
  else if c == '(' || c == '<' then s.beginMethod name.reverse false
  else if c == '?' then
    match firstVisible? (rest.take reach) with
    | some n =>
      if n == ':' || n == '(' || n == '<' then s.move 1 (.afterMark name.reverse) else s.abandon
    | none => s.abandon
  else s.abandon

def stepAfterMark (s : Scan) (name : Text) (c : Char) : Scan :=
  if isWhite c then s.move 1 (.afterMark name)
  else if c == ':' then s.move 1 (.afterColon name true)
  else if c == '(' || c == '<' then s.beginMethod name true
  else s.abandon

def stepAfterColon (s : Scan) (name : Text) (optional : Bool) (c : Char) : Scan :=
  if isWhite c then s.move 1 (.afterColon name optional)
  else { s with mode := .type { name := name, optional := optional, method := false } }

/-- Whether the next member starts at the cursor although nothing ended this one. -/
def nextStarts (s : Scan) (d : Draft) : Bool :=
  d.region == .code && d.nesting.depth == 0 && d.conditionals == 0 &&
    (d.taken.head?.any isWhite && !isBlank d.taken) && startsMember s.cursor.ahead

/-- A code character within a type. -/
def stepTypeCode (style : Style) (s : Scan) (d : Draft) (c : Char) : Scan :=
  match Bracket.of? s.cursor.behind c with
  | some b =>
    if b == .closing && d.nesting.depth == 0 then s.complete style d
    else s.take { d with nesting := d.nesting.track b } c
  | none =>
    if d.nesting.depth != 0 then s.take d c
    else if c == '?' then s.take { d with conditionals := d.conditionals + 1 } c
    else if c == ':' then s.take { d with conditionals := d.conditionals - 1 } c
    else if c == ';' || (c == ',' && d.nesting.angle == 0) then (s.complete style d).move 1 .seeking
    else s.take d c

def stepType (style : Style) (s : Scan) (d : Draft) (c : Char) (rest : Text) : Scan :=
  if s.nextStarts d then s.complete style d
  else
    match d.region.read s.cursor.behind c rest with
    | (.literal, region) => s.take { d with region := region } c
    | (.comment, region) =>
      if d.region == .code && d.nesting.depth == 0 then s.complete style d
      else s.take { d with region := region } c
    | (.code, region) => s.stepTypeCode style { d with region := region } c

/-- One step of the scanner. Nothing changes at the end of the text. -/
def step (style : Style) (s : Scan) : Scan :=
  match s.cursor.ahead with
  | [] => s
  | c :: rest =>
    match s.mode with
    | .seeking => s.stepSeeking c rest
    | .lineComment => if c = '\n' then s.move 1 .seeking else s.move 1 .lineComment
    | .blockComment => s.stepBlockComment c rest
    | .docComment raw => s.stepDocComment style raw c rest
    | .quotedName quote name => s.stepQuotedName quote name c
    | .signature opening depth quote text => s.stepSignature opening depth quote text c
    | .name name ended => s.stepName name ended c rest
    | .afterMark name => s.stepAfterMark name c
    | .afterColon name optional => s.stepAfterColon name optional c
    | .type d => s.stepType style d c rest

/-! ### Every step makes progress -/

/-- What a step may do: move the cursor on, or hand the character under it to a mode that is nearer
to moving it. -/
inductive Progress (s : Scan) : Scan → Prop
  | moved (n : Nat) (mode : Mode) (pending : Option Text) (members : OrderedMap Text Member) :
      Progress s ⟨s.cursor.advanceBy (n + 1), mode, pending, members⟩
  | handed {mode : Mode} (h : mode.delay < s.mode.delay) (pending : Option Text)
      (members : OrderedMap Text Member) : Progress s ⟨s.cursor, mode, pending, members⟩

theorem progress_move (s : Scan) (n : Nat) (mode : Mode) : Progress s (s.move (n + 1) mode) :=
  .moved n mode s.pending s.members

theorem progress_stepSeeking (s : Scan) (c : Char) (rest : Text) :
    Progress s (s.stepSeeking c rest) := by
  unfold stepSeeking
  repeat' split
  all_goals exact progress_move s _ _

theorem progress_stepDocComment (style : Style) (s : Scan) (raw : Text) (c : Char) (rest : Text) :
    Progress s (s.stepDocComment style raw c rest) := by
  unfold stepDocComment
  split
  · exact .moved 1 .seeking _ s.members
  · exact progress_move s _ _

theorem progress_stepSignature (s : Scan) (opening : Char) (depth : Nat) (quote : OpenQuote)
    (text : Text) (c : Char) : Progress s (s.stepSignature opening depth quote text c) := by
  unfold stepSignature
  dsimp only
  repeat' split
  all_goals exact progress_move s _ _

/-- A mode that may wait two steps may begin a type or give up a name. -/
theorem progress_hand {s : Scan} (h : s.mode.delay = 2) {mode : Mode} (hmode : mode.delay < 2)
    (pending : Option Text) : Progress s ⟨s.cursor, mode, pending, s.members⟩ :=
  .handed (by rw [h]; exact hmode) pending s.members

theorem progress_stepName {s : Scan} (h : s.mode.delay = 2) (name : Text) (ended : Bool) (c : Char)
    (rest : Text) : Progress s (s.stepName name ended c rest) := by
  have habandon : Progress s s.abandon := progress_hand h (by simp [Mode.delay]) none
  unfold stepName
  split
  · exact progress_move s _ _
  split
  · exact progress_move s _ _
  split
  · exact progress_move s _ _
  split
  · exact progress_hand h (by simp [Mode.delay]) s.pending
  split
  · split
    · split
      · exact progress_move s _ _
      · exact habandon
    · exact habandon
  · exact habandon

theorem progress_stepAfterMark {s : Scan} (h : s.mode.delay = 2) (name : Text) (c : Char) :
    Progress s (s.stepAfterMark name c) := by
  unfold stepAfterMark
  split
  · exact progress_move s _ _
  split
  · exact progress_move s _ _
  split
  · exact progress_hand h (by simp [Mode.delay]) s.pending
  · exact progress_hand h (by simp [Mode.delay]) none

theorem progress_stepAfterColon {s : Scan} (h : s.mode.delay = 2) (name : Text) (optional : Bool)
    (c : Char) : Progress s (s.stepAfterColon name optional c) := by
  unfold stepAfterColon
  split
  · exact progress_move s _ _
  · exact progress_hand h (by simp [Mode.delay]) s.pending

/-- A type that is complete is followed by a search for the next member. -/
theorem progress_complete (style : Style) {s : Scan} (h : s.mode.delay = 1) (d : Draft) :
    Progress s (s.complete style d) :=
  .handed (by rw [h]; exact Nat.one_pos) none _

theorem progress_stepTypeCode (style : Style) {s : Scan} (h : s.mode.delay = 1) (d : Draft)
    (c : Char) : Progress s (s.stepTypeCode style d c) := by
  unfold stepTypeCode
  split
  · split
    · exact progress_complete style h d
    · exact progress_move s _ _
  split
  · exact progress_move s _ _
  split
  · exact progress_move s _ _
  split
  · exact progress_move s _ _
  split
  · exact .moved 0 .seeking none _
  · exact progress_move s _ _

theorem progress_stepType (style : Style) {s : Scan} (h : s.mode.delay = 1) (d : Draft) (c : Char)
    (rest : Text) : Progress s (s.stepType style d c rest) := by
  unfold stepType
  split
  · exact progress_complete style h d
  split
  · exact progress_move s _ _
  · split
    · exact progress_complete style h d
    · exact progress_move s _ _
  · exact progress_stepTypeCode style h _ c

/-- A step that has a character to read makes progress. -/
theorem progress_step (style : Style) {s : Scan} (h : s.cursor.ahead ≠ []) :
    Progress s (s.step style) := by
  unfold step
  split
  · contradiction
  split
  · exact progress_stepSeeking s _ _
  · split <;> exact progress_move s _ _
  · unfold stepBlockComment
    split <;> exact progress_move s _ _
  · exact progress_stepDocComment style s _ _ _
  · unfold stepQuotedName
    split <;> exact progress_move s _ _
  · exact progress_stepSignature s _ _ _ _ _
  · rename_i hmode
    exact progress_stepName (by rw [hmode]; rfl) _ _ _ _
  · rename_i hmode
    exact progress_stepAfterMark (by rw [hmode]; rfl) _ _
  · rename_i hmode
    exact progress_stepAfterColon (by rw [hmode]; rfl) _ _ _
  · rename_i hmode
    exact progress_stepType style (by rw [hmode]; rfl) _ _ _

/-- What is left to do: three steps for each character ahead, at most. -/
def work (s : Scan) : Nat := 3 * s.cursor.ahead.length + s.mode.delay

theorem Progress.work_lt {s t : Scan} (h : s.cursor.ahead ≠ []) (hstep : Progress s t) :
    t.work < s.work := by
  have hahead : 0 < s.cursor.ahead.length := List.length_pos_iff.mpr h
  cases hstep with
  | moved n mode pending members =>
      have hdelay := Mode.delay_le mode
      simp only [work, Cursor.length_ahead_advanceBy]
      omega
  | handed hdelay pending members =>
      simp only [work]
      omega

/-- A step that has a character to read leaves less to do. -/
theorem work_step_lt (style : Style) {s : Scan} (h : s.cursor.ahead ≠ []) :
    (s.step style).work < s.work :=
  (progress_step style h).work_lt h

/-- Run the scanner to the end of the text. -/
def run (style : Style) (s : Scan) : Scan :=
  if _ : s.cursor.ahead = [] then s else run style (s.step style)
termination_by s.work
decreasing_by exact work_step_lt style (by assumption)

/-- Take up the member whose type ends with the text. -/
def finish (style : Style) (s : Scan) : OrderedMap Text Member :=
  match s.mode with
  | .type d => (s.complete style d).members
  | _ => s.members

end Scan

/-- The members of a type body, given without its curly brackets. A later member takes the place of
an earlier one of the same name. -/
def scan (style : Style) (body : Text) : OrderedMap Text Member :=
  ((Scan.start body).run style).finish style

end ComponentProps.Member
