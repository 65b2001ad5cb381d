import ComponentProps.Json.Fault

/-!
# Reading JSON text

The input of a reader is the text still to be read and the number of bytes before it. Faults are
reported either for the bytes read so far or for the byte that is next as well.
-/

namespace ComponentProps.Json

open Text

/-- JSON text still to be read. -/
structure Input where
  /-- The number of bytes read. -/
  offset : Nat
  rest : Text
  deriving DecidableEq, Repr

/-- A reader gives a value and the input after it, or a fault. -/
abbrev Reader (α : Type) := Input → Except Fault (α × Input)

namespace Input

def ofText (t : Text) : Input := ⟨0, t⟩

/-- A fault at the bytes read. -/
def fault (i : Input) (cause : Cause) : Fault := ⟨cause, i.offset⟩

/-- A fault at the next byte, if there is one. -/
def faultAhead (i : Input) (cause : Cause) : Fault :=
  ⟨cause, if i.rest.isEmpty then i.offset else i.offset + 1⟩

def isSpace (c : Char) : Bool := c == ' ' || c == '\n' || c == '\t' || c == '\r'

/-- Pass over white space. -/
def skipSpace (i : Input) : Input :=
  ⟨i.offset + (i.rest.takeWhile isSpace).length, i.rest.dropWhile isSpace⟩

/-- Pass over `n` characters of one byte each. -/
def pass (i : Input) (n : Nat) : Input := ⟨i.offset + n, i.rest.drop n⟩

/-- Pass over white space and the bracket `close`, if it follows. -/
def passClosing (i : Input) (close : Char) : Input :=
  let i := i.skipSpace
  if i.rest.head? = some close then i.pass 1 else i

end Input

/-! ### Words -/

/-- Read the letters of a word that is known by its first letter. -/
def readLetters (letters : Text) (i : Input) : Except Fault Input :=
  match letters with
  | [] => .ok i
  | l :: more =>
    match i.rest with
    | [] => .error (i.fault .endInValue)
    | c :: _ => if c = l then readLetters more (i.pass 1) else .error (i.faultAhead .expectedIdent)

/-! ### Strings -/

def isHexDigit (c : Char) : Bool :=
  c.isDigit || ('a' ≤ c && c ≤ 'f') || ('A' ≤ c && c ≤ 'F')

def hexValue (c : Char) : Nat :=
  if c.isDigit then c.toNat - '0'.toNat
  else if 'a' ≤ c then c.toNat - 'a'.toNat + 10
  else c.toNat - 'A'.toNat + 10

/-- Read the four digits of a character by number. Four bytes are taken before they are judged. -/
def readHex (i : Input) : Except Fault (Nat × Input) :=
  let four := i.rest.take 4
  if byteLength four < 4 then .error ⟨.endInString, i.offset + byteLength i.rest⟩
  else if four.all isHexDigit then .ok (four.foldl (fun n c => 16 * n + hexValue c) 0, i.pass 4)
  else .error ⟨.invalidEscape, i.offset + 4⟩

/-- Pass over a character that has to follow the first half of a pair of surrogates. -/
def passInPair (c : Char) (i : Input) : Except Fault Input :=
  match i.rest with
  | [] => .error (i.fault .endInString)
  | d :: _ => if d = c then .ok (i.pass 1) else .error (i.faultAhead .unfinishedSurrogates)

/-- Read the second half of a pair of surrogates, escape and all. -/
def readSecondHalf (i : Input) : Except Fault (Nat × Input) :=
  match passInPair '\\' i with
  | .error e => .error e
  | .ok i =>
    match passInPair 'u' i with
    | .error e => .error e
    | .ok i => readHex i

/-- Read a character by number, after its `\u`. Beyond the basic plane it is a pair of
surrogates. -/
def readUnicode (i : Input) : Except Fault (Char × Input) :=
  match readHex i with
  | .error e => .error e
  | .ok (n, i) =>
    if 0xDC00 ≤ n && n ≤ 0xDFFF then .error (i.fault .loneSurrogate)
    else if 0xD800 ≤ n && n ≤ 0xDBFF then
      match readSecondHalf i with
      | .error e => .error e
      | .ok (m, i) =>
        if 0xDC00 ≤ m && m ≤ 0xDFFF then
          .ok (Char.ofNat ((n - 0xD800) * 0x400 + (m - 0xDC00) + 0x10000), i)
        else .error (i.fault .loneSurrogate)
    else .ok (Char.ofNat n, i)

/-- The character that a letter after a backslash stands for. -/
def escapeChar? (c : Char) : Option Char :=
  if c = '"' || c = '\\' || c = '/' then some c
  else if c = 'b' then some '\x08'
  else if c = 'f' then some '\x0c'
  else if c = 'n' then some '\n'
  else if c = 'r' then some '\r'
  else if c = 't' then some '\t'
  else none

/-- Read an escaped character after its backslash. -/
def readEscape (i : Input) : Except Fault (Char × Input) :=
  match i.rest with
  | [] => .error (i.fault .endInString)
  | c :: _ =>
    if c = 'u' then readUnicode (i.pass 1)
    else
      match escapeChar? c with
      | some d => .ok (d, i.pass 1)
      | none => .error (i.faultAhead .invalidEscape)

/-! Reading never makes the input longer. -/

theorem length_pass_le (i : Input) (n : Nat) : (i.pass n).rest.length ≤ i.rest.length := by
  simp [Input.pass]

theorem length_readHex_le {i j : Input} {n : Nat} (h : readHex i = .ok (n, j)) :
    j.rest.length ≤ i.rest.length := by
  unfold readHex at h
  dsimp only at h
  split at h
  · contradiction
  · split at h
    · injection h with h
      injection h with _ h
      subst h
      exact length_pass_le i 4
    · contradiction

theorem length_passInPair_le {c : Char} {i j : Input} (h : passInPair c i = .ok j) :
    j.rest.length ≤ i.rest.length := by
  unfold passInPair at h
  split at h
  · contradiction
  · split at h
    · injection h with h
      subst h
      exact length_pass_le i 1
    · contradiction

theorem length_readSecondHalf_le {i j : Input} {n : Nat} (h : readSecondHalf i = .ok (n, j)) :
    j.rest.length ≤ i.rest.length := by
  unfold readSecondHalf at h
  split at h
  · contradiction
  rename_i k hk
  split at h
  · contradiction
  rename_i l hl
  exact Nat.le_trans (length_readHex_le h)
    (Nat.le_trans (length_passInPair_le hl) (length_passInPair_le hk))

theorem length_readUnicode_le {i j : Input} {c : Char} (h : readUnicode i = .ok (c, j)) :
    j.rest.length ≤ i.rest.length := by
  unfold readUnicode at h
  split at h
  · contradiction
  rename_i n k hk
  have hk := length_readHex_le hk
  split at h
  · contradiction
  split at h
  · split at h
    · contradiction
    rename_i m l hl
    have hl := length_readSecondHalf_le hl
    split at h
    · simp only [Except.ok.injEq, Prod.mk.injEq] at h
      rw [← h.2]
      exact Nat.le_trans hl hk
    · contradiction
  · simp only [Except.ok.injEq, Prod.mk.injEq] at h
    rw [← h.2]
    exact hk

theorem length_readEscape_le {i j : Input} {c : Char} (h : readEscape i = .ok (c, j)) :
    j.rest.length ≤ i.rest.length := by
  unfold readEscape at h
  split at h
  · contradiction
  split at h
  · exact Nat.le_trans (length_readUnicode_le h) (length_pass_le i 1)
  · split at h
    · injection h with h
      injection h with _ h
      subst h
      exact length_pass_le i 1
    · contradiction

/-- Read a string after its opening quote. -/
def readStringBody (i : Input) : Except Fault (Text × Input) :=
  match _ : i.rest with
  | [] => .error (i.fault .endInString)
  | c :: rest =>
    if c = '"' then .ok ([], i.pass 1)
    else if c = '\\' then
      match _ : readEscape (i.pass 1) with
      | .error e => .error e
      | .ok (d, j) =>
        match readStringBody j with
        | .error e => .error e
        | .ok (t, k) => .ok (d :: t, k)
    else if c.toNat < 0x20 then .error ⟨.controlCharacter, i.offset + 1⟩
    else
      match readStringBody ⟨i.offset + c.utf8Size, rest⟩ with
      | .error e => .error e
      | .ok (t, k) => .ok (c :: t, k)
termination_by i.rest.length
decreasing_by
  · have hr := ‹i.rest = _ :: _›
    have hl := length_readEscape_le ‹readEscape (i.pass 1) = _›
    simp only [Input.pass, hr, List.drop_succ_cons, List.drop_zero, List.length_cons] at hl ⊢
    omega
  · have hr := ‹i.rest = _ :: _›
    simp [hr]

/-- Read a string with the input at its opening quote. -/
def readQuoted (i : Input) : Except Fault (Text × Input) := readStringBody (i.pass 1)

end ComponentProps.Json
