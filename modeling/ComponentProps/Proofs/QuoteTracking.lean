import ComponentProps.Proofs.Reading
import ComponentProps.Text.Cursor

/-!
# Open quotes in one pass

The open quote at a place is found with a look back: the backslashes behind the place are counted
anew at every character. A reader that goes over the text once and keeps a flag for an escaped
character gives the same answers, since the flag is the parity of the run of backslashes that ends
at the place. The run is counted across the quotes that open and close literals, so the two agree in
literals and outside them.
-/

namespace ComponentProps

open Text

namespace Text

/-- What is told of a character: whether it opened or closed a literal, and the quote that is open
behind it. -/
abbrev QuoteAnswer := Bool × OpenQuote

/-! ### The reader that goes over a text once -/

/-- The state of the reader: the open quote, and whether the next character is escaped. -/
structure QuoteReader where
  quote : OpenQuote
  escaped : Bool
  deriving DecidableEq, Repr

namespace QuoteReader

def start : QuoteReader := ⟨none, false⟩

/-- Read one character. A backslash escapes the next character unless it is escaped itself. A quote
that is not escaped opens a literal, or closes one that the same quote opened. -/
def read (r : QuoteReader) (c : Char) : Bool × QuoteReader :=
  if c = '\\' then (false, ⟨r.quote, !r.escaped⟩)
  else if isQuote c && !r.escaped then
    match r.quote with
    | none => (true, ⟨some c, false⟩)
    | some q => if c = q then (true, ⟨none, false⟩) else (false, ⟨some q, false⟩)
  else (false, ⟨r.quote, false⟩)

/-- The state behind a text. -/
def after (r : QuoteReader) : Text → QuoteReader
  | [] => r
  | c :: rest => (r.read c).2.after rest

/-- The answers at every character of a text and at its end, where nothing changes. -/
def answers (r : QuoteReader) : Text → List QuoteAnswer
  | [] => [(false, r.quote)]
  | c :: rest => ((r.read c).1, (r.read c).2.quote) :: answers (r.read c).2 rest

theorem after_append (r : QuoteReader) (s t : Text) : r.after (s ++ t) = (r.after s).after t := by
  induction s generalizing r with
  | nil => rfl
  | cons c s ih => exact ih (r.read c).2

/-- Behind the first part of a text, the answers are those of a reader that goes on from there. -/
theorem drop_answers (r : QuoteReader) (s t : Text) :
    (r.answers (s ++ t)).drop s.length = (r.after s).answers t := by
  induction s generalizing r with
  | nil => rfl
  | cons c s ih => exact ih (r.read c).2

theorem isQuote_read {r : QuoteReader} (h : ∀ q, r.quote = some q → isQuote q = true) (c : Char)
    {q : Char} (hq : (r.read c).2.quote = some q) : isQuote q = true := by
  unfold read at hq
  split at hq
  · exact h q hq
  split at hq
  · rename_i hc
    split at hq
    · obtain rfl : c = q := Option.some.inj hq
      exact (Bool.and_eq_true_iff.mp hc).1
    · rename_i p hp
      split at hq
      · contradiction
      · exact h q (hp.trans hq)
  · exact h q hq

/-- Only quotes open literals. -/
theorem isQuote_after {r : QuoteReader} (h : ∀ q, r.quote = some q → isQuote q = true) (t : Text)
    {q : Char} (hq : (r.after t).quote = some q) : isQuote q = true := by
  induction t generalizing r with
  | nil => exact h q hq
  | cons c t ih => exact ih (fun p hp => isQuote_read h c hp) hq

theorem read_backslash (r : QuoteReader) : r.read '\\' = (false, ⟨r.quote, !r.escaped⟩) := rfl

/-- An escaped character neither opens nor closes a literal, and ends its escape. -/
theorem read_escaped (quote : OpenQuote) (c : Char) :
    read ⟨quote, true⟩ c = (false, ⟨quote, false⟩) := by
  simp [read]

/-- A quote closes its literal exactly if it is not escaped. -/
theorem read_quote {q : Char} (hq : isQuote q = true) (escaped : Bool) :
    read ⟨some q, escaped⟩ q = (!escaped, ⟨if escaped then some q else none, false⟩) := by
  have hne : q ≠ '\\' := by
    rintro rfl
    contradiction
  cases escaped <;> simp [read, hne, hq]

/-- Backslashes escape each other in pairs, from the first on. -/
theorem after_backslashes (r : QuoteReader) (n : Nat) :
    r.after (List.replicate n '\\') = ⟨r.quote, r.escaped ^^ (n % 2 == 1)⟩ := by
  induction n generalizing r with
  | zero => simp [after]
  | succ n ih =>
      rw [List.replicate_succ, after, read_backslash, ih]
      rcases Nat.mod_two_eq_zero_or_one n with h | h <;> simp [Nat.add_mod, h]

end QuoteReader

/-- One character: the look back and the flag lead to the same answer, and the flag stays the
answer of the look back. -/
theorem QuoteReader.read_eq (quote : OpenQuote) (behind : Text) (c : Char) :
    QuoteReader.read ⟨quote, isEscaped behind⟩ c =
      (quote.next behind c != quote, ⟨quote.next behind c, isEscaped (c :: behind)⟩) := by
  rw [isEscaped_cons]
  by_cases hslash : c = '\\'
  · subst hslash
    have hsame : OpenQuote.next quote behind '\\' = quote := rfl
    simp [QuoteReader.read, hsame]
  by_cases hopen : isQuote c = true ∧ isEscaped behind = false
  · cases quote with
    | none => simp [QuoteReader.read, OpenQuote.next, OpenQuote.feed, hslash, hopen]
    | some q =>
        by_cases hq : c = q
        · subst hq
          simp [QuoteReader.read, OpenQuote.next, OpenQuote.feed, hslash, hopen]
        · simp [QuoteReader.read, OpenQuote.next, OpenQuote.feed, hslash, hopen, hq, Ne.symm hq]
  · have hinert : (isQuote c && !isEscaped behind) = false := by simpa using hopen
    have hsame : OpenQuote.next quote behind c = quote := by
      have hskip : (!isQuote c || isEscaped behind) = true := by
        rw [← Bool.not_eq_false, ← hinert]
        cases isQuote c <;> cases isEscaped behind <;> simp
      simp only [OpenQuote.next, OpenQuote.feed, hskip, if_true]
    simp [QuoteReader.read, hslash, hinert, hsame]

end Text

/-! ### The answers place by place -/

namespace Cursor

/-- What is told of the character at a place, with `quote` open before it. -/
def quoteAnswer (c : Cursor) (quote : OpenQuote) : QuoteAnswer :=
  (c.quoteAfter quote != quote, c.quoteAfter quote)

/-- The answers at places that are visited one after another. -/
def quoteAnswers (quote : OpenQuote) : List Cursor → List QuoteAnswer
  | [] => []
  | c :: places => c.quoteAnswer quote :: quoteAnswers (c.quoteAfter quote) places

/-- The places from a cursor on, up to the end of the text. -/
def placesFrom (c : Cursor) : List Cursor := (List.range (c.ahead.length + 1)).map c.advanceBy

theorem placesFrom_end (behind : Text) : placesFrom ⟨behind, []⟩ = [⟨behind, []⟩] := by
  simp [placesFrom, advanceBy]

theorem placesFrom_cons (behind : Text) (c : Char) (rest : Text) :
    placesFrom ⟨behind, c :: rest⟩ = ⟨behind, c :: rest⟩ :: placesFrom ⟨c :: behind, rest⟩ := by
  have hstep : ∀ n, advanceBy ⟨behind, c :: rest⟩ (n + 1) = advanceBy ⟨c :: behind, rest⟩ n := by
    intro n
    simp [advanceBy]
  have hfirst : advanceBy ⟨behind, c :: rest⟩ 0 = ⟨behind, c :: rest⟩ := rfl
  simp only [placesFrom, List.length_cons, List.range_succ_eq_map, List.map_cons, List.map_map,
    hfirst, Function.comp_def, Nat.succ_eq_add_one, hstep, Nat.reduceAdd]

/-- A look back at every place gives the answers of a reader that goes over the rest of the text
once. -/
theorem quoteAnswers_placesFrom (quote : OpenQuote) (behind ahead : Text) :
    quoteAnswers quote (placesFrom ⟨behind, ahead⟩) =
      QuoteReader.answers ⟨quote, Text.isEscaped behind⟩ ahead := by
  induction ahead generalizing quote behind with
  | nil =>
      rw [placesFrom_end]
      simp [quoteAnswers, quoteAnswer, quoteAfter, QuoteReader.answers]
  | cons c rest ih =>
      rw [placesFrom_cons, QuoteReader.answers, QuoteReader.read_eq, ← ih]
      rfl

end Cursor

namespace Text

/-- The answers at all places of a text, from its first character to its end. -/
def quoteAnswers (t : Text) : List QuoteAnswer :=
  Cursor.quoteAnswers none (Cursor.ofText t).placesFrom

theorem quoteAnswers_eq_answers (t : Text) : quoteAnswers t = QuoteReader.start.answers t :=
  Cursor.quoteAnswers_placesFrom none [] t

/-- The open quote is tracked as by a reader that goes over the text once. Within a literal, a
backslash and the character behind it are passed as a pair and do not count for what follows, and a
quote of the literal behind a run of backslashes closes it exactly if the run is even. -/
theorem quoteAnswers_one_pass :
    (∀ t : Text, quoteAnswers t = QuoteReader.start.answers t) ∧
      ∀ (front : Text) (q : Char), QuoteReader.start.after front = ⟨some q, false⟩ →
        (∀ (c : Char) (rest : Text),
          (quoteAnswers (front ++ '\\' :: c :: rest)).drop front.length =
            (false, some q) :: (false, some q) ::
              (quoteAnswers (front ++ rest)).drop front.length) ∧
        ∀ (n : Nat) (rest : Text),
          (quoteAnswers (front ++ List.replicate n '\\' ++ q :: rest))[front.length + n]? =
            some (if n % 2 = 0 then (true, none) else (false, some q)) := by
  refine ⟨quoteAnswers_eq_answers, fun front q hfront => ⟨fun c rest => ?_, fun n rest => ?_⟩⟩
  · rw [quoteAnswers_eq_answers, quoteAnswers_eq_answers, QuoteReader.drop_answers,
      QuoteReader.drop_answers, hfront]
    simp only [QuoteReader.answers, QuoteReader.read_backslash, Bool.not_false,
      QuoteReader.read_escaped]
  · have hquote : isQuote q = true := by
      refine QuoteReader.isQuote_after (r := .start) (by simp [QuoteReader.start]) front ?_
      rw [hfront]
    have hbehind : QuoteReader.start.after (front ++ List.replicate n '\\') =
        ⟨some q, n % 2 == 1⟩ := by
      rw [QuoteReader.after_append, hfront, QuoteReader.after_backslashes]
      simp only [Bool.false_xor]
    have hdrop := QuoteReader.drop_answers .start (front ++ List.replicate n '\\') (q :: rest)
    rw [hbehind, QuoteReader.answers, QuoteReader.read_quote hquote, List.length_append,
      List.length_replicate] at hdrop
    rw [quoteAnswers_eq_answers, ← Nat.add_zero (front.length + n), ← List.getElem?_drop, hdrop]
    rcases Nat.mod_two_eq_zero_or_one n with h | h <;> simp [h]

theorem quoteAnswers_one_pass_even :
    QuoteReader.start.after "'a".toList = ⟨some '\'', false⟩ ∧
      (quoteAnswers ("'a".toList ++ List.replicate 2 '\\' ++ ['\'']))[4]? = some (true, none) :=
  have hfront : QuoteReader.start.after "'a".toList = ⟨some '\'', false⟩ := by decide
  ⟨hfront, (quoteAnswers_one_pass.2 "'a".toList '\'' hfront).2 2 []⟩

end Text

end ComponentProps
