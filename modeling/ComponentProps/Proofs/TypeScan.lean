import ComponentProps.Member.Scan
import ComponentProps.Proofs.Lookahead

/-!
# Scanning a printed type

Within a member the scanner takes a printed type up as a whole. Every constructor of types leaves
the nesting and the open conditionals as it found them; in between, a comma stands within brackets
and a colon within brackets or a conditional. A word is only looked at as a possible next member
where no bracket and no conditional is open, and there what follows it is known.
-/

namespace ComponentProps.Member.Scan

open Text

variable {style : Style}

theorem run_step {s : Scan} (h : s.cursor.ahead ≠ []) : run style s = run style (s.step style) := by
  rw [run, dif_neg h]

theorem run_end {s : Scan} (h : s.cursor.ahead = []) : run style s = s := by
  rw [run, dif_pos h]

/-- The draft of a member with the type text, nesting and open conditionals at a code place. -/
def draftAt (d : Draft) (taken : Text) (n : Nesting) (q : Nat) : Draft :=
  { d with taken := taken, region := .code, nesting := n, conditionals := q }

/-- The state at a code place within the type of a member. The type begins at the cursor of `s`. -/
def inType (s : Scan) (d : Draft) (taken : Text) (n : Nesting) (q : Nat) (ahead : Text) : Scan :=
  { s with
    cursor := ⟨taken ++ s.cursor.behind, ahead⟩
    mode := .type (draftAt d taken n q) }

variable {s : Scan} {d : Draft} {taken : Text} {n : Nesting} {q : Nat} {c : Char} {rest : Text}

/-- No member seems to start here, or nobody looks. -/
def Quiet (taken : Text) (n : Nesting) (q : Nat) (ahead : Text) : Prop :=
  n.depth = 0 → q = 0 → taken.head?.any isWhite = true → startsMember ahead = false

theorem quiet_of_sign (h : isIdentStart c = false ∧ isQuote c = false) :
    Quiet taken n q (c :: rest) :=
  fun _ _ _ => startsMember_sign h.1 h.2 rest

theorem nextStarts_of_quiet (h : Quiet taken n q rest) :
    (inType s d taken n q rest).nextStarts (draftAt d taken n q) = false := by
  rw [Bool.eq_false_iff]
  intro hnext
  simp only [nextStarts, draftAt, inType, Bool.and_eq_true, beq_iff_eq] at hnext
  obtain ⟨⟨⟨⟨-, hdepth⟩, hq⟩, hwhite, -⟩, hstart⟩ := hnext
  rw [h hdepth hq hwhite] at hstart
  contradiction

/-- One more character of a type is taken up, with what it does to nesting and conditionals. -/
theorem run_take {n' : Nesting} {q' : Nat} (hplain : IsPlain c)
    (hquiet : Quiet taken n q (c :: rest))
    (hcode : (inType s d taken n q (c :: rest)).stepTypeCode style (draftAt d taken n q) c =
      (inType s d taken n q (c :: rest)).take (draftAt d taken n' q') c) :
    run style (inType s d taken n q (c :: rest)) =
      run style (inType s d (c :: taken) n' q' rest) := by
  have hstep : (inType s d taken n q (c :: rest)).step style =
      (inType s d taken n q (c :: rest)).take (draftAt d taken n' q') c := by
    change (inType s d taken n q (c :: rest)).stepType style (draftAt d taken n q) c rest = _
    have hread : Region.code.read (taken ++ s.cursor.behind) c rest = (.code, .code) :=
      Region.read_plain hplain _ _
    rw [stepType, nextStarts_of_quiet hquiet]
    simp only [inType, draftAt, hread]
    exact hcode
  rw [run_step (by simp [inType]), hstep]
  rfl

/-! ### Signs -/

/-- A character that is read as code and starts no member. -/
def IsPunctuation (c : Char) : Prop := IsPlain c ∧ isIdentStart c = false

instance (c : Char) : Decidable (IsPunctuation c) := inferInstanceAs (Decidable (_ ∧ _))

theorem run_punctuation {n' : Nesting} {q' : Nat} (hc : IsPunctuation c)
    (hcode : (inType s d taken n q (c :: rest)).stepTypeCode style (draftAt d taken n q) c =
      (inType s d taken n q (c :: rest)).take (draftAt d taken n' q') c) :
    run style (inType s d taken n q (c :: rest)) =
      run style (inType s d (c :: taken) n' q' rest) :=
  run_take hc.1 (quiet_of_sign ⟨hc.2, hc.1.1⟩) hcode

/-- The signs that a type scanner acts upon. -/
def actingSigns : List Char := ['(', ')', '[', ']', '{', '}', '<', '>', '?', ':', ';', ',']

/-- A character that is only taken up. -/
def IsNeutral (c : Char) : Prop := IsPlain c ∧ c ∉ actingSigns

instance (c : Char) : Decidable (IsNeutral c) := inferInstanceAs (Decidable (_ ∧ _))

theorem isNeutral_of_isIdentChar (h : isIdentChar c = true) : IsNeutral c :=
  ⟨isPlain_of_isIdentChar h, not_mem_of_kind h rfl⟩

theorem isNeutral_of_isWhite (h : isWhite c = true) : IsNeutral c := by
  have hquotes : c ∉ ['"', '\'', '\x60'] := not_mem_of_kind h rfl
  refine ⟨⟨?_, ne_of_kind h rfl⟩, not_mem_of_kind h rfl⟩
  simpa [isQuote, and_assoc] using hquotes

theorem bracket_of_isNeutral (h : IsNeutral c) (behind : Text) : Bracket.of? behind c = none := by
  have hsub : bracketSigns ⊆ actingSigns := by decide
  exact bracket_of_not_mem (fun hmem => h.2 (hsub hmem)) behind

/-- The open conditionals after a character that is no bracket. Within brackets nobody counts. -/
def conditionalsAfter (n : Nesting) (q : Nat) (c : Char) : Nat :=
  if n.depth ≠ 0 then q else if c = '?' then q + 1 else if c = ':' then q - 1 else q

/-- A separator that ends the type of a member. -/
def Separates (n : Nesting) (c : Char) : Prop :=
  n.depth = 0 ∧ (c = ';' ∨ c = ',' ∧ n.angle = 0)

theorem conditionalsAfter_of_ne (hc : c ≠ '?' ∧ c ≠ ':') :
    conditionalsAfter n q c = q := by
  rw [conditionalsAfter, if_neg hc.1, if_neg hc.2, ite_self]

theorem not_separates_of_ne (hc : c ≠ ';' ∧ c ≠ ',') : ¬ Separates n c := by
  rintro ⟨-, hsemicolon | ⟨hcomma, -⟩⟩
  · exact hc.1 hsemicolon
  · exact hc.2 hcomma

theorem stepTypeCode_of_not_separates (hbracket : Bracket.of? (taken ++ s.cursor.behind) c = none)
    (hgoes : ¬ Separates n c) :
    (inType s d taken n q (c :: rest)).stepTypeCode style (draftAt d taken n q) c =
      (inType s d taken n q (c :: rest)).take (draftAt d taken n (conditionalsAfter n q c)) c := by
  simp only [stepTypeCode, inType, hbracket]
  by_cases hdepth : n.depth = 0
  · have hsep : ¬ (c = ';' ∨ c = ',' ∧ n.angle = 0) := fun h => hgoes ⟨hdepth, h⟩
    by_cases hquestion : c = '?'
    · simp [draftAt, conditionalsAfter, hdepth, hquestion]
    · by_cases hcolon : c = ':'
      · simp [draftAt, conditionalsAfter, hdepth, hcolon]
      · simp [draftAt, conditionalsAfter, hdepth, hquestion, hcolon, hsep]
  · simp [draftAt, conditionalsAfter, hdepth]

theorem run_neutral (hquiet : Quiet taken n q (c :: rest)) (hc : IsNeutral c) :
    run style (inType s d taken n q (c :: rest)) =
      run style (inType s d (c :: taken) n q rest) := by
  have hne : ∀ d ∈ actingSigns, c ≠ d := by
    rintro d hd rfl
    exact hc.2 hd
  have hgoes : ¬ Separates n c := not_separates_of_ne ⟨hne ';' (by decide), hne ',' (by decide)⟩
  rw [run_take hc.1 hquiet (stepTypeCode_of_not_separates (bracket_of_isNeutral hc _) hgoes),
    conditionalsAfter_of_ne ⟨hne '?' (by decide), hne ':' (by decide)⟩]

theorem run_open (hc : c = '(' ∨ c = '[' ∨ c = '{') :
    run style (inType s d taken n q (c :: rest)) =
      run style (inType s d (c :: taken) { n with depth := n.depth + 1 } q rest) := by
  rcases hc with rfl | rfl | rfl <;>
    exact run_punctuation (by decide) rfl

theorem run_close (hc : c = ')' ∨ c = ']' ∨ c = '}') :
    run style (inType s d taken { n with depth := n.depth + 1 } q (c :: rest)) =
      run style (inType s d (c :: taken) n q rest) := by
  rcases hc with rfl | rfl | rfl <;>
    exact run_punctuation (by decide) rfl

theorem run_angle_open :
    run style (inType s d taken n q ('<' :: rest)) =
      run style (inType s d ('<' :: taken) { n with angle := n.angle + 1 } q rest) :=
  run_punctuation (by decide) rfl

theorem bracket_angle_close {behind : Text} (h : behind.head? ≠ some '=') :
    Bracket.of? behind '>' = some .angleClosing := by
  simp [Bracket.of?, h]

theorem run_angle_close (h : (taken ++ s.cursor.behind).head? ≠ some '=') :
    run style (inType s d taken { n with angle := n.angle + 1 } q ('>' :: rest)) =
      run style (inType s d ('>' :: taken) n q rest) := by
  have hbracket := bracket_angle_close h
  refine run_punctuation (by decide) ?_
  simp only [stepTypeCode, inType, hbracket]
  rfl

/-- The `>` of an arrow closes nothing. -/
theorem run_arrow :
    run style (inType s d ('=' :: taken) n q ('>' :: rest)) =
      run style (inType s d ('>' :: '=' :: taken) n q rest) := by
  have hgoes : ¬ Separates n '>' := not_separates_of_ne (by decide)
  rw [run_punctuation (by decide) (stepTypeCode_of_not_separates rfl hgoes),
    conditionalsAfter_of_ne (by decide)]

/-- Within brackets separators, colons and question marks are part of the type. -/
theorem run_nested_sign (hn : n.depth ≠ 0) (hc : c ∈ [',', ';', ':', '?']) :
    run style (inType s d taken n q (c :: rest)) =
      run style (inType s d (c :: taken) n q rest) := by
  have hgoes : ∀ c, ¬ Separates n c := fun _ h => hn h.1
  have hsame : ∀ c, conditionalsAfter n q c = q := fun _ => if_pos hn
  simp only [List.mem_cons, List.not_mem_nil, or_false] at hc
  rcases hc with rfl | rfl | rfl | rfl <;>
    rw [run_punctuation (by decide) (stepTypeCode_of_not_separates rfl (hgoes _)), hsame]

/-- A comma between type arguments is part of the type. -/
theorem run_comma (hn : n.depth ≠ 0 ∨ n.angle ≠ 0) :
    run style (inType s d taken n q (',' :: rest)) =
      run style (inType s d (',' :: taken) n q rest) := by
  have hgoes : ¬ Separates n ',' := by
    rintro ⟨hdepth, hsemicolon | ⟨-, hangle⟩⟩
    · contradiction
    · exact hn.elim (absurd hdepth) (absurd hangle)
  rw [run_punctuation (by decide) (stepTypeCode_of_not_separates rfl hgoes),
    conditionalsAfter_of_ne (by decide)]

/-- A question mark outside brackets opens a conditional. -/
theorem run_question (hn : n.depth = 0) :
    run style (inType s d taken n q ('?' :: rest)) =
      run style (inType s d ('?' :: taken) n (q + 1) rest) := by
  have hopen : conditionalsAfter n q '?' = q + 1 := if_neg (not_not_intro hn)
  have hgoes : ¬ Separates n '?' := not_separates_of_ne (by decide)
  rw [run_punctuation (by decide) (stepTypeCode_of_not_separates rfl hgoes), hopen]

/-- A colon outside brackets closes a conditional. -/
theorem run_colon (hn : n.depth = 0) :
    run style (inType s d taken n (q + 1) (':' :: rest)) =
      run style (inType s d (':' :: taken) n q rest) := by
  have hclose : conditionalsAfter n (q + 1) ':' = q := if_neg (not_not_intro hn)
  have hgoes : ¬ Separates n ':' := not_separates_of_ne (by decide)
  rw [run_punctuation (by decide) (stepTypeCode_of_not_separates rfl hgoes), hclose]

/-! ### Words and literals -/

/-- Behind a visible character nobody looks for a member. -/
theorem quiet_of_visible (h : taken.head?.any isWhite = false) : Quiet taken n q rest := by
  intro _ _ hwhite
  rw [h] at hwhite
  contradiction

theorem run_word_tail {t : Text} (ht : ∀ c ∈ t, isIdentChar c = true)
    (hlast : taken.head?.any isWhite = false) :
    run style (inType s d taken n q (t ++ rest)) =
      run style (inType s d (t.reverse ++ taken) n q rest) := by
  induction t generalizing taken with
  | nil => rfl
  | cons c t ih =>
      have hc := ht c List.mem_cons_self
      have hvisible : (c :: taken).head?.any isWhite = false := by
        simpa using not_isWhite_of_isIdentChar hc
      rw [List.cons_append, run_neutral (quiet_of_visible hlast) (isNeutral_of_isIdentChar hc),
        ih (fun d hd => ht d (List.mem_cons_of_mem _ hd)) hvisible]
      simp

/-- A word is taken up unless it is taken for the name of a member. -/
theorem run_word (w : Identifier) (hquiet : Quiet taken n q (w.text ++ rest)) :
    run style (inType s d taken n q (w.text ++ rest)) =
      run style (inType s d (w.text.reverse ++ taken) n q rest) := by
  obtain ⟨c, more, htext, hstart, hall⟩ := w.exists_cons
  have hc := isIdentChar_of_isIdentStart hstart
  have hvisible : (c :: taken).head?.any isWhite = false := by
    simpa using not_isWhite_of_isIdentChar hc
  rw [htext, List.cons_append] at hquiet ⊢
  rw [run_neutral hquiet (isNeutral_of_isIdentChar hc),
    run_word_tail (fun d hd => hall d (by simp [htext, hd])) hvisible]
  simp

/-- The state within a literal of a type. -/
def inLiteral (s : Scan) (d : Draft) (taken : Text) (n : Nesting) (q : Nat) (quote : Char)
    (ahead : Text) : Scan :=
  { s with
    cursor := ⟨taken ++ s.cursor.behind, ahead⟩
    mode := .type { draftAt d taken n q with region := .literal quote } }

theorem step_inLiteral {quote : Char} (hread : (Region.literal quote).read
      (taken ++ s.cursor.behind) c rest = (.literal, .literal quote)) :
    (inLiteral s d taken n q quote (c :: rest)).step style =
      inLiteral s d (c :: taken) n q quote rest := by
  change (inLiteral s d taken n q quote (c :: rest)).stepType style _ c rest = _
  have hnext : (inLiteral s d taken n q quote (c :: rest)).nextStarts
      { draftAt d taken n q with region := .literal quote } = false := by
    simp [nextStarts]
  rw [stepType, hnext]
  simp only [inLiteral, hread]
  rfl

theorem step_literal_close {quote : Char}
    (hescaped : (taken ++ s.cursor.behind).head? ≠ some '\\') :
    (inLiteral s d taken n q quote (quote :: rest)).step style =
      inType s d (quote :: taken) n q rest := by
  have hread : (Region.literal quote).read (taken ++ s.cursor.behind) quote rest =
      (.literal, .code) := by
    simp [Region.read, isEscaped_of_head?_ne hescaped]
  have hnext : (inLiteral s d taken n q quote (quote :: rest)).nextStarts
      { draftAt d taken n q with region := .literal quote } = false := by
    simp [nextStarts]
  change (inLiteral s d taken n q quote (quote :: rest)).stepType style _ quote rest = _
  rw [stepType, hnext]
  simp only [inLiteral, hread]
  rfl

/-- The content of a literal is taken up with the quote that ends it. -/
theorem run_literal_content {quote : Char} {content : Text}
    (hcontent : ∀ c ∈ content, c ≠ quote ∧ c ≠ '\\')
    (hescaped : (taken ++ s.cursor.behind).head? ≠ some '\\') :
    run style (inLiteral s d taken n q quote (content ++ quote :: rest)) =
      run style (inType s d (quote :: (content.reverse ++ taken)) n q rest) := by
  induction content generalizing taken with
  | nil =>
      rw [List.nil_append, run_step (by simp [inLiteral]), step_literal_close hescaped]
      rfl
  | cons c content ih =>
      obtain ⟨hquote, hslash⟩ := hcontent c List.mem_cons_self
      have hread : (Region.literal quote).read (taken ++ s.cursor.behind) c
          (content ++ quote :: rest) = (.literal, .literal quote) := by
        simp [Region.read, hquote]
      rw [List.cons_append, run_step (by simp [inLiteral]), step_inLiteral hread,
        ih (fun d hd => hcontent d (List.mem_cons_of_mem _ hd)) (by simpa using hslash)]
      simp

theorem step_literal_open {l : StringLiteral} (hquiet : Quiet taken n q (l.print ++ rest))
    (hescaped : (taken ++ s.cursor.behind).head? ≠ some '\\') :
    (inType s d taken n q (l.print ++ rest)).step style =
      inLiteral s d (l.quote :: taken) n q l.quote (l.content ++ l.quote :: rest) := by
  have hprint : l.print ++ rest = l.quote :: (l.content ++ l.quote :: rest) := by
    simp [StringLiteral.print]
  rw [hprint] at hquiet ⊢
  have hread : Region.code.read (taken ++ s.cursor.behind) l.quote
      (l.content ++ l.quote :: rest) = (.literal, .literal l.quote) := by
    simp [Region.read, l.isQuote, isEscaped_of_head?_ne hescaped]
  change (inType s d taken n q (l.quote :: (l.content ++ l.quote :: rest))).stepType style
    (draftAt d taken n q) l.quote (l.content ++ l.quote :: rest) = _
  rw [stepType, nextStarts_of_quiet hquiet]
  simp only [inType, draftAt, hread]
  rfl

/-- A literal is taken up as a whole. -/
theorem run_literal (l : StringLiteral) (hescaped : (taken ++ s.cursor.behind).head? ≠ some '\\')
    (hends : n.depth = 0 → q = 0 → EndsType rest) :
    run style (inType s d taken n q (l.print ++ rest)) =
      run style (inType s d (l.print.reverse ++ taken) n q rest) := by
  have hquiet : Quiet taken n q (l.print ++ rest) :=
    fun hn hq _ => startsMember_literal l (hends hn hq)
  have hquote : l.quote ≠ '\\' := by
    intro heq
    have hq := l.isQuote
    rw [heq] at hq
    contradiction
  have hcontent : ∀ c ∈ l.content, c ≠ l.quote ∧ c ≠ '\\' :=
    fun c hc => ⟨(l.ne_of_mem hc).1, (l.ne_of_mem hc).2.1⟩
  have hne : (inType s d taken n q (l.print ++ rest)).cursor.ahead ≠ [] := by
    simp [inType, StringLiteral.print]
  rw [run_step hne, step_literal_open hquiet hescaped,
    run_literal_content hcontent (by simpa using hquote)]
  simp [StringLiteral.print]

/-! ### Types -/

theorem run_space :
    run style (inType s d taken n q (' ' :: rest)) =
      run style (inType s d (' ' :: taken) n q rest) :=
  run_neutral (quiet_of_sign (by decide)) (by decide)

/-- A conditional is opened outside brackets and not seen within them. -/
theorem run_conditional_sign (style : Style) (s : Scan) (d : Draft) (n : Nesting) (q : Nat) :
    ∃ q', (n.depth = 0 → q' ≠ 0) ∧
      (∀ taken rest, run style (inType s d taken n q ('?' :: rest)) =
        run style (inType s d ('?' :: taken) n q' rest)) ∧
      ∀ taken rest, run style (inType s d taken n q' (':' :: rest)) =
        run style (inType s d (':' :: taken) n q rest) := by
  by_cases hn : n.depth = 0
  · exact ⟨q + 1, fun _ => Nat.succ_ne_zero q, fun _ _ => run_question hn, fun _ _ => run_colon hn⟩
  · exact ⟨q, fun h => absurd h hn, fun _ _ => run_nested_sign hn (by decide),
      fun _ _ => run_nested_sign hn (by decide)⟩

/-- The bracket behind type arguments is not part of an arrow. -/
theorem head?_types {ts : List Text} (hts : ∀ t ∈ ts, HasTypeEnds t) {behind : Text}
    (hb : behind.head? ≠ some '=') : ((separated ',' ts).reverse ++ behind).head? ≠ some '=' :=
  head?_reverse_append_ne (getLast?_types hts) hb

theorem endsType_comma (rest : Text) : EndsType (',' :: rest) :=
  endsType_sign rest (by decide)

/-- The keyword of a conditional is not taken for the name of a member. -/
theorem quiet_extends {t : Text} (ht : HasTypeEnds t) (rest : Text) :
    Quiet taken n q ("extends".toList ++ ' ' :: (t ++ rest)) := by
  intro _ _ _
  refine startsMember_word ⟨"extends".toList, by decide⟩ ?_ (noColon_space_type ht rest) ?_
  · intro c hc
    rw [← show ' ' = c by simpa using hc]
    decide
  · intro hname
    exact absurd hname (by decide)

theorem run_mark {optional : Bool} (hn : n.depth ≠ 0) :
    run style (inType s d taken n q (printMark optional ++ rest)) =
      run style (inType s d ((printMark optional).reverse ++ taken) n q rest) := by
  cases optional with
  | false => rfl
  | true => exact run_nested_sign hn (by decide)

theorem run_trailing {closed : Bool} (hn : n.depth ≠ 0) :
    run style (inType s d taken n q (printTrailing closed ++ rest)) =
      run style (inType s d ((printTrailing closed).reverse ++ taken) n q rest) := by
  cases closed with
  | false => rfl
  | true => exact run_nested_sign hn (by decide)

/-- A text is taken up as a whole within a type. What follows it matters only where the next member
is looked for. -/
def IsTaken (style : Style) (t : Text) : Prop :=
  ∀ (s : Scan) (d : Draft) (taken : Text) (n : Nesting) (q : Nat) (rest : Text),
    (taken ++ s.cursor.behind).head? ≠ some '\\' → (n.depth = 0 → q = 0 → EndsType rest) →
    run style (inType s d taken n q (t ++ rest)) =
      run style (inType s d (t.reverse ++ taken) n q rest)

/-- Types with commas between them are taken up within brackets. -/
theorem run_types {ts : List Text} (hts : ∀ t ∈ ts, IsTaken style t) (s : Scan) (d : Draft)
    (taken : Text) (n : Nesting) (q : Nat) (rest : Text) (hinside : n.depth ≠ 0 ∨ n.angle ≠ 0)
    (hescaped : (taken ++ s.cursor.behind).head? ≠ some '\\') (hends : EndsType rest) :
    run style (inType s d taken n q (separated ',' ts ++ rest)) =
      run style (inType s d ((separated ',' ts).reverse ++ taken) n q rest) := by
  induction ts generalizing taken with
  | nil => rfl
  | cons t ts ih =>
      rw [List.forall_mem_cons] at hts
      cases ts with
      | nil => simpa [separated] using hts.1 s d taken n q rest hescaped fun _ _ => hends
      | cons u ts =>
          have hprint : separated ',' (t :: u :: ts) ++ rest =
              t ++ ',' :: ' ' :: (separated ',' (u :: ts) ++ rest) := by
            simp [separated_cons_cons]
          rw [hprint, hts.1 s d taken n q _ hescaped fun _ _ => endsType_comma _,
            run_comma hinside, run_space, ih hts.2 _ (by simp)]
          simp [separated_cons_cons]

/-- Within brackets a typed name is taken up. -/
theorem run_typedName {f : TypedName} (hf : IsTaken style f.type) (s : Scan) (d : Draft)
    (taken : Text) (n : Nesting) (q : Nat) (rest : Text) (hn : n.depth ≠ 0) :
    run style (inType s d taken n q (f.print ++ rest)) =
      run style (inType s d (f.print.reverse ++ taken) n q rest) := by
  have hprint : f.print ++ rest =
      f.name.text ++ (printMark f.optional ++ ':' :: ' ' :: (f.type ++ rest)) := by
    simp [TypedName.print]
  rw [hprint, run_word f.name fun h => absurd h hn, run_mark hn, run_nested_sign hn (by decide),
    run_space, hf s d _ n q rest (by simp) fun h => absurd h hn]
  simp [TypedName.print]

theorem run_typedNames {separator : Char} (hs : separator ∈ [',', ';']) {fs : List TypedName}
    (hfs : ∀ f ∈ fs, IsTaken style f.type) (s : Scan) (d : Draft) (taken : Text) (n : Nesting)
    (q : Nat) (rest : Text) (hn : n.depth ≠ 0) :
    run style (inType s d taken n q (separated separator (fs.map TypedName.print) ++ rest)) =
      run style (inType s d ((separated separator (fs.map TypedName.print)).reverse ++ taken) n q
        rest) := by
  have hsign : separator ∈ [',', ';', ':', '?'] := by
    simp only [List.mem_cons, List.not_mem_nil, or_false] at hs ⊢
    tauto
  induction fs generalizing taken with
  | nil => rfl
  | cons f fs ih =>
      rw [List.forall_mem_cons] at hfs
      cases fs with
      | nil => simpa [separated] using run_typedName hfs.1 s d taken n q rest hn
      | cons g fs =>
          have hprint : separated separator ((f :: g :: fs).map TypedName.print) ++ rest =
              f.print ++ separator :: ' ' ::
                (separated separator ((g :: fs).map TypedName.print) ++ rest) := by
            simp [separated_cons_cons]
          rw [hprint, run_typedName hfs.1 s d taken n q _ hn, run_nested_sign hn hsign, run_space,
            ih hfs.2]
          simp [separated_cons_cons]

namespace IsTaken

theorem word (w : Identifier) : IsTaken style w.text := by
  intro s d taken n q rest _ hends
  exact run_word w fun hn hq _ => startsMember_of_endsType w (hends hn hq)

theorem literal (l : StringLiteral) : IsTaken style l.print := by
  intro s d taken n q rest hescaped hends
  exact run_literal l hescaped hends

theorem generic (w : Identifier) {ts : List Text} (hends : ∀ t ∈ ts, HasTypeEnds t)
    (hts : ∀ t ∈ ts, IsTaken style t) :
    IsTaken style (w.text ++ '<' :: (separated ',' ts ++ ['>'])) := by
  intro s d taken n q rest _ _
  have hprint : (w.text ++ '<' :: (separated ',' ts ++ ['>'])) ++ rest =
      w.text ++ '<' :: (separated ',' ts ++ '>' :: rest) := by simp
  have hword : EndsType ('<' :: (separated ',' ts ++ '>' :: rest)) := endsType_sign _ (by decide)
  have hlast : EndsType ('>' :: rest) := endsType_sign _ (by decide)
  rw [hprint, run_word w fun _ _ _ => startsMember_of_endsType w hword, run_angle_open,
    run_types hts s d _ _ q _ (Or.inr (Nat.succ_ne_zero _)) (by simp) hlast, run_angle_close]
  · simp
  · rw [List.append_assoc]
    exact head?_types hends (by simp)

theorem array {t : Text} (ht : IsTaken style t) : IsTaken style (t ++ ['[', ']']) := by
  intro s d taken n q rest hescaped _
  have hprint : (t ++ ['[', ']']) ++ rest = t ++ '[' :: ']' :: rest := by simp
  have hbracket : EndsType ('[' :: ']' :: rest) := endsType_sign _ (by decide)
  rw [hprint, ht s d taken n q _ hescaped fun _ _ => hbracket, run_open (by simp),
    run_close (by simp)]
  simp

theorem tuple {ts : List Text} (hts : ∀ t ∈ ts, IsTaken style t) :
    IsTaken style ('[' :: (separated ',' ts ++ [']'])) := by
  intro s d taken n q rest _ _
  have hprint : ('[' :: (separated ',' ts ++ [']'])) ++ rest =
      '[' :: (separated ',' ts ++ ']' :: rest) := by simp
  have hlast : EndsType (']' :: rest) := endsType_sign _ (by decide)
  rw [hprint, run_open (by simp),
    run_types hts s d _ _ q _ (Or.inl (Nat.succ_ne_zero _)) (by simp) hlast, run_close (by simp)]
  simp

theorem empty : IsTaken style ['{', '}'] := by
  intro s d taken n q rest _ _
  have hprint : ['{', '}'] ++ rest = '{' :: '}' :: rest := rfl
  rw [hprint, run_open (by simp), run_close (by simp)]
  rfl

theorem object {fs : List TypedName} (hfs : ∀ f ∈ fs, IsTaken style f.type) (closed : Bool) :
    IsTaken style ('{' :: ' ' :: (separated ';' (fs.map TypedName.print) ++
      (printTrailing closed ++ [' ', '}']))) := by
  intro s d taken n q rest _ _
  have hprint : ('{' :: ' ' :: (separated ';' (fs.map TypedName.print) ++
      (printTrailing closed ++ [' ', '}']))) ++ rest =
        '{' :: ' ' :: (separated ';' (fs.map TypedName.print) ++
          (printTrailing closed ++ ' ' :: '}' :: rest)) := by simp
  rw [hprint, run_open (by simp), run_space,
    run_typedNames (by decide) hfs s d _ _ q _ (Nat.succ_ne_zero _),
    run_trailing (Nat.succ_ne_zero _), run_space, run_close (by simp)]
  simp

theorem function {fs : List TypedName} (hfs : ∀ f ∈ fs, IsTaken style f.type) {t : Text}
    (ht : IsTaken style t) :
    IsTaken style ('(' :: (separated ',' (fs.map TypedName.print) ++
      ')' :: ' ' :: '=' :: '>' :: ' ' :: t)) := by
  intro s d taken n q rest _ hends
  have hprint : ('(' :: (separated ',' (fs.map TypedName.print) ++
      ')' :: ' ' :: '=' :: '>' :: ' ' :: t)) ++ rest =
        '(' :: (separated ',' (fs.map TypedName.print) ++
          ')' :: ' ' :: '=' :: '>' :: ' ' :: (t ++ rest)) := by simp
  rw [hprint, run_open (by simp), run_typedNames (by decide) hfs s d _ _ q _ (Nat.succ_ne_zero _),
    run_close (by simp), run_space, run_neutral (quiet_of_sign (by decide)) (by decide), run_arrow,
    run_space, ht s d _ n q rest (by simp) hends]
  simp

/-- Types with the sign of a union or an intersection between them. -/
theorem joined {c : Char} (hc : c ∈ ['|', '&']) {t u : Text} (ht : IsTaken style t)
    (hu : IsTaken style u) : IsTaken style (t ++ ' ' :: c :: ' ' :: u) := by
  intro s d taken n q rest hescaped hends
  have hprint : (t ++ ' ' :: c :: ' ' :: u) ++ rest = t ++ ' ' :: c :: ' ' :: (u ++ rest) := by simp
  simp only [List.mem_cons, List.not_mem_nil, or_false] at hc
  have hsign : EndsType (' ' :: c :: ' ' :: (u ++ rest)) := by
    rcases hc with rfl | rfl <;> exact endsType_space_sign _ (by decide)
  have hneutral : ∀ taken rest, run style (inType s d taken n q (c :: rest)) =
      run style (inType s d (c :: taken) n q rest) := by
    rcases hc with rfl | rfl <;>
      exact fun _ _ => run_neutral (quiet_of_sign (by decide)) (by decide)
  rw [hprint, ht s d taken n q _ hescaped fun _ _ => hsign, run_space, hneutral, run_space,
    hu s d _ n q rest (by simp) hends]
  simp

theorem conditional {checked bound positive negative : Text} (hchecked : IsTaken style checked)
    (hbound : IsTaken style bound) (hpositive : IsTaken style positive)
    (hnegative : IsTaken style negative) (hb : HasTypeEnds bound) (hp : HasTypeEnds positive) :
    IsTaken style (checked ++ ' ' :: ("extends".toList ++ ' ' :: (bound ++ ' ' :: '?' :: ' ' ::
      (positive ++ ' ' :: ':' :: ' ' :: negative)))) := by
  intro s d taken n q rest hescaped hends
  have hprint : (checked ++ ' ' :: ("extends".toList ++ ' ' :: (bound ++ ' ' :: '?' :: ' ' ::
      (positive ++ ' ' :: ':' :: ' ' :: negative)))) ++ rest =
        checked ++ ' ' :: ("extends".toList ++ ' ' :: (bound ++ ' ' :: '?' :: ' ' ::
          (positive ++ ' ' :: ':' :: ' ' :: (negative ++ rest)))) := by simp
  -- Between its signs a conditional is open, or brackets are: nobody looks for a member there.
  obtain ⟨q', hq', hquestion, hcolon⟩ := run_conditional_sign style s d n q
  rw [hprint, hchecked s d taken n q _ hescaped fun _ _ => endsType_extends hb _, run_space,
    run_word ⟨"extends".toList, by decide⟩ (quiet_extends hb _), run_space,
    hbound s d _ n q _ (by simp) fun _ _ => endsType_question hp _, run_space, hquestion, run_space,
    hpositive s d _ n q' _ (by simp) fun hn hq => absurd hq (hq' hn), run_space, hcolon, run_space,
    hnegative s d _ n q rest (by simp) hends]
  simp

end IsTaken

/-- A type is taken up as a whole. -/
theorem isTaken_typeText {keys : List Text} {t : Text} (h : IsTypeText keys t) :
    IsTaken style t := by
  induction h with
  | name w _ => exact .word w
  | literal l => exact .literal l
  | generic w _ types ih => exact .generic w (fun t ht => (types t ht).hasTypeEnds) ih
  | array _ ih => exact ih.array
  | tuple _ ih => exact .tuple ih
  | empty => exact .empty
  | object _ _ closed ih => exact .object ih closed
  | function _ _ _ ih hresult => exact .function ih hresult
  | union _ _ hleft hright => exact hleft.joined (by decide) hright
  | intersection _ _ hleft hright => exact hleft.joined (by decide) hright
  | conditional _ hb hp _ hchecked hbound hpositive hnegative =>
      exact hchecked.conditional hbound hpositive hnegative hb.hasTypeEnds hp.hasTypeEnds

end ComponentProps.Member.Scan
