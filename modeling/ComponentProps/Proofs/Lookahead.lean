import ComponentProps.Member.Lookahead
import ComponentProps.Proofs.TypeSyntax
import Mathlib.Data.List.TakeWhile

/-!
# What the look for the next member sees

The look ahead of a place passes a word, spaces and perhaps a question mark, and then wants a colon.
It is bounded: what it cannot pass within its reach counts as no member. A word within a type is
never followed by a colon in this way, and the name of a member is, if it is not too long.
-/

namespace ComponentProps.Member

open Text

/-- Spaces that may stand between the words of a member. -/
def isGap (c : Char) : Bool := c == ' ' || c == '\t'

/-- Neither a colon nor a question mark and a colon come next, spaces aside. -/
structure NoColon (rest : Text) : Prop where
  plain : (rest.dropWhile isGap).head? ≠ some ':'
  marked : ∀ more, rest.dropWhile isGap = '?' :: more → (more.dropWhile isGap).head? ≠ some ':'

/-- What may follow a type: it ends the last word, and that word does not look like the name of a
member, not even if it is a modifier. -/
structure EndsType (rest : Text) : Prop where
  word : ∀ c, rest.head? = some c → isIdentChar c = false
  noColon : NoColon rest
  noName : ∀ c more, rest.dropWhile isGap = c :: more → isIdentStart c = true →
    NoColon (more.dropWhile isIdentChar)

theorem isGap_false {c : Char} (h1 : c ≠ ' ') (h2 : c ≠ '\t') : isGap c = false := by
  simp [isGap, h1, h2]

/-- A sign that goes on neither a name nor a member. -/
def IsTypeEnd (c : Char) : Prop :=
  isIdentChar c = false ∧ isGap c = false ∧ c ≠ ':' ∧ c ≠ '?'

instance (c : Char) : Decidable (IsTypeEnd c) := inferInstanceAs (Decidable (_ ∧ _))

theorem endsType_sign {c : Char} (rest : Text) (hc : IsTypeEnd c) :
    EndsType (c :: rest) := by
  obtain ⟨hident, hgap, hcolon, hmark⟩ := hc
  have hdrop : (c :: rest).dropWhile isGap = c :: rest := by simp [hgap]
  refine ⟨by simpa using hident, ⟨by simpa [hdrop] using hcolon, ?_⟩, ?_⟩
  · intro more heq
    rw [hdrop] at heq
    exact absurd (List.cons.inj heq).1 hmark
  · intro d more heq hd
    rw [hdrop] at heq
    obtain rfl := (List.cons.inj heq).1
    rw [isIdentChar_of_isIdentStart hd] at hident
    contradiction

/-- A space and a sign end a type. -/
theorem endsType_space_sign {c : Char} (rest : Text) (hc : IsTypeEnd c) :
    EndsType (' ' :: c :: rest) := by
  obtain ⟨hident, hgap, hcolon, hmark⟩ := hc
  have hdrop : (' ' :: c :: rest).dropWhile isGap = c :: rest := by
    rw [List.dropWhile_cons_of_pos (by decide), List.dropWhile_cons_of_neg (by simp [hgap])]
  refine ⟨?_, ⟨by simpa [hdrop] using hcolon, ?_⟩, ?_⟩
  · intro d hd
    obtain rfl : ' ' = d := by simpa using hd
    decide
  · intro more heq
    rw [hdrop] at heq
    exact absurd (List.cons.inj heq).1 hmark
  · intro d more heq hd
    rw [hdrop] at heq
    obtain rfl := (List.cons.inj heq).1
    rw [isIdentChar_of_isIdentStart hd] at hident
    contradiction

theorem dropWhile_space_type {t : Text} (ht : HasTypeEnds t) (more : Text) :
    ∃ c rest, (' ' :: (t ++ more)).dropWhile isGap = c :: rest ∧ opensType c = true := by
  obtain ⟨c, rest, rfl, hc⟩ := ht.first
  have hgap : isGap c = false :=
    isGap_false (ne_of_kind hc rfl) (ne_of_kind hc rfl)
  refine ⟨c, rest ++ more, ?_, hc⟩
  rw [List.dropWhile_cons_of_pos (by decide), List.cons_append,
    List.dropWhile_cons_of_neg (by simp [hgap])]

theorem noColon_space_type {t : Text} (ht : HasTypeEnds t) (more : Text) :
    NoColon (' ' :: (t ++ more)) := by
  obtain ⟨c, rest, hdrop, hc⟩ := dropWhile_space_type ht more
  have hcolon : c ≠ ':' := ne_of_kind hc rfl
  have hmark : c ≠ '?' := ne_of_kind hc rfl
  refine ⟨by simpa [hdrop] using hcolon, ?_⟩
  intro more' heq
  rw [hdrop] at heq
  exact absurd (List.cons.inj heq).1 hmark

/-- A type is followed by the question mark of a conditional. -/
theorem endsType_question {t : Text} (ht : HasTypeEnds t) (more : Text) :
    EndsType (' ' :: '?' :: ' ' :: (t ++ more)) := by
  have hdrop : (' ' :: '?' :: ' ' :: (t ++ more)).dropWhile isGap =
      '?' :: ' ' :: (t ++ more) := by
    rw [List.dropWhile_cons_of_pos (by decide), List.dropWhile_cons_of_neg (by decide)]
  refine ⟨?_, ⟨by simp [hdrop], ?_⟩, ?_⟩
  · intro c hc
    rw [← show ' ' = c by simpa using hc]
    decide
  · intro more' heq
    rw [hdrop] at heq
    rw [← (List.cons.inj heq).2]
    exact (noColon_space_type ht more).plain
  · intro c more' heq hc
    rw [hdrop] at heq
    rw [← (List.cons.inj heq).1] at hc
    contradiction

/-- A type is followed by the keyword of a conditional. -/
theorem endsType_extends {t : Text} (ht : HasTypeEnds t) (more : Text) :
    EndsType (' ' :: ("extends".toList ++ ' ' :: (t ++ more))) := by
  have hdrop : (' ' :: ("extends".toList ++ ' ' :: (t ++ more))).dropWhile isGap =
      'e' :: ("xtends".toList ++ ' ' :: (t ++ more)) := by
    rw [List.dropWhile_cons_of_pos (by decide)]
    rfl
  refine ⟨?_, ⟨by rw [hdrop]; simp, ?_⟩, ?_⟩
  · intro c hc
    rw [← show ' ' = c by simpa using hc]
    decide
  · intro more' heq
    rw [hdrop] at heq
    exact absurd (List.cons.inj heq).1 (by decide)
  · intro c more' heq _
    rw [hdrop] at heq
    rw [← (List.cons.inj heq).2, List.dropWhile_append_of_pos (List.all_eq_true.mp (by decide)),
      List.dropWhile_cons_of_neg (by decide)]
    exact noColon_space_type ht more

/-! ### Bounded moves -/

/-- Within a bound either all characters of a kind are passed or one of them comes next. -/
theorem takeWhile_take_cases (p : Char → Bool) (bound : Nat) (t : Text) :
    (((t.take bound).takeWhile p).length = (t.takeWhile p).length ∧
        t.drop ((t.take bound).takeWhile p).length = t.dropWhile p) ∨
      (((t.take bound).takeWhile p).length = bound ∧
        ∃ c more, t.drop bound = c :: more ∧ p c = true) := by
  rw [← List.take_takeWhile, List.length_take]
  have hsplit : t.takeWhile p ++ t.dropWhile p = t := List.takeWhile_append_dropWhile
  rcases Nat.lt_or_ge bound (t.takeWhile p).length with h | h
  · right
    refine ⟨Nat.min_eq_left (Nat.le_of_lt h), ?_⟩
    obtain ⟨c, more, hdrop⟩ : ∃ c more, (t.takeWhile p).drop bound = c :: more :=
      List.exists_cons_of_ne_nil (by simpa using h)
    have hc : c ∈ t.takeWhile p := List.mem_of_mem_drop (hdrop ▸ List.mem_cons_self)
    refine ⟨c, more ++ t.dropWhile p, ?_, List.mem_takeWhile_imp hc⟩
    calc
      t.drop bound = (t.takeWhile p ++ t.dropWhile p).drop bound := by rw [hsplit]
      _ = (t.takeWhile p).drop bound ++ t.dropWhile p :=
          List.drop_append_of_le_length (Nat.le_of_lt h)
      _ = c :: (more ++ t.dropWhile p) := by rw [hdrop, List.cons_append]
  · left
    refine ⟨Nat.min_eq_right h, ?_⟩
    rw [Nat.min_eq_right h]
    calc
      t.drop (t.takeWhile p).length
        = (t.takeWhile p ++ t.dropWhile p).drop (t.takeWhile p).length := by rw [hsplit]
      _ = t.dropWhile p := List.drop_left

namespace Look

theorem used_le_spaces (l : Look) : l.used ≤ l.spaces.used :=
  Nat.le_add_right _ _

theorem used_le_mark (l : Look) : l.used ≤ l.mark.used := by
  unfold mark
  split
  · exact Nat.le_trans (Nat.le_add_right l.used 1) (used_le_spaces (l.pass 1))
  · exact Nat.le_refl _

/-- The spaces are passed, or the reach ends among them. -/
theorem spaces_cases (l : Look) :
    l.spaces.rest = l.rest.dropWhile isGap ∨
      reach ≤ l.spaces.used ∧ ∃ c more, l.spaces.rest = c :: more ∧ isGap c = true := by
  rcases takeWhile_take_cases isGap (reach - l.used) l.rest with ⟨-, h⟩ | ⟨hn, h⟩
  · exact Or.inl h
  · right
    have hspaces : l.spaces = l.pass (reach - l.used) := congrArg l.pass hn
    rw [hspaces]
    refine ⟨?_, h⟩
    change reach ≤ l.used + (reach - l.used)
    omega

theorem endsName_of_reach {l : Look} (h : reach ≤ l.used) : l.endsName = false := by
  have h1 := used_le_spaces l
  have h2 := used_le_mark l.spaces
  have hfar : ¬ l.spaces.mark.used < reach := by omega
  simp [endsName, hfar]

theorem endsName_of_noColon {l : Look} (h : NoColon l.rest) : l.endsName = false := by
  rcases spaces_cases l with hs | ⟨hfar, -⟩
  · have hend : l.spaces.mark.used < reach → l.spaces.mark.rest.head? ≠ some ':' := by
      intro hused
      unfold mark at hused ⊢
      split
      · rename_i hmark
        rw [if_pos hmark] at hused
        obtain ⟨more, hmore⟩ : ∃ more, l.rest.dropWhile isGap = '?' :: more := by
          rw [hs, beq_iff_eq] at hmark
          exact List.head?_eq_some_iff.mp hmark
        have hpass : (l.spaces.pass 1).rest = more := by
          change l.spaces.rest.drop 1 = more
          rw [hs, hmore]
          rfl
        rcases spaces_cases (l.spaces.pass 1) with hs' | ⟨hfar, -⟩
        · rw [hs', hpass]
          exact h.marked more hmore
        · omega
      · rw [hs]
        exact h.plain
    unfold endsName
    by_cases hused : l.spaces.mark.used < reach
    · simpa [hused] using hend hused
    · simp [hused]
  · have h2 := used_le_mark l.spaces
    have : ¬ l.spaces.mark.used < reach := by omega
    simp [endsName, this]

/-- A word is passed, or the reach ends in it. -/
theorem word_cases {l : Look} {c : Char} {more : Text} (hl : l.rest = c :: more)
    (hc : isQuote c = false) :
    l.word = ⟨l.used + (l.rest.takeWhile isIdentChar).length, l.rest.dropWhile isIdentChar⟩ ∨
      (reach ≤ l.word.used ∧ l.word.used = l.used + reach ∧ reach < l.rest.length) := by
  have hlength : wordLength l.rest = ((l.rest.take reach).takeWhile isIdentChar).length := by
    simp [hl, wordLength, hc]
  rcases takeWhile_take_cases isIdentChar reach l.rest with ⟨hn, hdrop⟩ | ⟨hn, d, more', hdrop, -⟩
  · left
    rw [word, hlength, pass, hdrop, hn]
  · right
    have hused : l.word.used = l.used + reach := by
      rw [word, hlength, hn]
      rfl
    refine ⟨by omega, hused, ?_⟩
    have := congrArg List.length hdrop
    simp only [List.length_drop, List.length_cons] at this
    omega

end Look

/-! ### Words within a type -/

/-- The look at a text that begins with a word or a literal. -/
theorem startsMember_eq {c : Char} {more ahead : Text} (ha : ahead = c :: more)
    (hc : isIdentStart c = true ∨ isQuote c = true) :
    startsMember ahead =
      if ahead.take (Look.mk 0 ahead).word.used = "readonly".toList then
        match (Look.mk 0 ahead).word.spaces.rest with
        | [] => false
        | d :: _ => isIdentStart d && (Look.mk 0 ahead).word.spaces.word.endsName
      else (Look.mk 0 ahead).word.endsName := by
  subst ha
  have hstart : (isIdentStart c || isQuote c) = true := by simpa using hc
  exact if_pos hstart

theorem startsMember_sign {c : Char} (h1 : isIdentStart c = false) (h2 : isQuote c = false)
    (rest : Text) : startsMember (c :: rest) = false := by
  simp [startsMember, h1, h2]

theorem takeWhile_word {word rest : Text} (hw : ∀ c ∈ word, isIdentChar c = true)
    (hr : ∀ c, rest.head? = some c → isIdentChar c = false) :
    (word ++ rest).takeWhile isIdentChar = word ∧ (word ++ rest).dropWhile isIdentChar = rest := by
  cases rest with
  | nil => simpa using hw
  | cons c rest =>
      have hc := hr c rfl
      rw [List.takeWhile_append_of_pos hw, List.dropWhile_append_of_pos hw]
      simp [hc]

/-- A modifier and another word are not taken for the start of a member where no colon follows. -/
theorem endsName_after_modifier {l : Look}
    (h : ∀ c more, l.rest.dropWhile isGap = c :: more → isIdentStart c = true →
      NoColon (more.dropWhile isIdentChar)) {c : Char} {more : Text}
    (hl : l.spaces.rest = c :: more) (hc : isIdentStart c = true) :
    l.spaces.word.endsName = false := by
  have hident := isIdentChar_of_isIdentStart hc
  have hquote : isQuote c = false := (isPlain_of_isIdentChar hident).1
  rcases Look.spaces_cases l with hs | ⟨-, d, more', hd, hgap⟩
  · rcases Look.word_cases hl hquote with hword | ⟨hfar, -, -⟩
    · apply Look.endsName_of_noColon
      rw [hword, hl, List.dropWhile_cons_of_pos hident]
      exact h c more (hs ▸ hl) hc
    · exact Look.endsName_of_reach hfar
  · obtain rfl : c = d := by
      rw [hl] at hd
      exact (List.cons.inj hd).1
    have hno : isIdentStart c = false := by
      simp only [isGap, Bool.or_eq_true, beq_iff_eq] at hgap
      rcases hgap with rfl | rfl <;> decide
    rw [hc] at hno
    contradiction

theorem startsMember_word (n : Identifier) {rest : Text}
    (hword : ∀ c, rest.head? = some c → isIdentChar c = false) (hcolon : NoColon rest)
    (hname : n.text = "readonly".toList → ∀ c more, rest.dropWhile isGap = c :: more →
      isIdentStart c = true → NoColon (more.dropWhile isIdentChar)) :
    startsMember (n.text ++ rest) = false := by
  obtain ⟨c, more, htext, hstart, hall⟩ := n.exists_cons
  have hquote : isQuote c = false := (n.isPlain_of_mem (by simp [htext])).1
  obtain ⟨htake, hdrop⟩ := takeWhile_word hall hword
  have hcons : n.text ++ rest = c :: (more ++ rest) := by rw [htext, List.cons_append]
  have hahead : (Look.mk 0 (n.text ++ rest)).rest = c :: (more ++ rest) := hcons
  rw [startsMember_eq hcons (Or.inl hstart)]
  rcases Look.word_cases hahead hquote with hpassed | ⟨hfar, hused, hlong⟩
  · rw [htake, hdrop, Nat.zero_add] at hpassed
    rw [hpassed]
    split
    · rename_i hmodifier
      rw [List.take_left] at hmodifier
      split
      · rfl
      · rename_i c' tail' hrest
        by_cases hc' : isIdentStart c' = true
        · simpa [hc'] using
            endsName_after_modifier (l := ⟨n.text.length, rest⟩) (hname hmodifier) hrest hc'
        · simp [hc']
    · exact Look.endsName_of_noColon hcolon
  · have hnot : (n.text ++ rest).take (Look.mk 0 (n.text ++ rest)).word.used ≠
        "readonly".toList := by
      intro heq
      have hlen := congrArg List.length heq
      rw [hused, List.length_take] at hlen
      have hreach : reach = 128 := rfl
      have height : "readonly".toList.length = 8 := rfl
      dsimp only at hlong hlen
      omega
    rw [if_neg hnot]
    exact Look.endsName_of_reach hfar

theorem startsMember_of_endsType (n : Identifier) {rest : Text} (h : EndsType rest) :
    startsMember (n.text ++ rest) = false :=
  startsMember_word n h.word h.noColon fun _ => h.noName

/-- A literal is passed as a whole unless the reach ends in it. -/
theorem wordLength_literal (l : StringLiteral) (rest : Text) :
    Look.wordLength (l.print ++ rest) =
      if l.content.length < reach - 1 then l.content.length + 2 else reach := by
  have hprint : l.print ++ rest = l.quote :: (l.content ++ l.quote :: rest) := by
    simp [StringLiteral.print]
  have hall : ∀ c ∈ l.content, (c != l.quote) = true := fun c hc => by
    simpa using (l.ne_of_mem hc).1
  have htake : (l.content ++ l.quote :: rest).takeWhile (· != l.quote) = l.content := by
    rw [List.takeWhile_append_of_pos hall]
    simp
  have hinner : (((l.content ++ l.quote :: rest).take (reach - 1)).takeWhile
      (· != l.quote)).length = min (reach - 1) l.content.length := by
    rw [← List.take_takeWhile, List.length_take, htake]
  have hreach : reach = 128 := rfl
  simp only [hprint, Look.wordLength, l.isQuote, if_true, hinner, List.length_append,
    List.length_cons]
  split <;> split <;> omega

theorem startsMember_literal (l : StringLiteral) {rest : Text} (h : EndsType rest) :
    startsMember (l.print ++ rest) = false := by
  have hprint : l.print ++ rest = l.quote :: (l.content ++ l.quote :: rest) := by
    simp [StringLiteral.print]
  have hlength := wordLength_literal l rest
  have hnot : ∀ n, (l.print ++ rest).take (n + 1) ≠ "readonly".toList := by
    intro n heq
    have hr : l.quote = 'r' := by
      rw [hprint, List.take_succ_cons] at heq
      exact (List.cons.inj heq).1
    have hq := l.isQuote
    rw [hr] at hq
    contradiction
  have hword : (Look.mk 0 (l.print ++ rest)).word.endsName = false := by
    unfold Look.word Look.pass
    simp only [hlength, Nat.zero_add]
    split
    · apply Look.endsName_of_noColon
      have hdrop : (l.print ++ rest).drop (l.content.length + 2) = rest := by
        have hlen : l.print.length = l.content.length + 2 := by simp [StringLiteral.print]
        rw [← hlen, List.drop_left]
      rw [hdrop]
      exact h.noColon
    · exact Look.endsName_of_reach (Nat.le_refl _)
  obtain ⟨n, hn⟩ : ∃ n, (Look.mk 0 (l.print ++ rest)).word.used = n + 1 := by
    have hused : (Look.mk 0 (l.print ++ rest)).word.used = Look.wordLength (l.print ++ rest) :=
      Nat.zero_add _
    rw [hused, hlength]
    split
    · exact ⟨_, rfl⟩
    · exact ⟨127, rfl⟩
  rw [startsMember_eq hprint (Or.inr l.isQuote), hn, if_neg (hnot n)]
  exact hword

/-! ### The name of a member -/

/-- The name of a member that is not too long is recognised. -/
theorem endsName_of_mark (optional : Bool) (used : Nat) (h : used + 1 < reach) (rest : Text) :
    (Look.mk used (printMark optional ++ ':' :: rest)).endsName = true := by
  have hcolon : ∀ (used : Nat) (rest : Text),
      (Look.mk used (':' :: rest)).spaces = Look.mk used (':' :: rest) := by
    intro used rest
    unfold Look.spaces Look.pass
    cases hk : reach - used with
    | zero => simp
    | succ k => simp
  cases optional with
  | false =>
      have hplain : printMark false ++ ':' :: rest = ':' :: rest := rfl
      have hused : used < reach := by omega
      simp [hplain, Look.endsName, hcolon, Look.mark, hused]
  | true =>
      have hmarked : printMark true ++ ':' :: rest = '?' :: ':' :: rest := rfl
      have hspaces : (Look.mk used ('?' :: ':' :: rest)).spaces =
          Look.mk used ('?' :: ':' :: rest) := by
        unfold Look.spaces Look.pass
        cases hk : reach - used with
        | zero => simp
        | succ k => simp
      have hpass : (Look.mk used ('?' :: ':' :: rest)).pass 1 = Look.mk (used + 1) (':' :: rest) :=
        rfl
      simp [hmarked, Look.endsName, hspaces, Look.mark, hpass, hcolon, h]

theorem word_of_short {word tail : Text} (hword : isIdentifier word = true)
    (hshort : word.length ≤ reach) (htail : ∀ c, tail.head? = some c → isIdentChar c = false)
    (used : Nat) : (Look.mk used (word ++ tail)).word = ⟨used + word.length, tail⟩ := by
  obtain ⟨c, more, htext, -, hall⟩ := (Identifier.mk word hword).exists_cons
  dsimp only at htext hall
  have hquote : isQuote c = false := (isPlain_of_isIdentChar (hall c (by simp [htext]))).1
  have hlength : Look.wordLength (word ++ tail) = word.length := by
    have hbounded : Look.wordLength (word ++ tail) =
        (((word ++ tail).take reach).takeWhile isIdentChar).length := by
      simp [htext, Look.wordLength, hquote]
    rw [hbounded, ← List.take_takeWhile, (takeWhile_word hall htail).1, List.length_take,
      Nat.min_eq_right hshort]
  rw [Look.word, Look.pass, hlength, List.drop_left]

/-- The modifier before a name. -/
def printModifier (readonly : Bool) : Text := if readonly then "readonly ".toList else []

theorem head?_mark_colon {optional : Bool} {rest : Text} {c : Char}
    (h : (printMark optional ++ ':' :: rest).head? = some c) : isIdentChar c = false := by
  cases optional with
  | false =>
      obtain rfl : ':' = c := by simpa [printMark] using h
      decide
  | true =>
      obtain rfl : '?' = c := by simpa [printMark] using h
      decide

/-- A member is recognised by its name, with or without a modifier. -/
theorem startsMember_member (n : Identifier) (hshort : n.text.length ≤ 100)
    (hname : n.text ≠ "readonly".toList) (readonly optional : Bool) (rest : Text) :
    startsMember (printModifier readonly ++ (n.text ++ (printMark optional ++ ':' :: rest))) =
      true := by
  have hreach : reach = 128 := rfl
  obtain ⟨c, more, htext, hstart, hall⟩ := n.exists_cons
  have hfirst : ∀ used, (Look.mk used (n.text ++ (printMark optional ++ ':' :: rest))).word =
      ⟨used + n.text.length, printMark optional ++ ':' :: rest⟩ := fun used =>
    word_of_short n.valid (by omega) (fun _ h => head?_mark_colon h) used
  cases readonly with
  | false =>
      have hprint : printModifier false ++ (n.text ++ (printMark optional ++ ':' :: rest)) =
          n.text ++ (printMark optional ++ ':' :: rest) := rfl
      rw [hprint]
      have hcons : n.text ++ (printMark optional ++ ':' :: rest) =
          c :: (more ++ (printMark optional ++ ':' :: rest)) := by rw [htext, List.cons_append]
      rw [startsMember_eq hcons (Or.inl hstart)]
      simp only [hfirst, Nat.zero_add, List.take_left, if_neg hname]
      exact endsName_of_mark optional _ (by omega) rest
  | true =>
      have hprint : printModifier true ++ (n.text ++ (printMark optional ++ ':' :: rest)) =
          "readonly".toList ++ (' ' :: (n.text ++ (printMark optional ++ ':' :: rest))) := rfl
      have hmodifier : (Look.mk 0 ("readonly".toList ++
          (' ' :: (n.text ++ (printMark optional ++ ':' :: rest))))).word =
            ⟨8, ' ' :: (n.text ++ (printMark optional ++ ':' :: rest))⟩ :=
        word_of_short (by decide) (by decide)
          (fun c hc => by rw [← show ' ' = c by simpa using hc]; decide) 0
      have hspaces : (Look.mk 8 (' ' :: (n.text ++ (printMark optional ++ ':' :: rest)))).spaces =
          ⟨9, n.text ++ (printMark optional ++ ':' :: rest)⟩ := by
        have hgap : (c == ' ' || c == '\t') = false := by
          have h1 : c ≠ ' ' := ne_of_kind (isIdentChar_of_isIdentStart hstart) rfl
          have h2 : c ≠ '\t' := ne_of_kind (isIdentChar_of_isIdentStart hstart) rfl
          simp [h1, h2]
        simp [Look.spaces, Look.pass, hreach, htext, hgap]
      rw [hprint, startsMember_eq (show "readonly".toList ++ _ = 'r' :: ("eadonly".toList ++ _)
        from rfl) (Or.inl (by decide))]
      simp only [hmodifier, hspaces, hfirst]
      rw [if_pos (by simp)]
      simp only [htext, List.cons_append, hstart, Bool.true_and]
      exact endsName_of_mark optional _ (by simp only [← htext]; omega) rest

end ComponentProps.Member
