import ComponentProps.Proofs.MemberScan
import Mathlib.Logic.Function.Iterate

/-!
# Type bodies one after another

A semicolon that stands outside everything else ends a member, whatever part of it is being read,
and so does a curly bracket that closes nothing. The scanner looks ahead of its place for comment
signs, for what follows a question mark and for the next member, and it looks back for backslashes
and arrows. None of these looks goes past such an end, with one exception: the look for the next
member passes over a quoted name, and a quote that is not closed before the end would lead it
further. Such a quote leaves a literal or a quoted name open, so it does not occur where everything
is closed in the end.
-/

namespace ComponentProps.Member

open Text

/-! ### Looks do not go past the end of a member -/

/-- The signs that a look waits for. -/
def lookSigns : List Char := ['/', '*', ':', '?', '(', '<']

/-- A text that is not there or begins with a character that is neither passed nor waited for by a
look, the end of a word aside. -/
def IsStop (tail : Text) : Prop :=
  ∀ c, tail.head? = some c → isWhite c = false ∧ c ∉ lookSigns

/-- A text that is not there or begins with a semicolon or a closing bracket. -/
def IsTail (tail : Text) : Prop := ∀ c, tail.head? = some c → c = ';' ∨ c = '}'

theorem isTail_nil : IsTail [] := by simp [IsTail]

theorem isTail_semicolon (t : Text) : IsTail (';' :: t) := by simp [IsTail]

theorem isTail_bracket (t : Text) : IsTail ('}' :: t) := by simp [IsTail]

theorem IsTail.isStop {tail : Text} (ht : IsTail tail) : IsStop tail := by
  intro c hc
  obtain rfl | rfl := ht c hc <;> decide

theorem IsTail.endsWord {tail : Text} (ht : IsTail tail) :
    ∀ c, tail.head? = some c → isIdentChar c = false := by
  intro c hc
  obtain rfl | rfl := ht c hc <;> decide

theorem takeWhile_append_of_head {p : Char → Bool} {tail : Text}
    (hp : ∀ c, tail.head? = some c → p c = false) (t : Text) :
    (t ++ tail).takeWhile p = t.takeWhile p := by
  induction t with
  | cons c t ih => simp [List.takeWhile_cons, ih]
  | nil =>
      cases tail with
      | nil => rfl
      | cons c tail => simp [hp c rfl]

theorem takeWhile_take_append_of_head {p : Char → Bool} {tail : Text}
    (hp : ∀ c, tail.head? = some c → p c = false) (n : Nat) (t : Text) :
    ((t ++ tail).take n).takeWhile p = (t.take n).takeWhile p := by
  rw [← List.take_takeWhile, ← List.take_takeWhile, takeWhile_append_of_head hp]

theorem length_takeWhile_lt {p : Char → Bool} {c : Char} {t : Text} (hc : c ∈ t)
    (hp : p c = false) : (t.takeWhile p).length < t.length := by
  refine Nat.lt_of_le_of_ne (List.takeWhile_sublist _).length_le fun hall => ?_
  have hsame := (List.takeWhile_prefix p (l := t)).eq_of_length hall
  rw [List.takeWhile_eq_self_iff.mp hsame c hc] at hp
  contradiction

theorem takeWhile_append_of_mem {p : Char → Bool} {c : Char} {t : Text} (hc : c ∈ t)
    (hp : p c = false) (tail : Text) : (t ++ tail).takeWhile p = t.takeWhile p := by
  rw [List.takeWhile_append, if_neg (Nat.ne_of_lt (length_takeWhile_lt hc hp))]

section Stop

variable {tail : Text} (ht : IsStop tail)

include ht

theorem endsSlash_stop : EndsSlash tail := by
  constructor
  · intro h
    exact absurd (ht _ h).2 (by decide)
  · intro h
    exact absurd (ht _ h).2 (by decide)

theorem head?_append_stop {e : Char} (he : e ∈ lookSigns) (t : Text) :
    ((t ++ tail).head? == some e) = (t.head? == some e) := by
  cases t with
  | cons c t => rfl
  | nil =>
      cases tail with
      | nil => rfl
      | cons c tail =>
          have hne : c ≠ e := by
            rintro rfl
            exact (ht c rfl).2 he
          simpa using hne

/-- The sign of a doc comment is seen whole or not at all. -/
theorem docSign_append_stop (t : Text) :
    ("**".toList.isPrefixOf (t ++ tail) && (t ++ tail)[2]? != some '/') =
      ("**".toList.isPrefixOf t && t[2]? != some '/') := by
  match t, tail with
  | t, [] => rw [List.append_nil]
  | d :: e :: f :: t, c :: tail => rfl
  | [], c :: tail =>
      have hc : c ≠ '*' := fun heq => (ht c rfl).2 (heq ▸ by decide)
      simp [List.isPrefixOf, Ne.symm hc]
  | [d], c :: tail =>
      have hc : c ≠ '*' := fun heq => (ht c rfl).2 (heq ▸ by decide)
      simp [List.isPrefixOf, Ne.symm hc]
  | [d, e], c :: tail =>
      have hc : (some c != some '/') = true := by
        simpa using fun heq : c = '/' => (ht c rfl).2 (heq ▸ by decide)
      exact congrArg ("**".toList.isPrefixOf [d, e] && ·) hc

/-- What follows a question mark is looked for before the end, which is no such thing. -/
theorem firstVisible?_append_stop (n : Nat) (t : Text) :
    firstVisible? ((t ++ tail).take n) = firstVisible? (t.take n) ∨
      (∃ e, e ∉ lookSigns ∧ firstVisible? ((t ++ tail).take n) = some e) ∧
        firstVisible? (t.take n) = none := by
  rw [List.take_append, firstVisible?, firstVisible?, List.find?_append]
  cases hfirst : (t.take n).find? fun c => !isWhite c with
  | some c => exact Or.inl rfl
  | none =>
      rw [Option.none_or]
      cases tail with
      | nil => exact Or.inl (by simp)
      | cons c tail =>
          obtain ⟨hvisible, hsign⟩ := ht c rfl
          cases n - t.length with
          | zero => exact Or.inl rfl
          | succ k => exact Or.inr ⟨⟨c, hsign, by simp [hvisible]⟩, rfl⟩

end Stop

namespace Look

/-- A look at a text with more behind it. -/
def before (tail : Text) (l : Look) : Look := ⟨l.used, l.rest ++ tail⟩

theorem pass_before {l : Look} {n : Nat} (h : n ≤ l.rest.length) (tail : Text) :
    (l.before tail).pass n = (l.pass n).before tail := by
  simp only [before, pass, List.drop_append_of_le_length h]

section Stop

variable {tail : Text} (ht : IsStop tail)

include ht

theorem spaces_before (l : Look) : (l.before tail).spaces = l.spaces.before tail := by
  have hle : ((l.rest.take (reach - l.used)).takeWhile isGap).length ≤ l.rest.length :=
    ((List.takeWhile_sublist _).trans (List.take_sublist _ _)).length_le
  have hgap : ∀ c, tail.head? = some c → isGap c = false := by
    intro c hc
    have hvisible := (ht c hc).1
    refine isGap_false ?_ ?_
    · rintro rfl
      contradiction
    · rintro rfl
      contradiction
  have htake := takeWhile_take_append_of_head hgap (reach - l.used) l.rest
  calc (l.before tail).spaces
      = (l.before tail).pass ((l.rest.take (reach - l.used)).takeWhile isGap).length :=
        congrArg (fun t : Text => (l.before tail).pass t.length) htake
    _ = l.spaces.before tail := pass_before hle tail

theorem mark_before (l : Look) : (l.before tail).mark = l.mark.before tail := by
  have hhead : ((l.before tail).rest.head? == some '?') = (l.rest.head? == some '?') :=
    head?_append_stop ht (by decide) l.rest
  unfold mark
  rw [hhead]
  split
  · rename_i hmark
    have hle : 1 ≤ l.rest.length := by
      cases hrest : l.rest with
      | nil => simp [hrest] at hmark
      | cons c rest => simp
    rw [pass_before hle, spaces_before ht]
  · rfl

theorem endsName_before (l : Look) : (l.before tail).endsName = l.endsName := by
  unfold endsName
  rw [spaces_before ht, mark_before ht]
  exact congrArg (decide (l.spaces.mark.used < reach) && ·) (head?_append_stop ht (by decide) _)

end Stop

/-- The word that a text begins with, if any, does not go on into what follows the text. -/
def EndsWord (t tail : Text) : Prop :=
  (t ++ tail).takeWhile isIdentChar = t.takeWhile isIdentChar

/-- A name ends before the end of its member, also if it is quoted and the quote is closed. -/
theorem wordLength_append {tail : Text} {c : Char} {t : Text} (hc : isQuote c = true → c ∈ t)
    (hword : EndsWord (c :: t) tail) :
    wordLength (c :: (t ++ tail)) = wordLength (c :: t) ∧
      wordLength (c :: t) ≤ (c :: t).length := by
  unfold wordLength
  by_cases hquote : isQuote c = true
  · have hself : (c != c) = false := by simp
    have hinner : (t ++ tail).takeWhile (· != c) = t.takeWhile (· != c) :=
      takeWhile_append_of_mem (p := (· != c)) (hc hquote) hself tail
    have hless : (t.takeWhile (· != c)).length < t.length :=
      length_takeWhile_lt (p := (· != c)) (hc hquote) hself
    simp only [hquote, if_true, ← List.take_takeWhile, hinner, List.length_take,
      List.length_append, List.length_cons]
    constructor
    · congr 1
      simp only [eq_iff_iff]
      omega
    · split <;> omega
  · have hident : ((c :: (t ++ tail)).take reach).takeWhile isIdentChar =
        ((c :: t).take reach).takeWhile isIdentChar := by
      rw [← List.take_takeWhile, ← List.take_takeWhile, ← List.cons_append, hword]
    simp only [hquote, hident]
    exact ⟨rfl, ((List.takeWhile_sublist _).trans (List.take_sublist _ _)).length_le⟩

theorem word_before {tail : Text} {l : Look} {c : Char} {t : Text} (hl : l.rest = c :: t)
    (hc : isQuote c = true → c ∈ t) (hword : EndsWord l.rest tail) :
    (l.before tail).word = l.word.before tail := by
  rw [hl] at hword
  obtain ⟨hlength, hle⟩ := wordLength_append hc hword
  have hbefore : (l.before tail).rest = c :: (t ++ tail) := by rw [before, hl, List.cons_append]
  rw [word, hbefore, hlength, pass_before (by rwa [hl]), word, hl]

/-- A name behind a modifier is not quoted. -/
theorem endsName_word_before {tail : Text} (ht : IsStop tail) (l : Look)
    (hword : EndsWord l.rest tail) :
    (match (l.before tail).rest with
      | [] => false
      | c :: _ => isIdentStart c && (l.before tail).word.endsName) =
      match l.rest with
      | [] => false
      | c :: _ => isIdentStart c && l.word.endsName := by
  cases hl : l.rest with
  | nil =>
      have hbefore : (l.before tail).rest = tail := by rw [before, hl, List.nil_append]
      rw [hbefore]
      rw [hl] at hword
      cases tail with
      | nil => rfl
      | cons c tail =>
          have hc : isIdentStart c = false := by
            by_contra hstart
            rw [Bool.not_eq_false] at hstart
            simp [EndsWord, isIdentChar_of_isIdentStart hstart] at hword
          simp only [hc, Bool.false_and]
  | cons c t =>
      have hbefore : (l.before tail).rest = c :: (t ++ tail) := by
        rw [before, hl, List.cons_append]
      rw [hbefore]
      by_cases hc : isIdentStart c = true
      · have hunquoted : isQuote c = true → c ∈ t := by
          intro hquote
          have hplain := isPlain_of_isIdentChar (isIdentChar_of_isIdentStart hc)
          rw [hplain.1] at hquote
          contradiction
        simp only [hc, word_before hl hunquoted hword, endsName_before ht]
      · simp only [hc, Bool.false_and]

end Look

/-- Whether a member starts is told by the text before an end, unless a word goes on behind it or a
quote leads past it. -/
theorem startsMember_append_stop {tail : Text} (ht : IsStop tail) {c : Char} {t : Text}
    (hquote : isQuote c = true → c ∈ t) (hword : Look.EndsWord (c :: t) tail)
    (hmodifier : (c :: t).take (Look.mk 0 (c :: t)).word.used = "readonly".toList →
      Look.EndsWord (Look.mk 0 (c :: t)).word.spaces.rest tail) :
    startsMember (c :: t ++ tail) = startsMember (c :: t) := by
  by_cases hc : isIdentStart c = true ∨ isQuote c = true
  · have hfirst : (Look.mk 0 (c :: t ++ tail)).word = (Look.mk 0 (c :: t)).word.before tail :=
      Look.word_before (l := ⟨0, c :: t⟩) rfl hquote hword
    have hused : (Look.mk 0 (c :: t)).word.used ≤ (c :: t).length := by
      simpa [Look.word, Look.pass] using (Look.wordLength_append hquote hword).2
    have htake : (c :: t ++ tail).take (Look.mk 0 (c :: t)).word.used =
        (c :: t).take (Look.mk 0 (c :: t)).word.used := List.take_append_of_le_length hused
    have hsame : ((Look.mk 0 (c :: t)).word.before tail).used =
        (Look.mk 0 (c :: t)).word.used := rfl
    rw [startsMember_eq (List.cons_append) hc, startsMember_eq rfl hc, hfirst, hsame, htake,
      Look.spaces_before ht, Look.endsName_before ht]
    split
    · rename_i hreadonly
      exact Look.endsName_word_before ht _ (hmodifier hreadonly)
    · rfl
  · rw [not_or, Bool.not_eq_true, Bool.not_eq_true] at hc
    rw [List.cons_append, startsMember_sign hc.1 hc.2, startsMember_sign hc.1 hc.2]

namespace Scan

variable {style : Style}

/-! ### Scanning in context -/

/-- A state with more text around its cursor and its members entered into others. -/
def place (behind tail : Text) (m : OrderedMap Text Member) (s : Scan) : Scan :=
  ⟨⟨s.cursor.behind ++ behind, s.cursor.ahead ++ tail⟩, s.mode, s.pending, m.extend s.members⟩

variable {behind tail : Text} {m : OrderedMap Text Member} {s : Scan} {c : Char} {rest : Text}

theorem move_place {n : Nat} (h : n ≤ s.cursor.ahead.length) (mode : Mode) :
    (place behind tail m s).move n mode = place behind tail m (s.move n mode) := by
  simp [place, move, Cursor.advanceBy, List.take_append_of_le_length h,
    List.drop_append_of_le_length h]

theorem advance_place (h : s.cursor.ahead = c :: rest) (mode : Mode) :
    (place behind tail m s).move 1 mode = place behind tail m (s.move 1 mode) :=
  move_place (by simp [h]) mode

theorem length_of_second {d e : Char} (h : s.cursor.ahead = c :: rest)
    (hsign : (c == d && rest.head? == some e) = true) : 2 ≤ s.cursor.ahead.length := by
  rw [h]
  cases rest with
  | nil => simp at hsign
  | cons x rest => simp

/-- A member is entered into any members as it is entered into none. -/
theorem complete_place (hs : s.members = .empty) (d : Draft) :
    (place behind tail m s).complete style d = place behind tail m (s.complete style d) := by
  simp only [place, complete, hs]
  cases make? style d.name d.optional d.method s.pending d.taken.reverse <;> rfl

section Steps

variable (hb : behind.head? ≠ some '\\' ∧ behind.head? ≠ some '=') (ht : IsStop tail)
  (hahead : s.cursor.ahead = c :: rest)

include ht hahead in
theorem stepSeeking_place :
    (place behind tail m s).stepSeeking c (rest ++ tail) =
      place behind tail m (s.stepSeeking c rest) := by
  unfold stepSeeking
  rw [Bool.and_assoc, Bool.and_assoc, docSign_append_stop ht, head?_append_stop ht (by decide),
    head?_append_stop ht (by decide)]
  split
  · exact advance_place hahead _
  split
  · rename_i hdoc
    refine move_place ?_ _
    simp only [Bool.and_eq_true, List.isPrefixOf_iff_prefix] at hdoc
    have hlength := hdoc.2.1.length_le
    simpa [hahead] using hlength
  split
  · rename_i hblock
    exact move_place (length_of_second hahead hblock) _
  split
  · rename_i hline
    exact move_place (length_of_second hahead hline) _
  split
  · exact advance_place hahead _
  split
  · exact advance_place hahead _
  split
  · exact advance_place hahead _
  · exact advance_place hahead _

include ht hahead in
theorem stepBlockComment_place :
    (place behind tail m s).stepBlockComment c (rest ++ tail) =
      place behind tail m (s.stepBlockComment c rest) := by
  unfold stepBlockComment
  rw [head?_append_stop ht (by decide)]
  split
  · rename_i hclose
    exact move_place (length_of_second hahead hclose) _
  · exact advance_place hahead _

include ht hahead in
theorem stepDocComment_place (raw : Text) :
    (place behind tail m s).stepDocComment style raw c (rest ++ tail) =
      place behind tail m (s.stepDocComment style raw c rest) := by
  unfold stepDocComment
  rw [head?_append_stop ht (by decide)]
  split
  · rename_i hclose
    rw [move_place (length_of_second hahead hclose)]
    rfl
  · exact advance_place hahead _

include hb hahead in
theorem stepQuotedName_place (quote : Char) (name : Text) :
    (place behind tail m s).stepQuotedName quote name c =
      place behind tail m (s.stepQuotedName quote name c) := by
  have hescaped : (place behind tail m s).cursor.isEscaped = s.cursor.isEscaped :=
    isEscaped_append hb.1 s.cursor.behind
  unfold stepQuotedName
  rw [hescaped]
  split
  · exact advance_place hahead _
  · exact advance_place hahead _

include hb hahead in
theorem stepSignature_place (opening : Char) (depth : Nat) (quote : OpenQuote) (text : Text) :
    (place behind tail m s).stepSignature opening depth quote text c =
      place behind tail m (s.stepSignature opening depth quote text c) := by
  have hnext : quote.next (place behind tail m s).cursor.behind c = quote.next s.cursor.behind c :=
    congrArg (quote.feed c) (isEscaped_append hb.1 s.cursor.behind)
  have hcovers : quote.covers (place behind tail m s).cursor.behind c =
      quote.covers s.cursor.behind c := by
    rw [OpenQuote.covers, hnext, OpenQuote.covers]
  unfold stepSignature
  simp only [hnext, hcovers, advance_place hahead]
  repeat' split
  all_goals rfl

include ht hahead in
theorem stepName_place (name : Text) (ended : Bool) :
    (place behind tail m s).stepName name ended c (rest ++ tail) =
      place behind tail m (s.stepName name ended c rest) := by
  unfold stepName
  split
  · exact advance_place hahead _
  split
  · exact advance_place hahead _
  split
  · exact advance_place hahead _
  split
  · rfl
  split
  · rcases firstVisible?_append_stop ht reach rest with hsame | ⟨⟨e, he, hsome⟩, hnone⟩
    · rw [hsame]
      split
      · split
        · exact advance_place hahead _
        · rfl
      · rfl
    · have hnot : (e == ':' || e == '(' || e == '<') = false := by
        simp only [lookSigns, List.mem_cons, List.not_mem_nil, or_false, not_or] at he
        simp [he]
      simp only [hsome, hnone, hnot]
      rfl
  · rfl

include hahead in
theorem stepAfterMark_place (name : Text) :
    (place behind tail m s).stepAfterMark name c =
      place behind tail m (s.stepAfterMark name c) := by
  unfold stepAfterMark
  split
  · exact advance_place hahead _
  split
  · exact advance_place hahead _
  split
  · rfl
  · rfl

include hahead in
theorem stepAfterColon_place (name : Text) (optional : Bool) :
    (place behind tail m s).stepAfterColon name optional c =
      place behind tail m (s.stepAfterColon name optional c) := by
  unfold stepAfterColon
  split
  · exact advance_place hahead _
  · rfl

include hb hahead in
theorem stepTypeCode_place (hs : s.members = .empty) (d : Draft) :
    (place behind tail m s).stepTypeCode style d c =
      place behind tail m (s.stepTypeCode style d c) := by
  have harrow : ((s.cursor.behind ++ behind).head? != some '=') =
      (s.cursor.behind.head? != some '=') := by
    cases s.cursor.behind with
    | nil => exact bne_iff_ne.mpr hb.2
    | cons d front => rfl
  have hbracket : Bracket.of? (place behind tail m s).cursor.behind c =
      Bracket.of? s.cursor.behind c := by
    simp only [place, Bracket.of?, harrow]
  unfold stepTypeCode
  rw [hbracket]
  split
  · split
    · exact complete_place hs d
    · exact advance_place hahead _
  split
  · exact advance_place hahead _
  split
  · exact advance_place hahead _
  split
  · exact advance_place hahead _
  split
  · rw [complete_place hs]
    exact advance_place (s := s.complete style d) hahead _
  · exact advance_place hahead _

include hb ht hahead in
theorem stepType_place (hs : s.members = .empty) (d : Draft)
    (hnext : (place behind tail m s).nextStarts d = s.nextStarts d) :
    (place behind tail m s).stepType style d c (rest ++ tail) =
      place behind tail m (s.stepType style d c rest) := by
  have hread : d.region.read (place behind tail m s).cursor.behind c (rest ++ tail) =
      d.region.read s.cursor.behind c rest :=
    Region.read_context hb.1 (endsSlash_stop ht) d.region s.cursor.behind c rest
  unfold stepType
  rw [hnext, hread]
  split
  · exact complete_place hs d
  split
  · exact advance_place hahead _
  · split
    · exact complete_place hs d
    · exact advance_place hahead _
  · exact stepTypeCode_place hb hahead hs _

/-- A step in context is the step alone, unless the look for the next member tells them apart. -/
theorem step_place (hb : behind.head? ≠ some '\\' ∧ behind.head? ≠ some '=') (ht : IsStop tail)
    (hahead : s.cursor.ahead ≠ []) (hs : s.members = .empty)
    (hnext : ∀ d, s.mode = .type d → (place behind tail m s).nextStarts d = s.nextStarts d) :
    (place behind tail m s).step style = place behind tail m (s.step style) := by
  obtain ⟨c, rest, hcons⟩ := List.exists_cons_of_ne_nil hahead
  have hplaced : (place behind tail m s).cursor.ahead = c :: (rest ++ tail) := by
    rw [place, hcons, List.cons_append]
  have hmode : (place behind tail m s).mode = s.mode := rfl
  unfold step
  rw [hplaced, hcons, hmode]
  cases hcase : s.mode with
  | seeking => exact stepSeeking_place ht hcons
  | lineComment =>
      dsimp only
      split
      · exact advance_place hcons _
      · exact advance_place hcons _
  | blockComment => exact stepBlockComment_place ht hcons
  | docComment raw => exact stepDocComment_place ht hcons raw
  | quotedName quote name => exact stepQuotedName_place hb hcons quote name
  | signature opening depth quote text =>
      exact stepSignature_place hb hcons opening depth quote text
  | name name ended => exact stepName_place ht hcons name ended
  | afterMark name => exact stepAfterMark_place hcons name
  | afterColon name optional => exact stepAfterColon_place hcons name optional
  | type d => exact stepType_place hb ht hcons hs d (hnext d hcase)

end Steps

/-! ### Quotes are closed where everything is closed in the end -/

/-- No bracket, literal, comment, quoted name or signature is open, and no doc comment waits for its
member. Angle brackets and conditionals may be open: a semicolon ends the type all the same. -/
def IsSettled (s : Scan) : Prop :=
  match s.mode with
  | .seeking => s.pending = none
  | .name .. | .afterMark .. | .afterColon .. => True
  | .type d => d.region = .code ∧ d.nesting.depth = 0
  | .lineComment | .blockComment | .docComment .. | .quotedName .. | .signature .. => False

/-- No bracket, literal, comment, quoted name or signature is open. -/
def IsClosed (s : Scan) : Prop :=
  match s.mode with
  | .seeking | .name .. | .afterMark .. | .afterColon .. => True
  | .type d => d.region = .code ∧ d.nesting.depth = 0
  | .lineComment | .blockComment | .docComment .. | .quotedName .. | .signature .. => False

theorem IsSettled.isClosed {s : Scan} (h : s.IsSettled) : s.IsClosed := by
  obtain ⟨cursor, mode, pending, members⟩ := s
  cases mode with
  | seeking => exact trivial
  | _ => exact h

/-- The type text read so far stands right behind the cursor. -/
def TracksType (s : Scan) : Prop := ∀ d, s.mode = .type d → d.taken <+: s.cursor.behind

theorem TracksType.white_behind {s : Scan} {d : Draft} (h : s.TracksType) (hmode : s.mode = .type d)
    (hwhite : d.taken.head?.any isWhite = true) : s.cursor.behind.head?.any isWhite = true := by
  obtain ⟨more, hmore⟩ := h d hmode
  obtain ⟨w, hw, hisWhite⟩ := (Option.any_eq_true _ _).mp hwhite
  rw [← hmore, List.head?_append, hw]
  exact hisWhite

theorem tracksType_move {s : Scan} {n : Nat} {mode : Mode} (h : ∀ d, mode ≠ .type d) :
    (s.move n mode).TracksType :=
  fun d hd => absurd hd (h d)

theorem tracksType_take {s : Scan} {d : Draft} {c : Char} {rest : Text}
    (hahead : s.cursor.ahead = c :: rest) (h : d.taken <+: s.cursor.behind) :
    (s.take d c).TracksType := by
  intro d' hd'
  obtain rfl := Mode.type.inj hd'
  have hbehind : (s.take d c).cursor.behind = c :: s.cursor.behind := by
    simp [take, move, Cursor.advanceBy, hahead]
  rw [hbehind]
  exact List.cons_prefix_cons.mpr ⟨rfl, h⟩

theorem tracksType_complete (style : Style) (s : Scan) (d : Draft) :
    (s.complete style d).TracksType :=
  fun d' hd' => absurd hd' (by simp [complete])

theorem tracksType_begin {s : Scan} {d : Draft} (h : d.taken = []) :
    ({ s with mode := .type d } : Scan).TracksType := by
  intro d' hd'
  obtain rfl := Mode.type.inj hd'
  rw [h]
  exact List.nil_prefix

theorem tracksType_stepTypeCode {s : Scan} {d : Draft} {c : Char} {rest : Text}
    (hahead : s.cursor.ahead = c :: rest) (h : d.taken <+: s.cursor.behind) :
    (s.stepTypeCode style d c).TracksType := by
  unfold stepTypeCode
  split
  · split
    · exact tracksType_complete style s d
    · exact tracksType_take hahead h
  split
  · exact tracksType_take hahead h
  split
  · exact tracksType_take hahead h
  split
  · exact tracksType_take hahead h
  split
  · exact tracksType_move (by simp)
  · exact tracksType_take hahead h

theorem tracksType_stepType {s : Scan} {d : Draft} {c : Char} {rest : Text}
    (hahead : s.cursor.ahead = c :: rest) (h : d.taken <+: s.cursor.behind) :
    (s.stepType style d c rest).TracksType := by
  unfold stepType
  split
  · exact tracksType_complete style s d
  split
  · exact tracksType_take hahead h
  · split
    · exact tracksType_complete style s d
    · exact tracksType_take hahead h
  · exact tracksType_stepTypeCode hahead h

theorem tracksType_stepName (s : Scan) (name : Text) (ended : Bool) (c : Char) (rest : Text) :
    (s.stepName name ended c rest).TracksType := by
  unfold stepName
  split
  · exact tracksType_move (by simp)
  split
  · exact tracksType_move (by simp)
  split
  · exact tracksType_move (by simp)
  split
  · exact tracksType_begin rfl
  split
  · split
    · split
      · exact tracksType_move (by simp)
      · exact nofun
    · exact nofun
  · exact nofun

theorem tracksType_stepAfterMark (s : Scan) (name : Text) (c : Char) :
    (s.stepAfterMark name c).TracksType := by
  unfold stepAfterMark
  split
  · exact tracksType_move (by simp)
  split
  · exact tracksType_move (by simp)
  split
  · exact tracksType_begin rfl
  · exact nofun

theorem tracksType_stepAfterColon (s : Scan) (name : Text) (optional : Bool) (c : Char) :
    (s.stepAfterColon name optional c).TracksType := by
  unfold stepAfterColon
  split
  · exact tracksType_move (by simp)
  · exact tracksType_begin rfl

theorem TracksType.step {s : Scan} (h : s.TracksType) : (s.step style).TracksType := by
  unfold Scan.step
  split
  · exact h
  rename_i c rest hahead
  -- In the modes without a type every step is a move to such a mode again.
  cases hmode : s.mode with
  | seeking =>
      unfold stepSeeking
      dsimp only
      repeat' split
      all_goals exact tracksType_move (by simp)
  | lineComment =>
      dsimp only
      split <;> exact tracksType_move (by simp)
  | blockComment =>
      unfold stepBlockComment
      dsimp only
      split <;> exact tracksType_move (by simp)
  | docComment raw =>
      unfold stepDocComment
      dsimp only
      split
      · exact nofun
      · exact tracksType_move (by simp)
  | quotedName quote name =>
      unfold stepQuotedName
      dsimp only
      split <;> exact tracksType_move (by simp)
  | signature opening depth quote text =>
      unfold stepSignature
      dsimp only
      repeat' split
      all_goals exact tracksType_move (by simp)
  | name name ended => exact tracksType_stepName s name ended c rest
  | afterMark name => exact tracksType_stepAfterMark s name c
  | afterColon name optional => exact tracksType_stepAfterColon s name optional c
  | type d => exact tracksType_stepType hahead (h d hmode)

/-- Without its quote a quoted name goes on to the end of the text. -/
theorem run_quotedName_open (style : Style) {quote : Char} {t : Text} (h : quote ∉ t)
    (behind name : Text) (pending : Option Text) (members : OrderedMap Text Member) :
    ∃ name', (run style ⟨⟨behind, t⟩, .quotedName quote name, pending, members⟩).mode =
      .quotedName quote name' := by
  induction t generalizing behind name with
  | nil =>
      rw [run_end rfl]
      exact ⟨name, rfl⟩
  | cons c t ih =>
      rw [List.mem_cons, not_or] at h
      have hc : (c == quote) = false := by simpa using Ne.symm h.1
      have hstep : step style ⟨⟨behind, c :: t⟩, .quotedName quote name, pending, members⟩ =
          ⟨⟨c :: behind, t⟩, .quotedName quote (c :: name), pending, members⟩ := by
        simp only [step, stepQuotedName, hc]
        rfl
      rw [run_step (by simp), hstep]
      exact ih h.2 (c :: behind) (c :: name)

/-- Without its quote a literal goes on to the end of the text. -/
theorem run_literal_open (style : Style) {quote : Char} {t : Text} (h : quote ∉ t)
    (behind : Text) (d : Draft) (hd : d.region = .literal quote) (pending : Option Text)
    (members : OrderedMap Text Member) :
    ∃ d', (run style ⟨⟨behind, t⟩, .type d, pending, members⟩).mode = .type d' ∧
      d'.region = .literal quote := by
  induction t generalizing behind d with
  | nil =>
      rw [run_end rfl]
      exact ⟨d, rfl, hd⟩
  | cons c t ih =>
      rw [List.mem_cons, not_or] at h
      have hread : d.region.read behind c t = (.literal, .literal quote) := by
        have hc : (c == quote) = false := by simpa using Ne.symm h.1
        simp [hd, Region.read, hc]
      have hnext : nextStarts ⟨⟨behind, c :: t⟩, .type d, pending, members⟩ d = false := by
        simp [nextStarts, hd]
      have hstep : step style ⟨⟨behind, c :: t⟩, .type d, pending, members⟩ =
          ⟨⟨c :: behind, t⟩, .type { d with region := .literal quote, taken := c :: d.taken },
            pending, members⟩ := by
        simp only [step, stepType, hnext, hread]
        rfl
      rw [run_step (by simp), hstep]
      exact ih h.2 (c :: behind) _ rfl

theorem step_seeking_quote {quote : Char} (h : isQuote quote = true) (behind t : Text)
    (pending : Option Text) (members : OrderedMap Text Member) :
    step style ⟨⟨behind, quote :: t⟩, .seeking, pending, members⟩ =
      ⟨⟨quote :: behind, t⟩, .quotedName quote [], pending, members⟩ := by
  have hcases : quote = '"' ∨ quote = '\'' ∨ quote = '\x60' := by
    simpa [isQuote, or_assoc] using h
  rcases hcases with rfl | rfl | rfl <;> rfl

/-- A quote at a place where the next member is looked for is closed later on: it opens a quoted
name if a member starts there, and a literal otherwise. -/
theorem quote_mem_of_isClosed {s : Scan} {d : Draft} {quote : Char} {t : Text}
    (htracks : s.TracksType) (hclosed : (run style s).IsClosed) (hmode : s.mode = .type d)
    (hahead : s.cursor.ahead = quote :: t) (hquote : isQuote quote = true)
    (hcode : d.region = .code) (hwhite : d.taken.head?.any isWhite = true) : quote ∈ t := by
  by_contra hopen
  obtain ⟨⟨behind, ahead⟩, mode, pending, members⟩ := s
  obtain rfl : mode = .type d := hmode
  obtain rfl : ahead = quote :: t := hahead
  have hbehind : behind.head? ≠ some '\\' := by
    intro hslash
    have hwhite := htracks.white_behind rfl hwhite
    rw [hslash] at hwhite
    contradiction
  rw [run_step (by simp)] at hclosed
  cases hnext : nextStarts ⟨⟨behind, quote :: t⟩, .type d, pending, members⟩ d with
  | true =>
      rw [step_of_nextStarts (by simp) rfl hnext, complete, run_step (by simp),
        step_seeking_quote hquote] at hclosed
      obtain ⟨name, hname⟩ := run_quotedName_open style hopen (quote :: behind) [] _ _
      rw [IsClosed, hname] at hclosed
      exact hclosed
  | false =>
      have hread : d.region.read behind quote t = (.literal, .literal quote) := by
        simp [hcode, Region.read, hquote, isEscaped_of_head?_ne hbehind]
      have hstep : step style ⟨⟨behind, quote :: t⟩, .type d, pending, members⟩ =
          ⟨⟨quote :: behind, t⟩,
            .type { d with region := .literal quote, taken := quote :: d.taken }, pending,
            members⟩ := by
        simp only [step, stepType, hnext, hread]
        rfl
      rw [hstep] at hclosed
      obtain ⟨d', hd', hregion⟩ := run_literal_open style hopen (quote :: behind)
        { d with region := .literal quote, taken := quote :: d.taken } rfl pending members
      rw [IsClosed, hd'] at hclosed
      rw [hclosed.1] at hregion
      contradiction

/-- Where everything is closed in the end, the look for the next member stays before the end of the
text. -/
theorem nextStarts_place {behind tail : Text} (ht : IsTail tail) {m : OrderedMap Text Member}
    {s : Scan} {d : Draft} (htracks : s.TracksType) (hclosed : (run style s).IsClosed)
    (hmode : s.mode = .type d) (hahead : s.cursor.ahead ≠ []) :
    (place behind tail m s).nextStarts d = s.nextStarts d := by
  obtain ⟨c, t, hcons⟩ := List.exists_cons_of_ne_nil hahead
  unfold nextStarts
  by_cases hlooks : (d.region == .code && d.nesting.depth == 0 && d.conditionals == 0 &&
      (d.taken.head?.any isWhite && !isBlank d.taken)) = true
  · have hends : ∀ u, Look.EndsWord u tail := takeWhile_append_of_head ht.endsWord
    simp only [Bool.and_eq_true, beq_iff_eq] at hlooks
    have hquote : isQuote c = true → c ∈ t := fun hquote =>
      quote_mem_of_isClosed htracks hclosed hmode hcons hquote hlooks.1.1.1 hlooks.2.1
    have hstarts : startsMember (place behind tail m s).cursor.ahead =
        startsMember s.cursor.ahead := by
      rw [place, hcons]
      exact startsMember_append_stop ht.isStop hquote (hends _) fun _ => hends _
    rw [hstarts]
  · rw [Bool.not_eq_true] at hlooks
    rw [hlooks, Bool.false_and, Bool.false_and]

/-! ### Composition -/

/-- At the start of a text there is nothing to look back at. -/
theorem head?_nil_ne : ([] : Text).head? ≠ some '\\' ∧ ([] : Text).head? ≠ some '=' := by simp

/-- Scanning a text enters the same members into any members, behind any characters that its look
back does not mind, and before a text at which its looks ahead stop. `P` says along the run that the
look for the next member does. -/
theorem run_place_of_looks (style : Style) {behind tail : Text}
    (hb : behind.head? ≠ some '\\' ∧ behind.head? ≠ some '=') (ht : IsStop tail) {P : Scan → Prop}
    (hstep : ∀ s, s.cursor.ahead ≠ [] → P s → P (s.step style))
    (hlook : ∀ s d m, s.cursor.ahead ≠ [] → P s → s.mode = .type d →
      (place behind tail m s).nextStarts d = s.nextStarts d) (s : Scan) (h : P s) :
    ∃ es, (run style s).members = s.members.insertAll es ∧ ∀ m,
      run style ⟨⟨s.cursor.behind ++ behind, s.cursor.ahead ++ tail⟩, s.mode, s.pending, m⟩ =
        run style ⟨⟨(run style s).cursor.behind ++ behind, tail⟩, (run style s).mode,
          (run style s).pending, m.insertAll es⟩ := by
  induction s using run.induct style with
  | case1 s hdone =>
      refine ⟨[], ?_, fun m => ?_⟩
      · rw [run_end hdone]
        rfl
      · rw [run_end hdone, hdone]
        rfl
  | case2 s hmore ih =>
      have hplaced : ∀ m, step style ⟨⟨s.cursor.behind ++ behind, s.cursor.ahead ++ tail⟩, s.mode,
          s.pending, m⟩ = place behind tail m (step style { s with members := .empty }) :=
        fun m => step_place (s := { s with members := .empty }) hb ht hmore rfl fun d hmode =>
          hlook s d m hmore h hmode
      have halone : step style s =
          place [] [] s.members (step style { s with members := .empty }) := by
        rw [← step_place (s := { s with members := .empty }) head?_nil_ne isTail_nil.isStop hmore
          rfl fun d _ => by simp [nextStarts, place]]
        simp [place, OrderedMap.extend, OrderedMap.empty]
      obtain ⟨es, hmembers, hrun⟩ := ih (hstep s hmore h)
      refine ⟨(step style { s with members := .empty }).members.entries ++ es, ?_, fun m => ?_⟩
      · rw [run_step hmore, hmembers, halone, OrderedMap.insertAll_append]
        rfl
      · have hahead : s.cursor.ahead ++ tail ≠ [] := by simp [hmore]
        have hnow := hrun (m.extend (step style { s with members := .empty }).members)
        rw [run_step hahead, hplaced, run_step hmore, OrderedMap.insertAll_append,
          ← OrderedMap.extend, ← hnow, halone]
        simp [place]

/-- Before the end of a member everything has to be closed. -/
theorem run_place_of_isClosed (style : Style) {behind tail : Text}
    (hb : behind.head? ≠ some '\\' ∧ behind.head? ≠ some '=') (ht : IsTail tail) (s : Scan)
    (htracks : s.TracksType) (h : tail = [] ∨ (run style s).IsClosed) :
    ∃ es, (run style s).members = s.members.insertAll es ∧ ∀ m,
      run style ⟨⟨s.cursor.behind ++ behind, s.cursor.ahead ++ tail⟩, s.mode, s.pending, m⟩ =
        run style ⟨⟨(run style s).cursor.behind ++ behind, tail⟩, (run style s).mode,
          (run style s).pending, m.insertAll es⟩ := by
  refine run_place_of_looks style hb ht.isStop
    (P := fun s => s.TracksType ∧ (tail = [] ∨ (run style s).IsClosed)) ?_ ?_ s ⟨htracks, h⟩
  · rintro s hmore ⟨htracks, h⟩
    rw [run_step hmore] at h
    exact ⟨htracks.step, h⟩
  · rintro s d m hmore ⟨htracks, rfl | hclosed⟩ hmode
    · simp [nextStarts, place]
    · exact nextStarts_place ht htracks hclosed hmode hmore

theorem run_place (style : Style) {behind tail : Text}
    (hb : behind.head? ≠ some '\\' ∧ behind.head? ≠ some '=') (ht : IsTail tail) (s : Scan)
    (htracks : s.TracksType) (h : tail = [] ∨ (run style s).IsSettled) :
    ∃ es, (run style s).members = s.members.insertAll es ∧ ∀ m,
      run style ⟨⟨s.cursor.behind ++ behind, s.cursor.ahead ++ tail⟩, s.mode, s.pending, m⟩ =
        run style ⟨⟨(run style s).cursor.behind ++ behind, tail⟩, (run style s).mode,
          (run style s).pending, m.insertAll es⟩ :=
  run_place_of_isClosed style hb ht s htracks (h.imp_right IsSettled.isClosed)

/-- At the end of the text the member being read is entered into any members. -/
theorem finish_onto (style : Style) (mode : Mode) (pending : Option Text) :
    ∃ es : List (Text × Member), ∀ cursor m,
      finish style ⟨cursor, mode, pending, m⟩ = m.insertAll es := by
  cases mode with
  | type d =>
      cases hmake : make? style d.name d.optional d.method pending d.taken.reverse with
      | none => exact ⟨[], fun cursor m => by simp [finish, complete, hmake]⟩
      | some member =>
          exact ⟨[(member.name, member)],
            fun cursor m => by simp [finish, complete, hmake, OrderedMap.insertAll]⟩
  | _ => exact ⟨[], fun _ _ => rfl⟩

/-- What a state still enters does not depend on the members before it, nor on characters behind it
that its look back does not mind. -/
theorem finish_run_place (style : Style) {behind : Text}
    (hb : behind.head? ≠ some '\\' ∧ behind.head? ≠ some '=') (s : Scan) :
    ∃ es, (run style { s with members := .empty }).finish style = OrderedMap.ofList es ∧ ∀ m,
      (run style ⟨⟨s.cursor.behind ++ behind, s.cursor.ahead⟩, s.mode, s.pending, m⟩).finish style =
        m.insertAll es := by
  obtain ⟨es, hmembers, hrun⟩ := run_place_of_looks style hb isTail_nil.isStop
    (P := fun _ => True) (fun _ _ _ => trivial) (fun _ _ _ _ _ _ => by simp [nextStarts, place])
    { s with members := .empty } trivial
  obtain ⟨last, hlast⟩ := finish_onto style (run style { s with members := .empty }).mode
    (run style { s with members := .empty }).pending
  refine ⟨es ++ last, ?_, fun m => ?_⟩
  · calc (run style { s with members := .empty }).finish style
        = (run style { s with members := .empty }).members.insertAll last := hlast _ _
      _ = (OrderedMap.ofList es).insertAll last := by rw [hmembers]; rfl
      _ = OrderedMap.ofList (es ++ last) := (OrderedMap.ofList_append es last).symm
  · have hcontext := hrun m
    rw [List.append_nil] at hcontext
    rw [OrderedMap.insertAll_append, ← hlast]
    exact congrArg (finish style) (hcontext.trans (run_end rfl))

theorem step_type_semicolon {d : Draft} (hcode : d.region = .code) (hdepth : d.nesting.depth = 0)
    (behind ahead t : Text) (pending : Option Text) (members : OrderedMap Text Member) :
    step style ⟨⟨behind, ';' :: t⟩, .type d, pending, members⟩ =
      ⟨⟨';' :: behind, t⟩, .seeking, none,
        finish style ⟨⟨behind, ahead⟩, .type d, pending, members⟩⟩ := by
  have hnext : nextStarts ⟨⟨behind, ';' :: t⟩, .type d, pending, members⟩ d = false := by
    have hstarts : startsMember (';' :: t) = false := startsMember_sign (by decide) (by decide) t
    simp [nextStarts, hstarts]
  have hread : d.region.read behind ';' t = (.code, .code) := by
    rw [hcode]
    exact Region.read_plain (by decide) behind t
  have hbracket : Bracket.of? behind ';' = none := rfl
  have hdraft : { d with region := .code } = d := by rw [← hcode]
  simp only [step, stepType, hnext, hread, hdraft, stepTypeCode, hbracket, hdepth]
  rfl

/-- A type that is not there makes no member. -/
theorem make?_nil (style : Style) (name : Text) (optional : Bool) (doc : Option Text) :
    make? style name optional false doc [] = none := by
  have htype : typeText style false [] = [] := by
    obtain ⟨normalizeTypes, normalizeDocs⟩ := style
    cases normalizeTypes <;> rfl
  rw [make?, htype, ite_self]

/-- A semicolon outside everything else ends the member being read. -/
theorem run_semicolon {s : Scan} (h : s.IsSettled) (t : Text) :
    run style ⟨⟨s.cursor.behind, ';' :: t⟩, s.mode, s.pending, s.members⟩ =
      run style ⟨⟨';' :: s.cursor.behind, t⟩, .seeking, none, s.finish style⟩ := by
  obtain ⟨⟨behind, ahead⟩, mode, pending, members⟩ := s
  have hseeking : run style ⟨⟨behind, ';' :: t⟩, .seeking, none, members⟩ =
      run style ⟨⟨';' :: behind, t⟩, .seeking, none, members⟩ := run_step (by simp)
  cases mode with
  | seeking =>
      obtain rfl : pending = none := h
      exact hseeking
  | name name ended =>
      have hgiven : step style ⟨⟨behind, ';' :: t⟩, .name name ended, pending, members⟩ =
          ⟨⟨behind, ';' :: t⟩, .seeking, none, members⟩ := rfl
      rw [run_step (by simp), hgiven]
      exact hseeking
  | afterMark name =>
      have hgiven : step style ⟨⟨behind, ';' :: t⟩, .afterMark name, pending, members⟩ =
          ⟨⟨behind, ';' :: t⟩, .seeking, none, members⟩ := rfl
      rw [run_step (by simp), hgiven]
      exact hseeking
  | afterColon name optional =>
      have hbegin : step style ⟨⟨behind, ';' :: t⟩, .afterColon name optional, pending, members⟩ =
          ⟨⟨behind, ';' :: t⟩, .type ⟨name, optional, false, [], .code, .top, 0⟩, pending,
            members⟩ := rfl
      have hnone : finish style ⟨⟨behind, ahead⟩, .type ⟨name, optional, false, [], .code, .top, 0⟩,
          pending, members⟩ = members := by
        simp [finish, complete, make?_nil]
      rw [run_step (by simp), hbegin, run_step (by simp), step_type_semicolon rfl rfl behind ahead,
        hnone]
      rfl
  | type d => rw [run_step (by simp), step_type_semicolon h.1 h.2 behind ahead]
  | lineComment | blockComment | docComment _ | quotedName _ _ | signature _ _ _ _ => exact h.elim

end Scan

/-- The scanner enters the members of a body one after another, behind any others. -/
theorem finish_run_onto (style : Style) {behind : Text}
    (hb : behind.head? ≠ some '\\' ∧ behind.head? ≠ some '=') (t : Text) :
    ∃ es, scan style t = OrderedMap.ofList es ∧ ∀ m,
      (Scan.run style ⟨⟨behind, t⟩, .seeking, none, m⟩).finish style = m.insertAll es :=
  Scan.finish_run_place style hb (Scan.start t)

theorem exists_scan_eq_ofList (style : Style) (body : Text) :
    ∃ es, scan style body = OrderedMap.ofList es := by
  obtain ⟨es, hscan, -⟩ := finish_run_onto style Scan.head?_nil_ne body
  exact ⟨es, hscan⟩

/-- Where nothing is open at the end of a body, another one may follow behind a semicolon, whatever
it holds: its members are entered into those of the first, in order and over them. -/
theorem scan_semicolon (style : Style) (a b : Text)
    (h : (Scan.run style (Scan.start a)).IsSettled) :
    scan style (a ++ ';' :: b) = (scan style a).extend (scan style b) := by
  obtain ⟨es, ha⟩ := exists_scan_eq_ofList style a
  obtain ⟨front, hmembers, hrun⟩ := Scan.run_place style Scan.head?_nil_ne (isTail_semicolon b)
    (Scan.start a) nofun (Or.inr h)
  have hb : (';' :: (Scan.run style (Scan.start a)).cursor.behind).head? ≠ some '\\' ∧
      (';' :: (Scan.run style (Scan.start a)).cursor.behind).head? ≠ some '=' := by simp
  obtain ⟨es', hscan, hbehind⟩ := finish_run_onto style hb b
  have hfirst : Scan.run style (Scan.start (a ++ ';' :: b)) =
      Scan.run style ⟨⟨(Scan.run style (Scan.start a)).cursor.behind, ';' :: b⟩,
        (Scan.run style (Scan.start a)).mode, (Scan.run style (Scan.start a)).pending,
        (Scan.run style (Scan.start a)).members⟩ := by
    have hcontext := hrun .empty
    rw [List.append_nil, List.append_nil] at hcontext
    rw [hmembers]
    exact hcontext
  calc scan style (a ++ ';' :: b)
      = (Scan.run style ⟨⟨';' :: (Scan.run style (Scan.start a)).cursor.behind, b⟩, .seeking, none,
          scan style a⟩).finish style := by
        rw [scan, hfirst, Scan.run_semicolon h]
        rfl
    _ = (scan style a).insertAll es' := hbehind (scan style a)
    _ = (scan style a).extend (scan style b) := by
        rw [ha, hscan, OrderedMap.insertAll_eq_extend]

/-- Steps may be made before a run, also past its end. -/
theorem Scan.run_iterate (style : Style) (n : Nat) (s : Scan) :
    Scan.run style ((Scan.step style)^[n] s) = Scan.run style s := by
  induction n generalizing s with
  | zero => rfl
  | succ n ih =>
      rw [Function.iterate_succ_apply, ih]
      by_cases hdone : s.cursor.ahead = []
      · have hstays : s.step style = s := by simp only [step, hdone]
        rw [hstays]
      · exact (run_step hdone).symm

/-- The first body ends in a type with an open angle bracket and an open conditional, and a quoted
literal stands where the next member is looked for. The second body declares a member again and
breaks off in a literal. -/
theorem scan_semicolon_again :
    (Scan.run {} (Scan.start "id: Key<T 'a;b' ? 1".toList)).IsSettled ∧
      scan {} ("id: Key<T 'a;b' ? 1".toList ++ ';' :: "size, id?: 'x".toList) =
        (scan {} "id: Key<T 'a;b' ? 1".toList).extend (scan {} "size, id?: 'x".toList) := by
  have hsettled : (Scan.run {} (Scan.start "id: Key<T 'a;b' ? 1".toList)).IsSettled := by
    rw [← Scan.run_iterate {} 20, Scan.run_end (by decide)]
    exact ⟨by decide, by decide⟩
  exact ⟨hsettled, scan_semicolon {} _ _ hsettled⟩

end ComponentProps.Member
