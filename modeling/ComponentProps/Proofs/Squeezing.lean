import ComponentProps.Code.Walk
import ComponentProps.Proofs.Operands
import ComponentProps.Text.Spacing

/-!
# Squeezed text

Collapsing a text puts one space for each run of white space outside its literals. Literals are told
by their quotes alone, so a quote within a comment opens one, and a reader of code sees other
regions than the collapse does. Both readings still go in step over a text and its collapsed form,
as no look back or ahead tells one white character from another. Only a line feed that ends a line
comment must not be lost: then trivia end at the same place, and a group closes at the same bracket.
-/

namespace ComponentProps

open Text

namespace Text

/-! ### White space -/

theorem isPlain_of_isWhite {c : Char} (h : isWhite c = true) : IsPlain c := (isFlat_of_isWhite h).1

theorem OpenQuote.next_of_not_isQuote {c : Char} (h : isQuote c = false) (quote : OpenQuote)
    (behind : Text) : quote.next behind c = quote := by
  simp [next, feed, h]

/-- White space is part of a literal if one is open. -/
theorem OpenQuote.covers_of_isWhite {c : Char} (h : isWhite c = true) (quote : OpenQuote)
    (behind : Text) : quote.covers behind c = quote.isSome := by
  rw [covers, next_of_not_isQuote (isPlain_of_isWhite h).1, Bool.or_self]

/-- The open quote after a text, read behind the characters `behind`. -/
def OpenQuote.after (quote : OpenQuote) (behind : Text) : Text → OpenQuote
  | [] => quote
  | c :: rest => after (quote.next behind c) (c :: behind) rest

theorem OpenQuote.after_append (quote : OpenQuote) (behind s t : Text) :
    quote.after behind (s ++ t) = (quote.after behind s).after (s.reverse ++ behind) t := by
  induction s generalizing quote behind with
  | nil => rfl
  | cons c s ih =>
      rw [List.cons_append, after, ih, after, List.reverse_cons, List.append_assoc]
      rfl

theorem OpenQuote.after_blank {gap : Text} (h : isBlank gap = true) (quote : OpenQuote)
    (behind : Text) : quote.after behind gap = quote := by
  induction gap generalizing behind with
  | nil => rfl
  | cons c gap ih =>
      rw [isBlank, List.all_cons, Bool.and_eq_true] at h
      rw [after, next_of_not_isQuote (isPlain_of_isWhite h.1).1, ih h.2]

/-- White space escapes nothing. -/
theorem not_escape_of_isBlank {g : Text} (hne : g ≠ []) (hg : isBlank g = true) (behind : Text) :
    (g.reverse ++ behind).head? ≠ some '\\' := by
  rw [List.head?_append_of_ne_nil _ (by simpa using hne)]
  intro hlast
  have hslash : isWhite '\\' = true :=
    List.all_eq_true.mp hg _ (List.mem_reverse.mp (List.mem_of_mem_head? hlast))
  exact absurd hslash (by decide)

/-! ### Squeezing -/

/-- The second text is the first, read behind `behind` and within the literal `quote` if there is
one, with a space for each run of white space outside literals. -/
inductive Squeezed : OpenQuote → Text → Text → Text → Prop
  | nil {quote : OpenQuote} {behind : Text} : Squeezed quote behind [] []
  | keep {quote : OpenQuote} {behind t t' : Text} {c : Char}
      (hc : isWhite c = false ∨ quote ≠ none)
      (ht : Squeezed (quote.next behind c) (c :: behind) t t') :
      Squeezed quote behind (c :: t) (c :: t')
  | gap {behind g t t' : Text} (hne : g ≠ []) (hgap : isBlank g = true)
      (hfirst : ∀ c ∈ t.head?, isWhite c = false)
      (ht : Squeezed none (g.reverse ++ behind) t t') :
      Squeezed none behind (g ++ t) (' ' :: t')

/-- Every text can be squeezed. -/
theorem exists_squeezed (quote : OpenQuote) (behind t : Text) :
    ∃ t', Squeezed quote behind t t' := by
  induction t generalizing quote behind with
  | nil => exact ⟨[], .nil⟩
  | cons c t ih =>
      by_cases hc : isWhite c = false ∨ quote ≠ none
      · obtain ⟨t', ht⟩ := ih (quote.next behind c) (c :: behind)
        exact ⟨c :: t', .keep hc ht⟩
      · obtain ⟨hwhite, rfl⟩ : isWhite c = true ∧ quote = none := by simpa using hc
        have hsingle : isBlank [c] = true := by simpa [isBlank] using hwhite
        obtain ⟨t', ht⟩ := ih none (c :: behind)
        -- A run that begins behind `c` begins with `c`.
        cases ht with
        | nil => exact ⟨[' '], .gap (g := [c]) (by simp) hsingle (by simp) .nil⟩
        | keep hd ht =>
            have hd' := hd.resolve_right fun h => h rfl
            exact ⟨_, .gap (g := [c]) (by simp) hsingle (by simpa using hd') (.keep hd ht)⟩
        | @gap _ gap t t' hne hgap hfirst ht =>
            have hlong : isBlank (c :: gap) = true := by simpa [isBlank, hwhite] using hgap
            rw [← List.singleton_append, ← List.append_assoc] at ht
            exact ⟨' ' :: t', .gap (g := c :: gap) (by simp) hlong hfirst (by simpa using ht)⟩

theorem collapseFrom_gap {g : Text} (hg : isBlank g = true) (hne : g ≠ []) (gap : Bool)
    (behind t : Text) :
    collapseFrom none gap behind (g ++ t) = collapseFrom none true (g.reverse ++ behind) t := by
  induction g generalizing gap behind with
  | nil => exact absurd rfl hne
  | cons c g ih =>
      rw [isBlank, List.all_cons, Bool.and_eq_true] at hg
      have hpass : (isWhite c && !OpenQuote.covers none behind c) = true := by
        simp [OpenQuote.covers_of_isWhite hg.1, hg.1]
      have hquote : OpenQuote.next none behind c = none :=
        OpenQuote.next_of_not_isQuote (isPlain_of_isWhite hg.1).1 none behind
      simp only [List.cons_append, collapseFrom, hpass, if_true, hquote, List.reverse_cons,
        List.append_assoc, List.nil_append]
      cases g with
      | nil => rfl
      | cons d g => exact ih hg.2 (List.cons_ne_nil d g) true (c :: behind)

variable {quote : OpenQuote} {behind t t' : Text}

namespace Squeezed

theorem eq_nil_iff (h : Squeezed quote behind t t') : t = [] ↔ t' = [] := by
  cases h with
  | nil => simp
  | keep => simp
  | gap hne => simp [hne]

/-- A visible character at the start of one text is at the start of the other. -/
theorem head?_eq_iff (h : Squeezed quote behind t t') {c : Char} (hc : isWhite c = false) :
    t.head? = some c ↔ t'.head? = some c := by
  cases h with
  | nil => rfl
  | keep => simp
  | @gap _ gap t t' hne hgap =>
      obtain ⟨d, gap, rfl⟩ := List.exists_cons_of_ne_nil hne
      have hd : d ≠ c := by
        rintro rfl
        rw [isBlank, List.all_cons, hc, Bool.false_and] at hgap
        contradiction
      have hspace : ' ' ≠ c := by
        rintro rfl
        exact absurd hc (by decide)
      simp [hd, hspace]

theorem visible_head? (h : Squeezed quote behind t t') (ht : ∀ c ∈ t.head?, isWhite c = false) :
    t'.head? = t.head? := by
  cases t with
  | nil => rw [h.eq_nil_iff.mp rfl]
  | cons c t => exact (h.head?_eq_iff (ht c rfl)).mp rfl

/-- Of what lies behind, only the escapes count. -/
theorem behind_congr {behind' : Text} (h : Squeezed quote behind t t')
    (hb : ∀ front, isEscaped (front ++ behind) = isEscaped (front ++ behind')) :
    Squeezed quote behind' t t' := by
  induction h generalizing behind' with
  | nil => exact .nil
  | @keep quote behind t t' c hc ht ih =>
      have hnext : quote.next behind c = quote.next behind' c := by
        have hhere : isEscaped behind = isEscaped behind' := hb []
        rw [OpenQuote.next, hhere, OpenQuote.next]
      refine .keep hc (hnext ▸ ih fun front => ?_)
      simpa using hb (front ++ [c])
  | @gap behind gap t t' hne hgap hfirst ht ih =>
      refine .gap hne hgap hfirst (ih fun front => ?_)
      simpa using hb (front ++ gap.reverse)

/-- A text that does not begin with a quote or an escape can be squeezed alone. -/
theorem alone (h : Squeezed quote behind t t')
    (hfirst : ∀ c ∈ t.head?, isQuote c = false ∧ c ≠ '\\') : Squeezed quote [] t t' := by
  cases h with
  | nil => exact .nil
  | @keep _ _ t t' c hc ht =>
      obtain ⟨hquote, hslash⟩ := hfirst c rfl
      have hescape : ∀ b : Text, (c :: b).head? ≠ some '\\' := by simpa using hslash
      refine .keep hc ?_
      rw [OpenQuote.next_of_not_isQuote hquote] at ht ⊢
      refine ht.behind_congr fun front => ?_
      rw [isEscaped_append (hescape behind), isEscaped_append (hescape [])]
  | @gap _ g t t' hne hg hvisible ht =>
      refine .gap hne hg hvisible (ht.behind_congr fun front => ?_)
      rw [isEscaped_append (not_escape_of_isBlank hne hg behind),
        isEscaped_append (not_escape_of_isBlank hne hg [])]

/-! ### Trimming -/

theorem trimStart (h : Squeezed none behind t t') :
    ∃ gap, isBlank gap = true ∧
      Squeezed none (gap ++ behind) (trimStart t) (trimStart t') := by
  cases h with
  | nil => exact ⟨[], rfl, .nil⟩
  | @keep _ _ t t' c hc ht =>
      have hvisible := hc.resolve_right fun h => h rfl
      refine ⟨[], rfl, ?_⟩
      simpa [Text.trimStart, hvisible] using Squeezed.keep hc ht
  | @gap _ gap t t' hne hgap hfirst ht =>
      have hstart : ∀ {u : Text}, (∀ c ∈ u.head?, isWhite c = false) → Text.trimStart u = u := by
        intro u hu
        cases u with
        | nil => rfl
        | cons c u => simp [Text.trimStart, hu c rfl]
      have hspace : isWhite ' ' = true := by decide
      refine ⟨gap.reverse, by rwa [isBlank, List.all_reverse], ?_⟩
      rw [Text.trimStart, List.dropWhile_append_of_pos fun c hc => List.all_eq_true.mp hgap c hc,
        ← Text.trimStart, hstart hfirst, Text.trimStart, List.dropWhile_cons_of_pos hspace,
        ← Text.trimStart, hstart (ht.visible_head? hfirst ▸ hfirst)]
      exact ht

theorem trimEnd (h : Squeezed quote behind t t') :
    Squeezed quote behind (trimEnd t) (trimEnd t') := by
  induction h with
  | nil => exact .nil
  | @keep quote behind t t' c hc ht ih =>
      have hcons : ∀ u : Text, c :: u = [c] ++ u := fun _ => rfl
      rw [hcons t, hcons t', trimEnd_append, trimEnd_append]
      by_cases hnil : Text.trimEnd t = []
      · rw [if_pos hnil, if_pos (ih.eq_nil_iff.mp hnil)]
        cases hwhite : isWhite c with
        | true => simpa [Text.trimEnd, hwhite] using Squeezed.nil
        | false => simpa [Text.trimEnd, hwhite] using Squeezed.keep hc Squeezed.nil
      · rw [if_neg hnil, if_neg (ih.eq_nil_iff.not.mp hnil)]
        exact .keep hc ih
  | @gap behind gap t t' hne hgap hfirst ht ih =>
      have hcons : ' ' :: t' = [' '] ++ t' := rfl
      rw [hcons, trimEnd_append, trimEnd_append]
      by_cases hnil : Text.trimEnd t = []
      · have hspace : isBlank [' '] = true := by decide
        have hnone : Text.trimEnd gap = [] ∧ Text.trimEnd [' '] = [] :=
          ⟨trimEnd_append_blank [] hgap, trimEnd_append_blank [] hspace⟩
        rw [if_pos hnil, if_pos (ih.eq_nil_iff.mp hnil), hnone.1, hnone.2]
        exact .nil
      · rw [if_neg hnil, if_neg (ih.eq_nil_iff.not.mp hnil)]
        refine .gap hne hgap (fun c hc => hfirst c ?_) ih
        obtain ⟨more, hmore⟩ : Text.trimEnd t <+: t := List.rdropWhile_prefix isWhite t
        rw [← hmore, List.head?_append, hc]
        rfl

/-! ### Collapsing -/

theorem collapseFrom_eq (h : Squeezed quote behind t t')
    (hlast : ∀ c ∈ t.getLast?, isWhite c = false) : collapseFrom quote false behind t = t' := by
  induction h with
  | nil => rfl
  | @keep quote behind t t' c hc ht ih =>
      have hkeep : (isWhite c && !quote.covers behind c) = false := by
        cases hwhite : isWhite c with
        | false => rfl
        | true =>
            have hsome := hc.resolve_left (by simp [hwhite])
            simpa [OpenQuote.covers_of_isWhite hwhite, Option.isSome_iff_ne_none] using hsome
      have hrest : ∀ d ∈ t.getLast?, isWhite d = false := by
        intro d hd
        exact hlast d (by rw [List.getLast?_cons, hd]; rfl)
      simp only [collapseFrom, hkeep, Bool.false_eq_true, if_false, ih hrest]
  | @gap behind gap t t' hne hgap hfirst ht ih =>
      cases t with
      | nil =>
          obtain ⟨front, d, rfl⟩ := (List.eq_nil_or_concat' gap).resolve_left hne
          have hd := hlast d (by simp)
          simp [isBlank, hd] at hgap
      | cons c t =>
          have hc : isWhite c = false := hfirst c rfl
          rw [List.getLast?_append_of_ne_nil _ (List.cons_ne_nil c t)] at hlast
          rw [collapseFrom_gap hgap hne, ← ih hlast]
          simp [collapseFrom, hc]

end Squeezed

/-- Collapsing squeezes a trimmed text. -/
theorem squeezed_collapse (h : trim t = t) : Squeezed none [] t (collapse t) := by
  obtain ⟨t', ht⟩ := exists_squeezed none [] t
  rwa [collapse, h, ht.collapseFrom_eq fun c hc => not_isWhite_last h hc]

/-- Collapsing a text is trimming what it squeezes to. -/
theorem collapse_of_squeezed (h : Squeezed none behind t t') (hb : behind.head? ≠ some '\\') :
    collapse t = trim t' := by
  obtain ⟨gap, hgap, hstart⟩ := h.trimStart
  have hescape : (gap ++ behind).head? ≠ some '\\' := by
    cases gap with
    | nil => exact hb
    | cons c gap =>
        rw [isBlank, List.all_cons, Bool.and_eq_true] at hgap
        have hc : c ≠ '\\' := ne_of_kind hgap.1 (by decide)
        simpa using hc
  have hboth : Squeezed none [] (trim t) (trim t') := by
    refine hstart.trimEnd.behind_congr fun front => ?_
    rw [isEscaped_append hescape, List.append_nil]
  rw [collapse, hboth.collapseFrom_eq fun c hc => not_isWhite_last (trim_trim t) hc]

theorem collapse_eq_nil_iff (h : trim t = t) : collapse t = [] ↔ t = [] :=
  (squeezed_collapse h).eq_nil_iff.symm

end Text

/-! ### Regions -/

namespace Region

/-- The region after white space that ends no line comment. -/
def space : Region → Region
  | blockOpening => blockComment
  | blockClosing => code
  | region => region

theorem space_space (region : Region) : region.space.space = region.space := by
  cases region <;> rfl

/-- A reader within a literal waits for a quote. -/
def IsQuoted (region : Region) : Prop := ∀ quote, region = literal quote → isQuote quote = true

variable {region : Region} {c : Char}

theorem isQuoted_of_ne_literal (h : ∀ quote, region ≠ literal quote) : region.IsQuoted :=
  fun quote heq => absurd heq (h quote)

theorem isQuoted_space (h : region.IsQuoted) : region.space.IsQuoted := by
  cases region <;> simp_all [space, IsQuoted]

theorem space_ne_literal (h : ∀ quote, region ≠ literal quote) (quote : Char) :
    region.space ≠ literal quote := by
  cases region <;> simp_all [space]

theorem comment?_ne_literal {rest : Text} {opened : Region} (h : comment? c rest = some opened)
    (quote : Char) : opened ≠ literal quote := by
  unfold comment? at h
  repeat' split at h
  all_goals simp_all
  all_goals simp [← h]

theorem isQuoted_read (h : region.IsQuoted) (behind : Text) (c : Char) (rest : Text) :
    (region.read behind c rest).2.IsQuoted := by
  cases region with
  | code =>
      simp only [read]
      split
      · rename_i hc
        rintro quote ⟨⟩
        exact (Bool.and_eq_true_iff.mp hc).1
      · split
        · rename_i hopened
          exact isQuoted_of_ne_literal (comment?_ne_literal hopened)
        · simp [IsQuoted]
  | literal quote =>
      simp only [read]
      split
      · simp [IsQuoted]
      · exact h
  | lineComment => simp only [read]; split <;> simp [IsQuoted]
  | blockOpening => simp [read, IsQuoted]
  | blockComment => simp only [read]; split <;> simp [IsQuoted]
  | blockClosing => simp [read, IsQuoted]

/-- White space changes the region in one way, and it opens no literal. -/
theorem read_white (hc : isWhite c = true) (hquote : region.IsQuoted)
    (hline : region = lineComment → c ≠ '\n') (behind rest : Text) :
    (region.read behind c rest).2 = region.space ∧
      ((∀ quote, region ≠ literal quote) → (region.read behind c rest).1 ≠ .literal) := by
  have hstar : c ≠ '*' := ne_of_kind hc (by decide)
  cases region with
  | code => simp [read_plain (isPlain_of_isWhite hc), space]
  | literal quote =>
      have hne : c ≠ quote := ne_of_kind hc (not_isWhite_of_isQuote (hquote quote rfl))
      simp [read, space, hne]
  | lineComment => simp [read, space, hline rfl]
  | blockOpening => simp [read, space]
  | blockComment => simp [read, space, hstar]
  | blockClosing => simp [read, space]

/-- A reader looks back at escapes and ahead for the second character of a comment sign. -/
theorem read_congr {behind behind' t t' : Text} (hescape : isEscaped behind = isEscaped behind')
    (hslash : t.head? = some '/' ↔ t'.head? = some '/')
    (hstar : t.head? = some '*' ↔ t'.head? = some '*') (region : Region) (c : Char) :
    region.read behind c t = region.read behind' c t' := by
  have hcomment : comment? c t = comment? c t' := by
    have heq : ∀ u : Text, comment? c u = if c = '/' then
        if u.head? = some '/' then some lineComment
        else if u.head? = some '*' then some blockOpening else none else none := by
      intro u
      unfold comment?
      repeat' split
      all_goals simp_all
    simp only [heq, hslash, hstar]
  have hbeq : (t.head? == some '/') = (t'.head? == some '/') := by
    rw [Bool.eq_iff_iff, beq_iff_eq, beq_iff_eq, hslash]
  cases region <;> simp only [read, hescape, hcomment, hbeq]

end Region

/-! ### Reading in step -/

namespace Text

/-- Whether squeezing keeps the line feeds that end line comments. -/
def keepsLines (quote : OpenQuote) (region : Region) (behind : Text) : Text → Bool
  | [] => true
  | c :: rest =>
    !(region = .lineComment && c = '\n' && quote.isNone) &&
      keepsLines (quote.next behind c) (region.read behind c rest).2 (c :: behind) rest

theorem keepsLines_white {region : Region} {c : Char} (hc : isWhite c = true)
    (hquote : region.IsQuoted) (hline : region = .lineComment → c ≠ '\n') (behind t : Text) :
    keepsLines none region behind (c :: t) = keepsLines none region.space (c :: behind) t := by
  rw [keepsLines, OpenQuote.next_of_not_isQuote (isPlain_of_isWhite hc).1,
    (Region.read_white hc hquote hline behind t).1]
  by_cases hregion : region = .lineComment <;> simp [hregion, hline]

theorem ne_feed_of_keepsLines {region : Region} {behind t : Text} {c : Char}
    (h : keepsLines none region behind (c :: t) = true) : region = .lineComment → c ≠ '\n' := by
  rintro rfl rfl
  simp [keepsLines] at h

/-- A reader that passes a white character in one way passes a run of them in that way. The regions
that it can be in are those of `valid`. -/
theorem run_gap {α : Type*} {valid : Region → Prop} (run : Region → Text → Text → α)
    (pass : Text → α → α)
    (hvalid : ∀ region, valid region → region.IsQuoted ∧ valid region.space)
    (hpass : ∀ c g x, pass (c :: g) x = pass [c] (pass g x))
    (hwhite : ∀ region behind c t, isWhite c = true → valid region →
      (region = .lineComment → c ≠ '\n') →
      run region behind (c :: t) = pass [c] (run region.space (c :: behind) t))
    {region : Region} {behind t g : Text} (hne : g ≠ []) (hg : isBlank g = true)
    (hregion : valid region) (h : keepsLines none region behind (g ++ t) = true) :
    run region behind (g ++ t) = pass g (run region.space (g.reverse ++ behind) t) := by
  induction g generalizing region behind with
  | nil => exact absurd rfl hne
  | cons c g ih =>
      rw [isBlank, List.all_cons, Bool.and_eq_true] at hg
      obtain ⟨hquote, hspace⟩ := hvalid region hregion
      have hline := ne_feed_of_keepsLines h
      rw [List.cons_append, keepsLines_white hg.1 hquote hline] at h
      rw [List.cons_append, hwhite region behind c (g ++ t) hg.1 hregion hline]
      cases g with
      | nil => rfl
      | cons d g =>
          rw [ih (List.cons_ne_nil d g) hg.2 hspace h, ← hpass, Region.space_space]
          simp

theorem keepsLines_gap {region : Region} {behind t g : Text} (hne : g ≠ [])
    (hg : isBlank g = true) (hquote : region.IsQuoted)
    (h : keepsLines none region behind (g ++ t) = true) :
    keepsLines none region.space (g.reverse ++ behind) t = true := by
  rw [← h]
  exact (run_gap (keepsLines none) (fun _ x => x) (fun _ hq => ⟨hq, Region.isQuoted_space hq⟩)
    (fun _ _ _ => rfl) (fun _ behind _ t hc hq hline => keepsLines_white hc hq hline behind t)
    hne hg hquote h).symm

end Text

namespace Cursor

/-- What a character of a group does to the number of open brackets. The last one closes the
group. -/
def depthAt (role : Role) (c : Char) (depth : Nat) : Option Nat :=
  if role ≠ .code then some depth
  else if c = '(' then some (depth + 1)
  else if c = ')' then if depth ≤ 1 then none else some (depth - 1)
  else some depth

theorem groupFrom_round (region : Region) (depth : Nat) (behind : Text) (c : Char) (t : Text) :
    groupFrom '(' ')' region depth behind (c :: t) =
      match depthAt (region.read behind c t).1 c depth with
      | none => ([], ⟨c :: behind, t⟩)
      | some depth' =>
        inFront [c] (groupFrom '(' ')' (region.read behind c t).2 depth' (c :: behind) t) := by
  rw [groupFrom_cons]
  generalize region.read behind c t = read
  obtain ⟨role, region'⟩ := read
  dsimp only
  by_cases hrole : role = .code
  · by_cases hopen : c = '('
    · simp [GroupSign.of?, depthAt, hrole, hopen]
    · by_cases hclose : c = ')'
      · by_cases hdepth : depth ≤ 1 <;> simp [GroupSign.of?, depthAt, hrole, hclose, hdepth]
      · simp [GroupSign.of?, depthAt, hrole, hopen, hclose]
  · simp [GroupSign.of?, depthAt, hrole]

/-- Whether a character is passed over as trivia. -/
def isTrivia (role : Role) (c : Char) : Bool := role = .comment || (role = .code && isWhite c)

theorem skipTriviaFrom_cons (region : Region) (behind : Text) (c : Char) (t : Text) :
    skipTriviaFrom region behind (c :: t) =
      if isTrivia (region.read behind c t).1 c then
        skipTriviaFrom (region.read behind c t).2 (c :: behind) t
      else ⟨behind, c :: t⟩ := by
  obtain ⟨role, region', hread⟩ : ∃ role region', region.read behind c t = (role, region') :=
    ⟨_, _, rfl⟩
  simp only [skipTriviaFrom, hread, isTrivia]
  cases role <;> simp

section White

variable {region : Region} {behind t : Text}

theorem groupFrom_white {c : Char} (hc : isWhite c = true) (hquote : region.IsQuoted)
    (hline : region = .lineComment → c ≠ '\n') (depth : Nat) :
    groupFrom '(' ')' region depth behind (c :: t) =
      inFront [c] (groupFrom '(' ')' region.space depth (c :: behind) t) := by
  have hopen : c ≠ '(' := ne_of_kind hc (by decide)
  have hclose : c ≠ ')' := ne_of_kind hc (by decide)
  have hdepth : ∀ role, depthAt role c depth = some depth := by simp [depthAt, hopen, hclose]
  rw [groupFrom_round, hdepth, (Region.read_white hc hquote hline behind t).1]

theorem groupFrom_gap {g : Text} (hne : g ≠ []) (hg : isBlank g = true) (hquote : region.IsQuoted)
    (h : keepsLines none region behind (g ++ t) = true) (depth : Nat) :
    groupFrom '(' ')' region depth behind (g ++ t) =
      inFront g (groupFrom '(' ')' region.space depth (g.reverse ++ behind) t) :=
  run_gap (groupFrom '(' ')' · depth) inFront (fun _ hq => ⟨hq, Region.isQuoted_space hq⟩)
    (fun c g p => inFront_append [c] g p)
    (fun _ _ _ _ hc hq hline => groupFrom_white hc hq hline depth) hne hg hquote h

theorem head?_groupFrom (depth : Nat) {c : Char}
    (h : c ∈ (groupFrom '(' ')' region depth behind t).1.head?) : c ∈ t.head? := by
  cases t with
  | nil => exact h
  | cons d t =>
      rw [groupFrom_round] at h
      cases hdepth : depthAt (region.read behind d t).1 d depth <;> simp_all [inFront]

theorem skipTriviaFrom_white {c : Char} (hc : isWhite c = true)
    (hregion : ∀ quote, region ≠ .literal quote) (hline : region = .lineComment → c ≠ '\n') :
    skipTriviaFrom region behind (c :: t) = skipTriviaFrom region.space (c :: behind) t := by
  obtain ⟨hspace, hrole⟩ :=
    Region.read_white hc (Region.isQuoted_of_ne_literal hregion) hline behind t
  have htrivia : isTrivia (region.read behind c t).1 c = true := by
    have hcode := hrole hregion
    cases hread : (region.read behind c t).1 <;> simp_all [isTrivia]
  rw [skipTriviaFrom_cons, if_pos htrivia, hspace]

theorem skipTriviaFrom_gap {g : Text} (hne : g ≠ []) (hg : isBlank g = true)
    (hregion : ∀ quote, region ≠ .literal quote)
    (h : keepsLines none region behind (g ++ t) = true) :
    skipTriviaFrom region behind (g ++ t) =
      skipTriviaFrom region.space (g.reverse ++ behind) t :=
  run_gap skipTriviaFrom (fun _ c => c)
    (fun _ hr => ⟨Region.isQuoted_of_ne_literal hr, Region.space_ne_literal hr⟩)
    (fun _ _ _ => rfl) (fun _ _ _ _ hc hr hline => skipTriviaFrom_white hc hr hline)
    hne hg hregion h

end White

/-- Passing over trivia opens no literal, and it ends in code. -/
theorem read_trivia {region : Region} (h : ∀ quote, region ≠ .literal quote) (behind : Text)
    (c : Char) (t : Text) :
    (isTrivia (region.read behind c t).1 c = true →
        ∀ quote, (region.read behind c t).2 ≠ .literal quote) ∧
      (isTrivia (region.read behind c t).1 c = false → region = .code) := by
  cases region with
  | code =>
      refine ⟨fun htrivia quote hread => ?_, fun _ => rfl⟩
      have hrole : (Region.code.read behind c t).1 = .literal := by
        simp only [Region.read] at hread ⊢
        split
        · rfl
        · rename_i hquote
          rw [if_neg hquote] at hread
          split at hread
          · rename_i hopened
            exact absurd hread (Region.comment?_ne_literal hopened quote)
          · simp at hread
      simp [hrole, isTrivia] at htrivia
  | literal quote => exact absurd rfl (h quote)
  | lineComment =>
      have hfeed : isWhite '\n' = true := by decide
      by_cases hc : c = '\n' <;> simp [Region.read, isTrivia, hc, hfeed]
  | blockOpening => simp [Region.read, isTrivia]
  | blockComment => simp only [Region.read]; split <;> simp [isTrivia]
  | blockClosing => simp [Region.read, isTrivia]

/-- Two readers of code at places of a text and of its squeezed form. -/
structure InStep (quote : OpenQuote) (region : Region) (p p' : Cursor) : Prop where
  squeezed : Squeezed quote p.behind p.ahead p'.ahead
  escapes : ∀ front, Text.isEscaped (front ++ p.behind) = Text.isEscaped (front ++ p'.behind)
  lines : keepsLines quote region p.behind p.ahead = true
  quoted : region.IsQuoted

namespace InStep

variable {quote : OpenQuote} {region : Region} {behind behind' t t' : Text} {c : Char}

/-- A character that is kept is read alike. -/
theorem keep (h : InStep quote region ⟨behind, c :: t⟩ ⟨behind', c :: t'⟩)
    (ht : Squeezed (quote.next behind c) (c :: behind) t t') :
    region.read behind c t = region.read behind' c t' ∧
      InStep (quote.next behind c) (region.read behind c t).2 ⟨c :: behind, t⟩
        ⟨c :: behind', t'⟩ := by
  have hlines := h.lines
  rw [keepsLines, Bool.and_eq_true] at hlines
  refine ⟨Region.read_congr (h.escapes []) (ht.head?_eq_iff (by decide))
    (ht.head?_eq_iff (by decide)) region c, ht, fun front => ?_, hlines.2,
    Region.isQuoted_read h.quoted behind c t⟩
  simpa using h.escapes (front ++ [c])

/-- A run of white space and the space in its place lead to the same region. -/
theorem gap {g : Text} (h : InStep none region ⟨behind, g ++ t⟩ ⟨behind', ' ' :: t'⟩)
    (hne : g ≠ []) (hg : isBlank g = true) (ht : Squeezed none (g.reverse ++ behind) t t') :
    InStep none region.space ⟨g.reverse ++ behind, t⟩ ⟨' ' :: behind', t'⟩ := by
  refine ⟨ht, fun front => ?_, keepsLines_gap hne hg h.quoted h.lines,
    Region.isQuoted_space h.quoted⟩
  have hspace : (' ' :: behind').head? ≠ some '\\' := by simp
  rw [isEscaped_append (not_escape_of_isBlank hne hg behind), isEscaped_append hspace]

/-- A group closes at the same bracket. -/
theorem group {p p' : Cursor} (h : InStep quote region p p') (depth : Nat) :
    Squeezed quote p.behind (groupFrom '(' ')' region depth p.behind p.ahead).1
        (groupFrom '(' ')' region depth p'.behind p'.ahead).1 ∧
      ∃ quote', InStep quote' .code (groupFrom '(' ')' region depth p.behind p.ahead).2
        (groupFrom '(' ')' region depth p'.behind p'.ahead).2 := by
  obtain ⟨behind, t⟩ := p
  obtain ⟨behind', t'⟩ := p'
  have hsqueezed : Squeezed quote behind t t' := h.squeezed
  induction hsqueezed generalizing region depth behind' with
  | nil => exact ⟨.nil, quote, .nil, h.escapes, rfl, by simp [Region.IsQuoted]⟩
  | @keep quote behind t t' c hc ht ih =>
      obtain ⟨hread, hnext⟩ := h.keep ht
      rw [groupFrom_round, groupFrom_round, ← hread]
      cases hdepth : depthAt (region.read behind c t).1 c depth with
      | none =>
          have hcode : (region.read behind c t).2 = .code := by
            refine Region.read_code (Prod.ext ?_ rfl)
            by_contra hrole
            simp [depthAt, hrole] at hdepth
          exact ⟨.nil, _, hcode ▸ hnext⟩
      | some depth' =>
          obtain ⟨hinner, hstop⟩ := ih depth' _ hnext
          exact ⟨.keep hc hinner, hstop⟩
  | @gap behind g t t' hne hg hfirst ht ih =>
      have hspace : groupFrom '(' ')' region depth behind' (' ' :: t') = _ :=
        groupFrom_white (by decide) h.quoted (fun _ => by decide) depth
      rw [groupFrom_gap hne hg h.quoted h.lines depth, hspace]
      obtain ⟨hinner, hstop⟩ := ih depth _ (h.gap hne hg ht)
      exact ⟨.gap hne hg (fun c hc => hfirst c (head?_groupFrom depth hc)) hinner, hstop⟩

/-- Trivia end at the same place. -/
theorem skipTrivia {p p' : Cursor} (h : InStep quote region p p')
    (hregion : ∀ quote, region ≠ .literal quote) :
    ∃ passed, (skipTriviaFrom region p.behind p.ahead).behind = passed.reverse ++ p.behind ∧
      InStep (quote.after p.behind passed) .code (skipTriviaFrom region p.behind p.ahead)
        (skipTriviaFrom region p'.behind p'.ahead) := by
  obtain ⟨behind, t⟩ := p
  obtain ⟨behind', t'⟩ := p'
  have hsqueezed : Squeezed quote behind t t' := h.squeezed
  induction hsqueezed generalizing region behind' with
  | nil => exact ⟨[], rfl, .nil, h.escapes, rfl, by simp [Region.IsQuoted]⟩
  | @keep quote behind t t' c hc ht ih =>
      obtain ⟨hread, hnext⟩ := h.keep ht
      rw [skipTriviaFrom_cons, skipTriviaFrom_cons, ← hread]
      by_cases htrivia : isTrivia (region.read behind c t).1 c = true
      · rw [if_pos htrivia, if_pos htrivia]
        obtain ⟨passed, hpassed, hstop⟩ := ih ((read_trivia hregion behind c t).1 htrivia) _ hnext
        exact ⟨c :: passed, by simpa using hpassed, hstop⟩
      · rw [if_neg htrivia, if_neg htrivia]
        have hcode := (read_trivia hregion behind c t).2 (Bool.eq_false_iff.mpr htrivia)
        exact ⟨[], rfl, hcode ▸ h⟩
  | @gap behind g t t' hne hg hfirst ht ih =>
      have hspace : skipTriviaFrom region behind' (' ' :: t') = _ :=
        skipTriviaFrom_white (by decide) hregion fun _ => by decide
      rw [skipTriviaFrom_gap hne hg hregion h.lines, hspace]
      obtain ⟨passed, hpassed, hstop⟩ := ih (Region.space_ne_literal hregion) _ (h.gap hne hg ht)
      refine ⟨g ++ passed, by simpa using hpassed, ?_⟩
      rwa [OpenQuote.after_append, OpenQuote.after_blank hg]

end InStep

end Cursor

end ComponentProps
