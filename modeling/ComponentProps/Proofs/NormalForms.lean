import ComponentProps.Proofs.DefaultSpacing

/-!
# Normal forms of text

Every way of normalizing captured text is idempotent. What a pass writes is such that a second pass
over it sees the same literals: white space is put in or left out only where no quote can become or
cease to be escaped. So each pass keeps the quote that is open, and what it has written is left as
it is by a second pass.
-/

namespace ComponentProps.Text

/-! ### Lines -/

theorem newline_not_mem_of_mem_lines {t row : Text} (h : row ∈ lines t) : '\n' ∉ row := by
  induction t generalizing row with
  | nil => simp [lines] at h
  | cons c t ih =>
      rw [lines] at h
      split_ifs at h with hfeed hreturn
      · rcases List.mem_cons.mp h with rfl | hrow
        · simp
        · exact ih hrow
      · exact ih h
      · cases hlines : lines t with
        | nil =>
            rw [hlines, consFirst, List.mem_singleton] at h
            simpa [h] using Ne.symm hfeed
        | cons first rows =>
            rw [hlines, consFirst] at h
            rcases List.mem_cons.mp h with rfl | hrow
            · have hfirst : '\n' ∉ first := ih (hlines ▸ List.mem_cons_self)
              simpa [hfirst] using Ne.symm hfeed
            · exact ih (hlines ▸ List.mem_cons_of_mem first hrow)

theorem getLast?_ne_return {row : Text} (h : trimEnd row = row) : row.getLast? ≠ some '\r' := by
  intro hlast
  obtain ⟨front, rfl⟩ := List.getLast?_eq_some_iff.mp hlast
  have hvisible := List.rdropWhile_eq_self_iff.mp h (by simp)
  simp [isWhite] at hvisible

/-- Rows without white space at their ends are the lines of the text that they make up, if the last
one is not empty. -/
theorem lines_unlines {rows : List Text} (hline : ∀ row ∈ rows, '\n' ∉ row)
    (hend : ∀ row ∈ rows, trimEnd row = row) (hlast : rows.getLast? ≠ some []) :
    lines (unlines rows) = rows := by
  induction rows with
  | nil => rfl
  | cons row rows ih =>
      rw [List.forall_mem_cons] at hline hend
      cases rows with
      | nil =>
          have hne : row ≠ [] := by simpa using hlast
          simpa [unlines] using lines_oneLine hline.1 hne
      | cons next rows =>
          have hunlines : unlines (row :: next :: rows) = row ++ '\n' :: unlines (next :: rows) := by
            simp [unlines]
          rw [hunlines, lines_row hline.1 (getLast?_ne_return hend.1),
            ih hline.2 hend.2 (by simpa using hlast)]

/-- A row without its share of the common indentation. -/
def dedentRow (indent : Nat) (row : Text) : Text :=
  if isBlank row then [] else trimEnd (row.drop indent)

theorem trimEnd_dedentRow (indent : Nat) (row : Text) :
    trimEnd (dedentRow indent row) = dedentRow indent row := by
  unfold dedentRow
  split
  · rfl
  · exact List.rdropWhile_idempotent isWhite _

theorem dedentRow_sublist (indent : Nat) (row : Text) : (dedentRow indent row).Sublist row := by
  unfold dedentRow
  split
  · exact List.nil_sublist row
  · exact (List.rdropWhile_prefix isWhite _).sublist.trans (List.drop_sublist indent row)

/-- With its indentation off, the least indented row begins with a visible character. -/
theorem commonIndent_dedentRow (rows : List Text) :
    commonIndent (rows.map (dedentRow (commonIndent rows))) = 0 := by
  cases hmin : ((rows.filter (!isBlank ·)).map fun row => (row.takeWhile isWhite).length).min? with
  | none =>
      have hblank : ∀ row ∈ rows, isBlank row = true := by
        simpa [List.min?_eq_none_iff, List.filter_eq_nil_iff] using hmin
      have hrows : rows.map (dedentRow (commonIndent rows)) = rows.map fun _ => [] :=
        List.map_congr_left fun row hrow => if_pos (hblank row hrow)
      rw [hrows, commonIndent]
      have hnone : (rows.map fun _ => ([] : Text)).filter (!isBlank ·) = [] := by
        simp [isBlank]
      rw [hnone]
      rfl
  | some least =>
      have hcommon : commonIndent rows = least := by rw [commonIndent, hmin, Option.getD_some]
      obtain ⟨row, hrow, hindent⟩ := List.mem_map.mp (List.min?_mem hmin)
      obtain ⟨hmem, hvisible⟩ := List.mem_filter.mp hrow
      have hvisible : isBlank row = false := by simpa using hvisible
      have hdrop : row.drop least = row.dropWhile isWhite := by
        nth_rewrite 1 [← List.takeWhile_append_dropWhile (p := isWhite) (l := row)]
        rw [← hindent, List.drop_left]
      obtain ⟨c, rest, hcons, hc⟩ : ∃ c rest, row.dropWhile isWhite = c :: rest ∧
          isWhite c = false := by
        cases hdropped : row.dropWhile isWhite with
        | nil =>
            have hall := List.dropWhile_eq_nil_iff.mp hdropped
            rw [isBlank, List.all_eq_true.mpr hall] at hvisible
            contradiction
        | cons c rest =>
            have hhead := List.head?_dropWhile_not isWhite row
            rw [hdropped] at hhead
            exact ⟨c, rest, rfl, by simpa using hhead⟩
      have hkept : dedentRow least row = c :: trimEnd rest := by
        rw [dedentRow, hvisible, hdrop, hcons, trimEnd_cons hc]
        rfl
      have hmem' : c :: trimEnd rest ∈ rows.map (dedentRow least) :=
        hkept ▸ List.mem_map_of_mem hmem
      have hle := commonIndent_le hmem' (by simp [isBlank, hc])
      rw [hcommon]
      simpa [hc] using hle

/-- The last row of a dedented text is not empty. -/
theorem getLast?_dedented {t first : Text} {rows : List Text} (h : lines (trim t) = first :: rows) :
    (trimEnd first :: rows.map (dedentRow (commonIndent rows))).getLast? ≠ some [] := by
  have hne : trim t ≠ [] := by
    intro hnil
    rw [hnil] at h
    contradiction
  obtain ⟨front, d, hlast⟩ := (List.eq_nil_or_concat' _).resolve_left hne
  have hd : isWhite d = false := not_isWhite_last (trim_trim t) (by simp [hlast])
  obtain ⟨init, row, hlines⟩ := exists_last_line hd front
  rw [← hlast, h] at hlines
  cases init with
  | nil =>
      obtain ⟨rfl, rfl⟩ : first = row ++ [d] ∧ rows = [] := by simpa using hlines
      have hkept : trimEnd (row ++ [d]) = row ++ [d] :=
        List.rdropWhile_concat_neg isWhite row d (by simp [hd])
      simp [hkept]
  | cons _ middle =>
      have hrows : rows = middle ++ [row ++ [d]] := (List.cons.inj hlines).2
      have hmem : row ++ [d] ∈ rows := hrows ▸ List.mem_append_right middle List.mem_cons_self
      obtain ⟨hvisible, back, hback⟩ := exists_dedented_concat hd hmem
      have hkept : dedentRow (commonIndent rows) (row ++ [d]) = back ++ [d] := by
        rw [dedentRow, hvisible, ← hback]
        rfl
      nth_rewrite 2 [hrows]
      rw [List.map_append, List.map_singleton, hkept, ← List.cons_append, List.getLast?_concat]
      simp

/-- Taking off indentation once is enough. -/
theorem dedent_dedent (t : Text) : dedent (dedent t) = dedent t := by
  cases hlines : lines (trim t) with
  | nil =>
      have hnil : dedent t = [] := by rw [dedent, hlines]
      rw [hnil]
      rfl
  | cons first rows =>
      have hdedent : ∀ u first rows, lines (trim u) = first :: rows →
          dedent u = unlines (trimEnd first :: rows.map (dedentRow (commonIndent rows))) := by
        intro u first rows hu
        rw [dedent, hu]
        rfl
      have hagain : lines (trim (dedent t)) =
          trimEnd first :: rows.map (dedentRow (commonIndent rows)) := by
        rw [trim_dedent, hdedent t first rows hlines]
        refine lines_unlines ?_ ?_ (getLast?_dedented hlines)
        · rw [List.forall_mem_cons, List.forall_mem_map]
          have hline : ∀ row ∈ first :: rows, '\n' ∉ row :=
            fun row hrow => newline_not_mem_of_mem_lines (hlines ▸ hrow)
          refine ⟨fun hmem => hline first List.mem_cons_self
            ((List.rdropWhile_prefix isWhite first).subset hmem), fun row hrow hmem => ?_⟩
          exact hline row (List.mem_cons_of_mem first hrow) ((dedentRow_sublist _ row).subset hmem)
        · rw [List.forall_mem_cons, List.forall_mem_map]
          exact ⟨List.rdropWhile_idempotent isWhite first, fun row _ => trimEnd_dedentRow _ row⟩
      have hrows : (rows.map (dedentRow (commonIndent rows))).map (dedentRow 0) =
          rows.map (dedentRow (commonIndent rows)) := by
        rw [List.map_map]
        refine List.map_congr_left fun row _ => ?_
        have hend := trimEnd_dedentRow (commonIndent rows) row
        by_cases hblank : isBlank (dedentRow (commonIndent rows) row) = true
        · have hnil : trimEnd (dedentRow (commonIndent rows) row) = [] :=
            trimEnd_append_blank [] hblank
          rw [Function.comp_apply, dedentRow, if_pos hblank, ← hend, hnil]
        · rw [Function.comp_apply, dedentRow, if_neg hblank, List.drop_zero, hend]
      have hfirst : trimEnd (trimEnd first) = trimEnd first :=
        List.rdropWhile_idempotent isWhite first
      rw [hdedent (dedent t) _ _ hagain, commonIndent_dedentRow, hrows, hfirst,
        ← hdedent t first rows hlines]

/-! ### Prose -/

theorem collapseProseFrom_collapseProseFrom (gap : Bool) (t : Text) :
    collapseProseFrom false (collapseProseFrom gap t) = collapseProseFrom gap t := by
  induction t generalizing gap with
  | nil => rfl
  | cons c t ih =>
      have hspace : isWhite ' ' = true := by decide
      cases hc : isWhite c with
      | true => simp [collapseProseFrom, hc, ih]
      | false => cases gap <;> simp [collapseProseFrom, hc, hspace, ih]

theorem getLast?_collapseProseFrom {t : Text} {d : Char} (hd : isWhite d = false)
    (hlast : t.getLast? = some d) (gap : Bool) :
    (collapseProseFrom gap t).getLast? = some d := by
  induction t generalizing gap with
  | nil => contradiction
  | cons c t ih =>
      cases t with
      | nil =>
          obtain rfl : c = d := by simpa using hlast
          cases gap <;> simp [collapseProseFrom, hd]
      | cons e t =>
          have hrest := ih (by simpa using hlast)
          cases hc : isWhite c with
          | true => simpa [collapseProseFrom, hc] using hrest true
          | false =>
              rw [collapseProseFrom]
              cases gap <;> simp [hc, List.getLast?_cons, hrest false]

theorem trim_collapseProse (t : Text) : trim (collapseProse t) = collapseProse t := by
  unfold collapseProse
  by_cases hnil : trim t = []
  · rw [hnil]
    rfl
  obtain ⟨c, more, hfirst⟩ := List.exists_cons_of_ne_nil hnil
  obtain ⟨front, d, hlast⟩ := (List.eq_nil_or_concat' _).resolve_left hnil
  have hc : isWhite c = false := not_isWhite_head (hfirst ▸ trim_trim t)
  have hd : isWhite d = false := not_isWhite_last (trim_trim t) (by simp [hlast])
  have hhead : collapseProseFrom false (trim t) = c :: collapseProseFrom false more := by
    simp [hfirst, collapseProseFrom, hc]
  have hfinal : (trim t).getLast? = some d := by simp [hlast]
  obtain ⟨init, hend⟩ :=
    List.getLast?_eq_some_iff.mp (getLast?_collapseProseFrom hd hfinal false)
  exact trim_of_ends hhead hc hend hd

theorem collapseProse_collapseProse (t : Text) :
    collapseProse (collapseProse t) = collapseProse t := by
  rw [collapseProse, trim_collapseProse, collapseProse, collapseProseFrom_collapseProseFrom]

/-! ### Code -/

/-- What has been squeezed is squeezed to itself. -/
theorem Squeezed.again {quote : OpenQuote} {behind behind' t t' : Text}
    (h : Squeezed quote behind t t')
    (hb : ∀ front, isEscaped (front ++ behind) = isEscaped (front ++ behind')) :
    Squeezed quote behind' t' t' := by
  induction h generalizing behind' with
  | nil => exact .nil
  | @keep quote behind t t' c hc ht ih =>
      have hnext : quote.next behind c = quote.next behind' c := by
        have hhere : isEscaped behind = isEscaped behind' := hb []
        rw [OpenQuote.next, hhere, OpenQuote.next]
      refine .keep hc (hnext ▸ ih fun front => ?_)
      simpa using hb (front ++ [c])
  | @gap behind gap t t' hne hgap hfirst ht ih =>
      have hspace : isBlank [' '] = true := by decide
      refine .gap (g := [' ']) (by simp) hspace (ht.visible_head? hfirst ▸ hfirst)
        (ih fun front => ?_)
      rw [isEscaped_append (not_escape_of_isBlank hne hgap behind),
        isEscaped_append (not_escape_of_isBlank (by simp) hspace behind')]

/-- A text that is squeezed to itself and trimmed is collapsed. -/
theorem collapse_of_squeezed_self {t : Text} (h : Squeezed none [] t t) (ht : trim t = t) :
    collapse t = t :=
  (collapse_of_squeezed h (by simp)).trans ht

theorem collapse_collapse (t : Text) : collapse (collapse t) = collapse t := by
  have hsqueezed : Squeezed none [] (trim t) (collapse t) :=
    collapse_trim t ▸ squeezed_collapse (trim_trim t)
  have htrim : trim (collapse t) = collapse t := by
    rw [← collapse_of_squeezed hsqueezed (by simp), collapse_trim]
  exact collapse_of_squeezed_self (hsqueezed.again fun _ => rfl) htrim

/-! ### White space at the end -/

theorem exists_blank_after_trimEnd (t : Text) :
    ∃ g, isBlank g = true ∧ t = trimEnd t ++ g := by
  refine ⟨(t.reverse.takeWhile isWhite).reverse, by simp [isBlank], ?_⟩
  rw [trimEnd, ← List.reverse_append, List.takeWhile_append_dropWhile, List.reverse_reverse]

theorem trimEnd_eq_nil_iff_firstVisible? {t : Text} :
    trimEnd t = [] ↔ firstVisible? t = none := by
  rw [trimEnd, List.reverse_eq_nil_iff, List.dropWhile_eq_nil_iff, firstVisible?,
    List.find?_eq_none]
  simp

theorem trimEnd_cons_of_visible {t : Text} (h : trimEnd t ≠ []) (c : Char) :
    trimEnd (c :: t) = c :: trimEnd t := by
  have hcons : c :: t = [c] ++ t := rfl
  rw [hcons, trimEnd_append, if_neg h]
  rfl

theorem trimEnd_white_cons {t : Text} {c : Char} (hc : isWhite c = true)
    (h : trimEnd t = []) : trimEnd (c :: t) = [] := by
  rw [trimEnd_eq_nil_iff_firstVisible?] at h ⊢
  simpa [firstVisible?, hc] using h

theorem firstVisible?_trimEnd (t : Text) : firstVisible? (trimEnd t) = firstVisible? t := by
  induction t with
  | nil => rfl
  | cons c t ih =>
      cases hc : isWhite c with
      | false => simp [trimEnd_cons hc, firstVisible?, hc]
      | true =>
          have hrest : firstVisible? (c :: t) = firstVisible? t := by simp [firstVisible?, hc]
          by_cases hnil : trimEnd t = []
          · rw [trimEnd_white_cons hc hnil, hrest, trimEnd_eq_nil_iff_firstVisible?.mp hnil]
            rfl
          · rw [trimEnd_cons_of_visible hnil, hrest, ← ih]
            simp [firstVisible?, hc]

/-! ### Brackets -/

/-- The second text is what is written for the first, read behind `behind` and written behind `out`
(both nearest first), when space inside brackets is tidied. -/
inductive Tidied : OpenQuote → Text → Text → Text → Text → Prop
  | nil {quote : OpenQuote} {out behind : Text} : Tidied quote out behind [] []
  | literal {quote : OpenQuote} {out behind t u : Text} {c : Char}
      (hc : quote.covers behind c = true)
      (ht : Tidied (quote.next behind c) (c :: out) (c :: behind) t u) :
      Tidied quote out behind (c :: t) (c :: u)
  | plain {out behind t u : Text} {c : Char} (hc : OpenQuote.covers none behind c = false)
      (hvisible : isWhite c = false) (hbrace : c ≠ '{' ∧ c ≠ '}')
      (ht : Tidied none (c :: out) (c :: behind) t u) : Tidied none out behind (c :: t) (c :: u)
  | drop {out behind t u : Text} {c : Char} (hc : isWhite c = true)
      (hkeeps : keepsSpace out.head? (firstVisible? t) = false)
      (ht : Tidied none out (c :: behind) t u) : Tidied none out behind (c :: t) u
  | space {out behind t u : Text} {c : Char} (hc : isWhite c = true)
      (hkeeps : keepsSpace out.head? (firstVisible? t) = true)
      (ht : Tidied none (' ' :: out) (c :: behind) t u) : Tidied none out behind (c :: t) (' ' :: u)
  | opening {out behind t u : Text} (hnext : ∀ n, firstVisible? t = some n → n = '}')
      (ht : Tidied none ('{' :: out) ('{' :: behind) t u) :
      Tidied none out behind ('{' :: t) ('{' :: u)
  | openingPadded {out behind t u : Text} {n : Char} (hnext : firstVisible? t = some n)
      (hn : n ≠ '}') (ht : Tidied none (' ' :: '{' :: out) ('{' :: behind) t u) :
      Tidied none out behind ('{' :: t) ('{' :: ' ' :: u)
  | closing {out behind t u : Text} (hlast : ∀ l, out.head? = some l → l = '{' ∨ l = ' ')
      (ht : Tidied none ('}' :: out) ('}' :: behind) t u) :
      Tidied none out behind ('}' :: t) ('}' :: u)
  | closingPadded {out behind t u : Text} {l : Char} (hlast : out.head? = some l)
      (hl : l ≠ '{' ∧ l ≠ ' ') (ht : Tidied none ('}' :: ' ' :: out) ('}' :: behind) t u) :
      Tidied none out behind ('}' :: t) (' ' :: '}' :: u)

/-- Every text can be tidied. -/
theorem exists_tidied (quote : OpenQuote) (out behind t : Text) :
    ∃ u, Tidied quote out behind t u := by
  induction t generalizing quote out behind with
  | nil => exact ⟨[], .nil⟩
  | cons c t ih =>
      by_cases hcovers : quote.covers behind c = true
      · obtain ⟨u, hu⟩ := ih (quote.next behind c) (c :: out) (c :: behind)
        exact ⟨c :: u, .literal hcovers hu⟩
      · rw [Bool.not_eq_true] at hcovers
        obtain rfl : quote = none := by
          cases quote with
          | none => rfl
          | some q => simp [OpenQuote.covers] at hcovers
        by_cases hwhite : isWhite c = true
        · cases hkeeps : keepsSpace out.head? (firstVisible? t) with
          | true =>
              obtain ⟨u, hu⟩ := ih none (' ' :: out) (c :: behind)
              exact ⟨' ' :: u, .space hwhite hkeeps hu⟩
          | false =>
              obtain ⟨u, hu⟩ := ih none out (c :: behind)
              exact ⟨u, .drop hwhite hkeeps hu⟩
        · rw [Bool.not_eq_true] at hwhite
          by_cases hopen : c = '{'
          · subst hopen
            by_cases hnext : ∀ n, firstVisible? t = some n → n = '}'
            · obtain ⟨u, hu⟩ := ih none ('{' :: out) ('{' :: behind)
              exact ⟨'{' :: u, .opening hnext hu⟩
            · push Not at hnext
              obtain ⟨n, hnext, hn⟩ := hnext
              obtain ⟨u, hu⟩ := ih none (' ' :: '{' :: out) ('{' :: behind)
              exact ⟨'{' :: ' ' :: u, .openingPadded hnext hn hu⟩
          · by_cases hclose : c = '}'
            · subst hclose
              by_cases hlast : ∀ l, out.head? = some l → l = '{' ∨ l = ' '
              · obtain ⟨u, hu⟩ := ih none ('}' :: out) ('}' :: behind)
                exact ⟨'}' :: u, .closing hlast hu⟩
              · push Not at hlast
                obtain ⟨l, hlast, hl⟩ := hlast
                obtain ⟨u, hu⟩ := ih none ('}' :: ' ' :: out) ('}' :: behind)
                exact ⟨' ' :: '}' :: u, .closingPadded hlast hl hu⟩
            · obtain ⟨u, hu⟩ := ih none (c :: out) (c :: behind)
              exact ⟨c :: u, .plain hcovers hwhite ⟨hopen, hclose⟩ hu⟩

namespace Tidied

variable {quote : OpenQuote} {out behind t u : Text}

theorem next_of_covers {c : Char} (h : OpenQuote.covers none behind c = false) :
    OpenQuote.next none behind c = none := by
  cases hnext : OpenQuote.next none behind c with
  | none => rfl
  | some q => simp [OpenQuote.covers, hnext] at h

theorem covers_of_not_isQuote {c : Char} (h : isQuote c = false) (behind : Text) :
    OpenQuote.covers none behind c = false := by
  simp [OpenQuote.covers, OpenQuote.next_of_not_isQuote h]

/-- The relation is what tidying computes. -/
theorem tidyFrom_eq (h : Tidied quote out behind t u) :
    tidyFrom quote out behind t = u.reverse ++ out := by
  have hbrace : isQuote '{' = false ∧ isWhite '{' = false := by decide
  have hclose : isQuote '}' = false ∧ isWhite '}' = false := by decide
  induction h with
  | nil => rfl
  | literal hc ht ih => simp [tidyFrom, hc, ih]
  | plain hc hvisible hbrace ht ih =>
      simp [tidyFrom, hc, tidyChar, hvisible, hbrace, next_of_covers hc, ih]
  | drop hc hkeeps ht ih =>
      have hquote := (isPlain_of_isWhite hc).1
      simp [tidyFrom, covers_of_not_isQuote hquote, tidyChar, hc, hkeeps,
        OpenQuote.next_of_not_isQuote hquote, ih]
  | space hc hkeeps ht ih =>
      have hquote := (isPlain_of_isWhite hc).1
      simp [tidyFrom, covers_of_not_isQuote hquote, tidyChar, hc, hkeeps,
        OpenQuote.next_of_not_isQuote hquote, ih]
  | @opening out behind t u hnext ht ih =>
      have hchar : tidyChar out '{' t = '{' :: out := by
        cases hfirst : firstVisible? t with
        | none => simp [tidyChar, hbrace, hfirst]
        | some n => simp [tidyChar, hbrace, hfirst, hnext n hfirst]
      simp [tidyFrom, covers_of_not_isQuote hbrace.1, hchar,
        OpenQuote.next_of_not_isQuote hbrace.1, ih]
  | openingPadded hnext hn ht ih =>
      simp [tidyFrom, covers_of_not_isQuote hbrace.1, tidyChar, hbrace, hnext, hn,
        OpenQuote.next_of_not_isQuote hbrace.1, ih]
  | @closing out behind t u hlast ht ih =>
      have hchar : tidyChar out '}' t = '}' :: out := by
        cases out with
        | nil => simp [tidyChar, hclose]
        | cons l out => rcases hlast l rfl with rfl | rfl <;> simp [tidyChar, hclose]
      simp [tidyFrom, covers_of_not_isQuote hclose.1, hchar,
        OpenQuote.next_of_not_isQuote hclose.1, ih]
  | @closingPadded out behind t u l hlast hl ht ih =>
      have hchar : tidyChar out '}' t = '}' :: ' ' :: out := by
        cases out with
        | nil => contradiction
        | cons m out =>
            obtain rfl : m = l := by simpa using hlast
            simp [tidyChar, hclose, hl]
      simp [tidyFrom, covers_of_not_isQuote hclose.1, hchar,
        OpenQuote.next_of_not_isQuote hclose.1, ih]

/-- The first visible character stays the same. -/
theorem firstVisible?_eq (h : Tidied quote out behind t u) : firstVisible? u = firstVisible? t := by
  have hspace : isWhite ' ' = true := by decide
  induction h with
  | nil => rfl
  | @literal _ _ _ _ _ c _ _ ih =>
      simp only [firstVisible?, List.find?_cons] at ih ⊢
      rw [ih]
  | plain _ hvisible => simp [firstVisible?, hvisible]
  | drop hc _ _ ih => simpa [firstVisible?, hc] using ih
  | space hc _ _ ih => simpa [firstVisible?, hc, hspace] using ih
  | opening => rfl
  | openingPadded => rfl
  | closing => rfl
  | closingPadded => rfl

/-- At the start and behind a space no white space is written. -/
theorem visible_head (h : Tidied none out behind t u) (hout : out = [] ∨ out.head? = some ' ') :
    ∀ c ∈ u.head?, isWhite c = false := by
  have hspace : ∀ next, keepsSpace out.head? next = false := by
    rcases hout with rfl | hout
    · exact fun next => rfl
    · intro next
      rw [hout]
      cases next <;> rfl
  generalize hquote : (none : OpenQuote) = quote at h
  induction h with
  | nil => simp
  | @literal _ _ behind _ _ c hc _ _ =>
      subst hquote
      cases hwhite : isWhite c with
      | false => simpa using hwhite
      | true => simp [OpenQuote.covers_of_isWhite hwhite] at hc
  | plain _ hvisible => simpa using hvisible
  | drop _ _ _ ih => exact ih hout hspace rfl
  | space _ hkeeps => simp [hspace] at hkeeps
  | opening | openingPadded | closing => simp [isWhite]
  | closingPadded hlast hl =>
      rcases hout with rfl | hout
      · contradiction
      · rw [hout] at hlast
        exact absurd (Option.some.inj hlast).symm hl.2

/-! The second pass reads what the first has written. -/

/-- Whether a quote or a backslash at the start of `t` is escaped is the same behind `out` as behind
`behind`. -/
def SameEscape (out behind t : Text) : Prop :=
  ∀ c ∈ t.head?, (isQuote c = true ∨ c = '\\') → isEscaped out = isEscaped behind

theorem sameEscape_of_ne {c d : Char} (hc : c ≠ '\\') (hd : d ≠ '\\') (out behind t : Text) :
    SameEscape (c :: out) (d :: behind) t := by
  intro e _ _
  simp [isEscaped_cons, hc, hd]

theorem SameEscape.cons {c : Char} (h : SameEscape out behind (c :: t)) (u : Text) :
    SameEscape (c :: out) (c :: behind) u := by
  intro d _ _
  by_cases hc : c = '\\'
  · rw [isEscaped_cons, isEscaped_cons, h c rfl (.inr hc)]
  · simp [isEscaped_cons, hc]

theorem SameEscape.next_eq {c : Char} (h : SameEscape out behind (c :: t)) (quote : OpenQuote) :
    quote.next out c = quote.next behind c := by
  cases hquote : isQuote c with
  | false => rw [OpenQuote.next_of_not_isQuote hquote, OpenQuote.next_of_not_isQuote hquote]
  | true => rw [OpenQuote.next, h c rfl (.inl hquote), OpenQuote.next]

theorem SameEscape.covers_eq {c : Char} (h : SameEscape out behind (c :: t)) (quote : OpenQuote) :
    quote.covers out c = quote.covers behind c := by
  rw [OpenQuote.covers, h.next_eq, OpenQuote.covers]

/-- White space is left out only where it separates no backslash from what it could escape. -/
theorem sameEscape_drop {c : Char} (hc : isWhite c = true)
    (hkeeps : keepsSpace out.head? (firstVisible? t) = false) : SameEscape out (c :: behind) t := by
  intro n hn hkind
  have hbehind : isEscaped (c :: behind) = false := by
    have hslash : c ≠ '\\' := ne_of_kind hc (by decide)
    simp [isEscaped_cons, hslash]
  obtain ⟨rest, rfl⟩ : ∃ rest, t = n :: rest := by
    cases t with
    | nil => contradiction
    | cons d rest => exact ⟨rest, by rw [show d = n by simpa using hn]⟩
  have hvisible : isWhite n = false ∧ n ∉ [')', ']', '>', '}'] := by
    rcases hkind with hquote | rfl
    · exact ⟨not_isWhite_of_isQuote hquote, not_mem_of_kind hquote rfl⟩
    · decide
  have hfirst : firstVisible? (n :: rest) = some n := by simp [firstVisible?, hvisible.1]
  rw [hbehind]
  refine isEscaped_of_head?_ne fun hslash => ?_
  rw [hfirst, hslash] at hkeeps
  simp only [List.mem_cons, List.not_mem_nil, or_false, not_or] at hvisible
  simp [keepsSpace, hvisible.2, isWhite] at hkeeps

/-- What has been written is written again when it is read. -/
theorem again (h : Tidied quote out behind t u) (hsame : SameEscape out behind t) :
    Tidied quote out out u u := by
  have hspace : isWhite ' ' = true := by decide
  induction h with
  | nil => exact .nil
  | @literal quote out behind t u c hc ht ih =>
      refine .literal (hsame.covers_eq quote ▸ hc) ?_
      rw [hsame.next_eq]
      exact ih (hsame.cons t)
  | @plain out behind t u c hc hvisible hbrace ht ih =>
      exact .plain (hsame.covers_eq none ▸ hc) hvisible hbrace (ih (hsame.cons t))
  | drop hc hkeeps ht ih => exact ih (sameEscape_drop hc hkeeps)
  | @space out behind t u c hc hkeeps ht ih =>
      have hslash : c ≠ '\\' := ne_of_kind hc (by decide)
      exact .space hspace (ht.firstVisible?_eq ▸ hkeeps)
        (ih (sameEscape_of_ne (by decide) hslash out behind t))
  | @opening out behind t u hnext ht ih =>
      refine .opening (fun n hn => hnext n (ht.firstVisible?_eq ▸ hn)) (ih ?_)
      exact sameEscape_of_ne (by decide) (by decide) out behind t
  | @openingPadded out behind t u n hnext hn ht ih =>
      have hfirst : firstVisible? (' ' :: u) = some n := by
        rw [← hnext, ← ht.firstVisible?_eq]
        rfl
      have hkeeps : keepsSpace (' ' :: '{' :: out).head? (firstVisible? u) = false := by
        cases firstVisible? u <;> rfl
      exact .openingPadded hfirst hn (.drop hspace hkeeps
        (ih (sameEscape_of_ne (by decide) (by decide) _ behind t)))
  | @closing out behind t u hlast ht ih =>
      exact .closing hlast (ih (sameEscape_of_ne (by decide) (by decide) out behind t))
  | @closingPadded out behind t u l hlast hl ht ih =>
      have hkeeps : keepsSpace out.head? (firstVisible? ('}' :: u)) = false := by
        have hfirst : firstVisible? ('}' :: u) = some '}' := rfl
        rw [hlast, hfirst]
        simp [keepsSpace]
      exact .drop hspace hkeeps (.closingPadded hlast hl
        (ih (sameEscape_of_ne (by decide) (by decide) _ behind t)))

/-- What has been written has no runs of white space outside literals. -/
theorem squeezed (h : Tidied quote out behind t u) (hsame : SameEscape out behind t) :
    Squeezed quote out u u := by
  have hspace : isBlank [' '] = true := by decide
  have hopen : isQuote '{' = false ∧ isWhite '{' = false := by decide
  have hclose : isQuote '}' = false ∧ isWhite '}' = false := by decide
  have hkeep : ∀ {c : Char} {out u : Text}, isQuote c = false ∧ isWhite c = false →
      Squeezed none (c :: out) u u → Squeezed none out (c :: u) (c :: u) := by
    intro c out u hc hu
    refine .keep (.inl hc.2) ?_
    rwa [OpenQuote.next_of_not_isQuote hc.1]
  induction h with
  | nil => exact .nil
  | @literal quote out behind t u c hc ht ih =>
      refine .keep ?_ (hsame.next_eq quote ▸ ih (hsame.cons t))
      cases hwhite : isWhite c with
      | false => exact .inl rfl
      | true =>
          rw [OpenQuote.covers_of_isWhite hwhite] at hc
          exact .inr (Option.isSome_iff_ne_none.mp hc)
  | @plain out behind t u c hc hvisible hbrace ht ih =>
      refine .keep (.inl hvisible) ?_
      rw [hsame.next_eq, next_of_covers hc]
      exact ih (hsame.cons t)
  | drop hc hkeeps ht ih => exact ih (sameEscape_drop hc hkeeps)
  | @space out behind t u c hc hkeeps ht ih =>
      have hslash : c ≠ '\\' := ne_of_kind hc (by decide)
      exact .gap (g := [' ']) (by simp) hspace (ht.visible_head (.inr rfl))
        (ih (sameEscape_of_ne (by decide) hslash out behind t))
  | @opening out behind t u hnext ht ih =>
      exact hkeep hopen (ih (sameEscape_of_ne (by decide) (by decide) out behind t))
  | @openingPadded out behind t u n hnext hn ht ih =>
      exact hkeep hopen (.gap (g := [' ']) (by simp) hspace (ht.visible_head (.inr rfl))
        (ih (sameEscape_of_ne (by decide) (by decide) _ behind t)))
  | @closing out behind t u hlast ht ih =>
      exact hkeep hclose (ih (sameEscape_of_ne (by decide) (by decide) out behind t))
  | @closingPadded out behind t u l hlast hl ht ih =>
      exact .gap (g := [' ']) (by simp) hspace (by simp [isWhite])
        (hkeep hclose (ih (sameEscape_of_ne (by decide) (by decide) _ behind t)))

/-- White space at the end plays no part. -/
theorem trimEnd (h : Tidied quote out behind t u) :
    Tidied quote out behind (Text.trimEnd t) (Text.trimEnd u) := by
  have hopen : isWhite '{' = false := by decide
  have hclose : isWhite '}' = false := by decide
  have hnil : ∀ {quote : OpenQuote} {out behind t u : Text}, Tidied quote out behind t u →
      (Text.trimEnd t = [] ↔ Text.trimEnd u = []) := by
    intro quote out behind t u ht
    rw [trimEnd_eq_nil_iff_firstVisible?, trimEnd_eq_nil_iff_firstVisible?, ht.firstVisible?_eq]
  induction h with
  | nil => exact .nil
  | @literal quote out behind t u c hc ht ih =>
      cases hwhite : isWhite c with
      | false =>
          rw [trimEnd_cons hwhite, trimEnd_cons hwhite]
          exact .literal hc ih
      | true =>
          by_cases hend : Text.trimEnd t = []
          · rw [trimEnd_white_cons hwhite hend, trimEnd_white_cons hwhite ((hnil ht).mp hend)]
            exact .nil
          · rw [trimEnd_cons_of_visible hend, trimEnd_cons_of_visible ((hnil ht).not.mp hend)]
            exact .literal hc ih
  | plain hc hvisible hbrace ht ih =>
      rw [trimEnd_cons hvisible, trimEnd_cons hvisible]
      exact .plain hc hvisible hbrace ih
  | @drop out behind t u c hc hkeeps ht ih =>
      by_cases hend : Text.trimEnd t = []
      · rw [trimEnd_white_cons hc hend, (hnil ht).mp hend]
        exact .nil
      · rw [trimEnd_cons_of_visible hend]
        exact .drop hc (firstVisible?_trimEnd t ▸ hkeeps) ih
  | @space out behind t u c hc hkeeps ht ih =>
      have hend : Text.trimEnd t ≠ [] := by
        intro hend
        rw [trimEnd_eq_nil_iff_firstVisible?.mp hend] at hkeeps
        cases hlast : out.head? <;> simp [keepsSpace, hlast] at hkeeps
      rw [trimEnd_cons_of_visible hend, trimEnd_cons_of_visible ((hnil ht).not.mp hend)]
      exact .space hc (firstVisible?_trimEnd t ▸ hkeeps) ih
  | @opening out behind t u hnext ht ih =>
      rw [trimEnd_cons hopen, trimEnd_cons hopen]
      exact .opening (firstVisible?_trimEnd t ▸ hnext) ih
  | @openingPadded out behind t u n hnext hn ht ih =>
      have hend : Text.trimEnd u ≠ [] := by
        rw [ne_eq, trimEnd_eq_nil_iff_firstVisible?, ht.firstVisible?_eq, hnext]
        simp
      rw [trimEnd_cons hopen, trimEnd_cons hopen, trimEnd_cons_of_visible hend]
      exact .openingPadded (firstVisible?_trimEnd t ▸ hnext) hn ih
  | closing hlast ht ih =>
      rw [trimEnd_cons hclose, trimEnd_cons hclose]
      exact .closing hlast ih
  | @closingPadded out behind t u l hlast hl ht ih =>
      have hend : Text.trimEnd ('}' :: u) ≠ [] := by simp [trimEnd_cons hclose]
      rw [trimEnd_cons hclose, trimEnd_cons_of_visible hend, trimEnd_cons hclose]
      exact .closingPadded hlast hl ih

end Tidied

/-- Tidying a text writes what the relation says and trims the end. -/
theorem exists_tidied_tidy (t : Text) : ∃ u, Tidied none [] [] t u ∧ tidy t = trimEnd u := by
  obtain ⟨u, hu⟩ := exists_tidied none [] [] t
  have hstart : trimStart u = u := by
    cases u with
    | nil => rfl
    | cons c u => simp [trimStart, hu.visible_head (.inl rfl) c rfl]
  exact ⟨u, hu, by rw [tidy, hu.tidyFrom_eq, List.append_nil, List.reverse_reverse, trim, hstart]⟩

theorem tidied_tidy (t : Text) : Tidied none [] [] (tidy t) (tidy t) ∧
    Squeezed none [] (tidy t) (tidy t) := by
  obtain ⟨u, hu, htidy⟩ := exists_tidied_tidy t
  have hsame : Tidied.SameEscape [] [] t := fun _ _ _ => rfl
  rw [htidy]
  exact ⟨(hu.again hsame).trimEnd, (hu.squeezed hsame).trimEnd⟩

theorem trim_tidy (t : Text) : trim (tidy t) = tidy t := trim_trim _

theorem tidy_tidy (t : Text) : tidy (tidy t) = tidy t := by
  nth_rewrite 1 [tidy]
  rw [(tidied_tidy t).1.tidyFrom_eq, List.append_nil, List.reverse_reverse, trim_tidy]

/-- Tidy text is collapsed. -/
theorem collapse_tidy (t : Text) : collapse (tidy t) = tidy t :=
  collapse_of_squeezed_self (tidied_tidy t).2 (trim_tidy t)

theorem normalizeType_normalizeType (t : Text) :
    normalizeType (normalizeType t) = normalizeType t := by
  simp only [normalizeType, collapse_tidy, tidy_tidy]

/-- Normalizing a text again changes nothing, whichever way it is normalized. -/
theorem normal_forms_stable (t : Text) :
    dedent (dedent t) = dedent t ∧ collapse (collapse t) = collapse t ∧
      collapseProse (collapseProse t) = collapseProse t ∧ tidy (tidy t) = tidy t ∧
      normalizeType (normalizeType t) = normalizeType t :=
  ⟨dedent_dedent t, collapse_collapse t, collapseProse_collapseProse t, tidy_tidy t,
    normalizeType_normalizeType t⟩

end ComponentProps.Text
