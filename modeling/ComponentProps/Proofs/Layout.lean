import ComponentProps.Text.Lines
import Mathlib.Data.List.DropRight
import Mathlib.Data.List.Infix

/-!
# Lines and margins

Trimmed texts, texts of one line, and doc comments. A doc text is printed as rows with a margin of
one asterisk; its prose is the rows again.
-/

namespace ComponentProps

namespace Text

theorem not_isWhite_head {c : Char} {t : Text} (h : trim (c :: t) = c :: t) :
    isWhite c = false := by
  rw [Bool.eq_false_iff]
  intro hw
  have hdrop : trim (c :: t) = trim t := by simp [trim, trimStart, hw]
  have hle := length_trim_le t
  rw [← hdrop, h, List.length_cons] at hle
  omega

theorem trimEnd_trim (t : Text) : trimEnd (trim t) = trim t :=
  List.rdropWhile_idempotent isWhite (trimStart t)

theorem trim_trim (t : Text) : trim (trim t) = trim t := by
  cases hstart : trimStart t with
  | nil =>
      have hnone : trim t = [] := by rw [trim, hstart]; rfl
      rw [hnone, trim_nil]
  | cons c u =>
      have hc : isWhite c = false := by
        have hhead := List.head?_dropWhile_not isWhite t
        rw [← trimStart, hstart] at hhead
        simpa using hhead
      obtain ⟨more, hmore⟩ : trim t <+: c :: u := by
        rw [trim, hstart]
        exact List.rdropWhile_prefix isWhite _
      have hsame : trimStart (trim t) = trim t := by
        cases htrim : trim t with
        | nil => rfl
        | cons d w =>
            rw [htrim, List.cons_append, List.cons.injEq] at hmore
            simp [trimStart, hmore.1, hc]
      rw [trim, hsame, trimEnd_trim]

theorem not_isWhite_last {c : Char} {t : Text} (h : trim t = t) (hlast : t.getLast? = some c) :
    isWhite c = false := by
  have hend : trimEnd t = t := by rw [← h, trimEnd_trim]
  obtain ⟨front, rfl⟩ := List.getLast?_eq_some_iff.mp hlast
  have hlast := List.rdropWhile_eq_self_iff.mp hend (by simp)
  simpa using hlast

theorem trimEnd_append (s t : Text) :
    trimEnd (s ++ t) = if trimEnd t = [] then trimEnd s else s ++ trimEnd t := by
  simp only [trimEnd, List.reverse_append, List.dropWhile_append, List.isEmpty_iff,
    List.reverse_eq_nil_iff]
  split <;> simp

theorem trimEnd_cons {c : Char} (h : isWhite c = false) (t : Text) :
    trimEnd (c :: t) = c :: trimEnd t := by
  have hsingle : trimEnd [c] = [c] := by simp [trimEnd, h]
  have hcons : c :: t = [c] ++ t := rfl
  rw [hcons, trimEnd_append, hsingle]
  split
  · rename_i hnil
    rw [hnil]
  · rfl

theorem trimEnd_cons_of_ne_nil {t : Text} (ht : trimEnd t = t) (hne : t ≠ []) (c : Char) :
    trimEnd (c :: t) = c :: t := by
  have hlast := List.rdropWhile_eq_self_iff.mp ht hne
  refine List.rdropWhile_eq_self_iff.mpr fun _ => ?_
  rwa [List.getLast_cons hne]

theorem trim_space_cons (t : Text) : trim (' ' :: t) = trim t := by
  have hw : isWhite ' ' = true := by decide
  simp [trim, trimStart, hw]

/-- A text without white space at its ends is trimmed. -/
theorem trim_of_ends {t rest front : Text} {c d : Char} (hfirst : t = c :: rest)
    (hc : isWhite c = false) (hlast : t = front ++ [d]) (hd : isWhite d = false) : trim t = t := by
  have hstart : trimStart t = t := by simp [hfirst, trimStart, hc]
  rw [trim, hstart, hlast]
  exact List.rdropWhile_concat_neg isWhite front d (by simp [hd])

theorem dedent_space_cons (t : Text) : dedent (' ' :: t) = dedent t := by
  rw [dedent, trim_space_cons, dedent]

theorem lines_cons {c : Char} (h : isWhite c = false) (t : Text) :
    lines (c :: t) = consFirst c (lines t) := by
  have h1 : c ≠ '\n' := by rintro rfl; contradiction
  have h2 : c ≠ '\r' := by rintro rfl; contradiction
  simp [lines, h1, h2]

theorem exists_first_line {c : Char} (h : isWhite c = false) (t : Text) :
    ∃ row rows, lines (c :: t) = (c :: row) :: rows := by
  rw [lines_cons h]
  cases lines t with
  | nil => exact ⟨[], [], rfl⟩
  | cons row rows => exact ⟨row, rows, rfl⟩

theorem exists_last_line {c : Char} (h : isWhite c = false) (front : Text) :
    ∃ rows row, lines (front ++ [c]) = rows ++ [row ++ [c]] := by
  induction front with
  | nil => exact ⟨[], [], lines_cons h []⟩
  | cons d front ih =>
      obtain ⟨rows, row, hlines⟩ := ih
      rw [List.cons_append, lines, hlines]
      split_ifs
      · exact ⟨[] :: rows, row, rfl⟩
      · exact ⟨rows, row, rfl⟩
      · cases rows with
        | nil => exact ⟨[], d :: row, rfl⟩
        | cons first rows => exact ⟨(d :: first) :: rows, row, rfl⟩

theorem exists_unlines_cons (c : Char) (row : Text) (rows : List Text) :
    ∃ rest, unlines ((c :: row) :: rows) = c :: rest := by
  cases rows with
  | nil => exact ⟨row, by simp [unlines]⟩
  | cons next rows => exact ⟨row ++ '\n' :: unlines (next :: rows), by simp [unlines]⟩

theorem exists_unlines_concat (rows : List Text) (row : Text) :
    ∃ front, unlines (rows ++ [row]) = front ++ row := by
  induction rows with
  | nil => exact ⟨[], by simp [unlines]⟩
  | cons first rows ih =>
      obtain ⟨front, hfront⟩ := ih
      refine ⟨first ++ '\n' :: front, ?_⟩
      obtain ⟨next, more, hnext⟩ := List.exists_cons_of_ne_nil (List.concat_ne_nil row rows)
      rw [List.cons_append, hnext, unlines, List.intercalate_cons_cons, ← unlines, ← hnext, hfront]
      simp

theorem exists_dedent_cons {t u : Text} {c : Char} (ht : trim t = c :: u) :
    ∃ rest, dedent t = c :: rest := by
  have hc : isWhite c = false := not_isWhite_head (ht ▸ trim_trim t)
  obtain ⟨row, rows, hlines⟩ := exists_first_line hc u
  rw [dedent, ht, hlines]
  dsimp only
  rw [trimEnd_cons hc]
  exact exists_unlines_cons c (trimEnd row) _

theorem dedent_ne_nil {t : Text} (hne : t ≠ []) (ht : trim t = t) : dedent t ≠ [] := by
  obtain ⟨c, u, rfl⟩ := List.exists_cons_of_ne_nil hne
  obtain ⟨rest, hrest⟩ := exists_dedent_cons ht
  rw [hrest]
  exact List.cons_ne_nil c rest

/-- No row is indented less than all of them. -/
theorem commonIndent_le {rows : List Text} {row : Text} (hmem : row ∈ rows)
    (hrow : isBlank row = false) : commonIndent rows ≤ (row.takeWhile isWhite).length := by
  have hindent : (row.takeWhile isWhite).length ∈
      (rows.filter (!isBlank ·)).map fun row => (row.takeWhile isWhite).length :=
    List.mem_map_of_mem (List.mem_filter.mpr ⟨hmem, by simp [hrow]⟩)
  unfold commonIndent
  cases hmin : ((rows.filter (!isBlank ·)).map fun row => (row.takeWhile isWhite).length).min? with
  | none => exact Nat.zero_le _
  | some least => exact (List.min?_eq_some_iff.mp hmin).2 _ hindent

/-- Taking off the indentation leaves the end of a row. -/
theorem exists_dedented_concat {rows : List Text} {row : Text} {c : Char}
    (hc : isWhite c = false) (hmem : row ++ [c] ∈ rows) :
    isBlank (row ++ [c]) = false ∧
      ∃ front, trimEnd ((row ++ [c]).drop (commonIndent rows)) = front ++ [c] := by
  have hrow : isBlank (row ++ [c]) = false := by simp [isBlank, hc]
  have hindent : ((row ++ [c]).takeWhile isWhite).length ≤ row.length := by
    rw [List.takeWhile_append]
    split
    · simp [hc]
    · exact (List.takeWhile_sublist isWhite).length_le
  refine ⟨hrow, row.drop (commonIndent rows), ?_⟩
  rw [List.drop_append_of_le_length ((commonIndent_le hmem hrow).trans hindent)]
  exact List.rdropWhile_concat_neg isWhite _ c (by simp [hc])

/-- What is left after taking off indentation is trimmed. -/
theorem trim_dedent (t : Text) : trim (dedent t) = dedent t := by
  by_cases hnil : trim t = []
  · simp [dedent, hnil, lines]
  obtain ⟨c, more, hfirst⟩ := List.exists_cons_of_ne_nil hnil
  obtain ⟨front, d, hlast⟩ := (List.eq_nil_or_concat' _).resolve_left hnil
  have hc : isWhite c = false := not_isWhite_head (hfirst ▸ trim_trim t)
  have hd : isWhite d = false := not_isWhite_last (trim_trim t) (by simp [hlast])
  obtain ⟨row, rows, hhead⟩ := exists_first_line hc more
  obtain ⟨rows', row', hend⟩ := exists_last_line hd front
  rw [← hfirst] at hhead
  rw [← hlast, hhead] at hend
  cases rows' with
  | nil =>
      -- One row is both the first and the last.
      obtain ⟨hrow, rfl⟩ : c :: row = row' ++ [d] ∧ rows = [] := by simpa using hend
      have hdedent : dedent t = c :: row := by
        have htrimmed : trimEnd (row' ++ [d]) = row' ++ [d] :=
          List.rdropWhile_concat_neg isWhite row' d (by simp [hd])
        simp [dedent, hhead, hrow, htrimmed, unlines]
      rw [hdedent]
      exact trim_of_ends rfl hc hrow hd
  | cons _ middle =>
      have hrows : rows = middle ++ [row' ++ [d]] := (List.cons.inj hend).2
      have hmem : row' ++ [d] ∈ rows := hrows ▸ List.mem_append_right middle List.mem_cons_self
      obtain ⟨hvisible, back, hback⟩ := exists_dedented_concat hd hmem
      obtain ⟨front', hunlines⟩ : ∃ front', dedent t = front' ++ (back ++ [d]) := by
        rw [dedent, hhead]
        dsimp only
        nth_rewrite 2 [hrows]
        rw [List.map_append, List.map_singleton, hvisible, hback, ← List.cons_append]
        exact exists_unlines_concat _ _
      obtain ⟨rest, hrest⟩ := exists_dedent_cons hfirst
      exact trim_of_ends hrest hc (hunlines.trans (List.append_assoc ..).symm) hd

theorem trimEnd_append_blank (t : Text) {gap : Text} (h : isBlank gap = true) :
    trimEnd (t ++ gap) = trimEnd t := by
  have hgap : gap.reverse.dropWhile isWhite = [] := by
    rw [List.dropWhile_eq_nil_iff]
    intro c hc
    exact List.all_eq_true.mp h c (List.mem_reverse.mp hc)
  rw [trimEnd, List.reverse_append, List.dropWhile_append, hgap]
  rfl

/-- White space behind a trimmed text is trimmed away. -/
theorem trim_append_blank {t gap : Text} (ht : trim t = t) (hne : t ≠ [])
    (h : isBlank gap = true) : trim (t ++ gap) = t := by
  cases t with
  | nil => exact absurd rfl hne
  | cons c t =>
      have hc := not_isWhite_head ht
      have hstart : ∀ u, trimStart (c :: u) = c :: u := fun u => by simp [trimStart, hc]
      rw [trim, hstart] at ht
      rw [trim, List.cons_append, hstart, ← List.cons_append, trimEnd_append_blank _ h, ht]

theorem lines_row {row : Text} (h : '\n' ∉ row) (hlast : row.getLast? ≠ some '\r') (t : Text) :
    lines (row ++ '\n' :: t) = row :: lines t := by
  induction row with
  | nil => simp [lines]
  | cons c row ih =>
      rw [List.mem_cons, not_or] at h
      have hrest : lines (row ++ '\n' :: t) = row :: lines t := by
        apply ih h.2
        cases row with
        | nil => simp
        | cons d row => simpa [List.getLast?_cons] using hlast
      have hreturn : c = '\r' → (row ++ '\n' :: t).head? ≠ some '\n' := by
        rintro rfl
        cases row with
        | nil => simp at hlast
        | cons d row =>
            have hd : d ≠ '\n' := by
              rintro rfl
              exact h.2 List.mem_cons_self
            simpa using hd
      have hfeed : c ≠ '\n' := Ne.symm h.1
      have hkeep : ¬ (c = '\r' && (row ++ '\n' :: t).head? == some '\n') := by
        simpa using hreturn
      rw [List.cons_append, lines, if_neg hfeed, if_neg hkeep, hrest, consFirst]

theorem lines_oneLine {t : Text} (h : '\n' ∉ t) (hne : t ≠ []) : lines t = [t] := by
  induction t with
  | nil => exact absurd rfl hne
  | cons c t ih =>
      rw [List.mem_cons, not_or] at h
      have hfeed : c ≠ '\n' := Ne.symm h.1
      have hhead : t.head? ≠ some '\n' := fun heq => h.2 (List.mem_of_mem_head? heq)
      have hcons : lines (c :: t) = consFirst c (lines t) := by simp [lines, hfeed, hhead]
      cases t with
      | nil => rw [hcons]; rfl
      | cons d t => rw [hcons, ih h.2 (by simp)]; rfl

/-- On one line there is no indentation to take off. -/
theorem dedent_oneLine {t : Text} (h : '\n' ∉ trim t) : dedent t = trim t := by
  by_cases hne : trim t = []
  · simp [dedent, hne, lines]
  · rw [dedent, lines_oneLine h hne]
    simpa [unlines] using trimEnd_trim t

end Text

/-! ### Doc texts -/

open Text

/-- A row of a doc text is a trimmed line that does not end the comment. -/
structure IsDocRow (row : Text) : Prop where
  oneLine : '\n' ∉ row
  trimmed : trim row = row
  inside : ¬ ['*', '/'] <:+: row

/-- The text of a doc comment, row by row. Blank rows stand only between others. -/
structure DocText where
  rows : List Text
  valid : ∀ row ∈ rows, IsDocRow row
  nonempty : rows ≠ []
  first : rows.head? ≠ some []
  last : rows.getLast? ≠ some []

namespace DocText

def printRow (row : Text) : Text := ' ' :: '*' :: ' ' :: row

def printRows (rows : List Text) : Text := rows.flatMap fun row => printRow row ++ ['\n']

/-- The comment between its delimiters. -/
def inner (doc : DocText) : Text := '\n' :: (printRows doc.rows ++ [' '])

def print (doc : DocText) : Text := '/' :: '*' :: '*' :: (doc.inner ++ ['*', '/', '\n'])

def text (doc : DocText) : Text := unlines doc.rows

theorem not_close_printRow {row : Text} (h : IsDocRow row) : ¬ ['*', '/'] <:+: printRow row := by
  simpa [printRow, List.infix_cons_iff] using h.inside

theorem withoutMargin_printRow {row : Text} (h : IsDocRow row) :
    withoutMargin (printRow row) = row := by
  have hstar : isWhite '*' = false := by decide
  have hspace : isWhite ' ' = true := by decide
  have htrim : trim (printRow row) = '*' :: trimEnd (' ' :: row) := by
    rw [printRow, trim_space_cons, trim]
    have hstart : trimStart ('*' :: ' ' :: row) = '*' :: ' ' :: row := by simp [trimStart, hstar]
    rw [hstart, trimEnd_cons hstar]
  rw [withoutMargin, htrim]
  change trimStart (trimEnd (' ' :: row)) = row
  cases row with
  | nil => rfl
  | cons c row =>
      have hc := not_isWhite_head h.trimmed
      have hstart : trimStart (c :: row) = c :: row := by simp [trimStart, hc]
      have hend : trimEnd (c :: row) = c :: row := by
        have ht := h.trimmed
        rwa [trim, hstart] at ht
      rw [trimEnd_cons_of_ne_nil hend (by simp)]
      simp [trimStart, hspace, hc]

theorem lines_printRows {rows : List Text} (h : ∀ row ∈ rows, IsDocRow row) (t : Text) :
    lines (printRows rows ++ t) = rows.map printRow ++ lines t := by
  induction rows with
  | nil => rfl
  | cons row rows ih =>
      have hrow := h row List.mem_cons_self
      have hfeed : '\n' ∉ printRow row := by simpa [printRow] using hrow.oneLine
      have hreturn : (printRow row).getLast? ≠ some '\r' := by
        cases hlast : row.getLast? with
        | none => simp [printRow, List.getLast?_cons, hlast]
        | some c =>
            have hc := not_isWhite_last hrow.trimmed hlast
            have hne : c ≠ '\r' := by rintro rfl; contradiction
            simpa [printRow, List.getLast?_cons, hlast] using hne
      have hprint : printRows (row :: rows) ++ t =
          printRow row ++ '\n' :: (printRows rows ++ t) := by
        simp [printRows]
      rw [hprint, lines_row hfeed hreturn, ih fun r hr => h r (List.mem_cons_of_mem _ hr)]
      rfl

theorem exists_text_eq_cons (doc : DocText) : ∃ c rest, doc.text = c :: rest := by
  obtain ⟨row, rows, hcons⟩ := List.exists_cons_of_ne_nil doc.nonempty
  have hfirst := doc.first
  rw [hcons] at hfirst
  obtain ⟨c, row, rfl⟩ := List.exists_cons_of_ne_nil (show row ≠ [] by simpa using hfirst)
  rw [text, hcons, unlines]
  cases rows with
  | nil => exact ⟨c, row, by simp⟩
  | cons next rows => exact ⟨c, row ++ '\n' :: ['\n'].intercalate (next :: rows), by simp⟩

/-- The prose of a printed doc comment is its text. -/
theorem docProse_inner (doc : DocText) : docProse doc.inner = doc.text := by
  have hlines : lines doc.inner = [] :: (doc.rows.map printRow ++ [[' ']]) := by
    rw [inner, lines, if_pos rfl, lines_printRows doc.valid]
    rfl
  have hmargins : (doc.rows.map printRow).map withoutMargin = doc.rows := by
    rw [List.map_map]
    exact (List.map_congr_left fun row hrow => withoutMargin_printRow (doc.valid row hrow)).trans
      (List.map_id' doc.rows)
  have hrows : (lines doc.inner).map withoutMargin = [] :: (doc.rows ++ [[]]) := by
    rw [hlines, List.map_cons, List.map_append, hmargins]
    rfl
  have hfirst : ([] :: (doc.rows ++ [[]]) : List Text).dropWhile List.isEmpty =
      doc.rows ++ [[]] := by
    obtain ⟨row, rows, hcons⟩ := List.exists_cons_of_ne_nil doc.nonempty
    have hrow : row ≠ [] := by
      have := doc.first
      rw [hcons] at this
      simpa using this
    simp [hcons, hrow]
  have hlast : ((doc.rows ++ [[]]).reverse.dropWhile List.isEmpty).reverse = doc.rows := by
    obtain ⟨row, rows, hcons⟩ :=
      List.exists_cons_of_ne_nil (List.reverse_ne_nil_iff.mpr doc.nonempty)
    have hrow : row ≠ [] := by
      have := doc.last
      rw [List.getLast?_eq_head?_reverse, hcons] at this
      simpa using this
    rw [List.reverse_append, hcons, List.reverse_singleton, List.singleton_append,
      List.dropWhile_cons_of_pos rfl, List.dropWhile_cons_of_neg (by simpa using hrow), ← hcons,
      List.reverse_reverse]
  rw [docProse, hrows, hfirst, hlast, text]

end DocText

end ComponentProps
