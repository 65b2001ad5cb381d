import ComponentProps.Proofs.NormalForms
import ComponentProps.Member.Basic
import Mathlib.Data.List.Forall2

/-!
# Line feeds in types

The normal form of a text tells literals by their quotes alone and puts a space for all other white
space. So it has a line feed only where one stands within quotes. Taking off indentation, leading
operators and the form of a method puts no line feed within quotes.
-/

namespace ComponentProps

open Text

namespace Text

/-- Every line feed of a text stands outside the literals that its quotes make. -/
def IsCalm (t : Text) : Prop := ∀ s u, t = s ++ '\n' :: u → OpenQuote.after none [] s = none

/-! ### Reading quotes behind other text -/

theorem OpenQuote.after_behind {behind : Text} (hb : behind.head? ≠ some '\\') (quote : OpenQuote)
    (front t : Text) : quote.after (front ++ behind) t = quote.after front t := by
  induction t generalizing quote front with
  | nil => rfl
  | cons c t ih =>
      rw [after, after, next, isEscaped_append hb, ← next]
      exact ih _ (c :: front)

/-- Behind a text that leaves nothing open, another text is read as it is alone. -/
theorem OpenQuote.after_alone {s : Text} (hs : after none [] s = none)
    (hlast : s.getLast? ≠ some '\\') (t : Text) : after none [] (s ++ t) = after none [] t := by
  have hhead : s.reverse.head? ≠ some '\\' := by rwa [List.head?_reverse]
  rw [after_append, hs, List.append_nil]
  exact after_behind hhead none [] t

theorem OpenQuote.after_line (quote : OpenQuote) (behind t : Text) :
    quote.after behind ('\n' :: t) = quote.after [] t := by
  rw [after, next_of_not_isQuote (by decide)]
  exact after_behind (by simp) quote [] t

theorem OpenQuote.after_blank_append {g : Text} (hg : isBlank g = true) (t : Text) :
    after none [] (g ++ t) = after none [] t := by
  refine after_alone (after_blank hg none []) (fun hlast => ?_) t
  have hslash := List.all_eq_true.mp hg _ (List.mem_of_getLast? hlast)
  exact absurd hslash (by decide)

/-- White space at the end opens and closes nothing. -/
theorem OpenQuote.after_trimEnd (t : Text) : after none [] (trimEnd t) = after none [] t := by
  obtain ⟨g, hg, ht⟩ := exists_blank_after_trimEnd t
  conv_rhs => rw [ht, after_append, after_blank hg]

/-! ### Calm texts -/

theorem isCalm_of_not_mem {t : Text} (h : '\n' ∉ t) : IsCalm t := by
  rintro s u rfl
  simp at h

theorem IsCalm.of_append {s t : Text} (h : IsCalm (s ++ t)) : IsCalm s := by
  rintro u v rfl
  exact h u (v ++ t) (by simp)

theorem isCalm_concat {t : Text} (h : IsCalm t) {c : Char}
    (hc : c = '\n' → OpenQuote.after none [] t = none) : IsCalm (t ++ [c]) := by
  intro s u hs
  rcases List.eq_nil_or_concat u with rfl | ⟨v, d, rfl⟩
  · obtain ⟨rfl, hfeed⟩ := List.append_inj' hs rfl
    exact hc (List.cons.inj hfeed).1
  · have hcut : t ++ [c] = (s ++ '\n' :: v) ++ [d] := by simpa using hs
    exact h s v (List.append_inj_left' hcut rfl)

/-- Behind a text that leaves nothing open, another text is calm if it is so alone. -/
theorem isCalm_append {s t : Text} (hs : OpenQuote.after none [] s = none)
    (hlast : s.getLast? ≠ some '\\') : IsCalm (s ++ t) ↔ IsCalm s ∧ IsCalm t := by
  constructor
  · intro h
    refine ⟨h.of_append, ?_⟩
    rintro u v rfl
    rw [← OpenQuote.after_alone hs hlast]
    exact h (s ++ u) v (by simp)
  · rintro ⟨hs', ht⟩ u v huv
    rcases List.append_eq_append_iff.mp huv with ⟨w, rfl, hw⟩ | ⟨w, rfl, hw⟩
    · rw [OpenQuote.after_alone hs hlast]
      exact ht w v hw
    · cases w with
      | nil =>
          rw [List.append_nil] at hs
          exact hs
      | cons c w =>
          obtain ⟨rfl, -⟩ := List.cons.inj hw
          exact hs' u w rfl

theorem IsCalm.trimStart {t : Text} (h : IsCalm t) : IsCalm (trimStart t) := by
  have hg : isBlank (t.takeWhile isWhite) = true := by simp [isBlank]
  rintro s u hs
  rw [← OpenQuote.after_blank_append hg]
  refine h _ u ?_
  rw [List.append_assoc, ← hs, Text.trimStart, List.takeWhile_append_dropWhile]

theorem IsCalm.trimEnd {t : Text} (h : IsCalm t) : IsCalm (trimEnd t) := by
  obtain ⟨rest, hrest⟩ : Text.trimEnd t <+: t := List.rdropWhile_prefix isWhite t
  exact IsCalm.of_append (hrest ▸ h)

theorem IsCalm.trim {t : Text} (h : IsCalm t) : IsCalm (trim t) := h.trimStart.trimEnd

/-! ### Normal forms -/

theorem newline_not_mem_collapseFrom {quote : OpenQuote} {behind t : Text}
    (h : ∀ s u, t = s ++ '\n' :: u → quote.after behind s = none) (gap : Bool) :
    '\n' ∉ collapseFrom quote gap behind t := by
  induction t generalizing quote behind gap with
  | nil => simp [collapseFrom]
  | cons c t ih =>
      have hnext : ∀ gap, '\n' ∉ collapseFrom (quote.next behind c) gap (c :: behind) t :=
        ih fun s u hs => h (c :: s) u (congrArg (c :: ·) hs)
      have hc : ¬ (isWhite c && !quote.covers behind c) = true → '\n' ≠ c := by
        rintro hkept rfl
        have hnone : quote = none := h [] t rfl
        rw [OpenQuote.covers_of_isWhite (by decide), hnone] at hkept
        exact hkept (by decide)
      rw [collapseFrom]
      split
      · exact hnext true
      · rename_i hkept
        split <;> simp [hc hkept, hnext]

theorem newline_not_mem_collapse {t : Text} (h : IsCalm t) : '\n' ∉ collapse t :=
  newline_not_mem_collapseFrom h.trim false

theorem newline_not_mem_tidyFrom {quote : OpenQuote} {out behind t : Text} (hout : '\n' ∉ out)
    (ht : '\n' ∉ t) : '\n' ∉ tidyFrom quote out behind t := by
  induction t generalizing quote out behind with
  | nil => exact hout
  | cons c t ih =>
      rw [List.mem_cons, not_or] at ht
      refine ih ?_ ht.2
      split
      · simp [ht.1, hout]
      · unfold tidyChar
        repeat' split
        all_goals simp_all

theorem newline_not_mem_normalizeType {t : Text} (h : IsCalm t) : '\n' ∉ normalizeType t := by
  intro hmem
  have hout : '\n' ∉ tidyFrom none [] [] (collapse t) :=
    newline_not_mem_tidyFrom List.not_mem_nil (newline_not_mem_collapse h)
  have hsub := (List.rdropWhile_prefix isWhite _).sublist.trans
    (List.dropWhile_sublist isWhite (l := (tidyFrom none [] [] (collapse t)).reverse))
  exact hout (List.mem_reverse.mp (hsub.subset hmem))

/-! ### Indentation -/

/-- Each line but the last leaves nothing open. The first is read as `quote` and `behind` say. -/
def RowsClose (quote : OpenQuote) (behind : Text) : List Text → Prop
  | row :: next :: rows => quote.after behind row = none ∧ RowsClose none [] (next :: rows)
  | _ => True

theorem rowsClose_lines {quote : OpenQuote} {behind t : Text}
    (h : ∀ s u, t = s ++ '\n' :: u → quote.after behind s = none) :
    RowsClose quote behind (lines t) := by
  induction t generalizing quote behind with
  | nil => trivial
  | cons c t ih =>
      have hrest : RowsClose (quote.next behind c) (c :: behind) (lines t) :=
        ih fun s u hs => h (c :: s) u (congrArg (c :: ·) hs)
      rw [lines]
      split_ifs with hfeed hreturn
      · subst hfeed
        have hnone : quote = none := h [] t rfl
        subst hnone
        have halone : RowsClose none [] (lines t) := ih fun s u hs => by
          rw [← OpenQuote.after_line none behind]
          exact h ('\n' :: s) u (congrArg ('\n' :: ·) hs)
        cases hrows : lines t with
        | nil => trivial
        | cons row rows => exact ⟨rfl, hrows ▸ halone⟩
      · -- What follows begins with an empty line, and that reads the same behind anything.
        obtain ⟨rfl, hhead⟩ : c = '\r' ∧ t.head? = some '\n' := by simpa using hreturn
        obtain ⟨u, rfl⟩ := List.head?_eq_some_iff.mp hhead
        rw [OpenQuote.next_of_not_isQuote (by decide)] at hrest
        rw [lines, if_pos rfl] at hrest ⊢
        cases hrows : lines u with
        | nil => trivial
        | cons row rows =>
            rw [hrows] at hrest
            exact hrest
      · cases hrows : lines t with
        | nil => trivial
        | cons row rows =>
            rw [hrows] at hrest
            cases rows with
            | nil => trivial
            | cons next rows => exact hrest

theorem RowsClose.congr {rows rows' : List Text}
    (hsame : List.Forall₂
      (fun row row' => OpenQuote.after none [] row' = OpenQuote.after none [] row) rows rows')
    (h : RowsClose none [] rows) : RowsClose none [] rows' := by
  induction hsame with
  | nil => trivial
  | cons hrow hrest ih =>
      cases hrest with
      | nil => trivial
      | cons hnext hmore => exact ⟨hrow.trans h.1, ih h.2⟩

/-- Lines that leave nothing open make a calm text. -/
theorem isCalm_unlines {rows : List Text} (hclose : RowsClose none [] rows)
    (hline : ∀ row ∈ rows, '\n' ∉ row) : IsCalm (unlines rows) := by
  induction rows with
  | nil => exact isCalm_of_not_mem (by simp [unlines])
  | cons row rows ih =>
      rw [List.forall_mem_cons] at hline
      cases rows with
      | nil => exact isCalm_of_not_mem (by simpa [unlines] using hline.1)
      | cons next rows =>
          have hjoin : unlines (row :: next :: rows) =
              (row ++ ['\n']) ++ unlines (next :: rows) := by
            simp [unlines, List.intercalate, List.intersperse]
          have hend : OpenQuote.after none [] (row ++ ['\n']) = none := by
            rw [OpenQuote.after_append, hclose.1, OpenQuote.after_line]
            rfl
          rw [hjoin, isCalm_append hend (by simp)]
          exact ⟨isCalm_concat (isCalm_of_not_mem hline.1) fun _ => hclose.1, ih hclose.2 hline.2⟩

theorem after_dedentRow {indent : Nat} {row : Text}
    (h : isBlank row = false → indent ≤ (row.takeWhile isWhite).length) :
    OpenQuote.after none [] (dedentRow indent row) = OpenQuote.after none [] row := by
  unfold dedentRow
  split
  · rename_i hblank
    rw [OpenQuote.after_blank hblank]
    rfl
  · rename_i hvisible
    have hgap : isBlank (row.take indent) = true := by
      have hle := h (by simpa using hvisible)
      have hfront : row.take indent <+: row.takeWhile isWhite :=
        List.prefix_of_prefix_length_le (List.take_prefix _ _) (List.takeWhile_prefix _)
          ((List.length_take_le _ _).trans hle)
      exact List.all_eq_true.mpr fun c hc => List.mem_takeWhile_imp (hfront.subset hc)
    conv_rhs => rw [← List.take_append_drop indent row, OpenQuote.after_blank_append hgap]
    exact OpenQuote.after_trimEnd _

theorem IsCalm.dedent {t : Text} (h : IsCalm t) : IsCalm (dedent t) := by
  unfold Text.dedent
  split
  · exact isCalm_of_not_mem (by simp)
  · rename_i first rows hlines
    have hline : ∀ row ∈ first :: rows, '\n' ∉ row := fun row hrow =>
      newline_not_mem_of_mem_lines (hlines ▸ hrow)
    have hclose : RowsClose none [] (first :: rows) := hlines ▸ rowsClose_lines h.trim
    rw [List.forall_mem_cons] at hline
    have hdedent : ∀ row ∈ rows, OpenQuote.after none [] (dedentRow (commonIndent rows) row) =
        OpenQuote.after none [] row := fun row hrow =>
      after_dedentRow (commonIndent_le hrow)
    refine isCalm_unlines (hclose.congr (.cons (OpenQuote.after_trimEnd first) ?_)) ?_
    · exact List.forall₂_map_right_iff.mpr (List.forall₂_same.mpr hdedent)
    · rw [List.forall_mem_cons, List.forall_mem_map]
      refine ⟨fun hmem => hline.1 ((List.rdropWhile_prefix isWhite first).subset hmem), ?_⟩
      exact fun row hrow hmem => hline.2 row hrow ((dedentRow_sublist _ row).subset hmem)

end Text

/-! ### The types of members -/

namespace Member

/-- The parameters of a method end in a round bracket outside literals. -/
theorem splitParametersFrom?_spec {quote : OpenQuote} {depth : Nat} {behind t : Text}
    {p : Text × Text} (h : splitParametersFrom? quote depth behind t = some p) :
    t = p.1 ++ p.2 ∧ quote.after behind p.1 = none ∧ p.1.getLast? = some ')' := by
  induction t generalizing quote depth behind p with
  | nil => simp [splitParametersFrom?] at h
  | cons c t ih =>
      have hkeep : ∀ depth',
          (splitParametersFrom? (quote.next behind c) depth' (c :: behind) t).map
            (fun q => (c :: q.1, q.2)) = some p →
          c :: t = p.1 ++ p.2 ∧ quote.after behind p.1 = none ∧ p.1.getLast? = some ')' := by
        intro depth' hmap
        obtain ⟨q, hq, rfl⟩ := Option.map_eq_some_iff.mp hmap
        obtain ⟨ht, hafter, hlast⟩ := ih hq
        refine ⟨congrArg (c :: ·) ht, hafter, ?_⟩
        rw [List.getLast?_cons, hlast]
        rfl
      unfold splitParametersFrom? at h
      dsimp only at h
      split_ifs at h with hcovers hopen hclose hdepth
      · exact hkeep _ h
      · exact hkeep _ h
      · obtain rfl := Option.some.inj h
        obtain ⟨-, hnext⟩ : quote = none ∧ quote.next behind c = none := by
          simpa [OpenQuote.covers] using hcovers
        exact ⟨rfl, hnext, congrArg some hclose⟩
      · exact hkeep _ h
      · exact hkeep _ h

theorem isCalm_functionType {t : Text} (h : IsCalm t) : IsCalm (functionType t) := by
  unfold functionType
  split
  · exact h
  · rename_i parameters rest hsplit
    obtain ⟨ht, hclosed, hlast⟩ := splitParametersFrom?_spec hsplit
    dsimp only at ht hclosed hlast
    have hne : parameters.getLast? ≠ some '\\' := by simp [hlast]
    have hcalm := h
    rw [ht, isCalm_append hclosed hne] at hcalm
    split
    · exact (isCalm_append hclosed hne).mpr ⟨hcalm.1, isCalm_of_not_mem (by decide)⟩
    · rename_i result hresult
      have hrest : IsCalm (':' :: result) := hresult ▸ hcalm.2.trim
      have hcolon : IsCalm ([':'] ++ result) := hrest
      have harrow : IsCalm (" => ".toList ++ trim result) :=
        (isCalm_append (by decide) (by decide)).mpr ⟨isCalm_of_not_mem (by decide),
          ((isCalm_append (by decide) (by decide)).mp hcolon).2.trim⟩
      rw [List.append_assoc]
      exact (isCalm_append hclosed hne).mpr ⟨hcalm.1, harrow⟩
    · exact h

theorem isCalm_withoutLeadingOperator {t : Text} (h : IsCalm t) :
    IsCalm (withoutLeadingOperator t) := by
  have hdedent := h.dedent
  unfold withoutLeadingOperator
  split
  · exact isCalm_of_not_mem (by simp)
  · rename_i c rest hrest
    rw [hrest] at hdedent
    split
    · rename_i hsign
      have hc : isQuote c = false ∧ c ≠ '\\' := by
        rcases (by simpa using hsign : c = '|' ∨ c = '&') with rfl | rfl <;> decide
      have hone : OpenQuote.after none [] [c] = none := OpenQuote.next_of_not_isQuote hc.1 none []
      have hcons : IsCalm ([c] ++ rest) := hdedent
      exact ((isCalm_append hone (by simpa using hc.2)).mp hcons).2.dedent
    · exact hdedent

theorem isCalm_typeText {raw : Text} (h : IsCalm raw) (style : Style) (method : Bool) :
    IsCalm (typeText style method raw) := by
  have hplain := isCalm_withoutLeadingOperator h
  have htype : IsCalm (if method then functionType (withoutLeadingOperator raw)
      else withoutLeadingOperator raw) := by
    split
    · exact isCalm_functionType hplain
    · exact hplain
  unfold typeText
  dsimp only
  split
  · exact isCalm_of_not_mem (newline_not_mem_normalizeType htype)
  · exact htype

end Member

end ComponentProps
