import ComponentProps.Proofs.MemberComposition
import ComponentProps.Proofs.Respacing

/-!
# Code under respacing

A reader of code tells comments, which respacing knows nothing of: a quote within a comment opens a
literal for the one and not for the other. Still both texts are read alike. No quote becomes or
ceases to be escaped, and no comment sign is broken up or put together, since white space comes and
goes beside brackets only. What can be lost is a line feed that ends a line comment; then what
follows it is no longer code. Where no such line feed is lost, normalizing a type keeps its code.
-/

namespace ComponentProps

open Text

/-! ### The code of a text -/

namespace Cursor

theorem length_skipInertFrom_le (region : Region) (behind t : Text) :
    (skipInertFrom region behind t).ahead.length ≤ t.length := by
  induction t generalizing region behind with
  | nil => rfl
  | cons c t ih =>
      rw [skipInertFrom]
      split
      · exact Nat.le_refl _
      · exact (ih _ _).trans (Nat.le_succ _)

/-- The code characters at and after the cursor, each met by going past inert text and then past the
character. -/
def codeAhead (c : Cursor) : Text :=
  match _hahead : c.skipInert.ahead with
  | [] => []
  | x :: rest => x :: codeAhead ⟨x :: c.skipInert.behind, rest⟩
termination_by c.ahead.length
decreasing_by
  have hle : c.skipInert.ahead.length ≤ c.ahead.length :=
    length_skipInertFrom_le .code c.behind c.ahead
  rwa [_hahead] at hle

end Cursor

/-- The code characters of a text, white space aside. -/
def Text.visibleCode (t : Text) : Text := visible (Cursor.ofText t).codeAhead

namespace Region

/-- The visible code characters of a text that is met in some region behind the characters
`behind`. -/
def visibleCode (region : Region) (behind t : Text) : Text :=
  ((region.roles behind t).filter fun p => p.2 = .code && !isWhite p.1).map Prod.fst

theorem visibleCode_cons (region : Region) (behind : Text) (c : Char) (t : Text) :
    region.visibleCode behind (c :: t) =
      (if (region.read behind c t).1 = .code && !isWhite c then [c] else []) ++
        (region.read behind c t).2.visibleCode (c :: behind) t := by
  rw [visibleCode, roles, List.filter_cons]
  split <;> rfl

theorem visibleCode_append {t : Text} (ht : EndsSlash t) (region : Region) (behind s : Text) :
    region.visibleCode behind (s ++ t) =
      region.visibleCode behind s ++
        (region.after behind s).visibleCode (s.reverse ++ behind) t := by
  rw [visibleCode, roles_append ht, List.filter_append, List.map_append]
  rfl

theorem visibleCode_white {region : Region} {c : Char} (hc : isWhite c = true)
    (hquote : region.IsQuoted) (hline : region = lineComment → c ≠ '\n') (behind t : Text) :
    region.visibleCode behind (c :: t) = region.space.visibleCode (c :: behind) t := by
  rw [visibleCode_cons, (read_white hc hquote hline behind t).1]
  simp [hc]

/-- Inert text holds no code, and the character behind it is code. -/
theorem visibleCode_skipInertFrom (region : Region) (behind t : Text) :
    region.visibleCode behind t =
      match (Cursor.skipInertFrom region behind t).ahead with
      | [] => []
      | c :: rest => (if isWhite c then [] else [c]) ++
          code.visibleCode (c :: (Cursor.skipInertFrom region behind t).behind) rest := by
  induction t generalizing region behind with
  | nil => rfl
  | cons c t ih =>
      obtain ⟨role, next, hread⟩ : ∃ role next, region.read behind c t = (role, next) :=
        ⟨_, _, rfl⟩
      rw [visibleCode_cons, Cursor.skipInertFrom, hread]
      cases role with
      | code =>
          obtain rfl := read_code hread
          cases hc : isWhite c <;> simp [hc]
      | literal => simp [ih next (c :: behind)]
      | comment => simp [ih next (c :: behind)]

end Region

theorem Cursor.visible_codeAhead (c : Cursor) :
    visible c.codeAhead = Region.code.visibleCode c.behind c.ahead := by
  fun_induction codeAhead c with
  | case1 c hahead =>
      rw [skipInert] at hahead
      rw [Region.visibleCode_skipInertFrom, hahead]
      rfl
  | case2 c x rest hahead ih =>
      dsimp only at ih
      rw [Region.visibleCode_skipInertFrom, ← skipInert, hahead]
      dsimp only
      rw [← ih, visible, List.filter_cons]
      cases isWhite x <;> rfl

theorem Text.visibleCode_eq (t : Text) : t.visibleCode = Region.code.visibleCode [] t :=
  (Cursor.ofText t).visible_codeAhead

/-! ### Reading in step -/

namespace Region

/-- A reader between the two characters of a comment sign has the first behind and the second
ahead. -/
def MidSign (region : Region) (behind t : Text) : Prop :=
  region.space ≠ region →
    (∃ c ∈ behind.head?, c = '/' ∨ c = '*') ∧ ∃ c ∈ t.head?, c = '/' ∨ c = '*'

variable {region : Region} {behind behind' t u : Text} {c : Char}

theorem midSign_read (region : Region) (behind : Text) (c : Char) (t : Text) :
    (region.read behind c t).2.MidSign (c :: behind) t := by
  have hcode : MidSign code (c :: behind) t := fun h => absurd rfl h
  have hblock : MidSign blockComment (c :: behind) t := fun h => absurd rfl h
  cases region with
  | code =>
      simp only [read]
      split
      · exact fun h => absurd rfl h
      · split
        · rename_i opened hopened
          unfold comment? at hopened
          split at hopened
          · rename_i hslash
            intro hmid
            refine ⟨⟨c, rfl, .inl hslash⟩, ?_⟩
            split at hopened
            · exact ⟨'/', ‹_›, .inl rfl⟩
            · exact ⟨'*', ‹_›, .inr rfl⟩
            · contradiction
          · contradiction
        · exact hcode
  | literal quote =>
      simp only [read]
      split
      · exact hcode
      · exact fun h => absurd rfl h
  | lineComment =>
      simp only [read]
      split
      · exact hcode
      · exact fun h => absurd rfl h
  | blockOpening => exact hblock
  | blockComment =>
      simp only [read]
      split
      · rename_i hclose
        rw [Bool.and_eq_true, beq_iff_eq, beq_iff_eq] at hclose
        exact fun _ => ⟨⟨c, rfl, .inr hclose.1⟩, '/', hclose.2, .inl rfl⟩
      · exact hblock
  | blockClosing => exact hcode

/-- The characters of a comment sign are visible and no brackets. -/
theorem visible_of_sign {c : Char} (h : c = '/' ∨ c = '*') :
    isWhite c = false ∧ c ∉ bracketSigns := by
  rcases h with rfl | rfl <;> decide

/-- Between the characters of a comment sign no white space is put in. -/
theorem MidSign.not_parted (h : region.MidSign behind (c :: t)) (hne : region.space ≠ region)
    (hwhite : endsWhite behind' = true) : ¬ SpacedAlike behind behind' c := by
  obtain ⟨⟨a, ha, hfirst⟩, b, hb, hsecond⟩ := h hne
  obtain rfl : c = b := by simpa using hb
  obtain ⟨more, rfl⟩ := List.head?_eq_some_iff.mp ha
  have hvisible := (visible_of_sign hfirst).1
  rintro (hsame | hbracket | hbracket)
  · rw [hwhite] at hsame
    simp [endsWhite, hvisible] at hsame
  · exact (visible_of_sign hsecond).2 hbracket
  · exact (visible_of_sign hfirst).2 (hbracket a (by simp [firstVisible?, hvisible]))

/-- A reader looks back only at a quote, and ahead only where a comment sign may go on. -/
theorem read_respaced (hquoted : region.IsQuoted)
    (hescape : Tidied.SameEscape behind' behind (c :: t))
    (hsign : c = '/' ∨ c = '*' → ∀ d, d = '/' ∨ d = '*' → (t.head? = some d ↔ u.head? = some d)) :
    region.read behind c t = region.read behind' c u := by
  have hback : region.read behind c t = region.read behind' c t := by
    cases hc : isQuote c with
    | true =>
        have hsame := hescape c rfl (.inl hc)
        cases region <;> simp only [read, hsame]
    | false =>
        cases region with
        | literal quote =>
            have hne : (c == quote) = false := by
              rw [beq_eq_false_iff_ne]
              rintro rfl
              simp [hquoted c rfl] at hc
            simp [read, hne]
        | _ => simp [read, hc]
  rw [hback]
  by_cases hc : c = '/' ∨ c = '*'
  · exact read_congr rfl (hsign hc '/' (.inl rfl)) (hsign hc '*' (.inr rfl)) region c
  · rw [not_or] at hc
    cases region <;> simp [read, comment?, hc]

end Region

namespace Text.Respaced

open Region (visible_of_sign)

variable {quote : OpenQuote} {region region' : Region} {behind behind' t u : Text} {c d : Char}

/-- A visible character that is written next is the next visible one that is read. -/
theorem next_written (h : Respaced none behind behind' t (d :: u)) (hd : isWhite d = false) :
    ∃ w t', t = w ++ d :: t' ∧ isBlank w = true ∧ SpacedAlike (w.reverse ++ behind) behind' d := by
  generalize hv : d :: u = v at h
  generalize hquote : (none : OpenQuote) = quote at h
  induction h with
  | nil => contradiction
  | @keep quote behind behind' t u c hc hescape hspaced ht ih =>
      subst hquote
      obtain ⟨rfl, rfl⟩ := List.cons.inj hv
      exact ⟨[], t, rfl, rfl, hspaced rfl⟩
  | @drop behind behind' t u c hc ht ih =>
      obtain ⟨w, t', rfl, hw, hspaced⟩ := ih hv rfl
      exact ⟨c :: w, t', rfl, by rw [isBlank_cons, hc, hw]; rfl, by simpa using hspaced⟩
  | add ht ih =>
      obtain ⟨rfl, -⟩ := List.cons.inj hv
      exact absurd hd (by decide)

/-- Two visible characters that stand together stay together, brackets apart. -/
theorem head?_eq_iff (h : Respaced quote (c :: behind) (c :: behind') t u)
    (hc : isWhite c = false ∧ c ∉ bracketSigns) (hd : isWhite d = false ∧ d ∉ bracketSigns) :
    t.head? = some d ↔ u.head? = some d := by
  have hgap : ∀ {w b b' : Text}, isBlank w = true → endsWhite (w.reverse ++ c :: b) =
      endsWhite (c :: b') → w = [] := by
    intro w b b' hw hsame
    by_contra hne
    rw [endsWhite_blank hne hw] at hsame
    simp [endsWhite, hc.1] at hsame
  have hlast : ∀ {w b : Text}, isBlank w = true → firstVisible? (w.reverse ++ c :: b) = some c := by
    intro w b hw
    rw [firstVisible?, List.find?_append, ← firstVisible?, firstVisible?_blank_reverse hw]
    simp [hc.1]
  by_cases hquote : quote = none
  · subst hquote
    constructor
    · intro ht
      obtain ⟨t, rfl⟩ := List.head?_eq_some_iff.mp ht
      obtain ⟨w, u', rfl, hw, hspaced, -⟩ := next_visible (w := []) h rfl hd.1
      rcases hspaced with hsame | hbracket | hbracket
      · rw [hgap hw hsame.symm]
        rfl
      · exact absurd hbracket hd.2
      · exact absurd (hbracket c (hlast (w := []) rfl)) hc.2
    · intro hu
      obtain ⟨u, rfl⟩ := List.head?_eq_some_iff.mp hu
      obtain ⟨w, t', rfl, hw, hspaced⟩ := h.next_written hd.1
      rcases hspaced with hsame | hbracket | hbracket
      · rw [hgap hw hsame]
        rfl
      · exact absurd hbracket hd.2
      · exact absurd (hbracket c (hlast hw)) hc.2
  · cases h with
    | nil => rfl
    | keep => rfl
    | drop => exact absurd rfl hquote
    | add => exact absurd rfl hquote

/-- The same code is read in both texts, if no line feed is lost that ends a line comment. -/
theorem visibleCode_eq (h : Respaced quote behind behind' t u) (hquoted : region.IsQuoted)
    (hmid : region.MidSign behind t) (hlines : keepsLines quote region behind t = true)
    (hregion : region' = region ∨
      quote = none ∧ endsWhite behind' = true ∧ region' = region.space) :
    region'.visibleCode behind' u = region.visibleCode behind t := by
  induction h generalizing region region' with
  | nil => rfl
  | @keep quote behind behind' t u c hc hescape hspaced ht ih =>
      obtain rfl : region' = region := by
        rcases hregion with hsame | ⟨hquote, hwhite, hspace⟩
        · exact hsame
        · by_contra hne
          exact hmid.not_parted (hspace ▸ hne) hwhite (hspaced hquote)
      have hread : region'.read behind c t = region'.read behind' c u := by
        refine Region.read_respaced hquoted hescape fun hsign d hd => ?_
        exact ht.head?_eq_iff (visible_of_sign hsign) (visible_of_sign hd)
      rw [keepsLines, Bool.and_eq_true] at hlines
      rw [Region.visibleCode_cons, Region.visibleCode_cons, ← hread]
      exact congrArg (_ ++ ·) (ih (Region.isQuoted_read hquoted behind c t)
        (Region.midSign_read region' behind c t) hlines.2 (.inl rfl))
  | @drop behind behind' t u c hc ht ih =>
      have hspace : region.space = region := by
        by_contra hne
        obtain ⟨-, d, hd, hsign⟩ := hmid hne
        obtain rfl : c = d := by simpa using hd
        exact absurd hc (by simp [(visible_of_sign hsign).1])
      have hsame : region' = region := by
        rcases hregion with hsame | ⟨-, -, hsame⟩
        · exact hsame
        · exact hsame.trans hspace
      have hline := ne_feed_of_keepsLines hlines
      rw [keepsLines_white hc hquoted hline, hspace] at hlines
      rw [Region.visibleCode_white hc hquoted hline, hspace]
      exact ih hquoted (fun hne => absurd hspace hne) hlines (.inl hsame)
  | @add behind behind' t u ht ih =>
      have hquote : region'.IsQuoted := by
        rcases hregion with rfl | ⟨-, -, rfl⟩
        · exact hquoted
        · exact Region.isQuoted_space hquoted
      have hspace : region'.space = region.space := by
        rcases hregion with rfl | ⟨-, -, rfl⟩
        · rfl
        · exact Region.space_space region
      rw [Region.visibleCode_white (by decide) hquote (fun _ => by decide), hspace]
      exact ih hquoted hmid hlines (.inr ⟨rfl, rfl, rfl⟩)

end Text.Respaced

/-! ### Types -/

namespace Text

theorem visibleCode_blank {g : Text} (hg : isBlank g = true) (region : Region) (behind : Text) :
    region.visibleCode behind g = [] := by
  induction g generalizing region behind with
  | nil => rfl
  | cons c g ih =>
      rw [isBlank_cons, Bool.and_eq_true] at hg
      rw [Region.visibleCode_cons, ih hg.2]
      simp [hg.1]

theorem visibleCode_trimEnd (t : Text) : (trimEnd t).visibleCode = t.visibleCode := by
  obtain ⟨g, hg, ht⟩ := exists_blank_after_trimEnd t
  have hends : EndsSlash g := by
    constructor <;> intro hfirst <;>
      exact absurd (List.all_eq_true.mp hg _ (List.mem_of_mem_head? hfirst)) (by decide)
  conv_rhs => rw [ht]
  rw [visibleCode_eq, visibleCode_eq, Region.visibleCode_append hends, visibleCode_blank hg,
    List.append_nil]

/-- What is squeezed has no line feeds outside literals, so none can be lost. -/
theorem Squeezed.keepsLines {quote : OpenQuote} {behind behind' t t' : Text}
    (h : Squeezed quote behind t t')
    (hb : ∀ front, isEscaped (front ++ behind) = isEscaped (front ++ behind')) (region : Region) :
    keepsLines quote region behind' t' = true := by
  induction h generalizing behind' region with
  | nil => rfl
  | @keep quote behind t t' c hc ht ih =>
      have hnext : quote.next behind c = quote.next behind' c := by
        have hhere : isEscaped behind = isEscaped behind' := hb []
        rw [OpenQuote.next, hhere, OpenQuote.next]
      have hrest : Text.keepsLines (quote.next behind c) (region.read behind' c t').2
          (c :: behind') t' = true := ih (fun front => by simpa using hb (front ++ [c])) _
      rw [Text.keepsLines, ← hnext, hrest, Bool.and_true]
      rcases hc with hc | hc
      · have hfeed : c ≠ '\n' := by
          rintro rfl
          exact absurd hc (by decide)
        simp [hfeed]
      · simp [Option.isSome_iff_ne_none.mpr hc]
  | @gap behind g t t' hne hgap hfirst ht ih =>
      have hspace : (' ' :: behind').head? ≠ some '\\' := by simp
      have hrest : Text.keepsLines none (region.read behind' ' ' t').2 (' ' :: behind') t' = true :=
        ih (fun front => by
          rw [isEscaped_append (not_escape_of_isBlank hne hgap behind), isEscaped_append hspace]) _
      rw [Text.keepsLines, OpenQuote.next_of_not_isQuote (by decide), hrest]
      simp

theorem visibleCode_of_respaced {t u : Text} (h : Respaced none [] [] (trimEnd t) u)
    (hlines : keepsLines none .code [] (trimEnd t) = true) : u.visibleCode = t.visibleCode := by
  have hcode : Region.code.visibleCode [] u = Region.code.visibleCode [] (trimEnd t) :=
    h.visibleCode_eq (by simp [Region.IsQuoted]) (fun hne => absurd rfl hne) hlines (.inl rfl)
  rw [visibleCode_eq, hcode, ← visibleCode_eq, visibleCode_trimEnd]

/-- The normal form of a type has its code, if no line feed is lost that ends a line comment. -/
theorem visibleCode_normalizeType {t : Text}
    (hlines : keepsLines none .code [] (trimEnd t) = true) :
    (normalizeType t).visibleCode = t.visibleCode := by
  have hsqueezed : Squeezed none [] (trim t) (collapse t) :=
    collapse_trim t ▸ squeezed_collapse (trim_trim t)
  have hcollapsed : keepsLines none .code [] (trimEnd (collapse t)) = true :=
    hsqueezed.trimEnd.keepsLines (fun _ => rfl) .code
  calc (normalizeType t).visibleCode
      = (collapse t).visibleCode := visibleCode_of_respaced (respaced_tidy (collapse t)) hcollapsed
    _ = t.visibleCode := visibleCode_of_respaced (respaced_collapse t) hlines

end Text

namespace Member

/-- A member has the same code in its type whether or not types are brought to normal form, if no
line feed of the type is lost that ends a line comment. -/
theorem scan_normalizing_keeps_code (body : Text) (docs : Bool) {name : Text} {m : Member}
    (hm : (scan ⟨false, docs⟩ body).get? name = some m)
    (hlines : keepsLines none .code [] (trimEnd m.type) = true) :
    (scan ⟨true, docs⟩ body).get? name = some { m with type := normalizeType m.type } ∧
      (normalizeType m.type).visibleCode = m.type.visibleCode := by
  refine ⟨?_, visibleCode_normalizeType hlines⟩
  rw [scan_restyle, OrderedMap.get?_mapValues] at hm ⊢
  obtain ⟨plain, hplain, rfl⟩ := Option.map_eq_some_iff.mp hm
  rw [hplain]
  rfl

/-- A type with an apostrophe in each of two comments. The line feed behind the first one is part of
what the collapse takes for a literal. -/
def notedBody : Text := "a: \x7b // it's\n  b: /* it's */  ( x )\n \x7d".toList

def notedType : Text := "\x7b // it's\n b: /* it's */  ( x )\n\x7d".toList

theorem scan_normalizing_noted :
    (scan {} notedBody).get? ['a'] = some ⟨['a'], notedType, false, none⟩ ∧
      keepsLines none .code [] (trimEnd notedType) = true ∧
      (scan ⟨true, false⟩ notedBody).get? ['a'] =
        some ⟨['a'], normalizeType notedType, false, none⟩ ∧
      (normalizeType notedType).visibleCode = notedType.visibleCode := by
  have hm : (scan {} notedBody).get? ['a'] = some ⟨['a'], notedType, false, none⟩ := by
    rw [scan, ← Scan.run_iterate {} 50, Scan.run_end (by decide +kernel)]
    decide +kernel
  have hlines : keepsLines none .code [] (trimEnd notedType) = true := by decide
  exact ⟨hm, hlines, scan_normalizing_keeps_code notedBody false hm hlines⟩

/-- A line comment within a type takes up the code behind it when the type is brought to normal
form. -/
theorem line_comment_takes_code :
    ¬ ∀ (body name : Text) (m : Member), (scan {} body).get? name = some m →
      (normalizeType m.type).visibleCode = m.type.visibleCode := by
  intro hclaim
  have hm : (scan {} "a: \x7b // c\n b: string \x7d".toList).get? ['a'] =
      some ⟨['a'], "\x7b // c\nb: string \x7d".toList, false, none⟩ := by
    rw [scan, ← Scan.run_iterate {} 30, Scan.run_end (by decide)]
    decide
  have hsame := hclaim _ _ _ hm
  rw [visibleCode_eq, visibleCode_eq] at hsame
  revert hsame
  decide

end Member

end ComponentProps
