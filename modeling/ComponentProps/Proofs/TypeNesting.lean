import ComponentProps.Proofs.Operands

/-!
# Types within brackets

A type closes the brackets that it opens and leaves the nesting as it found it, wherever it is read.
Texts with this property are put together out of letters, literals, signs and groups, so all types
have it. Main statement: where such a text is a passage too, it is enclosed.
-/

namespace ComponentProps

open Text

/-- Read as code, the text leaves the nesting as it is. It does not end in a backslash. -/
structure KeepsNesting (t : Text) : Prop where
  last : t.getLast? ≠ some '\\'
  after : ∀ (n : Nesting) (behind rest : Text), behind.head? ≠ some '\\' →
    n.after? .code behind (t ++ rest) = n.after? .code (t.reverse ++ behind) rest

namespace Nesting

variable {n : Nesting} {behind rest : Text} {c : Char}

theorem after?_flat (hc : IsFlat c) :
    n.after? .code behind (c :: rest) = n.after? .code (c :: behind) rest := by
  simp only [after?, Region.read_plain hc.1, bracket_of_not_mem hc.2]

theorem after?_bracket (hc : IsPlain c) {b : Bracket} (hb : Bracket.of? behind c = some b)
    {m : Nesting} (hm : n.track? b = some m) :
    n.after? .code behind (c :: rest) = m.after? .code (c :: behind) rest := by
  simp only [after?, Region.read_plain hc, hb, hm, Option.bind_some]

/-- The nesting within a literal does not matter. -/
theorem after?_literal {quote : Char} {content : Text}
    (hcontent : ∀ c ∈ content, c ≠ quote ∧ c ≠ '\\') (hb : behind.head? ≠ some '\\') :
    n.after? (.literal quote) behind (content ++ quote :: rest) =
      n.after? .code (quote :: (content.reverse ++ behind)) rest := by
  induction content generalizing behind with
  | nil => simp [after?, Region.read, isEscaped_of_head?_ne hb]
  | cons c content ih =>
      obtain ⟨hquote, hslash⟩ := hcontent c List.mem_cons_self
      have hnext := ih (fun d hd => hcontent d (List.mem_cons_of_mem _ hd))
        (show (c :: behind).head? ≠ some '\\' by simpa using hslash)
      simpa [after?, Region.read, hquote] using hnext

end Nesting

namespace KeepsNesting

variable {s t : Text} {c : Char}

theorem nil : KeepsNesting [] := ⟨by simp, fun _ _ _ _ => rfl⟩

theorem append (hs : KeepsNesting s) (ht : KeepsNesting t) : KeepsNesting (s ++ t) := by
  refine ⟨getLast?_append_ne hs.last ht.last, fun n behind rest hb => ?_⟩
  rw [List.append_assoc, hs.after n behind _ hb,
    ht.after n _ rest (head?_reverse_append_ne hs.last hb), List.reverse_append, List.append_assoc]

theorem flat (hc : IsFlat c ∧ c ≠ '\\') : KeepsNesting [c] :=
  ⟨by simpa using hc.2, fun _ _ _ _ => Nesting.after?_flat hc.1⟩

theorem literal (l : StringLiteral) : KeepsNesting l.print := by
  have hquote : l.quote ≠ '\\' := ne_of_kind l.isQuote rfl
  have hcontent : ∀ c ∈ l.content, c ≠ l.quote ∧ c ≠ '\\' :=
    fun c hc => ⟨(l.ne_of_mem hc).1, (l.ne_of_mem hc).2.1⟩
  refine ⟨by simpa [StringLiteral.print, List.getLast?_cons] using hquote,
    fun n behind rest hb => ?_⟩
  have hread : Region.code.read behind l.quote (l.content ++ l.quote :: rest) =
      (.literal, .literal l.quote) := by
    simp [Region.read, l.isQuote, isEscaped_of_head?_ne hb]
  have hprint : l.print ++ rest = l.quote :: (l.content ++ l.quote :: rest) := by
    simp [StringLiteral.print]
  have hinside : n.after? (.literal l.quote) (l.quote :: behind) (l.content ++ l.quote :: rest) =
      n.after? .code (l.quote :: (l.content.reverse ++ l.quote :: behind)) rest :=
    Nesting.after?_literal hcontent (by simpa using hquote)
  rw [hprint, Nesting.after?, hread]
  simpa [StringLiteral.print] using hinside

/-- Round, square or curly brackets with a text between them. -/
theorem group (ht : KeepsNesting t) {opening close : Char}
    (h : (opening, close) ∈ [('(', ')'), ('[', ']'), ('{', '}')]) :
    KeepsNesting (opening :: (t ++ [close])) := by
  have hkind : IsPlain opening ∧ IsPlain close ∧ opening ≠ '\\' ∧ close ≠ '\\' ∧
      (∀ behind, Bracket.of? behind opening = some .opening) ∧
      ∀ behind, Bracket.of? behind close = some .closing := by
    simp only [List.mem_cons, List.not_mem_nil, or_false, Prod.mk.injEq] at h
    rcases h with ⟨rfl, rfl⟩ | ⟨rfl, rfl⟩ | ⟨rfl, rfl⟩ <;>
      exact ⟨by decide, by decide, by decide, by decide, fun _ => rfl, fun _ => rfl⟩
  obtain ⟨hopen, hclose, hopen', hclose', hopening, hclosing⟩ := hkind
  refine ⟨by simpa [List.getLast?_cons] using hclose', fun n behind rest hb => ?_⟩
  have hinner : (opening :: behind).head? ≠ some '\\' := by simpa using hopen'
  have hprint : opening :: (t ++ [close]) ++ rest = opening :: (t ++ close :: rest) := by simp
  rw [hprint, Nesting.after?_bracket hopen (hopening _) rfl, ht.after _ _ _ hinner,
    Nesting.after?_bracket hclose (hclosing _) rfl]
  simp [Nesting.track]

/-- Angle brackets with a text between them that does not end like an arrow. -/
theorem angles (ht : KeepsNesting t) (hlast : t.getLast? ≠ some '=') :
    KeepsNesting ('<' :: (t ++ ['>'])) := by
  refine ⟨by simp [List.getLast?_cons], fun n behind rest hb => ?_⟩
  have hprint : '<' :: (t ++ ['>']) ++ rest = '<' :: (t ++ '>' :: rest) := by simp
  have hclosing : Bracket.of? (t.reverse ++ '<' :: behind) '>' = some .angleClosing := by
    simpa using bracket_of_close_angle hlast behind
  rw [hprint, Nesting.after?_bracket (by decide) rfl rfl, ht.after _ _ _ (by simp),
    Nesting.after?_bracket (by decide) hclosing rfl]
  simp [Nesting.track]

theorem arrow : KeepsNesting ['=', '>'] :=
  ⟨by decide, fun _ _ _ _ => rfl⟩

theorem isEnclosed {keys : List Text} (ht : KeepsNesting t) (hpassage : IsPassage keys t) :
    IsEnclosed t where
  closed := hpassage.closed
  nested := by simpa [Nesting.after?] using ht.after .top [] [] (by simp)
  curly := hpassage.braces

end KeepsNesting

theorem typeClosed_keepsNesting : TypeClosed KeepsNesting where
  nil := .nil
  append := .append
  letter hc := .flat ⟨isFlat_of_isIdentChar hc, ne_of_kind hc rfl⟩
  sign hc := .flat (of_decide_eq_true (List.all_eq_true.mp
    (by decide : typeSigns.all (fun c => IsFlat c ∧ c ≠ '\\') = true) _ hc))
  arrow := .arrow
  literal := .literal
  group hkind ht := ht.group hkind
  angles hlast ht := ht.angles hlast

end ComponentProps
