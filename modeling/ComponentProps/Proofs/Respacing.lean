import ComponentProps.Proofs.NormalForms
import ComponentProps.Proofs.Styling

/-!
# Respaced text

Collapsing a text, tidying its brackets and both in turn change nothing but white space outside
literals. One relation says so of either pass: the characters that count are kept in order, white
space outside literals comes and goes between them, and a gap is opened or closed only beside a
bracket or at the start. The relation is local, so it can be followed to any place in the two texts.
-/

namespace ComponentProps.Text

/-! ### Text without its white space -/

def visible (t : Text) : Text := t.filter fun c => !isWhite c

/-- What is left of a text, read behind `behind`, without white space outside literals. -/
def denseFrom (quote : OpenQuote) (behind : Text) : Text → Text
  | [] => []
  | c :: rest =>
    if isWhite c && !quote.covers behind c then denseFrom (quote.next behind c) (c :: behind) rest
    else c :: denseFrom (quote.next behind c) (c :: behind) rest

/-- The text without white space outside literals. -/
def dense (t : Text) : Text := denseFrom none [] t

/-- Whether white space comes last in what lies behind. -/
def endsWhite (behind : Text) : Bool := behind.head?.any isWhite

/-- Only a quote opens or closes a literal, so white space does not. -/
theorem OpenQuote.visible_of_next_ne {quote : OpenQuote} {behind : Text} {c : Char}
    (h : quote.next behind c ≠ quote) : isWhite c = false := by
  by_contra hc
  rw [Bool.not_eq_false] at hc
  exact h (next_of_not_isQuote (isPlain_of_isWhite hc).1 quote behind)

section Dense

variable {quote : OpenQuote} {behind t : Text} {c : Char}

theorem denseFrom_keep (hc : isWhite c = false ∨ quote ≠ none) :
    denseFrom quote behind (c :: t) = c :: denseFrom (quote.next behind c) (c :: behind) t := by
  rw [denseFrom, if_neg]
  rcases hc with hc | hc
  · simp [hc]
  · simp [OpenQuote.covers, Option.isSome_iff_ne_none.mpr hc]

theorem denseFrom_white (hc : isWhite c = true) :
    denseFrom none behind (c :: t) = denseFrom none (c :: behind) t := by
  rw [denseFrom, if_pos (by simp [OpenQuote.covers_of_isWhite hc, hc]),
    OpenQuote.next_of_not_isQuote (isPlain_of_isWhite hc).1]

theorem denseFrom_append (s : Text) :
    denseFrom quote behind (s ++ t) =
      denseFrom quote behind s ++ denseFrom (quote.after behind s) (s.reverse ++ behind) t := by
  induction s generalizing quote behind with
  | nil => rfl
  | cons c s ih =>
      simp only [List.cons_append, denseFrom, ih, OpenQuote.after, List.reverse_cons,
        List.append_assoc, List.nil_append]
      split <;> rfl

theorem denseFrom_blank {gap : Text} (hgap : isBlank gap = true) :
    denseFrom none behind gap = [] := by
  induction gap generalizing behind with
  | nil => rfl
  | cons c gap ih =>
      rw [isBlank_cons, Bool.and_eq_true] at hgap
      rw [denseFrom_white hgap.1, ih hgap.2]

/-- White space at the end that is no part of an open literal is left out anyway, and the rest is at
the end of what is left. -/
theorem denseFrom_trimEnd (t : Text) :
    denseFrom quote behind (trimEnd t) = trimEnd (denseFrom quote behind t) := by
  induction t generalizing quote behind with
  | nil => rfl
  | cons c t ih =>
      by_cases hc : isWhite c = false
      · rw [trimEnd_cons hc, denseFrom_keep (.inl hc), denseFrom_keep (.inl hc), trimEnd_cons hc,
          ih]
      rw [Bool.not_eq_false] at hc
      by_cases hquote : quote = none
      · subst hquote
        rw [denseFrom_white hc, ← ih]
        by_cases hend : trimEnd t = []
        · rw [trimEnd_white_cons hc hend, hend]
          rfl
        · rw [trimEnd_cons_of_visible hend, denseFrom_white hc]
      · rw [denseFrom_keep (.inr hquote), OpenQuote.next_of_not_isQuote (isPlain_of_isWhite hc).1]
        have hrest : denseFrom quote (c :: behind) (trimEnd t) =
            trimEnd (denseFrom quote (c :: behind) t) := ih
        by_cases hend : trimEnd t = []
        · rw [hend] at hrest
          rw [trimEnd_white_cons hc hend, trimEnd_white_cons hc hrest.symm]
          rfl
        · have hne : trimEnd (denseFrom quote (c :: behind) t) ≠ [] := by
            obtain ⟨d, more, hmore⟩ := List.exists_cons_of_ne_nil hend
            rw [← hrest, hmore, denseFrom_keep (.inr hquote)]
            simp
          rw [trimEnd_cons_of_visible hend, trimEnd_cons_of_visible hne,
            denseFrom_keep (.inr hquote), OpenQuote.next_of_not_isQuote (isPlain_of_isWhite hc).1,
            hrest]

theorem visible_denseFrom (t : Text) : visible (denseFrom quote behind t) = visible t := by
  induction t generalizing quote behind with
  | nil => rfl
  | cons c t ih =>
      rw [denseFrom]
      split
      · rename_i hc
        rw [ih, visible, visible, List.filter_cons_of_neg (by simp_all)]
      · have hcons : ∀ u : Text, visible (c :: u) = visible [c] ++ visible u := fun u => by
          rw [visible, ← List.singleton_append, List.filter_append]
          rfl
        rw [hcons, ih, ← hcons]

theorem visible_trimEnd (t : Text) : visible (trimEnd t) = visible t := by
  induction t with
  | nil => rfl
  | cons c t ih =>
      by_cases hend : trimEnd t = []
      · have hnil : visible t = [] := by rw [← ih, hend]; rfl
        cases hc : isWhite c with
        | true => simpa [trimEnd_white_cons hc hend, visible, hc] using hnil.symm
        | false => simpa [trimEnd_cons hc, hend, visible, hc] using hnil.symm
      · rw [trimEnd_cons_of_visible hend, visible, visible, List.filter_cons, List.filter_cons]
        split
        · exact congrArg (c :: ·) ih
        · exact ih

end Dense

/-! ### Respacing -/

/-- White space stands before `c` behind both texts or behind neither, unless `c` or the visible
character before it is a bracket, or there is none before it. -/
def SpacedAlike (behind behind' : Text) (c : Char) : Prop :=
  endsWhite behind = endsWhite behind' ∨ c ∈ bracketSigns ∨
    ∀ d ∈ firstVisible? behind, d ∈ bracketSigns

/-- The second text, read behind `behind'`, is the first one, read behind `behind`, with other white
space outside literals. -/
inductive Respaced : OpenQuote → Text → Text → Text → Text → Prop
  | nil {quote : OpenQuote} {behind behind' : Text} : Respaced quote behind behind' [] []
  | keep {quote : OpenQuote} {behind behind' t u : Text} {c : Char}
      (hc : isWhite c = false ∨ quote ≠ none)
      (hescape : Tidied.SameEscape behind' behind (c :: t))
      (hspaced : quote = none → SpacedAlike behind behind' c)
      (ht : Respaced (quote.next behind c) (c :: behind) (c :: behind') t u) :
      Respaced quote behind behind' (c :: t) (c :: u)
  | drop {behind behind' t u : Text} {c : Char} (hc : isWhite c = true)
      (ht : Respaced none (c :: behind) behind' t u) : Respaced none behind behind' (c :: t) u
  | add {behind behind' t u : Text} (ht : Respaced none behind (' ' :: behind') t u) :
      Respaced none behind behind' t (' ' :: u)

namespace Respaced

variable {quote : OpenQuote} {behind behind' t u : Text} {c : Char}

theorem denseFrom_eq (h : Respaced quote behind behind' t u) :
    denseFrom quote behind' u = denseFrom quote behind t := by
  induction h with
  | nil => rfl
  | keep hc hescape hspaced ht ih =>
      rw [denseFrom_keep hc, denseFrom_keep hc, hescape.next_eq, ih]
  | drop hc ht ih => rw [denseFrom_white hc, ih]
  | add ht ih => rw [denseFrom_white (by decide), ih]

/-- Every place in the first text has its place in the second. -/
theorem split {p : Text} (h : Respaced quote behind behind' (p ++ t) u) :
    ∃ p' u', u = p' ++ u' ∧ quote.after behind' p' = quote.after behind p ∧
      denseFrom quote behind' p' = denseFrom quote behind p ∧
      Respaced (quote.after behind p) (p.reverse ++ behind) (p'.reverse ++ behind') t u' := by
  generalize hs : p ++ t = s at h
  induction h generalizing p with
  | @nil quote behind behind' =>
      obtain ⟨rfl, rfl⟩ := List.append_eq_nil_iff.mp hs
      exact ⟨[], [], rfl, rfl, rfl, .nil⟩
  | @keep quote behind behind' s u c hc hescape hspaced hsu ih =>
      cases p with
      | nil =>
          subst hs
          exact ⟨[], c :: u, rfl, rfl, rfl, .keep hc hescape hspaced hsu⟩
      | cons d p =>
          obtain ⟨rfl, rfl⟩ := List.cons.inj hs
          obtain ⟨p', u', rfl, hafter, hdense, htu⟩ := ih rfl
          refine ⟨d :: p', u', rfl, ?_, ?_, ?_⟩
          · rw [OpenQuote.after, hescape.next_eq, hafter, OpenQuote.after]
          · rw [denseFrom_keep hc, denseFrom_keep hc, hescape.next_eq, hdense]
          · simpa [OpenQuote.after] using htu
  | @drop behind behind' s u c hc hsu ih =>
      cases p with
      | nil =>
          subst hs
          exact ⟨[], u, rfl, rfl, rfl, .drop hc hsu⟩
      | cons d p =>
          obtain ⟨rfl, rfl⟩ := List.cons.inj hs
          have hquote := OpenQuote.next_of_not_isQuote (isPlain_of_isWhite hc).1 none behind
          obtain ⟨p', u', rfl, hafter, hdense, htu⟩ := ih rfl
          refine ⟨p', u', rfl, ?_, ?_, ?_⟩
          · rw [hafter, OpenQuote.after, hquote]
          · rw [hdense, denseFrom_white hc]
          · simpa [OpenQuote.after, hquote] using htu
  | @add behind behind' s u hsu ih =>
      obtain ⟨p', u', rfl, hafter, hdense, htu⟩ := ih hs
      refine ⟨' ' :: p', u', rfl, hafter, ?_, ?_⟩
      · rw [denseFrom_white (by decide), hdense]
      · simpa using htu

/-- The next visible character is kept, and white space before it beside brackets only comes or
goes. -/
theorem next_visible {w : Text} (h : Respaced none behind behind' (w ++ c :: t) u)
    (hw : isBlank w = true) (hc : isWhite c = false) :
    ∃ w' u', u = w' ++ c :: u' ∧ isBlank w' = true ∧
      SpacedAlike (w.reverse ++ behind) (w'.reverse ++ behind') c ∧
      Tidied.SameEscape (w'.reverse ++ behind') (w.reverse ++ behind) (c :: t) ∧
      Respaced (OpenQuote.next none (w.reverse ++ behind) c) (c :: (w.reverse ++ behind))
        (c :: (w'.reverse ++ behind')) t u' := by
  generalize hs : w ++ c :: t = s at h
  generalize hquote : (none : OpenQuote) = quote at h
  induction h generalizing w with
  | nil => simp at hs
  | @keep quote behind behind' s u d hd hescape hspaced hsu ih =>
      subst hquote
      cases w with
      | nil =>
          obtain ⟨rfl, rfl⟩ := List.cons.inj hs
          exact ⟨[], u, rfl, rfl, hspaced rfl, hescape, hsu⟩
      | cons e w =>
          obtain ⟨rfl, rfl⟩ := List.cons.inj hs
          have he : isWhite e = false := hd.resolve_right (absurd rfl)
          simp [isBlank_cons, he] at hw
  | @drop behind behind' s u d hd hsu ih =>
      cases w with
      | nil =>
          obtain ⟨rfl, rfl⟩ := List.cons.inj hs
          simp [hc] at hd
      | cons e w =>
          obtain ⟨rfl, rfl⟩ := List.cons.inj hs
          rw [isBlank_cons, Bool.and_eq_true] at hw
          obtain ⟨w', u', hu, hw', hspaced, hescape, htu⟩ := ih hw.2 rfl rfl
          refine ⟨w', u', hu, hw', ?_, ?_, ?_⟩
          · simpa using hspaced
          · simpa using hescape
          · simpa using htu
  | @add behind behind' s u hsu ih =>
      obtain ⟨w', u', rfl, hw', hspaced, hescape, htu⟩ := ih hw hs rfl
      refine ⟨' ' :: w', u', rfl, ?_, ?_, ?_, ?_⟩
      · rw [isBlank_cons, hw']
        decide
      · simpa using hspaced
      · simpa using hescape
      · simpa using htu

/-- Within a literal every character is kept. -/
theorem next_inside (h : Respaced quote behind behind' (c :: t) u) (hquote : quote ≠ none) :
    ∃ u', u = c :: u' ∧ quote.next behind' c = quote.next behind c ∧
      Respaced (quote.next behind c) (c :: behind) (c :: behind') t u' := by
  cases h with
  | keep hc hescape hspaced ht => exact ⟨_, rfl, hescape.next_eq quote, ht⟩
  | drop => exact absurd rfl hquote
  | add => exact absurd rfl hquote

theorem next_kept (h : Respaced quote behind behind' (c :: t) u) (hc : isWhite c = false) :
    ∃ g u', u = g ++ c :: u' ∧ isBlank g = true ∧ (quote ≠ none → g = []) ∧
      quote.next (g.reverse ++ behind') c = quote.next behind c ∧
      Respaced (quote.next behind c) (c :: behind) (c :: (g.reverse ++ behind')) t u' := by
  by_cases hquote : quote = none
  · subst hquote
    obtain ⟨g, u', hu, hg, -, hescape, htu⟩ := next_visible (w := []) h rfl hc
    exact ⟨g, u', hu, hg, fun hne => absurd rfl hne, hescape.next_eq none, htu⟩
  · obtain ⟨u', hu, hnext, htu⟩ := h.next_inside hquote
    exact ⟨[], u', hu, rfl, fun _ => rfl, hnext, htu⟩

/-- What lies within a literal is kept as it is. -/
theorem held {s q : Text} (h : Respaced quote behind behind' (s ++ q) u)
    (hinside : ∀ s₁ s₂, s = s₁ ++ s₂ → s₂ ≠ [] → quote.after behind s₁ ≠ none) :
    ∃ u', u = s ++ u' ∧
      ∀ s₁ s₂, s = s₁ ++ s₂ → quote.after behind' s₁ = quote.after behind s₁ := by
  induction s generalizing quote behind behind' u with
  | nil =>
      refine ⟨u, rfl, fun s₁ s₂ hs => ?_⟩
      obtain ⟨rfl, rfl⟩ := List.append_eq_nil_iff.mp hs.symm
      rfl
  | cons c s ih =>
      have hquote : quote ≠ none := hinside [] (c :: s) rfl (by simp)
      obtain ⟨u', rfl, hnext, hrest⟩ := next_inside (t := s ++ q) h hquote
      obtain ⟨v, rfl, hsame⟩ := ih hrest fun s₁ s₂ hs hne =>
        hinside (c :: s₁) s₂ (by rw [hs, List.cons_append]) hne
      refine ⟨v, rfl, fun s₁ s₂ hs => ?_⟩
      cases s₁ with
      | nil => rfl
      | cons d s₁ =>
          obtain ⟨rfl, hrest⟩ := List.cons.inj hs
          rw [OpenQuote.after, hnext, hsame s₁ s₂ hrest, OpenQuote.after]

end Respaced

/-! ### Both passes respace -/

theorem endsWhite_blank {g : Text} (hne : g ≠ []) (hg : isBlank g = true) (behind : Text) :
    endsWhite (g.reverse ++ behind) = true := by
  obtain ⟨front, d, rfl⟩ := (List.eq_nil_or_concat' g).resolve_left hne
  rw [isBlank_append, Bool.and_eq_true] at hg
  simpa [endsWhite, isBlank] using hg.2

theorem firstVisible?_blank_reverse {g : Text} (hg : isBlank g = true) :
    firstVisible? g.reverse = none := by
  rw [firstVisible?, List.find?_eq_none]
  intro d hd
  simp [List.all_eq_true.mp hg d (List.mem_reverse.mp hd)]

theorem Respaced.drop_blank {g behind behind' t u : Text} (hg : isBlank g = true)
    (h : Respaced none (g.reverse ++ behind) behind' t u) :
    Respaced none behind behind' (g ++ t) u := by
  induction g generalizing behind with
  | nil => exact h
  | cons c g ih =>
      rw [isBlank_cons, Bool.and_eq_true] at hg
      exact .drop hg.1 (ih hg.2 (by simpa using h))

/-- Squeezed text is respaced. -/
theorem Squeezed.respaced {quote : OpenQuote} {behind behind' t u : Text}
    (h : Squeezed quote behind t u)
    (hescape : Tidied.SameEscape behind' behind t)
    (hspaced : quote = none → ∀ c, SpacedAlike behind behind' c) :
    Respaced quote behind behind' t u := by
  induction h generalizing behind' with
  | nil => exact .nil
  | @keep quote behind t t' c hc ht ih =>
      exact .keep hc hescape (fun hquote => hspaced hquote c)
        (ih (hescape.cons t) fun _ _ => .inl rfl)
  | @gap behind g t t' hne hgap hfirst ht ih =>
      refine .drop_blank hgap (.add (ih (fun c _ _ => ?_) fun _ c => .inl ?_))
      · have hslash := not_escape_of_isBlank hne hgap behind
        rw [isEscaped_of_head?_ne hslash, isEscaped_cons, if_neg (by decide)]
      · rw [endsWhite_blank hne hgap]
        rfl

theorem respaced_collapse (t : Text) : Respaced none [] [] (trimEnd t) (collapse t) := by
  -- The white space at the start is dropped; behind it nothing is visible yet.
  obtain ⟨g, hg, ht⟩ : ∃ g, isBlank g = true ∧ trimEnd t = g ++ trim t := by
    by_cases hend : trimEnd (trimStart t) = []
    · refine ⟨[], rfl, ?_⟩
      have hblank : isBlank t = true := trim_eq_nil_iff.mp hend
      rw [trim, hend, ← List.nil_append t, trimEnd_append_blank [] hblank]
      rfl
    · refine ⟨t.takeWhile isWhite, by simp [isBlank], ?_⟩
      conv_lhs => rw [← List.takeWhile_append_dropWhile (p := isWhite) (l := t)]
      rw [← trimStart, trimEnd_append, if_neg hend, trim]
  have hsqueezed : Squeezed none [] (trim t) (collapse t) :=
    collapse_trim t ▸ squeezed_collapse (trim_trim t)
  have hescape : ∀ front, isEscaped (front ++ []) = isEscaped (front ++ (g.reverse ++ [])) := by
    intro front
    by_cases hne : g = []
    · rw [hne]
      rfl
    · rw [isEscaped_append (not_escape_of_isBlank hne hg []), List.append_nil]
  rw [ht]
  refine .drop_blank hg ((hsqueezed.behind_congr hescape).respaced ?_ fun _ c => .inr (.inr ?_))
  · exact fun _ _ _ => hescape []
  · rw [List.append_nil, firstVisible?_blank_reverse hg]
    exact fun d hd => by contradiction

namespace Tidied

/-- How the texts behind and written so far are spaced where the next character is met: they end
with the same visible character, white space has been passed over only where none may be written,
and has been put in only behind a bracket. -/
structure Spaced (out behind t : Text) : Prop where
  last : firstVisible? out = firstVisible? behind
  passed : endsWhite behind = true → keepsSpace out.head? (firstVisible? t) = false
  padded : endsWhite behind = false → endsWhite out = true →
    ∀ d ∈ firstVisible? behind, d ∈ bracketSigns

theorem spaced_cons {c : Char} (hc : isWhite c = false) (out behind t : Text) :
    Spaced (c :: out) (c :: behind) t where
  last := by simp [firstVisible?, hc]
  passed := by simp [endsWhite, hc]
  padded := by simp [endsWhite, hc]

variable {quote : OpenQuote} {out behind t u : Text} {c : Char}

theorem Spaced.spacedAlike (h : Spaced out behind (c :: t)) (hc : isWhite c = false) :
    SpacedAlike behind out c := by
  by_cases hsame : endsWhite behind = endsWhite out
  · exact .inl hsame
  cases hbehind : endsWhite behind with
  | false =>
      have hout : endsWhite out = true := by simpa [hbehind] using hsame
      exact .inr (.inr (h.padded hbehind hout))
  | true =>
      have hfirst : firstVisible? (c :: t) = some c := by simp [firstVisible?, hc]
      have hkeeps := hfirst ▸ h.passed hbehind
      cases out with
      | nil =>
          refine .inr (.inr fun d hd => ?_)
          rw [← h.last] at hd
          contradiction
      | cons l out =>
          have hl : isWhite l = false := by
            rw [hbehind] at hsame
            simpa [endsWhite] using hsame
          have hlast : firstVisible? behind = some l := by
            rw [← h.last]
            simp [firstVisible?, hl]
          simp only [keepsSpace, List.head?_cons, hl, Bool.or_false, Bool.and_eq_false_iff,
            Bool.not_eq_false', Bool.or_eq_true, beq_iff_eq] at hkeeps
          rcases hkeeps with hopen | hclose
          · refine .inr (.inr fun d hd => ?_)
            obtain rfl : l = d := Option.some.inj (hlast.symm.trans hd)
            rcases hopen with (rfl | rfl) | rfl <;> decide
          · refine .inr (.inl ?_)
            rcases hclose with ((rfl | rfl) | rfl) | rfl <;> decide

/-- Tidied text is respaced. -/
theorem respaced (h : Tidied quote out behind t u) (hescape : SameEscape out behind t)
    (hspaced : quote = none → Spaced out behind t) : Respaced quote behind out t u := by
  have hspace : isWhite ' ' = true := by decide
  have hopen : isQuote '{' = false ∧ isWhite '{' = false := by decide
  have hclose : isQuote '}' = false ∧ isWhite '}' = false := by decide
  induction h with
  | nil => exact .nil
  | @literal quote out behind t u c hc ht ih =>
      have hkept : isWhite c = false ∨ quote ≠ none := by
        cases hwhite : isWhite c with
        | false => exact .inl rfl
        | true =>
            rw [OpenQuote.covers_of_isWhite hwhite] at hc
            exact .inr (Option.isSome_iff_ne_none.mp hc)
      refine .keep hkept hescape (fun hquote => ?_) (ih (hescape.cons t) fun hnext => ?_)
      · exact (hspaced hquote).spacedAlike (hkept.resolve_right (absurd hquote))
      · -- A literal ends with a quote, which is visible.
        refine spaced_cons (hkept.elim id fun hquote => ?_) out behind t
        exact OpenQuote.visible_of_next_ne (hnext ▸ hquote.symm)
  | @plain out behind t u c hc hvisible hbrace ht ih =>
      refine .keep (.inl hvisible) hescape (fun _ => (hspaced rfl).spacedAlike hvisible) ?_
      rw [next_of_covers hc]
      exact ih (hescape.cons t) fun _ => spaced_cons hvisible out behind t
  | @drop out behind t u c hc hkeeps ht ih =>
      refine .drop hc (ih (sameEscape_drop hc hkeeps) fun _ => ⟨?_, fun _ => hkeeps, ?_⟩)
      · rw [(hspaced rfl).last]
        simp [firstVisible?, hc]
      · simp [endsWhite, hc]
  | @space out behind t u c hc hkeeps ht ih =>
      have hslash : c ≠ '\\' := ne_of_kind hc (by decide)
      have hsame := sameEscape_of_ne (c := ' ') (by decide) hslash out behind t
      refine .drop hc (.add (ih hsame fun _ => ⟨?_, ?_, ?_⟩))
      · have hlast := (hspaced rfl).last
        simpa [firstVisible?, hc, hspace] using hlast
      · intro _
        cases firstVisible? t <;> rfl
      · simp [endsWhite, hc]
  | @opening out behind t u hnext ht ih =>
      refine .keep (.inl hopen.2) hescape (fun _ => .inr (.inl (by decide))) ?_
      rw [OpenQuote.next_of_not_isQuote hopen.1]
      exact ih (hescape.cons t) fun _ => spaced_cons hopen.2 out behind t
  | @openingPadded out behind t u n hnext hn ht ih =>
      refine .keep (.inl hopen.2) hescape (fun _ => .inr (.inl (by decide))) ?_
      rw [OpenQuote.next_of_not_isQuote hopen.1]
      refine .add (ih (sameEscape_of_ne (by decide) (by decide) _ behind t) fun _ => ⟨rfl, ?_, ?_⟩)
      · simp [endsWhite, hopen.2]
      · rintro - - d ⟨⟩
        decide
  | @closing out behind t u hlast ht ih =>
      refine .keep (.inl hclose.2) hescape (fun _ => .inr (.inl (by decide))) ?_
      rw [OpenQuote.next_of_not_isQuote hclose.1]
      exact ih (hescape.cons t) fun _ => spaced_cons hclose.2 out behind t
  | @closingPadded out behind t u l hlast hl ht ih =>
      have hplain : SameEscape (' ' :: out) behind ('}' :: t) := by
        rintro d ⟨⟩ hd
        exact absurd hd (by decide)
      refine .add (.keep (.inl hclose.2) hplain (fun _ => .inr (.inl (by decide))) ?_)
      rw [OpenQuote.next_of_not_isQuote hclose.1]
      exact ih (hplain.cons t) fun _ => spaced_cons hclose.2 (' ' :: out) behind t

end Tidied

theorem respaced_tidy (t : Text) : Respaced none [] [] (trimEnd t) (tidy t) := by
  obtain ⟨u, hu, htidy⟩ := exists_tidied_tidy t
  have hstart : Tidied.Spaced [] [] (trimEnd t) := ⟨rfl, nofun, nofun⟩
  rw [htidy]
  exact hu.trimEnd.respaced (fun _ _ _ => rfl) fun _ => hstart

/-! ### What stays -/

/-- The text `s`, read behind `p`, is a string literal from its opening to its closing quote. -/
structure IsLiteral (p s : Text) : Prop where
  outside : OpenQuote.after none [] p = none
  inside : ∀ s₁ s₂, s = s₁ ++ s₂ → s₁ ≠ [] → s₂ ≠ [] → OpenQuote.after none [] (p ++ s₁) ≠ none
  closed : OpenQuote.after none [] (p ++ s) = none
  long : 2 ≤ s.length

/-- Outside literals, the text `p` and the visible character `a` are followed by white space `w` and
the visible character `b`, and neither is a bracket. -/
structure IsParted (p : Text) (a : Char) (w : Text) (b : Char) : Prop where
  outside : OpenQuote.after none [] (p ++ [a]) = none
  gap : w ≠ []
  blank : isBlank w = true
  left : isWhite a = false ∧ a ∉ bracketSigns
  right : isWhite b = false ∧ b ∉ bracketSigns

/-- The text `u` has the characters of `t`, with other white space outside literals: every literal
stays as it is, and characters that white space parts stay parted, brackets apart. -/
structure Respaces (t u : Text) : Prop where
  dense_eq : dense u = trimEnd (dense t)
  visible_eq : visible u = visible t
  literal : ∀ p s q, t = p ++ s ++ q → IsLiteral p s →
    ∃ p' q', u = p' ++ s ++ q' ∧ IsLiteral p' s ∧ dense p' = dense p
  parted : ∀ p a w b q, t = p ++ a :: (w ++ b :: q) → IsParted p a w b →
    ∃ p' w' q', u = p' ++ a :: (w' ++ b :: q') ∧ IsParted p' a w' b ∧ dense p' = dense p

theorem Respaces.trans {t u v : Text} (h : Respaces t u) (hv : Respaces u v) : Respaces t v where
  dense_eq := by
    rw [hv.dense_eq, h.dense_eq]
    exact List.rdropWhile_idempotent isWhite (dense t)
  visible_eq := hv.visible_eq.trans h.visible_eq
  literal p s q ht hs := by
    obtain ⟨p₁, q₁, hu, hs₁, hp₁⟩ := h.literal p s q ht hs
    obtain ⟨p₂, q₂, hv, hs₂, hp₂⟩ := hv.literal p₁ s q₁ hu hs₁
    exact ⟨p₂, q₂, hv, hs₂, hp₂.trans hp₁⟩
  parted p a w b q ht hw := by
    obtain ⟨p₁, w₁, q₁, hu, hw₁, hp₁⟩ := h.parted p a w b q ht hw
    obtain ⟨p₂, w₂, q₂, hv, hw₂, hp₂⟩ := hv.parted p₁ a w₁ b q₁ hu hw₁
    exact ⟨p₂, w₂, q₂, hv, hw₂, hp₂.trans hp₁⟩

section Stays

variable {t u : Text}

theorem dense_append_blank {p g : Text} (hp : OpenQuote.after none [] p = none)
    (hg : isBlank g = true) : dense (p ++ g) = dense p := by
  rw [dense, denseFrom_append, hp, denseFrom_blank hg, List.append_nil, dense]

theorem IsLiteral.exists_quote {p s : Text} (h : IsLiteral p s) :
    ∃ c s', s = c :: s' ∧ s' ≠ [] ∧ isWhite c = false := by
  obtain ⟨c, s', rfl⟩ := List.exists_cons_of_length_pos (Nat.lt_of_lt_of_le Nat.zero_lt_two h.long)
  have hne : s' ≠ [] := by
    rintro rfl
    simpa using h.long
  have hopen := h.inside [c] s' rfl (by simp) hne
  rw [OpenQuote.after_append, h.outside, OpenQuote.after, OpenQuote.after] at hopen
  exact ⟨c, s', rfl, hne, OpenQuote.visible_of_next_ne hopen⟩

theorem IsLiteral.trimEnd_append {p s : Text} (h : IsLiteral p s) (q : Text) :
    trimEnd (p ++ s ++ q) = p ++ s ++ trimEnd q := by
  obtain ⟨s', d, rfl⟩ : ∃ s' d, s = s' ++ [d] := by
    obtain ⟨c, s', rfl, -⟩ := h.exists_quote
    exact (List.eq_nil_or_concat' (c :: s')).resolve_left (by simp)
  have hne : s' ≠ [] := by
    rintro rfl
    simpa using h.long
  have hinside := h.inside s' [d] rfl hne (by simp)
  have hclosed := h.closed
  rw [← List.append_assoc, OpenQuote.after_append, OpenQuote.after, OpenQuote.after] at hclosed
  have hd : isWhite d = false :=
    OpenQuote.visible_of_next_ne fun hsame => hinside (hsame.symm.trans hclosed)
  rw [Text.trimEnd_append]
  split
  · rename_i hnil
    rw [hnil, ← List.append_assoc, Text.trimEnd_append, trimEnd_cons hd, if_neg (by simp)]
    simp [trimEnd]
  · rfl

theorem Respaced.literal (h : Respaced none [] [] (trimEnd t) u) {p s q : Text}
    (ht : t = p ++ s ++ q) (hs : IsLiteral p s) :
    ∃ p' q', u = p' ++ s ++ q' ∧ IsLiteral p' s ∧ dense p' = dense p := by
  obtain ⟨c, s, rfl, -, hc⟩ := hs.exists_quote
  rw [ht, hs.trimEnd_append, List.append_assoc] at h
  obtain ⟨p₁, u₁, rfl, hafter, hdense, hrest⟩ := h.split
  rw [hs.outside, List.append_nil, List.append_nil] at hrest
  obtain ⟨g, u₂, rfl, hg, -, hnext, hrest⟩ := hrest.next_kept (t := s ++ trimEnd q) hc
  have hinside : ∀ s₁ s₂, s = s₁ ++ s₂ →
      (OpenQuote.next none p.reverse c).after (c :: p.reverse) s₁ =
        OpenQuote.after none [] (p ++ c :: s₁) := by
    intro s₁ s₂ _
    rw [OpenQuote.after_append, hs.outside, List.append_nil, OpenQuote.after]
  obtain ⟨q', rfl, hsame⟩ := hrest.held fun s₁ s₂ hsplit hne => by
    rw [hinside s₁ s₂ hsplit]
    exact hs.inside (c :: s₁) s₂ (by rw [hsplit, List.cons_append]) (by simp) hne
  have hp₁ : OpenQuote.after none [] p₁ = none := hafter.trans hs.outside
  have houtside : OpenQuote.after none [] (p₁ ++ g) = none := by
    rw [OpenQuote.after_append, hp₁, OpenQuote.after_blank hg]
  have hkept : ∀ s₁ s₂, s = s₁ ++ s₂ →
      OpenQuote.after none [] (p₁ ++ g ++ c :: s₁) = OpenQuote.after none [] (p ++ c :: s₁) := by
    intro s₁ s₂ hsplit
    have hstart : (p₁ ++ g).reverse ++ [] = g.reverse ++ p₁.reverse := by simp
    rw [← hinside s₁ s₂ hsplit, ← hsame s₁ s₂ hsplit, OpenQuote.after_append, houtside, hstart,
      OpenQuote.after, hnext]
  refine ⟨p₁ ++ g, q', by simp, ⟨houtside, ?_, ?_, hs.long⟩, ?_⟩
  · intro s₁ s₂ hsplit hne₁ hne₂
    obtain ⟨d, s₁, rfl⟩ := List.exists_cons_of_ne_nil hne₁
    obtain ⟨rfl, hsplit'⟩ := List.cons.inj hsplit
    rw [hkept s₁ s₂ hsplit']
    exact hs.inside (c :: s₁) s₂ hsplit hne₁ hne₂
  · rw [hkept s [] (by simp)]
    exact hs.closed
  · rw [dense_append_blank hp₁ hg]
    exact hdense

theorem Respaced.parted (h : Respaced none [] [] (trimEnd t) u) {p w q : Text} {a b : Char}
    (ht : t = p ++ a :: (w ++ b :: q)) (hw : IsParted p a w b) :
    ∃ p' w' q', u = p' ++ a :: (w' ++ b :: q') ∧ IsParted p' a w' b ∧ dense p' = dense p := by
  have hend : trimEnd t = p ++ a :: (w ++ b :: trimEnd q) := by
    have hb : trimEnd (b :: q) ≠ [] := by simp [trimEnd_cons hw.right.1]
    have hfront : t = (p ++ a :: w) ++ b :: q := by simp [ht]
    rw [hfront, Text.trimEnd_append, if_neg hb, trimEnd_cons hw.right.1]
    simp
  rw [hend] at h
  obtain ⟨p₁, u₁, rfl, hafter, hdense, hrest⟩ := h.split
  rw [List.append_nil, List.append_nil] at hrest
  obtain ⟨g, u₂, rfl, hg, hopen, hnext, hrest⟩ := hrest.next_kept hw.left.1
  have hnone : (OpenQuote.after none [] p).next p.reverse a = none := by
    have houtside := hw.outside
    rwa [OpenQuote.after_append, OpenQuote.after, OpenQuote.after, List.append_nil] at houtside
  rw [hnone] at hrest
  obtain ⟨w', q', rfl, hw', hspaced, -, -⟩ := hrest.next_visible hw.blank hw.right.1
  have hfront : OpenQuote.after none [] (p₁ ++ g) = OpenQuote.after none [] p := by
    rw [OpenQuote.after_append, hafter, OpenQuote.after_blank hg]
  refine ⟨p₁ ++ g, w', q', by simp, ⟨?_, ?_, hw', hw.left, hw.right⟩, ?_⟩
  · rw [OpenQuote.after_append, hfront, OpenQuote.after, OpenQuote.after]
    have hstart : (p₁ ++ g).reverse ++ [] = g.reverse ++ p₁.reverse := by simp
    rw [hstart, hnext, hnone]
  · rintro rfl
    rcases hspaced with hsame | hbracket | hbracket
    · rw [endsWhite_blank hw.gap hw.blank] at hsame
      simp [endsWhite, hw.left.1] at hsame
    · exact hw.right.2 hbracket
    · have hlast : firstVisible? (w.reverse ++ a :: p.reverse) = some a := by
        rw [firstVisible?, List.find?_append, ← firstVisible?, firstVisible?_blank_reverse hw.blank]
        simp [hw.left.1]
      exact hw.left.2 (hbracket a hlast)
  · by_cases hquote : OpenQuote.after none [] p = none
    · rw [dense_append_blank (hafter.trans hquote) hg]
      exact hdense
    · rw [hopen hquote, List.append_nil]
      exact hdense

theorem Respaced.respaces (h : Respaced none [] [] (trimEnd t) u) : Respaces t u where
  dense_eq := by rw [dense, h.denseFrom_eq, denseFrom_trimEnd, dense]
  visible_eq := by
    have hdense : visible (denseFrom none [] u) = visible u := visible_denseFrom u
    rw [← hdense, h.denseFrom_eq, visible_denseFrom, visible_trimEnd]
  literal _ _ _ ht hs := h.literal ht hs
  parted _ _ _ _ _ ht hw := h.parted ht hw

end Stays

/-- Collapsing, tidying and normalizing edit white space outside literals and nothing else. -/
theorem normal_forms_respace (t : Text) :
    Respaces t (collapse t) ∧ Respaces t (tidy t) ∧ Respaces t (normalizeType t) :=
  ⟨(respaced_collapse t).respaces, (respaced_tidy t).respaces,
    (respaced_collapse t).respaces.trans (respaced_tidy (collapse t)).respaces⟩

end ComponentProps.Text
