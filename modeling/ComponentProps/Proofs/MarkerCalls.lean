import ComponentProps.Proofs.DefaultSpacing
import ComponentProps.Proofs.GroupReading

/-!
# Calls of the marker

A default value is bindable if it is a call of the marker from its first character to its last,
white space and comments aside. Main statement: the values that count as calls of the marker are
exactly those of this form.
-/

namespace ComponentProps

open Text

theorem unwrapMarker?_append (marker rest : Text) :
    unwrapMarker? marker (marker ++ rest) = (Cursor.ofText rest).skipTrivia.callInside? := by
  have hafter : after? marker (marker ++ rest) = some rest := by
    simp [after?]
  rw [unwrapMarker?_eq, hafter]
  rfl

/-- A bracket behind trivia is where a call starts. -/
theorem skipTrivia_trivia_open (w : Trivia) (rest : Text) :
    (Cursor.ofText (w.text ++ '(' :: rest)).skipTrivia = ⟨w.text.reverse, '(' :: rest⟩ := by
  have hskip := w.skipTrivia_append [] ('(' :: rest)
  rw [List.append_nil, Cursor.skipTrivia_visible (by decide)] at hskip
  exact hskip

/-- Whether a bracketed text at the cursor is a call depends on what follows it. -/
theorem callInside?_group {g : Text} (hg : IsGroup '(' ')' g) (behind rest : Text) :
    Cursor.callInside? ⟨behind, '(' :: (g ++ ')' :: rest)⟩ =
      if (Cursor.skipTrivia ⟨')' :: (g.reverse ++ '(' :: behind), rest⟩).atEnd then some (trim g)
      else none := by
  have hgroup : Cursor.readGroup ⟨behind, '(' :: (g ++ ')' :: rest)⟩ '(' ')' =
      (g, ⟨')' :: (g.reverse ++ '(' :: behind), rest⟩) :=
    Cursor.readGroup_balanced (by decide) (by decide) (by decide) hg.closed hg.nested
  simp only [Cursor.callInside?, hgroup]
  rfl

theorem callInside?_cases {behind ahead x : Text}
    (h : Cursor.callInside? ⟨behind, ahead⟩ = some x) :
    ∃ g r, ahead = '(' :: (g ++ r) ∧ x = trim g ∧
      ((IsGroup '(' ')' g ∧ ∃ after, r = ')' :: after ∧ IsTrailing after) ∨
        (IsOpenGroup '(' ')' g ∧ r = [])) := by
  unfold Cursor.callInside? at h
  split at h
  · rename_i hopen
    obtain ⟨t, rfl⟩ : ∃ t, ahead = '(' :: t := List.head?_eq_some_iff.mp hopen
    split at h
    · rename_i hend
      have hx := Option.some.inj h
      rcases Cursor.readGroup_cases (by decide : IsSign '(') (by decide : IsSign ')') (by decide)
        (by decide) behind t with ⟨g, after, rfl, hg, hread⟩ | ⟨hg, hread⟩
      · rw [hread] at hend hx
        exact ⟨g, ')' :: after, rfl, hx.symm, .inl ⟨hg, after, rfl,
          Cursor.isTrailing_of_skipTrivia_atEnd hend⟩⟩
      · rw [hread] at hx
        exact ⟨t, [], by rw [List.append_nil], hx.symm, .inr ⟨hg, rfl⟩⟩
    · contradiction
  · contradiction

/-- A value is a call of the marker if and only if the marker, trivia and one bracketed group make
up the whole of it, up to trivia at the end. A group that is never closed runs to the end of the
value. What the call holds is the text of the group. -/
theorem unwrapMarker?_call_iff (marker : Text) :
    (∀ (w₁ w₂ : Trivia) (inner : Text), IsGroup '(' ')' inner →
      unwrapMarker? marker (marker ++ (w₁.text ++ '(' :: (inner ++ ')' :: w₂.text))) =
          some (trim inner) ∧
        ∀ c more, isWhite c = false → Region.comment? c more = none →
          unwrapMarker? marker
            (marker ++ (w₁.text ++ '(' :: (inner ++ ')' :: (w₂.text ++ c :: more)))) = none) ∧
      ∀ value x, unwrapMarker? marker value = some x →
        ∃ (w : Trivia) (g r : Text), value = marker ++ (w.text ++ '(' :: (g ++ r)) ∧ x = trim g ∧
          ((IsGroup '(' ')' g ∧ ∃ after, r = ')' :: after ∧ IsTrailing after) ∨
            (IsOpenGroup '(' ')' g ∧ r = [])) := by
  refine ⟨fun w₁ w₂ inner hinner => ⟨?_, fun c more hc hcomment => ?_⟩, fun value x h => ?_⟩
  · rw [unwrapMarker?_append, skipTrivia_trivia_open, callInside?_group hinner,
      if_pos (Cursor.skipTrivia_atEnd_of_isTrailing (.closed w₂) _)]
  · have hvisible : BeginsVisibly (c :: more) := by
      rintro d rest hcons
      obtain ⟨rfl, rfl⟩ := List.cons.inj hcons
      exact ⟨hc, hcomment⟩
    rw [unwrapMarker?_append, skipTrivia_trivia_open, callInside?_group hinner,
      w₂.skipTrivia_append, Cursor.skipTrivia_of_beginsVisibly hvisible]
    rfl
  · rw [unwrapMarker?_eq, Option.bind_eq_some_iff] at h
    obtain ⟨rest, hrest, hinside⟩ := h
    obtain rfl : value = marker ++ rest := eq_append_of_after? hrest
    have hpass : Cursor.PassesTrivia [] rest (Cursor.ofText rest).skipTrivia :=
      Cursor.passesTrivia_skipTrivia [] rest
    generalize (Cursor.ofText rest).skipTrivia = stop at hinside hpass
    cases hpass with
    | visible w _ =>
        obtain ⟨g, r, rfl, hx, hend⟩ := callInside?_cases hinside
        exact ⟨w, g, r, rfl, hx, hend⟩
    | comment w c => contradiction

/-- Quotes and comments hide brackets, and an operator behind the call is no trivia. -/
theorem unwrapMarker?_nested_call :
    IsGroup '(' ')' " f(')', 1 /* ( */) ".toList ∧
      unwrapMarker? "$bindable".toList "$bindable/* a */( f(')', 1 /* ( */) ) // b\n".toList =
        some "f(')', 1 /* ( */)".toList ∧
      unwrapMarker? "$bindable".toList "$bindable/* a */( f(')', 1 /* ( */) ) // b\n?? c".toList =
        none ∧
      ∃ (w : Trivia) (g r : Text),
        "$bindable/* a */( f(')', 1 /* ( */) ) // b\n".toList =
            "$bindable".toList ++ (w.text ++ '(' :: (g ++ r)) ∧
          "f(')', 1 /* ( */)".toList = trim g ∧
          ((IsGroup '(' ')' g ∧ ∃ after, r = ')' :: after ∧ IsTrailing after) ∨
            (IsOpenGroup '(' ')' g ∧ r = [])) := by
  have hgroup : IsGroup '(' ')' " f(')', 1 /* ( */) ".toList := by decide +kernel
  obtain ⟨hcall, hback⟩ := unwrapMarker?_call_iff "$bindable".toList
  obtain ⟨hsome, hnone⟩ := hcall ⟨[(⟨[], rfl⟩, .block " a ".toList (by decide))], ⟨[], rfl⟩⟩
    ⟨[(⟨[' '], rfl⟩, .line " b".toList (by decide))], ⟨[], rfl⟩⟩ " f(')', 1 /* ( */) ".toList hgroup
  have htrim : trim " f(')', 1 /* ( */) ".toList = "f(')', 1 /* ( */)".toList := by decide +kernel
  rw [htrim] at hsome
  exact ⟨hgroup, hsome, hnone '?' "? c".toList (by decide) (by decide), hback _ _ hsome⟩

end ComponentProps
