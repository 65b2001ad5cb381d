import ComponentProps.Code.Split
import ComponentProps.Proofs.GroupExtents

/-!
# Walks over printed code

What the moves of a cursor do where the text ahead is known: they pass a space, read a name, read a
group whose inside is balanced, and capture flat text, which has neither brackets nor literals nor
comments. Flat text is split exactly at its separators.
-/

namespace ComponentProps

open Text

namespace Text

/-- A character of flat text. -/
def IsFlat (c : Char) : Prop := IsPlain c ∧ c ∉ bracketSigns

instance (c : Char) : Decidable (IsFlat c) := inferInstanceAs (Decidable (_ ∧ _))

theorem isFlat_of_isIdentChar {c : Char} (h : isIdentChar c = true) : IsFlat c :=
  ⟨isPlain_of_isIdentChar h, not_mem_of_kind h rfl⟩

end Text

namespace Cursor

variable {behind rest : Text} {c : Char}

/-! ### Spaces and names -/

theorem skipTrivia_visible (h : IsPlain c ∧ isWhite c = false) :
    skipTrivia ⟨behind, c :: rest⟩ = ⟨behind, c :: rest⟩ := by
  simp [skipTrivia, skipTriviaFrom, Region.read_plain h.1, h.2]

theorem skipTrivia_space (h : IsPlain c ∧ isWhite c = false) :
    skipTrivia ⟨behind, ' ' :: c :: rest⟩ = ⟨' ' :: behind, c :: rest⟩ := by
  have hspace : IsPlain ' ' ∧ isWhite ' ' = true := by decide
  simp [skipTrivia, skipTriviaFrom, Region.read_plain h.1, h.2, Region.read_plain hspace.1,
    hspace.2]

theorem skipTrivia_space_identifier (n : Identifier) :
    skipTrivia ⟨behind, ' ' :: (n.text ++ rest)⟩ = ⟨' ' :: behind, n.text ++ rest⟩ := by
  obtain ⟨c, more, htext, hstart, -⟩ := n.exists_cons
  have hc := isIdentChar_of_isIdentStart hstart
  rw [htext, List.cons_append]
  exact skipTrivia_space ⟨isPlain_of_isIdentChar hc, not_isWhite_of_isIdentChar hc⟩

theorem leadingWord_identifier (n : Identifier) (hr : SignFirst rest) :
    leadingWord (n.text ++ rest) = n.text := by
  rw [leadingWord_append hr, leadingWord, List.takeWhile_eq_self_iff]
  exact fun c hc => n.isIdentChar_of_mem hc

theorem advanceBy_length (behind t rest : Text) :
    advanceBy ⟨behind, t ++ rest⟩ t.length = ⟨t.reverse ++ behind, rest⟩ := by
  simp [advanceBy]

/-- The place behind the identifier characters that come next. -/
theorem advanceBy_leadingWord (behind t : Text) :
    advanceBy ⟨behind, t⟩ (leadingWord t).length =
      ⟨(leadingWord t).reverse ++ behind, t.dropWhile isIdentChar⟩ := by
  have hadvance := advanceBy_length behind (leadingWord t) (t.dropWhile isIdentChar)
  rwa [leadingWord_append_dropWhile] at hadvance

theorem readIdent?_identifier (n : Identifier) (hr : SignFirst rest) :
    readIdent? ⟨behind, n.text ++ rest⟩ = some (n.text, ⟨n.text.reverse ++ behind, rest⟩) := by
  obtain ⟨c, more, htext, hstart, -⟩ := n.exists_cons
  have hword := leadingWord_identifier n hr
  have hread : readIdent? ⟨behind, n.text ++ rest⟩ =
      some (leadingWord (n.text ++ rest), advanceBy ⟨behind, n.text ++ rest⟩
        (leadingWord (n.text ++ rest)).length) := by
    simp [readIdent?, htext, hstart]
  rw [hread, hword, advanceBy_length]

theorem atWord_identifier (n : Identifier) (hr : SignFirst rest) :
    atWord ⟨behind, n.text ++ rest⟩ n.text = true := by
  have hafter : after? n.text (n.text ++ rest) = some rest := by
    simp [after?]
  unfold atWord
  rw [hafter]
  cases rest with
  | nil => rfl
  | cons c rest => simpa using (hr c rfl).2.1

/-! ### Groups -/

section

variable {opening close : Char}

/-- Where no arrow can close a group, its level is the depth of its brackets. -/
theorem level?_signs (hclose : close ≠ '>') (region : Region) (depth : Nat) (behind t : Text) :
    GroupSign.level? depth (GroupSign.all opening close region behind t) =
      depthAfter? opening close depth (region.roles behind t) := by
  induction t generalizing region depth behind with
  | nil => rfl
  | cons c t ih =>
      obtain ⟨role, region', hread⟩ : ∃ role region', region.read behind c t = (role, region') :=
        ⟨_, _, rfl⟩
      have hnext := fun depth => ih region' depth (c :: behind)
      simp only [GroupSign.all, Region.roles, depthAfter?, hread]
      by_cases hrole : role = .code
      · by_cases hopen : c = opening
        · simpa [GroupSign.of?, GroupSign.level?, hrole, hopen] using hnext (depth + 1)
        · by_cases hc : c = close
          · subst hc
            have hsign : GroupSign.of? opening c role behind c = some .closes := by
              simp [GroupSign.of?, hrole, hopen, hclose]
            rw [hsign]
            cases depth with
            | zero => simp [GroupSign.level?, hrole, hopen]
            | succ depth => simpa [GroupSign.level?, hrole, hopen] using hnext depth
          · simpa [GroupSign.of?, hrole, hopen, hc] using hnext depth
      · simpa [GroupSign.of?, hrole] using hnext depth

theorem of?_close (hne : opening ≠ close ∧ close ≠ '>') (behind : Text) :
    GroupSign.of? opening close .code behind close = some .closes := by
  simp [GroupSign.of?, hne.1.symm, hne.2]

/-- A group is read up to the bracket that closes it. -/
theorem readGroup_balanced (hopen : IsSign opening) (hclose : IsSign close)
    (hne : opening ≠ close ∧ close ≠ '>') {t : Text} (hclosed : Region.code.after [] t = .code)
    (h : depthAfter? opening close 0 (Region.code.roles [] t) = some 0) :
    readGroup ⟨behind, opening :: (t ++ close :: rest)⟩ opening close =
      (t, ⟨close :: (t.reverse ++ opening :: behind), rest⟩) := by
  have hfirst : SignFirst (opening :: behind) := signFirst_cons behind hopen
  have hroles : Region.code.roles (opening :: behind) t = Region.code.roles [] t :=
    Region.roles_behind hfirst.not_escape .code [] t
  have hafter : Region.code.after (opening :: behind) t = .code :=
    (Region.after_behind hfirst.not_escape .code [] t).trans hclosed
  rw [← hroles, ← level?_signs hne.2] at h
  rw [readGroup_cons hopen, ← Nat.zero_add 1,
    groupFrom_signs (signFirst_cons rest hclose).endsSlash h, hafter, groupFrom_cons,
    Region.read_plain hclose.1]
  simp only [of?_close hne]
  simp [inFront]

end

/-! ### Captures -/

/-- Flat text is captured up to the first place where the capture stops. -/
theorem capture_flat {stop : Text → Cursor → Bool} {t : Text} (ht : ∀ d ∈ t, IsFlat d)
    (hgo : ∀ d ∈ t, ∀ taken behind rest, stop taken ⟨behind, d :: rest⟩ = false)
    (hc : IsPlain c) (hstop : stop t.reverse ⟨t.reverse ++ behind, c :: rest⟩ = true) :
    capture ⟨behind, t ++ c :: rest⟩ stop = (t, ⟨t.reverse ++ behind, c :: rest⟩) := by
  have hfrom : ∀ taken behind, stop (t.reverse ++ taken) ⟨t.reverse ++ behind, c :: rest⟩ = true →
      captureFrom stop .code .top taken behind (t ++ c :: rest) =
        (t, ⟨t.reverse ++ behind, c :: rest⟩) := by
    clear hstop
    induction t with
    | nil =>
        intro taken behind hstop
        simp only [List.reverse_nil, List.nil_append] at hstop ⊢
        simp [captureFrom, Region.read_plain hc, Nesting.isTop, Nesting.top, hstop]
    | cons d t ih =>
        intro taken behind hstop
        have hd := ht d List.mem_cons_self
        have hbracket := bracket_of_not_mem hd.2 behind
        have hnext := ih (fun e he => ht e (List.mem_cons_of_mem _ he))
          (fun e he => hgo e (List.mem_cons_of_mem _ he)) (d :: taken) (d :: behind)
          (by simpa using hstop)
        simp [captureFrom, Region.read_plain hd.1, hgo d List.mem_cons_self, hbracket,
          Nesting.trackChar, hnext]
  exact hfrom [] behind (by simpa using hstop)

end Cursor

/-! ### Parts -/

namespace Text

theorem piecesFrom_flat {separators : List Char} {t : Text} (ht : ∀ c ∈ t, IsFlat c)
    (behind : Text) :
    piecesFrom separators .code .top behind t = t.splitOnP separators.contains := by
  induction t generalizing behind with
  | nil => rfl
  | cons c t ih =>
      have hc := ht c List.mem_cons_self
      have hnext := ih (fun d hd => ht d (List.mem_cons_of_mem _ hd)) (c :: behind)
      have hfirst : consFirst c (t.splitOnP separators.contains) =
          (t.splitOnP separators.contains).modifyHead (List.cons c) := by
        obtain ⟨part, parts, hcons⟩ :=
          List.exists_cons_of_ne_nil (List.splitOnP_ne_nil separators.contains t)
        rw [hcons]
        rfl
      have hbracket := bracket_of_not_mem hc.2 behind
      simp only [piecesFrom, Region.read_plain hc.1, hbracket, hnext,
        List.splitOnP_cons_eq_if_modifyHead, hfirst]
      rfl

theorem topLevelParts_flat {separators : List Char} {t : Text} (ht : ∀ c ∈ t, IsFlat c) :
    topLevelParts separators t = (t.splitOnP separators.contains).filterMap trimmed? := by
  rw [topLevelParts, pieces, piecesFrom_flat ht]

end Text

end ComponentProps
