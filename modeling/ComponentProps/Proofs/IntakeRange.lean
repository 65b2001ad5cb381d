import ComponentProps.Proofs.GroupReading
import ComponentProps.Proofs.Surroundings

/-!
# The range of the intake statement

The intake statement is read from its keyword to the bracket that closes its call. No look back
leaves the keyword, and the looks ahead, at the next character or the one after it, end at the
closing bracket. The text of the range alone is therefore read as it is read in its script. Main
statement: the range is a slice of the script that begins with a keyword and holds the pattern in
curly brackets, and the slice has the same intake statement from its start to its end.
-/

namespace ComponentProps

open Text

namespace Region

/-- The role of a character depends on the next one only. -/
theorem read_ahead {t : Text} (ht : t ≠ []) (region : Region) (behind : Text) (c : Char)
    (z : Text) : region.read behind c (t ++ z) = region.read behind c t := by
  cases t with
  | nil => contradiction
  | cons d t => cases region <;> rfl

end Region

namespace Cursor

/-! ### Moves forward -/

/-- The second place lies further on in the same text, or it is the first one. -/
inductive Moves : Cursor → Cursor → Prop
  | mk (behind passed ahead : Text) :
      Moves ⟨behind, passed ++ ahead⟩ ⟨passed.reverse ++ behind, ahead⟩

namespace Moves

theorem refl (c : Cursor) : Moves c c := .mk c.behind [] c.ahead

theorem trans {c d e : Cursor} (h : Moves c d) (h' : Moves d e) : Moves c e := by
  obtain ⟨behind, passed, ahead⟩ := h
  obtain ⟨-, passed', ahead'⟩ := h'
  have hmove := Moves.mk behind (passed ++ passed') ahead'
  rwa [List.append_assoc, List.reverse_append, List.append_assoc] at hmove

theorem cons {behind ahead : Text} {x : Char} {d : Cursor} (h : Moves ⟨x :: behind, ahead⟩ d) :
    Moves ⟨behind, x :: ahead⟩ d :=
  trans (.mk behind [x] ahead) h

theorem exists_passed {c d : Cursor} (h : Moves c d) :
    ∃ passed, c.ahead = passed ++ d.ahead ∧ d = ⟨passed.reverse ++ c.behind, d.ahead⟩ := by
  obtain ⟨behind, passed, ahead⟩ := h
  exact ⟨passed, rfl, rfl⟩

theorem length_le {c d : Cursor} (h : Moves c d) : d.ahead.length ≤ c.ahead.length := by
  obtain ⟨behind, passed, ahead⟩ := h
  simp

end Moves

theorem moves_advance (c : Cursor) : Moves c c.advance := by
  obtain ⟨behind, ahead⟩ := c
  cases ahead with
  | nil => exact .refl _
  | cons x rest => exact .cons (.refl _)

theorem moves_advanceBy (c : Cursor) (n : Nat) : Moves c (c.advanceBy n) := by
  have hmove := Moves.mk c.behind (c.ahead.take n) (c.ahead.drop n)
  rwa [List.take_append_drop] at hmove

theorem moves_skipTrivia (c : Cursor) : Moves c c.skipTrivia := by
  have hfrom : ∀ region behind ahead,
      Moves ⟨behind, ahead⟩ (skipTriviaFrom region behind ahead) := by
    intro region behind ahead
    induction ahead generalizing region behind with
    | nil => exact .refl _
    | cons x rest ih =>
        rw [skipTriviaFrom]
        split
        · exact .cons (ih _ _)
        · split
          · exact .cons (ih _ _)
          · exact .refl _
        · exact .refl _
  exact hfrom .code c.behind c.ahead

theorem moves_readGroup (c : Cursor) (opening close : Char) :
    Moves c (c.readGroup opening close).2 := by
  have hfrom : ∀ region depth behind ahead,
      Moves ⟨behind, ahead⟩ (groupFrom opening close region depth behind ahead).2 := by
    intro region depth behind ahead
    induction ahead generalizing region depth behind with
    | nil => exact .refl _
    | cons x rest ih =>
        rw [groupFrom]
        split
        · split
          · exact .cons (ih _ _ _)
          · split
            · split
              · exact .cons (.refl _)
              · exact .cons (ih _ _ _)
            · exact .cons (ih _ _ _)
        · exact .cons (ih _ _ _)
  exact hfrom .code 0 c.behind c.ahead

theorem moves_capture (c : Cursor) (stop : Text → Cursor → Bool) : Moves c (c.capture stop).2 := by
  have hfrom : ∀ region nesting taken behind ahead,
      Moves ⟨behind, ahead⟩ (captureFrom stop region nesting taken behind ahead).2 := by
    intro region nesting taken behind ahead
    induction ahead generalizing region nesting taken behind with
    | nil => exact .refl _
    | cons x rest ih =>
        rw [captureFrom]
        split
        · split
          · exact .refl _
          · split
            · exact .refl _
            · exact .cons (ih _ _ _ _)
        · exact .cons (ih _ _ _ _)
  exact hfrom .code .top [] c.behind c.ahead

/-- A relation between the places before and after the moves of a reader: over trivia, a plain
character, a word, a group and what is captured. -/
structure IsCourse (r : Cursor → Cursor → Prop) : Prop where
  refl (c : Cursor) : r c c
  trans {c d e : Cursor} : r c d → r d e → r c e
  skipTrivia (c : Cursor) : r c c.skipTrivia
  advance {c : Cursor} {x : Char} : c.current? = some x → IsPlain x → r c c.advance
  atWord {c : Cursor} {word : Text} :
    c.atWord word = true → (∀ d ∈ word, IsPlain d) → r c (c.advanceBy word.length)
  leadingWord (c : Cursor) : r c (c.advanceBy (leadingWord c.ahead).length)
  readGroup (c : Cursor) (opening close : Char) : r c (c.readGroup opening close).2
  capture (c : Cursor) (stop : Text → Cursor → Bool) : r c (c.capture stop).2

namespace IsCourse

variable {r : Cursor → Cursor → Prop} (hr : IsCourse r) {c d : Cursor} {p : Text × Cursor}
  {call : Text}

include hr

theorem readIdent? (h : c.readIdent? = some p) : r c p.2 := by
  unfold Cursor.readIdent? at h
  split at h
  · contradiction
  · split at h
    · obtain rfl := Option.some.inj h
      exact hr.leadingWord c
    · contradiction

theorem readPattern? (h : Intake.readPattern? c = some p) : r c p.2 := by
  unfold Intake.readPattern? at h
  dsimp only at h
  split at h
  · rw [← Option.some.inj h]
    exact hr.trans (hr.skipTrivia c) (hr.readGroup _ _ _)
  · contradiction

theorem readAscription (c : Cursor) : r c (Intake.readAscription c).2 := by
  unfold Intake.readAscription
  dsimp only
  split
  · rename_i hcolon
    exact hr.trans (hr.skipTrivia c) (hr.trans (hr.advance hcolon (by decide)) (hr.capture _ _))
  · exact hr.skipTrivia c

theorem passCallName? (hcall : ∀ c, c.atWord call = true → r c (c.advanceBy call.length))
    (h : Intake.passCallName? call c = some d) : r c d := by
  unfold Intake.passCallName? at h
  dsimp only at h
  split_ifs at h with hassign hword
  rw [← Option.some.inj h]
  exact hr.trans (hr.advance hassign (by decide)) (hr.trans (hr.skipTrivia _)
    (hr.trans (hcall _ hword) (hr.skipTrivia _)))

theorem readArgument (c : Cursor) : r c (Intake.readArgument c).2 := by
  unfold Intake.readArgument
  split
  · exact hr.trans (hr.readGroup c _ _) (hr.skipTrivia _)
  · exact hr.refl c

theorem passArguments? (h : Intake.passArguments? c = some d) : r c d := by
  unfold Intake.passArguments? at h
  split at h
  · rw [← Option.some.inj h]
    exact hr.readGroup c _ _
  · contradiction

end IsCourse

theorem isCourse_moves : IsCourse Moves where
  refl := .refl
  trans := .trans
  skipTrivia := moves_skipTrivia
  advance _ _ := moves_advance _
  atWord _ _ := moves_advanceBy _ _
  leadingWord _ := moves_advanceBy _ _
  readGroup := moves_readGroup
  capture := moves_capture

/-- The next word stands in the text from its first character to its last, and no identifier goes on
behind it. -/
theorem nextWord?_cases {c : Cursor} {w : Word} (h : c.nextWord? = some w) :
    ∃ behind rest, w.start = ⟨behind, w.text ++ rest⟩ ∧ w.stop = ⟨w.text.reverse ++ behind, rest⟩ ∧
      EndsWord rest ∧ Moves c w.start := by
  have hfrom : ∀ region behind ahead, nextWordFrom? region behind ahead = some w →
      w.stop = w.start.advanceBy w.text.length ∧ w.text = leadingWord w.start.ahead ∧
        Moves ⟨behind, ahead⟩ w.start := by
    intro region behind ahead hword
    induction ahead generalizing region behind with
    | nil => contradiction
    | cons x rest ih =>
        have hlater : ∀ region', nextWordFrom? region' (x :: behind) rest = some w →
            w.stop = w.start.advanceBy w.text.length ∧ w.text = leadingWord w.start.ahead ∧
              Moves ⟨behind, x :: rest⟩ w.start := fun region' hword' =>
          let ⟨hstop, htext, hmove⟩ := ih region' (x :: behind) hword'
          ⟨hstop, htext, hmove.cons⟩
        rw [nextWordFrom?] at hword
        split at hword
        · split at hword
          · obtain rfl := Option.some.inj hword
            exact ⟨rfl, rfl, .refl _⟩
          · exact hlater _ hword
        · exact hlater _ hword
  obtain ⟨hstop, htext, hmove⟩ := hfrom .code c.behind c.ahead h
  refine ⟨w.start.behind, w.start.ahead.dropWhile isIdentChar, ?_, ?_, ?_, hmove⟩
  · rw [htext, leadingWord_append_dropWhile]
  · rw [hstop, htext, advanceBy_leadingWord]
  · intro d hd
    have hnot := List.head?_dropWhile_not isIdentChar w.start.ahead
    rw [hd] at hnot
    simpa using hnot

/-! ### The end of a text cut off -/

/-- The second place is the first one in a text that ends before `z`. -/
inductive CutOff (z : Text) : Cursor → Cursor → Prop
  | mk (behind ahead : Text) : CutOff z ⟨behind, ahead ++ z⟩ ⟨behind, ahead⟩

/-- The same was read, and the place after it is the same in the text cut off. -/
def ReadsCutOff {α : Type} (z : Text) (p p' : α × Cursor) : Prop :=
  p.1 = p'.1 ∧ CutOff z p.2 p'.2

/-- Two characters at least stand between the place and `z`, so that no look ahead from there comes
to `z`. -/
def IsClear (z : Text) (c : Cursor) : Prop := z.length + 2 ≤ c.ahead.length

variable {z : Text} {c c' d : Cursor}

theorem IsClear.of_moves (h : IsClear z d) (hmove : Moves c d) : IsClear z c :=
  Nat.le_trans h hmove.length_le

/-- Where the place is clear of the end, two characters of the text before the end come next. -/
theorem IsClear.exists_cons {behind ahead : Text} (h : IsClear z ⟨behind, ahead ++ z⟩) :
    ∃ x y t, ahead = x :: y :: t := by
  have hlength : 2 ≤ ahead.length := by
    have hclear : z.length + 2 ≤ (ahead ++ z).length := h
    rw [List.length_append] at hclear
    omega
  match ahead, hlength with
  | x :: y :: t, _ => exact ⟨x, y, t, rfl⟩

theorem IsClear.read {behind rest : Text} {x : Char} (h : IsClear z ⟨behind, x :: rest ++ z⟩)
    (region : Region) : region.read behind x (rest ++ z) = region.read behind x rest := by
  obtain ⟨x', y, t, hcons⟩ := h.exists_cons
  have hrest : rest ≠ [] := by simp [(List.cons.inj hcons).2]
  exact Region.read_ahead hrest region behind x z

theorem CutOff.eq_of_ahead (hc : CutOff z c c') (h : c.ahead = z) : c' = ⟨c.behind, []⟩ := by
  obtain ⟨behind, ahead⟩ := hc
  obtain rfl : ahead = [] := by simpa using h
  rfl

theorem CutOff.current? (hc : CutOff z c c') (h : IsClear z c) : c.current? = c'.current? := by
  obtain ⟨behind, ahead⟩ := hc
  obtain ⟨x, y, t, rfl⟩ := h.exists_cons
  rfl

theorem CutOff.advance (hc : CutOff z c c') (h : IsClear z c) : CutOff z c.advance c'.advance := by
  obtain ⟨behind, ahead⟩ := hc
  obtain ⟨x, y, t, rfl⟩ := h.exists_cons
  exact .mk (x :: behind) (y :: t)

theorem CutOff.advanceBy {n : Nat} (hc : CutOff z c c') (h : IsClear z (c.advanceBy n)) :
    CutOff z (c.advanceBy n) (c'.advanceBy n) := by
  obtain ⟨behind, ahead⟩ := hc
  have hclear : z.length + 2 ≤ ((ahead ++ z).drop n).length := h
  have hwithin : n ≤ ahead.length := by
    rw [List.length_drop, List.length_append] at hclear
    omega
  simp only [Cursor.advanceBy, List.take_append_of_le_length hwithin,
    List.drop_append_of_le_length hwithin]
  exact .mk _ _

theorem CutOff.atWord {word : Text} (hc : CutOff z c c') (h : IsClear z (c.advanceBy word.length))
    (hword : c.atWord word = true) : c'.atWord word = true := by
  obtain ⟨behind, ahead⟩ := hc
  unfold Cursor.atWord at hword ⊢
  generalize hafter : after? word (ahead ++ z) = found at hword
  cases found with
  | none => contradiction
  | some rest =>
      have hsplit : ahead ++ z = word ++ rest := eq_append_of_after? hafter
      have hrest : (Cursor.advanceBy ⟨behind, ahead ++ z⟩ word.length).ahead = rest := by
        simp [Cursor.advanceBy, hsplit]
      obtain ⟨t, rfl, rfl⟩ : ∃ t, ahead = word ++ t ∧ rest = t ++ z := by
        have hlong : z.length + 2 ≤ rest.length := hrest ▸ h
        rcases List.append_eq_append_iff.mp hsplit with ⟨t, rfl, hz⟩ | ⟨t, rfl, rfl⟩
        · rw [hz, List.length_append] at hlong
          omega
        · exact ⟨t, rfl, rfl⟩
      have hclear : IsClear z ⟨word.reverse ++ behind, t ++ z⟩ := by
        rwa [IsClear, hrest] at h
      obtain ⟨x, y, t, rfl⟩ := hclear.exists_cons
      have hback : after? word (word ++ x :: y :: t) = some (x :: y :: t) := by
        simp [after?]
      rw [hback]
      exact hword

theorem CutOff.skipTrivia (hc : CutOff z c c') (h : IsClear z c.skipTrivia) :
    CutOff z c.skipTrivia c'.skipTrivia := by
  have hfrom : ∀ region behind ahead, IsClear z (skipTriviaFrom region behind (ahead ++ z)) →
      CutOff z (skipTriviaFrom region behind (ahead ++ z))
        (skipTriviaFrom region behind ahead) := by
    intro region behind ahead h
    induction ahead generalizing region behind with
    | nil => exact absurd (length_skipTriviaFrom_le region behind z) (by simp [IsClear] at h; omega)
    | cons x rest ih =>
        have hclear : IsClear z ⟨behind, x :: rest ++ z⟩ :=
          Nat.le_trans h (length_skipTriviaFrom_le region behind (x :: rest ++ z))
        simp only [List.cons_append, skipTriviaFrom, hclear.read region] at h ⊢
        split
        · rename_i hrole
          simp only [hrole] at h
          exact ih _ _ h
        · rename_i hrole
          simp only [hrole] at h
          split
          · rename_i hwhite
            rw [if_pos hwhite] at h
            exact ih _ _ h
          · exact .mk behind (x :: rest)
        · exact .mk behind (x :: rest)
  obtain ⟨behind, ahead⟩ := hc
  exact hfrom .code behind ahead h

theorem groupFrom_cutOff {opening close : Char} {region : Region} {depth : Nat}
    {behind ahead : Text}
    (h : IsClear z (groupFrom opening close region depth behind (ahead ++ z)).2) :
    ReadsCutOff z (groupFrom opening close region depth behind (ahead ++ z))
      (groupFrom opening close region depth behind ahead) := by
  induction ahead generalizing region depth behind with
  | nil =>
      have hshort := length_groupFrom_le opening close region depth behind z
      exact absurd hshort (by simp [IsClear] at h; omega)
  | cons x rest ih =>
      have hclear : IsClear z ⟨behind, x :: rest ++ z⟩ :=
        Nat.le_trans h (length_groupFrom_le opening close region depth behind (x :: rest ++ z))
      -- A character that is kept is kept in front of what is read alike.
      have hkeep : ∀ region' depth',
          IsClear z (groupFrom opening close region' depth' (x :: behind) (rest ++ z)).2 →
          ReadsCutOff z
            (inFront [x] (groupFrom opening close region' depth' (x :: behind) (rest ++ z)))
            (inFront [x] (groupFrom opening close region' depth' (x :: behind) rest)) :=
        fun region' depth' h' => ⟨congrArg (x :: ·) (ih h').1, (ih h').2⟩
      simp only [List.cons_append, groupFrom, hclear.read region] at h ⊢
      generalize region.read behind x rest = read at h ⊢
      obtain ⟨role, region'⟩ := read
      cases role with
      | literal | comment => exact hkeep region' depth h
      | code =>
          dsimp only at h ⊢
          split
          · rename_i hopen
            rw [if_pos hopen] at h
            exact hkeep _ _ h
          · rename_i hopen
            rw [if_neg hopen] at h
            split
            · rename_i hclose
              rw [if_pos hclose] at h
              split
              · exact ⟨rfl, .mk (x :: behind) rest⟩
              · rename_i hdeep
                rw [if_neg hdeep] at h
                exact hkeep _ _ h
            · rename_i hclose
              rw [if_neg hclose] at h
              exact hkeep _ _ h

theorem CutOff.readGroup {opening close : Char} (hc : CutOff z c c')
    (h : IsClear z (c.readGroup opening close).2) :
    ReadsCutOff z (c.readGroup opening close) (c'.readGroup opening close) := by
  obtain ⟨behind, ahead⟩ := hc
  obtain ⟨htext, hplace⟩ : ReadsCutOff z (groupFrom opening close .code 0 behind (ahead ++ z))
      (groupFrom opening close .code 0 behind ahead) := groupFrom_cutOff h
  exact ⟨congrArg (List.drop 1) htext, hplace⟩

theorem captureFrom_cutOff {stop : Text → Cursor → Bool}
    (hstop : ∀ taken behind x y t, stop taken ⟨behind, x :: y :: (t ++ z)⟩ =
      stop taken ⟨behind, x :: y :: t⟩)
    {region : Region} {nesting : Nesting} {taken behind ahead : Text}
    (h : IsClear z (captureFrom stop region nesting taken behind (ahead ++ z)).2) :
    ReadsCutOff z (captureFrom stop region nesting taken behind (ahead ++ z))
      (captureFrom stop region nesting taken behind ahead) := by
  induction ahead generalizing region nesting taken behind with
  | nil =>
      have hshort := length_captureFrom_le stop region nesting taken behind z
      exact absurd hshort (by simp [IsClear] at h; omega)
  | cons x rest ih =>
      have hclear : IsClear z ⟨behind, x :: rest ++ z⟩ :=
        Nat.le_trans h (length_captureFrom_le stop region nesting taken behind (x :: rest ++ z))
      have hhere : stop taken ⟨behind, x :: (rest ++ z)⟩ = stop taken ⟨behind, x :: rest⟩ := by
        obtain ⟨x', y, t, hcons⟩ := hclear.exists_cons
        obtain ⟨-, rfl⟩ := List.cons.inj hcons
        exact hstop taken behind x y t
      have hkeep : ∀ region' nesting',
          IsClear z (captureFrom stop region' nesting' (x :: taken) (x :: behind) (rest ++ z)).2 →
          ReadsCutOff z
            (inFront [x] (captureFrom stop region' nesting' (x :: taken) (x :: behind) (rest ++ z)))
            (inFront [x] (captureFrom stop region' nesting' (x :: taken) (x :: behind) rest)) :=
        fun region' nesting' h' => ⟨congrArg (x :: ·) (ih h').1, (ih h').2⟩
      simp only [List.cons_append, captureFrom, hclear.read region, hhere] at h ⊢
      generalize region.read behind x rest = read at h ⊢
      obtain ⟨role, region'⟩ := read
      cases role with
      | literal | comment => exact hkeep region' nesting h
      | code =>
          dsimp only at h ⊢
          split
          · exact ⟨rfl, .mk behind (x :: rest)⟩
          · rename_i hgo
            rw [if_neg hgo] at h
            split
            · exact ⟨rfl, .mk behind (x :: rest)⟩
            · rename_i hinside
              rw [if_neg hinside] at h
              exact hkeep _ _ h

/-- A capture whose end depends on two characters ends alike. -/
theorem CutOff.capture {stop : Text → Cursor → Bool} (hc : CutOff z c c')
    (hstop : ∀ taken behind x y t, stop taken ⟨behind, x :: y :: (t ++ z)⟩ =
      stop taken ⟨behind, x :: y :: t⟩)
    (h : IsClear z (c.capture stop).2) : ReadsCutOff z (c.capture stop) (c'.capture stop) := by
  obtain ⟨behind, ahead⟩ := hc
  exact captureFrom_cutOff hstop h

end Cursor

/-! ### The intake statement -/

namespace Intake

open Cursor

variable {z call : Text} {c c' d : Cursor}

theorem endsAscription_cutOff (taken behind : Text) (x y : Char) (t z : Text) :
    endsAscription taken ⟨behind, x :: y :: (t ++ z)⟩ =
      endsAscription taken ⟨behind, x :: y :: t⟩ := by
  by_cases hend : x = ';'
  · subst hend
    rfl
  by_cases hassign : x = '='
  · subst hassign
    rfl
  · simp [endsAscription, hend, hassign]

theorem moves_passCallName? (h : passCallName? call c = some d) : Moves c d :=
  isCourse_moves.passCallName? (fun c _ => moves_advanceBy c _) h

theorem readPattern?_cutOff {p : Text × Cursor} (hc : CutOff z c c') (h : readPattern? c = some p)
    (hclear : IsClear z p.2) : ∃ p', readPattern? c' = some p' ∧ ReadsCutOff z p p' := by
  unfold readPattern? at h ⊢
  dsimp only at h ⊢
  split at h
  · rename_i hopen
    obtain rfl := Option.some.inj h
    have hskip := hclear.of_moves (moves_readGroup _ _ _)
    have hplace := hc.skipTrivia hskip
    rw [hplace.current? hskip] at hopen
    exact ⟨_, if_pos hopen, hplace.readGroup hclear⟩
  · contradiction

theorem readAscription_cutOff (hc : CutOff z c c') (hclear : IsClear z (readAscription c).2) :
    ReadsCutOff z (readAscription c) (readAscription c') := by
  have hskip : IsClear z c.skipTrivia := by
    unfold readAscription at hclear
    dsimp only at hclear
    split at hclear
    · exact hclear.of_moves ((moves_advance _).trans (moves_capture _ _))
    · exact hclear
  have hplace := hc.skipTrivia hskip
  unfold readAscription at hclear ⊢
  dsimp only at hclear ⊢
  rw [← hplace.current? hskip]
  split
  · rename_i hcolon
    rw [if_pos hcolon] at hclear
    obtain ⟨htext, hend⟩ := (hplace.advance hskip).capture
      (fun taken behind x y t => endsAscription_cutOff taken behind x y t z) hclear
    exact ⟨congrArg trimmed? htext, hend⟩
  · exact ⟨rfl, hplace⟩

theorem passCallName?_cutOff (hc : CutOff z c c') (h : passCallName? call c = some d)
    (hclear : IsClear z d) : ∃ d', passCallName? call c' = some d' ∧ CutOff z d d' := by
  have hstart := hclear.of_moves (moves_passCallName? h)
  unfold passCallName? at h ⊢
  dsimp only at h ⊢
  rw [← hc.current? hstart]
  split at h
  · rename_i hassign
    split at h
    · rename_i hword
      obtain rfl := Option.some.inj h
      have hname := hclear.of_moves (moves_skipTrivia _)
      have hskip := hname.of_moves (moves_advanceBy _ _)
      have hplace := (hc.advance hstart).skipTrivia hskip
      refine ⟨_, ?_, (hplace.advanceBy hname).skipTrivia hclear⟩
      rw [if_pos hassign, if_pos (hplace.atWord hname hword)]
    · contradiction
  · contradiction

theorem readArgument_cutOff (hc : CutOff z c c') (hclear : IsClear z (readArgument c).2) :
    ReadsCutOff z (readArgument c) (readArgument c') := by
  have hstart := hclear.of_moves (isCourse_moves.readArgument c)
  unfold readArgument at hclear ⊢
  rw [← hc.current? hstart]
  split
  · rename_i hopen
    rw [if_pos hopen] at hclear
    obtain ⟨htext, hplace⟩ := hc.readGroup (hclear.of_moves (moves_skipTrivia _))
    exact ⟨congrArg trimmed? htext, hplace.skipTrivia hclear⟩
  · exact ⟨rfl, hc⟩

/-- The arguments of a call end at a bracket unless they end the text. -/
theorem passArguments?_cases (h : passArguments? c = some d) (hd : d.ahead ≠ []) :
    ∃ g, IsGroup '(' ')' g ∧ c = ⟨c.behind, '(' :: (g ++ ')' :: d.ahead)⟩ := by
  obtain ⟨behind, ahead⟩ := c
  unfold passArguments? at h
  split at h
  · rename_i hopen
    obtain ⟨t, rfl⟩ : ∃ t, ahead = '(' :: t := List.head?_eq_some_iff.mp hopen
    obtain rfl := Option.some.inj h
    rcases readGroup_cases (by decide : IsSign '(') (by decide : IsSign ')') (by decide) (by decide)
      behind t with ⟨g, rest, rfl, hg, hread⟩ | ⟨-, hread⟩
    · rw [hread]
      exact ⟨g, hg, rfl⟩
    · rw [hread] at hd
      contradiction
  · contradiction

theorem passArguments?_cutOff (hc : CutOff d.ahead c c') (h : passArguments? c = some d)
    (hd : d.ahead ≠ []) : ∃ d', passArguments? c' = some d' ∧ CutOff d.ahead d d' := by
  obtain ⟨g, hg, hsplit⟩ := passArguments?_cases h hd
  generalize hz : d.ahead = z at hc hsplit ⊢
  obtain ⟨behind, ahead⟩ := hc
  have hahead : ahead ++ z = '(' :: (g ++ ')' :: z) := congrArg Cursor.ahead hsplit
  obtain rfl : ahead = '(' :: (g ++ [')']) := by
    have hassoc : '(' :: (g ++ ')' :: z) = '(' :: (g ++ [')']) ++ z := by simp
    rw [hassoc] at hahead
    exact List.append_cancel_right hahead
  have hgroup : ∀ rest, readGroup ⟨behind, '(' :: (g ++ ')' :: rest)⟩ '(' ')' =
      (g, ⟨')' :: (g.reverse ++ '(' :: behind), rest⟩) := fun rest =>
    readGroup_balanced (by decide) (by decide) (by decide) hg.closed hg.nested
  have hpass : ∀ rest, passArguments? ⟨behind, '(' :: (g ++ ')' :: rest)⟩ =
      some ⟨')' :: (g.reverse ++ '(' :: behind), rest⟩ := fun rest => by
    simp [passArguments?, Cursor.current?, hgroup]
  refine ⟨_, hpass [], ?_⟩
  rw [hahead, hpass z] at h
  rw [← Option.some.inj h]
  exact .mk _ []

/-- The parts of a statement that was read, with the places between them. -/
theorem read?_cases {pattern : Text} {ascription : Option Text}
    (h : read? call c = some (pattern, ascription, d)) :
    ∃ c₁ c₂ : Cursor, readPattern? c = some (pattern, c₁) ∧
      passCallName? call (readAscription c₁).2 = some c₂ ∧
      passArguments? (readArgument c₂).2 = some d ∧
      ascription = (readAscription c₁).1.or (readArgument c₂).1 := by
  unfold read? at h
  simp only [Option.bind_eq_bind, Option.bind_eq_some_iff, Option.pure_def, Option.some.injEq,
    Prod.mk.injEq] at h
  obtain ⟨⟨text, c₁⟩, hpattern, c₂, hname, c₃, harguments, rfl, rfl, rfl⟩ := h
  exact ⟨c₁, c₂, hpattern, hname, harguments, rfl⟩

theorem moves_read? {pattern : Text} {ascription : Option Text}
    (h : read? call c = some (pattern, ascription, d)) : Moves c d := by
  obtain ⟨c₁, c₂, hpattern, hname, harguments, -⟩ := read?_cases h
  exact (isCourse_moves.readPattern? hpattern).trans ((isCourse_moves.readAscription c₁).trans
    ((moves_passCallName? hname).trans ((isCourse_moves.readArgument c₂).trans
      (isCourse_moves.passArguments? harguments))))

/-- A statement is read the same in a text that ends with it. -/
theorem read?_cutOff {pattern : Text} {ascription : Option Text} (hc : CutOff d.ahead c c')
    (h : read? call c = some (pattern, ascription, d)) :
    ∃ d', read? call c' = some (pattern, ascription, d') ∧ CutOff d.ahead d d' := by
  by_cases hd : d.ahead = []
  · rw [hd] at hc ⊢
    obtain ⟨behind, ahead⟩ := hc
    rw [List.append_nil] at h
    refine ⟨d, h, ?_⟩
    obtain ⟨behind', ahead'⟩ := d
    obtain rfl : ahead' = [] := hd
    exact .mk behind' []
  obtain ⟨c₁, c₂, hpattern, hname, harguments, rfl⟩ := read?_cases h
  -- From the last part back to the first, each place is clear of the end.
  obtain ⟨g, -, hsplit⟩ := passArguments?_cases harguments hd
  have hclear : IsClear d.ahead (readArgument c₂).2 := by
    rw [IsClear, hsplit]
    simp
  have hclear₂ := hclear.of_moves (isCourse_moves.readArgument c₂)
  have hascription := hclear₂.of_moves (moves_passCallName? hname)
  have hclear₁ := hascription.of_moves (isCourse_moves.readAscription c₁)
  -- From the first part to the last, each place is the same in the text cut off.
  obtain ⟨⟨pattern', d₁⟩, hpattern', rfl, hd₁⟩ := readPattern?_cutOff hc hpattern hclear₁
  obtain ⟨htext, hplace⟩ := readAscription_cutOff hd₁ hascription
  obtain ⟨d₂, hname', hd₂⟩ := passCallName?_cutOff hplace hname hclear₂
  obtain ⟨hargument, hplace'⟩ := readArgument_cutOff hd₂ hclear
  obtain ⟨d', harguments', hend⟩ := passArguments?_cutOff hplace' harguments hd
  refine ⟨d', ?_, hend⟩
  simp [read?, hpattern', hname', harguments', htext, hargument]

/-- The pattern stands between the curly brackets that it is read from. -/
theorem readPattern?_cases {pattern : Text} (h : readPattern? c = some (pattern, d))
    (hd : d.ahead ≠ []) :
    ∃ skipped, c.ahead = skipped ++ '{' :: (pattern ++ '}' :: d.ahead) := by
  unfold readPattern? at h
  dsimp only at h
  split at h
  · rename_i hopen
    have hmove := moves_skipTrivia c
    generalize c.skipTrivia = place at h hopen hmove
    obtain ⟨behind, skipped, ahead⟩ := hmove
    obtain ⟨t, rfl⟩ : ∃ t, ahead = '{' :: t := List.head?_eq_some_iff.mp hopen
    have hread := Option.some.inj h
    rcases readGroup_cases (by decide : IsSign '{') (by decide : IsSign '}') (by decide) (by decide)
      (skipped.reverse ++ behind) t with ⟨g, rest, rfl, -, hgroup⟩ | ⟨-, hgroup⟩
    · obtain ⟨rfl, rfl⟩ := Prod.mk.inj (hgroup.symm.trans hread)
      exact ⟨skipped, rfl⟩
    · obtain ⟨-, rfl⟩ := Prod.mk.inj (hgroup.symm.trans hread)
      contradiction
  · contradiction

theorem exists_pattern_of_read? {pattern : Text} {ascription : Option Text}
    (h : read? call c = some (pattern, ascription, d)) :
    ∃ front back, c.ahead = front ++ '{' :: (pattern ++ '}' :: back) := by
  obtain ⟨c₁, c₂, hpattern, hname, -⟩ := read?_cases h
  -- The `=` of the assignment comes behind the pattern.
  have hne : c₁.ahead ≠ [] := by
    intro hnil
    have hlength := (isCourse_moves.readAscription c₁).length_le
    have hend : (readAscription c₁).2.ahead = [] := by
      rw [hnil] at hlength
      exact List.eq_nil_of_length_eq_zero (by simpa using hlength)
    simp [passCallName?, Cursor.current?, hend] at hname
  obtain ⟨skipped, hsplit⟩ := readPattern?_cases hpattern hne
  exact ⟨skipped, c₁.ahead, hsplit⟩

/-- A statement found has a keyword, and what follows the keyword is read. -/
theorem findFrom?_cases {intake : Intake} (h : findFrom? call c = some intake) :
    ∃ (keyword behind rest : Text) (stop : Cursor), keyword ∈ keywords ∧
      Moves c ⟨behind, keyword ++ rest⟩ ∧ EndsWord rest ∧
      read? call ⟨keyword.reverse ++ behind, rest⟩ =
        some (intake.pattern, intake.ascription, stop) ∧
      intake.start = byteLength behind ∧ intake.stop = stop.byteOffset := by
  induction hn : c.ahead.length using Nat.strong_induction_on generalizing c with
  | _ n ih =>
      rw [findFrom?_nextWord] at h
      cases hword : c.nextWord? with
      | none => simp [hword] at h
      | some w =>
          obtain ⟨behind, rest, hstart, hstop, hends, hmove⟩ := nextWord?_cases hword
          have hlater : findFrom? call w.stop = some intake → _ := fun h =>
            ih w.stop.ahead.length (hn ▸ length_stop_nextWord? hword) h rfl
          have hpast : Moves c w.stop := by
            rw [hstart] at hmove
            rw [hstop]
            exact hmove.trans (.mk behind w.text rest)
          simp only [hword] at h
          split at h
          · rename_i hkey
            split at h
            · rename_i pattern ascription stop hread
              obtain rfl := Option.some.inj h
              have hoffset : w.start.byteOffset = byteLength behind := by rw [hstart]; rfl
              rw [hstart] at hmove
              rw [hstop] at hread
              exact ⟨w.text, behind, rest, stop, hkey, hmove, hends, hread, hoffset, rfl⟩
            · obtain ⟨keyword, b, r, stop, hkey, hfound, hrest⟩ := hlater h
              exact ⟨keyword, b, r, stop, hkey, hpast.trans hfound, hrest⟩
          · obtain ⟨keyword, b, r, stop, hkey, hfound, hrest⟩ := hlater h
            exact ⟨keyword, b, r, stop, hkey, hpast.trans hfound, hrest⟩

/-- A text that begins with a keyword and is read from there is found at its start. -/
theorem find?_keyword {keyword rest pattern : Text} {ascription : Option Text} {stop : Cursor}
    (hkey : keyword ∈ keywords) (hends : EndsWord rest)
    (hread : read? call ⟨keyword.reverse, rest⟩ = some (pattern, ascription, stop)) :
    find? call (keyword ++ rest) = some ⟨pattern, ascription, 0, stop.byteOffset⟩ := by
  have hident : ∀ k ∈ keywords, isIdentifier k = true := by decide
  have hword : nextWord? ⟨[], keyword ++ rest⟩ =
      some ⟨keyword, ⟨[], keyword ++ rest⟩, ⟨keyword.reverse ++ [], rest⟩⟩ :=
    nextWord?_identifier ⟨keyword, hident keyword hkey⟩ rfl hends
  rw [List.append_nil] at hword
  rw [find?, findFrom?_nextWord, ofText, hword]
  simp [hkey, hread, Cursor.byteOffset]

/-- The statement behind a keyword is read the same where its text stands alone. -/
theorem read?_alone {keyword behind rest pattern : Text} {ascription : Option Text} {stop : Cursor}
    (hkey : keyword ∈ keywords)
    (h : read? call ⟨keyword.reverse ++ behind, rest⟩ = some (pattern, ascription, stop)) :
    ∃ passed, rest = passed ++ stop.ahead ∧
      stop.behind = passed.reverse ++ (keyword.reverse ++ behind) ∧
      read? call ⟨keyword.reverse, passed⟩ =
        some (pattern, ascription, ⟨passed.reverse ++ keyword.reverse, []⟩) := by
  have hlast : ∀ k ∈ keywords, k.reverse ≠ [] ∧ k.reverse.head? ≠ some '\\' := by decide
  have halike : LooksAlike (keyword.reverse ++ behind) keyword.reverse := by
    obtain ⟨hne, hslash⟩ := hlast keyword hkey
    obtain ⟨c, more, hcons⟩ := List.exists_cons_of_ne_nil hne
    rw [hcons] at hslash ⊢
    exact looksAlike_cons (by simpa using hslash) (more ++ behind) more
  obtain ⟨passed, hrest, hstop⟩ := (moves_read? h).exists_passed
  obtain rfl : rest = passed ++ stop.ahead := hrest
  have hbeside := read?_beside halike call (beside_start _ _ (passed ++ stop.ahead))
  rw [h] at hbeside
  generalize hread : read? call ⟨keyword.reverse, passed ++ stop.ahead⟩ = found at hbeside
  cases hbeside with
  | @some _ p hsame =>
      obtain ⟨pattern', ascription', stop'⟩ := p
      obtain ⟨rfl, rfl, hplace⟩ := hsame
      have hahead : stop.ahead = stop'.ahead := hplace.ahead
      obtain ⟨passed', hpassed, hstop'⟩ := (moves_read? hread).exists_passed
      obtain rfl : passed = passed' := by
        rw [← hahead] at hpassed
        exact List.append_cancel_right hpassed
      rw [hahead] at hread
      obtain ⟨d, hcut, hend⟩ := read?_cutOff (.mk keyword.reverse passed) hread
      obtain rfl : d = ⟨passed.reverse ++ keyword.reverse, []⟩ := by
        rw [hend.eq_of_ahead rfl, hstop']
      exact ⟨passed, rfl, congrArg Cursor.behind hstop, hcut⟩

/-- The intake statement of a script is a slice of it that begins with a keyword and holds the
pattern in curly brackets. It is found in the slice alone as it is found in the script. -/
theorem find?_slice {script : Text} {intake : Intake} (h : find? call script = some intake) :
    ∃ before slice after, script = before ++ (slice ++ after) ∧
      intake.start = byteLength before ∧ intake.stop = byteLength (before ++ slice) ∧
      intake.start < intake.stop ∧ intake.stop ≤ byteLength script ∧
      (∃ keyword ∈ keywords, keyword <+: slice) ∧
      (∃ front back, slice = front ++ '{' :: (intake.pattern ++ '}' :: back)) ∧
      find? call slice =
        some ⟨intake.pattern, intake.ascription, 0, intake.stop - intake.start⟩ := by
  obtain ⟨keyword, behind, rest, stop, hkey, hmove, hends, hread, hstart, hstop⟩ :=
    findFrom?_cases h
  obtain ⟨passed, rfl, hbehind, halone⟩ := read?_alone hkey hread
  obtain ⟨before, hscript, hplace⟩ := hmove.exists_passed
  obtain rfl : behind = before.reverse :=
    (congrArg Cursor.behind hplace).trans (List.append_nil _)
  have hsplit : script = before ++ (keyword ++ passed ++ stop.ahead) := by
    rw [List.append_assoc]
    exact hscript
  have hstart' : intake.start = byteLength before := by rw [hstart, byteLength_reverse]
  have hstop' : intake.stop = byteLength (before ++ (keyword ++ passed)) := by
    rw [hstop, Cursor.byteOffset, hbehind]
    simp only [byteLength_append, byteLength_reverse]
    omega
  have hlong : ∀ k ∈ keywords, 0 < byteLength k := by decide
  have hpositive := hlong keyword hkey
  refine ⟨before, keyword ++ passed, stop.ahead, hsplit, hstart', hstop', ?_, ?_, ⟨keyword, hkey,
    List.prefix_append keyword passed⟩, ?_, ?_⟩
  · rw [hstart', hstop', byteLength_append, byteLength_append]
    omega
  · rw [hstop', hsplit]
    simp only [byteLength_append]
    omega
  · obtain ⟨front, back, hpattern⟩ := exists_pattern_of_read? halone
    refine ⟨keyword ++ front, back, ?_⟩
    rw [List.append_assoc]
    exact congrArg (keyword ++ ·) hpattern
  · have hends' : EndsWord passed := fun c hc => hends c (by
      rw [List.head?_append, hc, Option.some_or])
    rw [find?_keyword hkey hends' halone, hstart', hstop']
    simp only [Cursor.byteOffset, byteLength_append, byteLength_reverse, Option.some.injEq,
      Intake.mk.injEq, true_and]
    omega

/-- A member called `let`, and a statement with a bracket in a literal, an arrow in its annotation
and text behind its call. -/
def annotatedScript : Text :=
  "é.let; let /* a */ \x7b b = '\x7d' \x7d: (c) => d = $props<e>(')') ?? f".toList

theorem find?_slice_annotated :
    find? "$props".toList annotatedScript =
        some ⟨" b = '\x7d' ".toList, some "(c) => d".toList, 8, 58⟩ ∧
      ∃ before slice after, annotatedScript = before ++ (slice ++ after) ∧
        8 = byteLength before ∧ 58 = byteLength (before ++ slice) ∧
        8 < 58 ∧ 58 ≤ byteLength annotatedScript ∧
        (∃ keyword ∈ keywords, keyword <+: slice) ∧
        (∃ front back, slice = front ++ '{' :: (" b = '\x7d' ".toList ++ '}' :: back)) ∧
        find? "$props".toList slice =
          some ⟨" b = '\x7d' ".toList, some "(c) => d".toList, 0, 58 - 8⟩ := by
  have hfound : find? "$props".toList annotatedScript =
      some ⟨" b = '\x7d' ".toList, some "(c) => d".toList, 8, 58⟩ := by
    rw [find?, findFrom?_eq]
    decide +kernel
  exact ⟨hfound, find?_slice hfound⟩

end Intake

end ComponentProps
