import ComponentProps.Proofs.MemberComposition
import Mathlib.Data.Nat.Find

/-!
# The scan of a type body ends

A step of the scanner may leave the cursor where it is and hand the character under it to another
mode. Each such step brings the scanner nearer to a mode that moves, and no mode is further than two
steps away from one. So the cursor moves at least once in three steps, it never goes back, and a
body is read in at most three steps for each of its characters.
-/

namespace ComponentProps.Member.Scan

variable {style : Style} {s t : Scan}

/-! ### One step -/

theorem Progress.text_eq (h : Progress s t) : t.cursor.text = s.cursor.text := by
  cases h with
  | moved n mode pending members => exact Cursor.text_advanceBy s.cursor (n + 1)
  | handed hdelay pending members => rfl

/-- A step that does not move the cursor shortens the wait for one that does. -/
theorem Progress.pos_lt_or_delay_lt (h : Progress s t) (hahead : s.cursor.ahead ≠ []) :
    s.cursor.pos < t.cursor.pos ∨ t.cursor = s.cursor ∧ t.mode.delay < s.mode.delay := by
  cases h with
  | moved n mode pending members =>
      have hlength : 0 < s.cursor.ahead.length := List.length_pos_iff.mpr hahead
      rw [Cursor.pos_advanceBy]
      omega
  | handed hdelay pending members => exact .inr ⟨rfl, hdelay⟩

theorem step_atEnd (h : s.cursor.ahead = []) : s.step style = s := by
  simp only [step, h]

theorem text_step (style : Style) (s : Scan) : (s.step style).cursor.text = s.cursor.text := by
  by_cases hend : s.cursor.ahead = []
  · rw [step_atEnd hend]
  · exact (progress_step style hend).text_eq

/-- No step goes back. -/
theorem pos_le_step (style : Style) (s : Scan) : s.cursor.pos ≤ (s.step style).cursor.pos := by
  by_cases hend : s.cursor.ahead = []
  · rw [step_atEnd hend]
  · rcases (progress_step style hend).pos_lt_or_delay_lt hend with hmoved | ⟨hsame, -⟩
    · exact Nat.le_of_lt hmoved
    · rw [hsame]

/-! ### Many steps -/

theorem text_steps (style : Style) (n : Nat) (s : Scan) :
    ((step style)^[n] s).cursor.text = s.cursor.text := by
  induction n generalizing s with
  | zero => rfl
  | succ n ih => rw [Function.iterate_succ_apply, ih, text_step]

theorem pos_le_steps (style : Style) (n : Nat) (s : Scan) :
    s.cursor.pos ≤ ((step style)^[n] s).cursor.pos := by
  induction n generalizing s with
  | zero => exact Nat.le_refl _
  | succ n ih => exact Nat.le_trans (pos_le_step style s) (ih (s.step style))

/-- The cursor has moved once the wait of the mode is over. -/
theorem pos_lt_steps (style : Style) {n : Nat} (h : s.cursor.ahead ≠ [])
    (hdelay : s.mode.delay < n) : s.cursor.pos < ((step style)^[n] s).cursor.pos := by
  induction n generalizing s with
  | zero => exact absurd hdelay (Nat.not_lt_zero _)
  | succ n ih =>
      rw [Function.iterate_succ_apply]
      rcases (progress_step style h).pos_lt_or_delay_lt h with hmoved | ⟨hsame, hless⟩
      · exact Nat.lt_of_lt_of_le hmoved (pos_le_steps style n (s.step style))
      · have hlater := ih (s := s.step style) (hsame ▸ h) (by omega)
        rwa [hsame] at hlater

theorem pos_lt_three_steps (style : Style) (h : s.cursor.ahead ≠ []) {n : Nat} (hn : 3 ≤ n) :
    s.cursor.pos < ((step style)^[n] s).cursor.pos :=
  pos_lt_steps style h (Nat.lt_of_lt_of_le (Nat.lt_succ_of_le s.mode.delay_le) hn)

/-- Three steps for each of `n` characters lead over them or to the end. -/
theorem length_ahead_steps (style : Style) (n : Nat) (s : Scan) :
    ((step style)^[3 * n] s).cursor.ahead.length ≤ s.cursor.ahead.length - n := by
  induction n generalizing s with
  | zero => exact Nat.le_refl _
  | succ n ih =>
      have hthree : ((step style)^[3] s).cursor.ahead.length ≤ s.cursor.ahead.length - 1 := by
        have hpos := s.cursor.pos_add_length
        have hpos' := ((step style)^[3] s).cursor.pos_add_length
        rw [text_steps] at hpos'
        by_cases hend : s.cursor.ahead = []
        · have hle := pos_le_steps style 3 s
          rw [hend, List.length_nil] at hpos ⊢
          omega
        · have hlt := pos_lt_three_steps style hend (Nat.le_refl 3)
          omega
      have hrest := ih ((step style)^[3] s)
      rw [Nat.mul_succ, Function.iterate_add_apply]
      omega

/-- The scan ends after `n` steps and not before. -/
def EndsAfter (style : Style) (s : Scan) (n : Nat) : Prop :=
  ((step style)^[n] s).cursor.ahead = [] ∧ ∀ m < n, ((step style)^[m] s).cursor.ahead ≠ []

theorem exists_endsAfter (style : Style) (s : Scan) :
    ∃ n ≤ 3 * s.cursor.ahead.length, EndsAfter style s n := by
  have hend : ((step style)^[3 * s.cursor.ahead.length] s).cursor.ahead = [] := by
    have hlength := length_ahead_steps style s.cursor.ahead.length s
    rw [Nat.sub_self] at hlength
    exact List.length_eq_zero_iff.mp (Nat.le_zero.mp hlength)
  have hsome : ∃ n, ((step style)^[n] s).cursor.ahead = [] := ⟨_, hend⟩
  exact ⟨Nat.find hsome, Nat.find_min' hsome hend, Nat.find_spec hsome,
    fun m hm => Nat.find_min hsome hm⟩

theorem EndsAfter.run_eq {n : Nat} (h : EndsAfter style s n) :
    s.run style = (step style)^[n] s := by
  rw [← run_iterate style n s, run_end h.1]

/-- From whatever state the scanner sets out, no step moves the cursor back, any three steps in a
row move it on unless the text has come to its end, and the scan ends within three steps for each
character ahead. Where several steps are counted as one, as those over a quoted name, three of them
are three steps or more. -/
theorem steps_move_and_end (style : Style) :
    (∀ s : Scan, (s.step style).cursor.text = s.cursor.text ∧
      s.cursor.pos ≤ (s.step style).cursor.pos) ∧
    (∀ s : Scan, s.cursor.ahead ≠ [] → ∀ n, 3 ≤ n →
      s.cursor.pos < ((step style)^[n] s).cursor.pos) ∧
    ∀ s : Scan, ∃ n ≤ 3 * s.cursor.ahead.length,
      EndsAfter style s n ∧ s.run style = (step style)^[n] s := by
  refine ⟨fun s => ⟨text_step style s, pos_le_step style s⟩,
    fun s h n hn => pos_lt_three_steps style h hn, fun s => ?_⟩
  obtain ⟨n, hn, hends⟩ := exists_endsAfter style s
  exact ⟨n, hn, hends, hends.run_eq⟩

/-- The bracket behind a colon begins a type, ends it and is passed: two steps stay and the third
moves. -/
theorem steps_move_and_end_bracket :
    let s := (step {})^[2] (start "k:\x7d".toList)
    s.cursor.ahead ≠ [] ∧ ((step {})^[2] s).cursor.pos = s.cursor.pos ∧
      s.cursor.pos < ((step {})^[3] s).cursor.pos := by
  intro s
  have hahead : s.cursor.ahead ≠ [] := by decide
  exact ⟨hahead, by decide, (steps_move_and_end {}).2.1 s hahead 3 (Nat.le_refl 3)⟩

end ComponentProps.Member.Scan
