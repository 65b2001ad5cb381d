import ComponentProps.Proofs.NextMember
import ComponentProps.Proofs.PatternScan
import ComponentProps.Proofs.Uniting

/-!
# Quoted keys

A quoted key takes other ways through the scanner than an identifier. Behind the key both are in the
mode of a name, and from there on the name is only carried along until the member is entered. So the
two bodies have the same members but for this name. A pattern binds a quoted name as it is written
between the quotes, and it meets the member of that name.
-/

namespace ComponentProps

open Text

namespace Member

/-- The member under another name. -/
def named (n : Text) (m : Member) : Member := { m with name := n }

/-- A name under which members are entered: there is one, and it is not taken for a signature. -/
def IsKey (n : Text) : Prop := n ≠ [] ∧ isSignatureName n = false

instance (n : Text) : Decidable (IsKey n) := inferInstanceAs (Decidable (_ ∧ _))

theorem isKey_identifier (n : Identifier) : IsKey n.text := by
  obtain ⟨c, more, htext, hstart, -⟩ := n.exists_cons
  have hident := isIdentChar_of_isIdentStart hstart
  have hsquare : c ≠ '[' := ne_of_kind hident rfl
  have hround : c ≠ '(' := ne_of_kind hident rfl
  have hangle : c ≠ '<' := ne_of_kind hident rfl
  rw [htext]
  exact ⟨List.cons_ne_nil c more, by simp [isSignatureName, hsquare, hround, hangle]⟩

/-- Which member a type makes does not depend on its name. -/
theorem exists_make? (style : Style) (optional method : Bool) (doc : Option Text) (raw : Text) :
    ∃ own : Option Member, ∀ n, IsKey n → make? style n optional method doc raw =
      own.map (named n) := by
  cases htype : typeText style method raw with
  | nil => exact ⟨none, fun n hn => by simp [make?, htype]⟩
  | cons c rest =>
      refine ⟨some ⟨[], c :: rest, optional, doc⟩, fun n hn => ?_⟩
      simp [make?, htype, hn.1, hn.2, named]

/-- The entry of a member under a name, if there is a member. -/
def enteredAs (own : Option Member) (n : Text) : List (Text × Member) :=
  own.toList.map fun m => (n, m.named n)

/-- The mode with another name of the member that is being read. -/
def Mode.withName (n : Text) : Mode → Mode
  | .name _ _ => .name n.reverse true
  | .afterMark _ => .afterMark n
  | .afterColon _ optional => .afterColon n optional
  | .type d => .type { d with name := n }
  | mode => mode

/-- The name of a member has been read. -/
def Mode.holdsName : Mode → Bool
  | .name .. | .afterMark _ | .afterColon .. | .type _ => true
  | _ => false

namespace Scan

variable {style : Style} {s : Scan}

def withName (n : Text) (s : Scan) : Scan := { s with mode := s.mode.withName n }

/-! ### The name is carried along -/

/-- States that differ only in the name of the member that is being read. -/
def ReadsNamed (f : Text → Scan) : Prop :=
  ∃ s : Scan, s.members = .empty ∧ s.mode.holdsName = true ∧ ∀ n, f n = s.withName n

/-- States that differ only in the name of the member that has been entered, if there is one. -/
def EntersNamed (f : Text → Scan) : Prop :=
  ∃ (s : Scan) (own : Option Member), ∀ n, IsKey n →
    f n = { s with members := .ofList (enteredAs own n) }

theorem entersNamed_const (hs : s.members = .empty) : EntersNamed fun _ => s := by
  refine ⟨s, none, fun n _ => ?_⟩
  obtain ⟨cursor, mode, pending, members⟩ := s
  obtain rfl : members = .empty := hs
  rfl

theorem exists_complete_withName (style : Style) (hs : s.members = .empty) (d : Draft) :
    ∃ own : Option Member, ∀ n, IsKey n →
      (s.withName n).complete style { d with name := n } =
        ⟨s.cursor, .seeking, none, .ofList (enteredAs own n)⟩ := by
  obtain ⟨own, hown⟩ := exists_make? style d.optional d.method s.pending d.taken.reverse
  refine ⟨own, fun n hn => ?_⟩
  simp only [complete, withName, hown n hn, hs]
  cases own <;> rfl

/-- States that differ only in a name, of the member being read or of the one entered. -/
def StaysNamed (f : Text → Scan) : Prop := ReadsNamed f ∨ EntersNamed f

section Steps

variable {c : Char} {rest : Text} (hs : s.members = .empty)

include hs

theorem staysNamed_move (k : Nat) {mode : Text → Mode} {m : Mode} (hm : m.holdsName = true)
    (hmode : ∀ n, mode n = m.withName n) : StaysNamed fun n => (s.withName n).move k (mode n) :=
  Or.inl ⟨s.move k m, hs, hm, fun n => congrArg ((s.withName n).move k) (hmode n)⟩

theorem staysNamed_take (d : Draft) :
    StaysNamed fun n => (s.withName n).take { d with name := n } c :=
  staysNamed_move hs 1 (m := .type { d with taken := c :: d.taken }) rfl fun _ => rfl

theorem staysNamed_begin (m : Mode) (hm : m.holdsName = true) :
    StaysNamed fun n => { s with mode := m.withName n } :=
  Or.inl ⟨{ s with mode := m }, hs, hm, fun _ => rfl⟩

theorem staysNamed_abandon : StaysNamed fun n => (s.withName n).abandon :=
  Or.inr (entersNamed_const (s := s.abandon) hs)

theorem staysNamed_complete (d : Draft) :
    StaysNamed fun n => (s.withName n).complete style { d with name := n } := by
  obtain ⟨own, hown⟩ := exists_complete_withName style hs d
  exact Or.inr ⟨⟨s.cursor, .seeking, none, .empty⟩, own, hown⟩

/-- Another word takes the place of a name. -/
theorem staysNamed_stepName :
    StaysNamed fun n => (s.withName n).stepName n.reverse true c rest := by
  unfold stepName
  by_cases hident : isIdentChar c = true
  · simp only [hident, if_true]
    exact Or.inr (entersNamed_const (s := s.move 1 (.name [c] false)) hs)
  by_cases hwhite : isWhite c = true
  · simp only [hident, hwhite, if_true]
    exact staysNamed_move hs 1 (m := .name [] true) rfl fun _ => rfl
  by_cases hcolon : (c == ':') = true
  · simp only [hident, hwhite, hcolon, if_true, List.reverse_reverse]
    exact staysNamed_move hs 1 (m := .afterColon [] false) rfl fun _ => rfl
  by_cases hmethod : (c == '(' || c == '<') = true
  · simp only [hident, hwhite, hcolon, hmethod, if_true, List.reverse_reverse]
    exact staysNamed_begin hs (.type { name := [], optional := false, method := true }) rfl
  by_cases hmark : (c == '?') = true
  · simp only [hident, hwhite, hcolon, hmethod, hmark, if_true, List.reverse_reverse]
    cases firstVisible? (rest.take reach) with
    | none => exact staysNamed_abandon hs
    | some e =>
        by_cases hnext : (e == ':' || e == '(' || e == '<') = true
        · simp only [hnext, if_true]
          exact staysNamed_move hs 1 (m := .afterMark []) rfl fun _ => rfl
        · simp only [hnext]
          exact staysNamed_abandon hs
  · simp only [hident, hwhite, hcolon, hmethod, hmark]
    exact staysNamed_abandon hs

theorem staysNamed_stepAfterMark : StaysNamed fun n => (s.withName n).stepAfterMark n c := by
  unfold stepAfterMark
  by_cases hwhite : isWhite c = true
  · simp only [hwhite, if_true]
    exact staysNamed_move hs 1 (m := .afterMark []) rfl fun _ => rfl
  by_cases hcolon : (c == ':') = true
  · simp only [hwhite, hcolon, if_true]
    exact staysNamed_move hs 1 (m := .afterColon [] true) rfl fun _ => rfl
  by_cases hmethod : (c == '(' || c == '<') = true
  · simp only [hwhite, hcolon, hmethod, if_true]
    exact staysNamed_begin hs (.type { name := [], optional := true, method := true }) rfl
  · simp only [hwhite, hcolon, hmethod]
    exact staysNamed_abandon hs

theorem staysNamed_stepAfterColon (optional : Bool) :
    StaysNamed fun n => (s.withName n).stepAfterColon n optional c := by
  unfold stepAfterColon
  by_cases hwhite : isWhite c = true
  · simp only [hwhite, if_true]
    exact staysNamed_move hs 1 (m := .afterColon [] optional) rfl fun _ => rfl
  · simp only [hwhite]
    exact staysNamed_begin hs (.type { name := [], optional := optional, method := false }) rfl

theorem staysNamed_stepTypeCode (d : Draft) :
    StaysNamed fun n => (s.withName n).stepTypeCode style { d with name := n } c := by
  have hbehind : ∀ n, (s.withName n).cursor = s.cursor := fun _ => rfl
  unfold stepTypeCode
  simp only [hbehind]
  cases Bracket.of? s.cursor.behind c with
  | some b =>
      by_cases hends : (b == .closing && d.nesting.depth == 0) = true
      · simp only [hends, if_true]
        exact staysNamed_complete hs d
      · simp only [hends]
        exact staysNamed_take hs { d with nesting := d.nesting.track b }
  | none =>
      by_cases hdepth : (d.nesting.depth != 0) = true
      · simp only [hdepth, if_true]
        exact staysNamed_take hs d
      by_cases hquestion : (c == '?') = true
      · simp only [hdepth, hquestion, if_true]
        exact staysNamed_take hs { d with conditionals := d.conditionals + 1 }
      by_cases hcolon : (c == ':') = true
      · simp only [hdepth, hquestion, hcolon, if_true]
        exact staysNamed_take hs { d with conditionals := d.conditionals - 1 }
      by_cases hends : (c == ';' || (c == ',' && d.nesting.angle == 0)) = true
      · simp only [hdepth, hquestion, hcolon, hends, if_true]
        obtain ⟨own, hown⟩ := exists_complete_withName style hs d
        refine Or.inr ⟨⟨s.cursor.advanceBy 1, .seeking, none, .empty⟩, own, fun n hn => ?_⟩
        simp only [hown n hn]
        rfl
      · simp only [hdepth, hquestion, hcolon, hends]
        exact staysNamed_take hs d

theorem staysNamed_stepType (d : Draft) :
    StaysNamed fun n => (s.withName n).stepType style { d with name := n } c rest := by
  have hbehind : ∀ n, (s.withName n).cursor = s.cursor := fun _ => rfl
  have hnext : ∀ n, (s.withName n).nextStarts { d with name := n } = s.nextStarts d := fun _ => rfl
  unfold stepType
  simp only [hbehind, hnext]
  by_cases hends : s.nextStarts d = true
  · simp only [hends, if_true]
    exact staysNamed_complete hs d
  simp only [hends]
  obtain ⟨role, region⟩ := d.region.read s.cursor.behind c rest
  cases role with
  | literal => exact staysNamed_take hs { d with region := region }
  | comment =>
      by_cases hcomment : (d.region == .code && d.nesting.depth == 0) = true
      · simp only [hcomment, if_true]
        exact staysNamed_complete hs d
      · simp only [hcomment]
        exact staysNamed_take hs { d with region := region }
  | code => exact staysNamed_stepTypeCode hs { d with region := region }

/-- Whatever is read behind a name, the name is carried along. -/
theorem staysNamed_step (hname : s.mode.holdsName = true) (hmore : s.cursor.ahead ≠ []) :
    StaysNamed fun n => (s.withName n).step style := by
  obtain ⟨c, rest, hcons⟩ := List.exists_cons_of_ne_nil hmore
  have hahead : ∀ n, (s.withName n).cursor.ahead = c :: rest := fun _ => hcons
  have hmode : ∀ n, (s.withName n).mode = s.mode.withName n := fun _ => rfl
  unfold step
  simp only [hahead, hmode]
  cases hcase : s.mode with
  | name text ended => exact staysNamed_stepName hs
  | afterMark name => exact staysNamed_stepAfterMark hs
  | afterColon name optional => exact staysNamed_stepAfterColon hs optional
  | type d => exact staysNamed_stepType hs d
  | seeking | lineComment | blockComment | docComment _ | quotedName _ _ | signature _ _ _ _ =>
      rw [hcase] at hname
      contradiction

end Steps

theorem work_withName (n : Text) (s : Scan) : (s.withName n).work = s.work := by
  obtain ⟨cursor, mode, pending, members⟩ := s
  cases mode <;> rfl

/-- At the end of the text the member is entered under its name. -/
theorem exists_finish_withName (style : Style) (hs : s.members = .empty) :
    ∃ own : Option Member, ∀ n, IsKey n →
      (s.withName n).finish style = OrderedMap.ofList (enteredAs own n) := by
  cases hmode : s.mode with
  | type d =>
      obtain ⟨own, hown⟩ := exists_complete_withName style hs d
      refine ⟨own, fun n hn => ?_⟩
      have htype : (s.withName n).mode = .type { d with name := n } := by
        rw [withName, hmode]
        rfl
      rw [finish, htype]
      exact congrArg Scan.members (hown n hn)
  | _ =>
      refine ⟨none, fun n _ => ?_⟩
      simp only [finish, withName, hmode, Mode.withName, hs]
      rfl

/-- Behind a name a text has the same members, whatever the name is: perhaps the one that is being
read, under its name, and later ones. -/
theorem finish_run_withName (style : Style) (hs : s.members = .empty)
    (hname : s.mode.holdsName = true) :
    ∃ (own : Option Member) (later : List (Text × Member)), ∀ n, IsKey n →
      ((s.withName n).run style).finish style = OrderedMap.ofList (enteredAs own n ++ later) := by
  -- On the work left and not along one run: the runs of all names are taken together.
  induction hwork : s.work using Nat.strong_induction_on generalizing s with
  | _ work ih =>
      by_cases hdone : s.cursor.ahead = []
      · obtain ⟨own, hown⟩ := exists_finish_withName style hs
        refine ⟨own, [], fun n hn => ?_⟩
        rw [run_end (s := s.withName n) hdone, hown n hn, List.append_nil]
      · have hmore : ∀ n, run style (s.withName n) = run style ((s.withName n).step style) :=
          fun n => run_step (s := s.withName n) hdone
        have hstays : StaysNamed fun n => (s.withName n).step style :=
          staysNamed_step hs hname hdone
        rcases hstays with ⟨t, ht, htname, hstep⟩ | ⟨t, own, hstep⟩
        · beta_reduce at hstep
          have hless : t.work < work := by
            have hdown := work_step_lt style (s := s.withName []) hdone
            rw [hstep, work_withName, work_withName] at hdown
            omega
          obtain ⟨own, later, hrun⟩ := ih t.work hless ht htname rfl
          refine ⟨own, later, fun n hn => ?_⟩
          rw [hmore, hstep, hrun n hn]
        · -- The name is gone from the mode, so the rest of the run is one and the same.
          beta_reduce at hstep
          obtain ⟨later, -, hrun⟩ := finish_run_place style head?_nil_ne t
          refine ⟨own, later, fun n hn => ?_⟩
          have hlater := hrun (.ofList (enteredAs own n))
          rw [List.append_nil] at hlater
          rw [hmore, hstep n hn, OrderedMap.ofList_append]
          exact hlater

/-- Before a sign it makes no difference whether a name is known to be complete. -/
theorem finish_run_name_ended {behind r name : Text} {pending : Option Text}
    {members : OrderedMap Text Member} (hr : ∀ c, r.head? = some c → isIdentChar c = false) :
    (run style ⟨⟨behind, r⟩, .name name false, pending, members⟩).finish style =
      (run style ⟨⟨behind, r⟩, .name name true, pending, members⟩).finish style := by
  cases r with
  | nil =>
      rw [run_end rfl, run_end rfl]
      rfl
  | cons c r =>
      have hc : isIdentChar c = false := hr c rfl
      have hstep : step style ⟨⟨behind, c :: r⟩, .name name false, pending, members⟩ =
          step style ⟨⟨behind, c :: r⟩, .name name true, pending, members⟩ := by
        simp only [step, stepName, hc]
        rfl
      rw [run_step (s := ⟨⟨behind, c :: r⟩, .name name false, pending, members⟩) (by simp), hstep,
        ← run_step (by simp)]

/-- What follows a name, in terms of the name alone: not of how the name was written, and not of
what was read before it. -/
theorem exists_finish_run_name (style : Style) {r : Text}
    (hr : ∀ c, r.head? = some c → isIdentChar c = false) (pending : Option Text) :
    ∃ (own : Option Member) (later : List (Text × Member)), ∀ n, IsKey n → ∀ behind : Text,
      behind.head? ≠ some '\\' ∧ behind.head? ≠ some '=' → ∀ ended es,
        (run style ⟨⟨behind, r⟩, .name n.reverse ended, pending, OrderedMap.ofList es⟩).finish
          style = OrderedMap.ofList (es ++ (enteredAs own n ++ later)) := by
  obtain ⟨own, later, hown⟩ :=
    finish_run_withName style (s := ⟨⟨[], r⟩, .name [] true, pending, .empty⟩) rfl rfl
  refine ⟨own, later, fun n hn behind hb ended es => ?_⟩
  have hended : (run style ⟨⟨behind, r⟩, .name n.reverse ended, pending,
      OrderedMap.ofList es⟩).finish style = (run style ⟨⟨behind, r⟩, .name n.reverse true, pending,
        OrderedMap.ofList es⟩).finish style := by
    cases ended with
    | true => rfl
    | false => exact finish_run_name_ended hr
  -- What stands behind the name is left out: the last character of a key is no backslash and no
  -- equals sign, so no look back minds it.
  obtain ⟨es', hempty, hrun⟩ := finish_run_place style hb
    ⟨⟨[], r⟩, .name n.reverse true, pending, .empty⟩
  have hsame : OrderedMap.ofList es' = OrderedMap.ofList (enteredAs own n ++ later) :=
    hempty.symm.trans (hown n hn)
  calc (run style ⟨⟨behind, r⟩, .name n.reverse ended, pending, OrderedMap.ofList es⟩).finish style
      = (OrderedMap.ofList es).insertAll es' := hended.trans (hrun _)
    _ = OrderedMap.ofList (es ++ (enteredAs own n ++ later)) := by
        rw [OrderedMap.insertAll_eq_extend, hsame, OrderedMap.ofList_extend_ofList]

/-! ### The key is read -/

/-- A quoted name is read up to its closing quote. -/
theorem run_quotedName {behind r content name : Text} {quote : Char} {pending : Option Text}
    {members : OrderedMap Text Member} (hcontent : ∀ c ∈ content, c ≠ quote ∧ c ≠ '\\')
    (hb : behind.head? ≠ some '\\') :
    run style ⟨⟨behind, content ++ quote :: r⟩, .quotedName quote name, pending, members⟩ =
      run style ⟨⟨quote :: (content.reverse ++ behind), r⟩, .name (content.reverse ++ name) true,
        pending, members⟩ := by
  induction content generalizing behind name with
  | nil =>
      have hstep : step style ⟨⟨behind, quote :: r⟩, .quotedName quote name, pending, members⟩ =
          ⟨⟨quote :: behind, r⟩, .name name true, pending, members⟩ := by
        simp [step, stepQuotedName, Cursor.isEscaped, isEscaped_of_head?_ne hb, move,
          Cursor.advanceBy]
      rw [List.nil_append, run_step (by simp), hstep]
      rfl
  | cons c content ih =>
      obtain ⟨hquote, hslash⟩ := hcontent c List.mem_cons_self
      have hstep : step style ⟨⟨behind, c :: (content ++ quote :: r)⟩, .quotedName quote name,
          pending, members⟩ = ⟨⟨c :: behind, content ++ quote :: r⟩, .quotedName quote (c :: name),
            pending, members⟩ := by
        simp [step, stepQuotedName, hquote, move, Cursor.advanceBy]
      rw [List.cons_append, run_step (by simp), hstep,
        ih (fun d hd => hcontent d (List.mem_cons_of_mem _ hd)) (by simpa using hslash)]
      simp

/-- A quoted key is read between members. -/
theorem run_quoted (l : StringLiteral) {behind r : Text} {pending : Option Text}
    {members : OrderedMap Text Member} :
    run style ⟨⟨behind, l.print ++ r⟩, .seeking, pending, members⟩ =
      run style ⟨⟨l.print.reverse ++ behind, r⟩, .name l.content.reverse true, pending,
        members⟩ := by
  have hcontent : ∀ c ∈ l.content, c ≠ l.quote ∧ c ≠ '\\' :=
    fun c hc => ⟨(l.ne_of_mem hc).1, (l.ne_of_mem hc).2.1⟩
  have hslash : l.quote ≠ '\\' := ne_of_kind l.isQuote rfl
  have hprint : l.print ++ r = l.quote :: (l.content ++ l.quote :: r) := by
    simp [StringLiteral.print]
  rw [hprint, run_step (by simp), step_seeking_quote l.isQuote,
    run_quotedName hcontent (by simpa using hslash)]
  simp [StringLiteral.print]

/-- White space completes a name. -/
theorem run_name_gap {gap : Text} (hgap : isBlank gap = true) (hne : gap ≠ [])
    {behind t name : Text} {ended : Bool} {pending : Option Text}
    {members : OrderedMap Text Member} :
    run style ⟨⟨behind, gap ++ t⟩, .name name ended, pending, members⟩ =
      run style ⟨⟨gap.reverse ++ behind, t⟩, .name name true, pending, members⟩ := by
  induction gap generalizing behind ended with
  | nil => contradiction
  | cons c gap ih =>
      have hblank : isWhite c = true ∧ isBlank gap = true := by simpa [isBlank] using hgap
      have hident := not_isIdentChar_of_isWhite hblank.1
      have hstep : step style ⟨⟨behind, c :: (gap ++ t)⟩, .name name ended, pending, members⟩ =
          ⟨⟨c :: behind, gap ++ t⟩, .name name true, pending, members⟩ := by
        simp [step, stepName, hident, hblank.1, move, Cursor.advanceBy]
      rw [List.cons_append, run_step (by simp), hstep]
      cases hrest : gap with
      | nil => rfl
      | cons d more =>
          rw [← hrest, ih hblank.2 (by simp [hrest])]
          simp

/-- A quote behind a word begins anew, without the doc comment of the word. -/
theorem step_name_quote (l : StringLiteral) {behind r name : Text} {pending : Option Text}
    {members : OrderedMap Text Member} :
    step style ⟨⟨behind, l.print ++ r⟩, .name name true, pending, members⟩ =
      ⟨⟨behind, l.print ++ r⟩, .seeking, none, members⟩ := by
  obtain ⟨quote, content, hquote, valid⟩ := l
  have hcases : quote = '"' ∨ quote = '\'' ∨ quote = '\x60' := by
    simpa [isQuote, or_assoc] using hquote
  rcases hcases with rfl | rfl | rfl <;> rfl

end Scan

/-- A place for the key of a member behind the text `a`, with `w` between the two and `r` behind the
key, where `key` may be written as well as the quoted `l`. -/
inductive KeyPlace (style : Style) (a : Text) (key : Identifier) (l : StringLiteral) (r : Text) :
    Text → Prop
  /-- The scanner is between members. A doc comment may wait for the next one. -/
  | between (h : (Scan.run style (Scan.start a)).mode = .seeking) : KeyPlace style a key l r []
  /-- Nothing but white space ends the member before. The look ahead has to see the colon. -/
  | follows (h : (Scan.run style (Scan.start a)).Awaits) (hkey : key.text ≠ "readonly".toList)
      (hstarts : startsMember (key.text ++ r) = true)
      (hnear : l.print.length + colonDistance r < reach) : KeyPlace style a key l r []
  /-- The scanner is between members, and the next one has a modifier and no doc comment. -/
  | modified {gap : Text} (hgap : isBlank gap = true) (hne : gap ≠ [])
      (h : (Scan.run style (Scan.start a)).mode = .seeking)
      (hdoc : (Scan.run style (Scan.start a)).pending = none) :
      KeyPlace style a key l r ("readonly".toList ++ gap)

theorem isStop_identifier (n : Identifier) (r : Text) : IsStop (n.text ++ r) := by
  obtain ⟨c, more, htext, hstart, -⟩ := n.exists_cons
  have hident := isIdentChar_of_isIdentStart hstart
  intro d hd
  obtain rfl : c = d := by simpa [htext] using hd
  exact ⟨not_isWhite_of_isIdentChar hident, not_mem_of_kind hident rfl⟩

theorem isStop_literal (l : StringLiteral) (r : Text) : IsStop (l.print ++ r) := by
  intro d hd
  obtain rfl : l.quote = d := by simpa [StringLiteral.print] using hd
  have hcases : l.quote = '"' ∨ l.quote = '\'' ∨ l.quote = '\x60' := by
    simpa [isQuote, or_assoc] using l.isQuote
  rcases hcases with h | h | h <;> rw [h] <;> decide

/-- At its place a key leads to the mode of its name, whichever way it is written. -/
theorem KeyPlace.run_key {style : Style} {a w r : Text} {key : Identifier} {l : StringLiteral}
    (h : KeyPlace style a key l r w) (hr : ∀ c, r.head? = some c → isIdentChar c = false) :
    ∃ behind pending,
      Scan.run style (Scan.start (a ++ (w ++ (key.text ++ r)))) =
          Scan.run style ⟨⟨key.text.reverse ++ behind, r⟩, .name key.text.reverse false, pending,
            scan style a⟩ ∧
        Scan.run style (Scan.start (a ++ (w ++ (l.print ++ r)))) =
          Scan.run style ⟨⟨l.print.reverse ++ behind, r⟩, .name l.content.reverse true, pending,
            scan style a⟩ := by
  have hkeyStop := isStop_identifier key r
  have hquotedStop := isStop_literal l r
  have hseeking : (Scan.run style (Scan.start a)).mode = .seeking →
      (Scan.run style (Scan.start a)).Awaits := by
    intro h
    rw [Scan.Awaits, h]
    trivial
  cases h with
  | between h =>
      refine ⟨(Scan.run style (Scan.start a)).cursor.behind,
        (Scan.run style (Scan.start a)).waiting, ?_, ?_⟩
      · exact (Scan.run_next hkeyStop (hseeking h) (Or.inl h)).trans
          (Scan.run_name key (Or.inl rfl))
      · exact (Scan.run_next hquotedStop (hseeking h) (Or.inl h)).trans (Scan.run_quoted l)
  | follows h hkey hstarts hnear =>
      have hquoted := startsMember_quoted hkey hr hstarts hnear
      refine ⟨(Scan.run style (Scan.start a)).cursor.behind,
        (Scan.run style (Scan.start a)).waiting, ?_, ?_⟩
      · exact (Scan.run_next hkeyStop h (Or.inr hstarts)).trans (Scan.run_name key (Or.inl rfl))
      · exact (Scan.run_next hquotedStop h (Or.inr hquoted)).trans (Scan.run_quoted l)
  | @modified gap hgap hne h hdoc =>
      have hwaiting : (Scan.run style (Scan.start a)).waiting = none := by
        rw [Scan.waiting, h]
        exact hdoc
      -- The modifier is read as a name that gives way to what follows it.
      have hmodifier : ∀ t, Scan.run style (Scan.start (a ++ ("readonly".toList ++ gap ++ t))) =
          Scan.run style ⟨⟨gap.reverse ++ ("readonly".toList.reverse ++
            (Scan.run style (Scan.start a)).cursor.behind), t⟩,
            .name "readonly".toList.reverse true, none, scan style a⟩ := by
        intro t
        have hstop := isStop_identifier ⟨"readonly".toList, by decide⟩ (gap ++ t)
        rw [List.append_assoc, Scan.run_next hstop (hseeking h) (Or.inl h), hwaiting,
          Scan.run_name ⟨"readonly".toList, by decide⟩ (Or.inl rfl), Scan.run_name_gap hgap hne]
      refine ⟨gap.reverse ++ ("readonly".toList.reverse ++
        (Scan.run style (Scan.start a)).cursor.behind), none, ?_, ?_⟩
      · rw [hmodifier]
        exact Scan.run_name key (Or.inr ⟨_, rfl⟩)
      · rw [hmodifier, Scan.run_step (by simp [StringLiteral.print]), Scan.step_name_quote]
        exact Scan.run_quoted l

/-- The entry of a key under another key, and any other entry as it is. -/
def rekey (old new : Text) (e : Text × Member) : Text × Member :=
  if e.1 = old then (new, e.2.named new) else e

/-- A body with a key in one place or the other has the same members, but for the name of one. -/
theorem KeyPlace.exists_members {style : Style} {a w r : Text} {key : Identifier}
    {l : StringLiteral} (h : KeyPlace style a key l r w)
    (hr : ∀ c, r.head? = some c → isIdentChar c = false) (hl : IsKey l.content) :
    ∃ before own later,
      scan style (a ++ (w ++ (key.text ++ r))) =
          OrderedMap.ofList (before ++ (enteredAs own key.text ++ later)) ∧
        scan style (a ++ (w ++ (l.print ++ r))) =
          OrderedMap.ofList (before ++ (enteredAs own l.content ++ later)) := by
  obtain ⟨behind, pending, hkey, hquoted⟩ := h.run_key hr
  obtain ⟨before, hbefore⟩ := exists_scan_eq_ofList style a
  obtain ⟨own, later, hown⟩ := Scan.exists_finish_run_name style hr pending
  have hkeyBehind : (key.text.reverse ++ behind).head? ≠ some '\\' ∧
      (key.text.reverse ++ behind).head? ≠ some '=' := by
    obtain ⟨c, t, hcons⟩ := List.exists_cons_of_ne_nil (List.reverse_ne_nil_iff.mpr key.ne_nil)
    have hident : isIdentChar c = true :=
      key.isIdentChar_of_mem (List.mem_reverse.mp (hcons ▸ List.mem_cons_self))
    have hslash : c ≠ '\\' := ne_of_kind hident rfl
    have hequals : c ≠ '=' := ne_of_kind hident rfl
    simp [hcons, hslash, hequals]
  have hquotedBehind : (l.print.reverse ++ behind).head? ≠ some '\\' ∧
      (l.print.reverse ++ behind).head? ≠ some '=' := by
    have hslash : l.quote ≠ '\\' := ne_of_kind l.isQuote rfl
    have hequals : l.quote ≠ '=' := ne_of_kind l.isQuote rfl
    simp [StringLiteral.print, hslash, hequals]
  refine ⟨before, own, later, ?_, ?_⟩
  · rw [scan, hkey, hbefore]
    exact hown key.text (isKey_identifier key) _ hkeyBehind false before
  · rw [scan, hquoted, hbefore]
    exact hown l.content hl _ hquotedBehind true before

/-- Where neither name is another member's, writing the key the other way renames its entry and
changes nothing else. -/
theorem KeyPlace.entries_scan {style : Style} {a w r : Text} {key : Identifier}
    {l : StringLiteral} (h : KeyPlace style a key l r w)
    (hr : ∀ c, r.head? = some c → isIdentChar c = false) (hl : IsKey l.content)
    (hother : l.content ∉ (scan style (a ++ (w ++ (key.text ++ r)))).keys)
    (honce : key.text ∉ (scan style (a ++ (w ++ (l.print ++ r)))).keys) :
    (scan style (a ++ (w ++ (l.print ++ r)))).entries =
      (scan style (a ++ (w ++ (key.text ++ r)))).entries.map (rekey key.text l.content) := by
  obtain ⟨before, own, later, hold, hnew⟩ := h.exists_members hr hl
  rw [hold, OrderedMap.keys_ofList, List.mem_eraseDups] at hother
  rw [hnew, OrderedMap.keys_ofList, List.mem_eraseDups] at honce
  simp only [List.map_append, List.mem_append, not_or] at honce
  have hkept : ∀ es : List (Text × Member), key.text ∉ es.map Prod.fst →
      es.map (rekey key.text l.content) = es := by
    intro es hes
    refine (List.map_congr_left fun e he => ?_).trans (List.map_id es)
    exact if_neg fun heq : e.1 = key.text => hes (heq ▸ List.mem_map_of_mem he)
  have hown : (enteredAs own key.text).map (rekey key.text l.content) =
      enteredAs own l.content := by
    cases own with
    | none => rfl
    | some m => simp [enteredAs, rekey, named]
  have hentries : before ++ (enteredAs own l.content ++ later) =
      (before ++ (enteredAs own key.text ++ later)).map (rekey key.text l.content) := by
    rw [List.map_append, List.map_append, hkept before honce.1, hown, hkept later honce.2.2]
  have hkeys : ∀ e, (rekey key.text l.content e).1 =
      if e.1 = key.text then l.content else e.1 := by
    intro e
    rw [rekey]
    split <;> rfl
  rw [hnew, hold, hentries]
  refine OrderedMap.entries_ofList_map
    (g := fun k => if k = key.text then l.content else k) hkeys fun k hk k' hk' heq => ?_
  beta_reduce at heq
  by_cases h1 : k = key.text
  · by_cases h2 : k' = key.text
    · rw [h1, h2]
    · rw [if_pos h1, if_neg h2] at heq
      exact absurd (heq ▸ hk') hother
  · by_cases h2 : k' = key.text
    · rw [if_neg h1, if_pos h2] at heq
      exact absurd (heq ▸ hk) hother
    · rwa [if_neg h1, if_neg h2] at heq

end Member

namespace Binding

namespace Scan

variable {normalize : Bool} {m : OrderedMap Text (Option Text)}

theorem run_quotedName {quote : Char} {content behind rest name : Text}
    (hcontent : ∀ c ∈ content, c ≠ quote ∧ c ≠ '\\') (hb : behind.head? ≠ some '\\') :
    run normalize ⟨.quotedName quote, .code, {}, name, [], m⟩ behind (content ++ quote :: rest) =
      run normalize ⟨.name, .code, {}, content.reverse ++ name, [], m⟩
        (quote :: (content.reverse ++ behind)) rest := by
  induction content generalizing behind name with
  | nil => simp [run, step, stepQuotedName, isEscaped_of_head?_ne hb]
  | cons c content ih =>
      obtain ⟨hquote, hslash⟩ := hcontent c List.mem_cons_self
      have hstep : step normalize ⟨.quotedName quote, .code, {}, name, [], m⟩ behind c
          (content ++ quote :: rest) = ⟨.quotedName quote, .code, {}, c :: name, [], m⟩ := by
        simp [step, stepQuotedName, hquote]
      rw [List.cons_append, run, hstep,
        ih (fun d hd => hcontent d (List.mem_cons_of_mem _ hd)) (by simpa using hslash)]
      simp

end Scan

/-- A quoted name is bound as it is written between the quotes. -/
theorem ofPattern_quoted (normalize : Bool) {l : StringLiteral} (hl : l.content ≠ [])
    (target : Target) :
    ofPattern normalize (l.print ++ Item.printTarget (some target)) = [⟨l.content, none⟩] := by
  have hcontent : ∀ c ∈ l.content, c ≠ l.quote ∧ c ≠ '\\' :=
    fun c hc => ⟨(l.ne_of_mem hc).1, (l.ne_of_mem hc).2.1⟩
  have hslash : l.quote ≠ '\\' := ne_of_kind l.isQuote rfl
  have hprint : l.print ++ Item.printTarget (some target) =
      l.quote :: (l.content ++ l.quote :: ':' :: ' ' :: (target.print ++ [])) := by
    simp [StringLiteral.print, Item.printTarget]
  have hopen : ∀ rest, Scan.step normalize {} [] l.quote rest =
      ⟨.quotedName l.quote, .code, {}, [], [], .empty⟩ := by
    intro rest
    have hcomment : Region.comment? l.quote rest = none := by
      have hne : l.quote ≠ '/' := ne_of_kind l.isQuote rfl
      simp [Region.comment?, hne]
    simp [Scan.step, Scan.stepName, Scan.stepNameCode, hcomment, l.isQuote]
  have hcolon : ∀ behind rest, Scan.step normalize
      ⟨.name, .code, {}, l.content.reverse ++ [], [], .empty⟩ behind ':' rest =
        ⟨.alias, .code, {}, l.content.reverse, [], .empty⟩ := by
    intro behind rest
    simp [Scan.step, Scan.stepName, Scan.stepNameCode, Region.comment?, isQuote, hl,
      show isIdentChar ':' = false by decide]
  have hspace : Scan.IsIdle ' ' := by decide
  have hscan : scan normalize (l.print ++ Item.printTarget (some target)) =
      .ofList [(l.content, none)] := by
    rw [scan, hprint, Scan.run, hopen, Scan.run_quotedName hcontent (by simpa using hslash),
      Scan.run, hcolon, Scan.run, Scan.step_target_idle normalize hspace, Scan.run_target, Scan.run]
    simp [Scan.complete, hl, Scan.default?_nil]
    rfl
  rw [ofPattern, hscan]
  rfl

end Binding

/-- Where every bound name is that of a member, the props are those of the members. -/
theorem PropSheet.names_unite (settings : Settings) {members : OrderedMap Text Member}
    {bound : OrderedMap Text (Option Text)} (hsub : bound.keys ⊆ members.keys)
    (inherits : List Text) :
    (unite settings members inherits
        (bound.entries.map fun e => Binding.mk e.1 e.2)).props.map PropRecord.name =
      members.keys := by
  have hnone : bound.keys.filter (· ∉ members.keys) = [] :=
    List.filter_eq_nil_iff.mpr fun name hname => by simpa using hsub hname
  rw [props_unite settings members bound, unitedNames_eq, hnone, List.append_nil, List.map_map]
  exact List.map_id members.keys

namespace Member

/-- At any place of a member a quoted key does what an identifier does, if the look ahead reaches
its colon where it has to and no other member has one of the two names. The entry of the member has
the other name, and its place, its type and the rest of the members are the same. A pattern that
binds the quoted name adds no record to those of the members. -/
theorem scan_quoted_key (style : Style) {a w r : Text} {key : Identifier} {l : StringLiteral}
    (hplace : KeyPlace style a key l r w) (hr : ∀ c, r.head? = some c → isIdentChar c = false)
    (hl : IsKey l.content)
    (hother : l.content ∉ (scan style (a ++ (w ++ (key.text ++ r)))).keys)
    (honce : key.text ∉ (scan style (a ++ (w ++ (l.print ++ r)))).keys) :
    (scan style (a ++ (w ++ (l.print ++ r)))).entries =
        (scan style (a ++ (w ++ (key.text ++ r)))).entries.map (rekey key.text l.content) ∧
      ∀ (normalize : Bool) (target : Binding.Target),
        Binding.ofPattern normalize (l.print ++ Binding.Item.printTarget (some target)) =
            [⟨l.content, none⟩] ∧
          (key.text ∈ (scan style (a ++ (w ++ (key.text ++ r)))).keys →
            ∀ (settings : Settings) (inherits : List Text),
              (PropSheet.unite settings (scan style (a ++ (w ++ (l.print ++ r)))) inherits
                  (Binding.ofPattern normalize
                    (l.print ++ Binding.Item.printTarget (some target)))).props.map
                  PropRecord.name =
                (scan style (a ++ (w ++ (l.print ++ r)))).keys) := by
  have hentries := hplace.entries_scan hr hl hother honce
  refine ⟨hentries, fun normalize target => ?_⟩
  have hbound := Binding.ofPattern_quoted normalize hl.1 target
  refine ⟨hbound, fun hmem settings inherits => ?_⟩
  have hkey : l.content ∈ (scan style (a ++ (w ++ (l.print ++ r)))).keys := by
    obtain ⟨e, he, heq⟩ := List.mem_map.mp hmem
    rw [OrderedMap.keys, hentries, List.map_map]
    exact List.mem_map.mpr ⟨e, he, by simp [rekey, heq]⟩
  have hsub : (OrderedMap.ofList [(l.content, (none : Option Text))]).keys ⊆
      (scan style (a ++ (w ++ (l.print ++ r)))).keys :=
    List.cons_subset.mpr ⟨hkey, List.nil_subset _⟩
  rw [hbound]
  exact PropSheet.names_unite settings hsub inherits

/-- A key that is an identifier. -/
def extentKey : Identifier := ⟨"extent".toList, by decide⟩

theorem isQuote_apostrophe : isQuote '\'' = true := by decide

/-- A key that has to be quoted. -/
def dataExtent : StringLiteral := ⟨'\'', "data-extent".toList, isQuote_apostrophe, by decide⟩

/-- The member before the key is a union that only a line feed ends, the key is followed by spaces
and a question mark, and the next member is behind a comment. -/
def extentBody (key : Text) : Text :=
  "id: A<'x'> | B\n ".toList ++ ([] ++ (key ++ " ? : T // c\nlast: 'x'".toList))

theorem scan_quoted_extent :
    extentKey.text ∈ (scan {} (extentBody extentKey.text)).keys ∧
      (scan {} (extentBody dataExtent.print)).entries =
        (scan {} (extentBody extentKey.text)).entries.map
          (rekey extentKey.text dataExtent.content) := by
  have hold : (scan {} (extentBody extentKey.text)).keys =
      ["id".toList, "extent".toList, "last".toList] := by
    rw [scan, ← Scan.run_iterate {} 60, Scan.run_end (by decide +kernel)]
    decide +kernel
  have hnew : (scan {} (extentBody dataExtent.print)).keys =
      ["id".toList, "data-extent".toList, "last".toList] := by
    rw [scan, ← Scan.run_iterate {} 60, Scan.run_end (by decide +kernel)]
    decide +kernel
  have hawaits : (Scan.run {} (Scan.start "id: A<'x'> | B\n ".toList)).Awaits := by
    rw [← Scan.run_iterate {} 20, Scan.run_end (by decide)]
    exact ⟨by decide, by decide⟩
  have hother : dataExtent.content ∉ (scan {} (extentBody extentKey.text)).keys := by
    rw [hold]
    decide
  have honce : extentKey.text ∉ (scan {} (extentBody dataExtent.print)).keys := by
    rw [hnew]
    decide
  refine ⟨by rw [hold]; decide, (scan_quoted_key {} (.follows hawaits (by decide) (by decide)
    (by decide)) ?_ (by decide) hother honce).1⟩
  intro c hc
  obtain rfl : ' ' = c := by simpa using hc
  decide

/-- A quoted key that the look ahead cannot see past. -/
def longKey : StringLiteral := ⟨'\'', List.replicate 126 'k', isQuote_apostrophe, by decide⟩

/-- Behind a member that only a line feed ends, an identifier begins the next member and a quoted
key of 126 characters goes on with the type. -/
theorem long_quoted_key_unseen :
    (scan {} ("a: T\n".toList ++ (extentKey.text ++ ": U".toList))).keys =
        ["a".toList, extentKey.text] ∧
      (scan {} ("a: T\n".toList ++ (longKey.print ++ ": U".toList))).keys = ["a".toList] := by
  constructor
  · rw [scan, ← Scan.run_iterate {} 20, Scan.run_end (by decide)]
    decide
  · rw [scan, ← Scan.run_iterate {} 150, Scan.run_end (by decide +kernel)]
    decide +kernel

end Member

end ComponentProps
