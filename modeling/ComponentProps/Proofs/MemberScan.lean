import ComponentProps.Proofs.Layout
import ComponentProps.Proofs.Maps
import ComponentProps.Proofs.TypeScan

/-!
# Scanning printed members

A member is printed with an optional doc comment before it, and it is ended by a semicolon, by a
comma or only by a line feed. In the last case the scanner takes the white space into the type and
recognises the next member by its name or its comment. Main statement: scanning printed members
gives them back, the last one of each name in the place of the first.
-/

namespace ComponentProps.Member

open Text

/-! ### Members as they are written -/

/-- A member without what ends it. -/
structure Declared where
  key : Identifier
  readonly : Bool
  optional : Bool
  type : TypeExpr

def Declared.print (m : Declared) : Text :=
  printModifier m.readonly ++ (m.key.text ++ (printMark m.optional ++ ':' :: ' ' :: m.type.print))

/-- The member that a declared one with a doc text stands for. -/
def Declared.toMember (m : Declared) (doc : Option Text) : Member :=
  ⟨m.key.text, m.type.print, m.optional, doc⟩

/-- The name and the type of a member. -/
def Declared.typed (m : Declared) : TypedName := ⟨m.key, m.optional, m.type.print⟩

/-- What ends a member. -/
inductive Ending
  | semicolon
  | comma
  | newline
  deriving DecidableEq, Repr

def Ending.print : Ending → Text
  | .semicolon => [';']
  | .comma => [',']
  | .newline => ['\n']

/-- A member with its doc text, its ending and the white space behind it. Its name is short enough
to be recognised and is not that of a modifier. -/
structure Line where
  doc : Option DocText
  member : Declared
  ending : Ending
  gap : Text
  short : member.key.text.length ≤ 100
  named : member.key.text ≠ "readonly".toList
  blank : isBlank gap = true

namespace Line

def key (l : Line) : Text := l.member.key.text

def toMember (l : Line) : Member := l.member.toMember (l.doc.map DocText.text)

def printDoc : Option DocText → Text
  | none => []
  | some doc => doc.print

def print (l : Line) : Text :=
  printDoc l.doc ++ (l.member.print ++ (l.ending.print ++ l.gap))

def printAll (ls : List Line) : Text := ls.flatMap print

end Line

/-! ### The member made of a type -/

theorem trim_of_hasTypeEnds {t : Text} (h : HasTypeEnds t) : trim t = t := by
  obtain ⟨c, rest, hcons, hc⟩ := h.first
  obtain ⟨front, d, hconcat, hd⟩ := h.last
  exact trim_of_ends hcons (not_isWhite_of_opensType hc) hconcat (not_isWhite_of_closesType hd)

/-- White space behind a type is not part of it. -/
theorem typeText_append_blank {keys : List Text} {t gap : Text} (ht : IsTypeText keys t)
    (h : isBlank gap = true) : typeText {} false (t ++ gap) = t := by
  obtain ⟨c, rest, hcons, hc⟩ := ht.hasTypeEnds.first
  have htrim : trim (t ++ gap) = t :=
    trim_append_blank (trim_of_hasTypeEnds ht.hasTypeEnds) (by simp [hcons]) h
  have hdedent : dedent (t ++ gap) = c :: rest := by
    rw [dedent_oneLine (by rw [htrim]; exact ht.newline_not_mem), htrim, hcons]
  have h1 : c ≠ '|' := ne_of_kind hc rfl
  have h2 : c ≠ '&' := ne_of_kind hc rfl
  have hplain : withoutLeadingOperator (t ++ gap) = t := by
    rw [withoutLeadingOperator, hdedent]
    simp [h1, h2, hcons]
  simp [typeText, hplain]

/-- The member that a typed name with a doc text stands for. -/
def ofTypedName (f : TypedName) (doc : Option Text) : Member :=
  ⟨f.name.text, f.type, f.optional, doc⟩

theorem make?_typedName {keys : List Text} {f : TypedName} (hf : IsTypeText keys f.type)
    (doc : Option Text) {gap : Text} (h : isBlank gap = true) :
    make? {} f.name.text f.optional false doc (f.type ++ gap) = some (ofTypedName f doc) := by
  obtain ⟨c, more, htext, hstart, -⟩ := f.name.exists_cons
  have hc := isIdentChar_of_isIdentStart hstart
  have h1 : c ≠ '[' := ne_of_kind hc rfl
  have h2 : c ≠ '(' := ne_of_kind hc rfl
  have h3 : c ≠ '<' := ne_of_kind hc rfl
  obtain ⟨e, rest, hcons, -⟩ := hf.hasTypeEnds.first
  rw [make?, typeText_append_blank hf h]
  simp [htext, isSignatureName, h1, h2, h3, hcons, ofTypedName]

namespace Scan

variable {style : Style} {behind rest : Text} {pending : Option Text}
  {members : OrderedMap Text Member}

/-! ### Between members -/

theorem run_gap {gap : Text} (h : isBlank gap = true) :
    run style ⟨⟨behind, gap ++ rest⟩, .seeking, pending, members⟩ =
      run style ⟨⟨gap.reverse ++ behind, rest⟩, .seeking, pending, members⟩ := by
  induction gap generalizing behind with
  | nil => rfl
  | cons c gap ih =>
      rw [isBlank, List.all_cons, Bool.and_eq_true] at h
      have hstep : step style ⟨⟨behind, c :: (gap ++ rest)⟩, .seeking, pending, members⟩ =
          ⟨⟨c :: behind, gap ++ rest⟩, .seeking, pending, members⟩ := by
        simp only [step, stepSeeking, h.1, if_true]
        rfl
      rw [List.cons_append, run_step (by simp), hstep, ih h.2]
      simp

/-! ### Doc comments -/

/-- Text that does not end a comment is taken up. -/
theorem run_comment {t raw : Text} (ht : ¬ ['*', '/'] <:+: t) (hr : rest.head? ≠ some '/') :
    run style ⟨⟨behind, t ++ rest⟩, .docComment raw, pending, members⟩ =
      run style ⟨⟨t.reverse ++ behind, rest⟩, .docComment (t.reverse ++ raw), pending,
        members⟩ := by
  induction t generalizing behind raw with
  | nil => rfl
  | cons c t ih =>
      rw [List.infix_cons_iff, not_or] at ht
      have hinside : ¬ (c == '*' && (t ++ rest).head? == some '/') = true := by
        intro hclose
        simp only [Bool.and_eq_true, beq_iff_eq] at hclose
        obtain ⟨rfl, hhead⟩ := hclose
        cases t with
        | nil => exact hr hhead
        | cons d t =>
            obtain rfl : d = '/' := by simpa using hhead
            exact ht.1 ⟨t, rfl⟩
      have hstep : step style ⟨⟨behind, c :: (t ++ rest)⟩, .docComment raw, pending, members⟩ =
          ⟨⟨c :: behind, t ++ rest⟩, .docComment (c :: raw), pending, members⟩ := by
        simp only [step, stepDocComment, if_neg hinside]
        rfl
      rw [List.cons_append, run_step (by simp), hstep, ih ht.2]
      simp

theorem run_doc_rows {rows : List Text} (h : ∀ row ∈ rows, IsDocRow row) {raw : Text}
    (hr : rest.head? ≠ some '/') :
    run style ⟨⟨behind, DocText.printRows rows ++ rest⟩, .docComment raw, pending, members⟩ =
      run style ⟨⟨(DocText.printRows rows).reverse ++ behind, rest⟩,
        .docComment ((DocText.printRows rows).reverse ++ raw), pending, members⟩ := by
  induction rows generalizing behind raw with
  | nil => rfl
  | cons row rows ih =>
      have hrow := DocText.not_close_printRow (h row List.mem_cons_self)
      have hnext : (DocText.printRows rows ++ rest).head? ≠ some '/' := by
        cases rows with
        | nil => exact hr
        | cons row rows => simp [DocText.printRows, DocText.printRow]
      have hprint : DocText.printRows (row :: rows) ++ rest =
          DocText.printRow row ++ (['\n'] ++ (DocText.printRows rows ++ rest)) := by
        simp [DocText.printRows]
      rw [hprint, run_comment hrow (by simp), run_comment (by decide) hnext,
        ih fun r hr => h r (List.mem_cons_of_mem _ hr)]
      simp [DocText.printRows]

/-- A doc comment waits for its member. -/
theorem run_doc (doc : DocText) :
    run {} ⟨⟨behind, doc.print ++ rest⟩, .seeking, pending, members⟩ =
      run {} ⟨⟨doc.print.reverse ++ behind, rest⟩, .seeking, some doc.text, members⟩ := by
  have hprint : doc.print ++ rest =
      '/' :: '*' :: '*' :: (['\n'] ++ (DocText.printRows doc.rows ++ ([' '] ++
        '*' :: '/' :: (['\n'] ++ rest)))) := by simp [DocText.print, DocText.inner]
  have hopen : ∀ t, step {} ⟨⟨behind, '/' :: '*' :: '*' :: (['\n'] ++ t)⟩, .seeking, pending,
      members⟩ = ⟨⟨'*' :: '*' :: '/' :: behind, ['\n'] ++ t⟩, .docComment [], pending, members⟩ :=
    fun t => rfl
  have hnext : (DocText.printRows doc.rows ++ ([' '] ++ '*' :: '/' :: (['\n'] ++ rest))).head? ≠
      some '/' := by
    cases doc.rows with
    | nil => simp [DocText.printRows]
    | cons row rows => simp [DocText.printRows, DocText.printRow]
  have hclose : ∀ behind raw t, step {} ⟨⟨behind, '*' :: '/' :: t⟩, .docComment raw, pending,
      members⟩ = ⟨⟨'/' :: '*' :: behind, t⟩, .seeking, docText? {} raw.reverse, members⟩ :=
    fun behind raw t => rfl
  have htext : docText? {} doc.inner = some doc.text := by
    obtain ⟨c, t, hcons⟩ := doc.exists_text_eq_cons
    simp [docText?, DocText.docProse_inner, hcons]
  have hraw : ([' '].reverse ++ ((DocText.printRows doc.rows).reverse ++
      (['\n'].reverse ++ []))).reverse = doc.inner := by simp [DocText.inner]
  rw [hprint, run_step (by simp), hopen, run_comment (by decide) hnext,
    run_doc_rows doc.valid (by simp), run_comment (by decide) (by simp), run_step (by simp), hclose,
    run_gap (by decide), hraw, htext]
  simp [DocText.print, DocText.inner]

/-! ### Names -/

theorem run_name_tail {t name : Text} (ht : ∀ c ∈ t, isIdentChar c = true) :
    run style ⟨⟨behind, t ++ rest⟩, .name name false, pending, members⟩ =
      run style ⟨⟨t.reverse ++ behind, rest⟩, .name (t.reverse ++ name) false, pending,
        members⟩ := by
  induction t generalizing behind name with
  | nil => rfl
  | cons c t ih =>
      have hc := ht c List.mem_cons_self
      have hstep : step style ⟨⟨behind, c :: (t ++ rest)⟩, .name name false, pending, members⟩ =
          ⟨⟨c :: behind, t ++ rest⟩, .name (c :: name) false, pending, members⟩ := by
        simp only [step, stepName, hc, if_true]
        rfl
      rw [List.cons_append, run_step (by simp), hstep,
        ih fun d hd => ht d (List.mem_cons_of_mem _ hd)]
      simp

/-- A name is read between members, and in place of a word before it. -/
theorem run_name (n : Identifier) {mode : Mode}
    (hmode : mode = .seeking ∨ ∃ word, mode = .name word true) :
    run style ⟨⟨behind, n.text ++ rest⟩, mode, pending, members⟩ =
      run style ⟨⟨n.text.reverse ++ behind, rest⟩, .name n.text.reverse false, pending,
        members⟩ := by
  obtain ⟨c, more, htext, hstart, hall⟩ := n.exists_cons
  have hc := isIdentChar_of_isIdentStart hstart
  have hstep : step style ⟨⟨behind, c :: (more ++ rest)⟩, mode, pending, members⟩ =
      ⟨⟨c :: behind, more ++ rest⟩, .name [c] false, pending, members⟩ := by
    rcases hmode with rfl | ⟨word, rfl⟩
    · have hslash : c ≠ '/' := ne_of_kind hc rfl
      simp [step, stepSeeking, not_isWhite_of_isIdentChar hc, hslash, hstart, move,
        Cursor.advanceBy]
    · simp [step, stepName, hc, move, Cursor.advanceBy]
  rw [htext, List.cons_append, run_step (by simp), hstep,
    run_name_tail fun d hd => hall d (by simp [htext, hd])]
  simp

/-- A modifier gives way to the name behind it. -/
theorem run_modified_name (readonly : Bool) (n : Identifier) :
    run style ⟨⟨behind, printModifier readonly ++ (n.text ++ rest)⟩, .seeking, pending, members⟩ =
      run style ⟨⟨n.text.reverse ++ ((printModifier readonly).reverse ++ behind), rest⟩,
        .name n.text.reverse false, pending, members⟩ := by
  cases readonly with
  | false => exact run_name n (Or.inl rfl)
  | true =>
      have hword : run style ⟨⟨behind, "readonly".toList ++ ' ' :: (n.text ++ rest)⟩, .seeking,
          pending, members⟩ = run style ⟨⟨"readonly".toList.reverse ++ behind,
            ' ' :: (n.text ++ rest)⟩, .name "readonly".toList.reverse false, pending, members⟩ :=
        run_name ⟨"readonly".toList, by decide⟩ (Or.inl rfl)
      have hspace : step style ⟨⟨"readonly".toList.reverse ++ behind, ' ' :: (n.text ++ rest)⟩,
          .name "readonly".toList.reverse false, pending, members⟩ =
            ⟨⟨' ' :: ("readonly".toList.reverse ++ behind), n.text ++ rest⟩,
              .name "readonly".toList.reverse true, pending, members⟩ := rfl
      have hprint : printModifier true ++ (n.text ++ rest) =
          "readonly".toList ++ ' ' :: (n.text ++ rest) := rfl
      rw [hprint, hword, run_step (by simp), hspace, run_name n (Or.inr ⟨_, rfl⟩)]
      rfl

/-- A name is followed by its colon, perhaps behind a question mark. -/
theorem run_mark_colon (name : Text) (optional : Bool) :
    run style ⟨⟨behind, printMark optional ++ ':' :: rest⟩, .name name.reverse false, pending,
        members⟩ =
      run style ⟨⟨':' :: ((printMark optional).reverse ++ behind), rest⟩,
        .afterColon name optional, pending, members⟩ := by
  have hident : isIdentChar ':' = false ∧ isIdentChar '?' = false := by decide
  have hwhite : isWhite ':' = false ∧ isWhite '?' = false := by decide
  cases optional with
  | false =>
      have hprint : printMark false ++ ':' :: rest = ':' :: rest := rfl
      rw [hprint, run_step (by simp)]
      simp [step, stepName, hident, hwhite, move, Cursor.advanceBy, printMark]
  | true =>
      have hprint : printMark true ++ ':' :: rest = '?' :: ':' :: rest := rfl
      have hmark : step style ⟨⟨behind, '?' :: ':' :: rest⟩, .name name.reverse false, pending,
          members⟩ = ⟨⟨'?' :: behind, ':' :: rest⟩, .afterMark name, pending, members⟩ := by
        simp [step, stepName, hident, hwhite, reach, firstVisible?, move, Cursor.advanceBy]
      rw [hprint, run_step (by simp), hmark, run_step (by simp)]
      simp [step, stepAfterMark, hwhite, move, Cursor.advanceBy, printMark]

/-- The draft of a typed name whose type is to be read. -/
def draftNamed (f : TypedName) : Draft :=
  { name := f.name.text, optional := f.optional, method := false }

/-- The state behind the type of a member whose name begins behind `behind`, when `passed` follows. -/
def afterTyped (f : TypedName) (behind : Text) (pending : Option Text)
    (members : OrderedMap Text Member) (passed ahead : Text) : Scan :=
  inType ⟨⟨' ' :: ':' :: ((printMark f.optional).reverse ++ (f.name.text.reverse ++ behind)), []⟩,
      .seeking, pending, members⟩
    (draftNamed f) (passed.reverse ++ f.type.reverse) .top 0 ahead

/-- The state when the member of a typed name has been taken up. -/
def afterNamed (f : TypedName) (behind : Text) (pending : Option Text)
    (members : OrderedMap Text Member) (passed ahead : Text) : Scan :=
  ⟨⟨passed.reverse ++ (f.print.reverse ++ behind), ahead⟩, .seeking, none,
    members.insert f.name.text (ofTypedName f pending)⟩

/-- The draft of a member whose type is to be read. -/
def draftOf (m : Declared) : Draft :=
  { name := m.key.text, optional := m.optional, method := false }

/-- The state behind the type of a member that begins behind `behind`, when `passed` follows. -/
def afterType (m : Declared) (behind : Text) (pending : Option Text)
    (members : OrderedMap Text Member) (passed ahead : Text) : Scan :=
  inType ⟨⟨' ' :: ':' :: ((printMark m.optional).reverse ++ (m.key.text.reverse ++
      ((printModifier m.readonly).reverse ++ behind))), []⟩, .seeking, pending, members⟩
    (draftOf m) (passed.reverse ++ m.type.print.reverse) .top 0 ahead

/-- The state when the member has been taken up. -/
def afterMember (m : Declared) (behind : Text) (pending : Option Text)
    (members : OrderedMap Text Member) (passed ahead : Text) : Scan :=
  ⟨⟨passed.reverse ++ (m.print.reverse ++ behind), ahead⟩, .seeking, none,
    members.insert m.key.text (m.toMember pending)⟩

theorem afterType_eq (m : Declared) (behind : Text) (pending : Option Text)
    (members : OrderedMap Text Member) (passed ahead : Text) :
    afterType m behind pending members passed ahead =
      afterTyped m.typed ((printModifier m.readonly).reverse ++ behind) pending members passed
        ahead := rfl

theorem afterMember_eq (m : Declared) (behind : Text) (pending : Option Text)
    (members : OrderedMap Text Member) (passed ahead : Text) :
    afterMember m behind pending members passed ahead =
      afterNamed m.typed ((printModifier m.readonly).reverse ++ behind) pending members passed
        ahead := by
  simp only [afterMember, afterNamed, Declared.print, TypedName.print, Declared.typed,
    List.reverse_append, List.append_assoc]
  rfl

/-- A typed name is read up to the end of its type. -/
theorem run_typed {keys : List Text} {f : TypedName} (hf : IsTypeText keys f.type)
    (readonly : Bool) (hends : EndsType rest) :
    run style ⟨⟨behind, printModifier readonly ++ (f.print ++ rest)⟩, .seeking, pending, members⟩ =
      run style (afterTyped f ((printModifier readonly).reverse ++ behind) pending members []
        rest) := by
  have hprint : printModifier readonly ++ (f.print ++ rest) = printModifier readonly ++
      (f.name.text ++ (printMark f.optional ++ ':' :: ' ' :: (f.type ++ rest))) := by
    simp [TypedName.print]
  obtain ⟨c, more, hcons, hc⟩ := hf.hasTypeEnds.first
  have hspace : ∀ behind t, step style ⟨⟨behind, ' ' :: t⟩, .afterColon f.name.text f.optional,
      pending, members⟩ =
        ⟨⟨' ' :: behind, t⟩, .afterColon f.name.text f.optional, pending, members⟩ :=
    fun behind t => rfl
  have hbegin : ∀ behind, step style ⟨⟨' ' :: behind, f.type ++ rest⟩,
      .afterColon f.name.text f.optional, pending, members⟩ =
        inType ⟨⟨' ' :: behind, []⟩, .seeking, pending, members⟩ (draftNamed f) [] .top 0
          (f.type ++ rest) := by
    intro behind
    simp only [hcons, List.cons_append, step, stepAfterColon, not_isWhite_of_opensType hc]
    rfl
  rw [hprint, run_modified_name, run_mark_colon, run_step (by simp), hspace,
    run_step (by simp [hcons]), hbegin,
    isTaken_typeText hf _ _ [] .top 0 rest (by simp) fun _ _ => hends]
  simp [afterTyped]

/-- A member is read up to the end of its type. -/
theorem run_declared (m : Declared) (hends : EndsType rest) :
    run style ⟨⟨behind, m.print ++ rest⟩, .seeking, pending, members⟩ =
      run style (afterType m behind pending members [] rest) := by
  have hprint : m.print ++ rest = printModifier m.readonly ++ (m.typed.print ++ rest) := by
    simp [Declared.print, TypedName.print, Declared.typed]
  rw [hprint, run_typed (f := m.typed) m.type.isTypeText_print m.readonly hends]
  rfl

theorem complete_afterTyped {keys : List Text} {f : TypedName} (hf : IsTypeText keys f.type)
    {passed : Text} (h : isBlank passed = true) :
    (afterTyped f behind pending members passed rest).complete {}
        (draftAt (draftNamed f) (passed.reverse ++ f.type.reverse) .top 0) =
      afterNamed f behind pending members passed rest := by
  have htaken : (passed.reverse ++ f.type.reverse).reverse = f.type ++ passed := by simp
  have hbehind : (passed.reverse ++ f.type.reverse) ++ (' ' :: ':' ::
      ((printMark f.optional).reverse ++ (f.name.text.reverse ++ behind))) =
        passed.reverse ++ (f.print.reverse ++ behind) := by
    simp [TypedName.print]
  have hmake := make?_typedName hf pending h
  simp only [complete, afterTyped, inType, draftAt, draftNamed, htaken, hmake, hbehind]
  rfl

theorem complete_afterType (m : Declared) {passed : Text} (h : isBlank passed = true) :
    (afterType m behind pending members passed rest).complete {}
        (draftAt (draftOf m) (passed.reverse ++ m.type.print.reverse) .top 0) =
      afterMember m behind pending members passed rest := by
  rw [afterMember_eq, ← complete_afterTyped (f := m.typed) m.type.isTypeText_print h]
  rfl

/-- A separator ends the member of a typed name. -/
theorem run_typed_separator {keys : List Text} {f : TypedName} (hf : IsTypeText keys f.type)
    {c : Char} (hc : c = ';' ∨ c = ',') :
    run {} (afterTyped f behind pending members [] (c :: rest)) =
      run {} (afterNamed f behind pending members [c] rest) := by
  have hcomplete : (afterTyped f behind pending members [] (c :: rest)).complete {}
      (draftAt (draftNamed f) f.type.reverse .top 0) =
        afterNamed f behind pending members [] (c :: rest) :=
    complete_afterTyped hf rfl
  have hquiet : Quiet f.type.reverse .top 0 (c :: rest) := by
    rcases hc with rfl | rfl <;> exact quiet_of_sign (by decide)
  have hstep : (afterTyped f behind pending members [] (c :: rest)).step {} =
      ((afterTyped f behind pending members [] (c :: rest)).complete {}
        (draftAt (draftNamed f) f.type.reverse .top 0)).move 1 .seeking := by
    change (afterTyped f behind pending members [] (c :: rest)).stepType {}
      (draftAt (draftNamed f) f.type.reverse .top 0) c rest = _
    rw [stepType, afterTyped, List.reverse_nil, List.nil_append, nextStarts_of_quiet hquiet]
    rcases hc with rfl | rfl <;> rfl
  rw [run_step (by simp [afterTyped, inType]), hstep, hcomplete]
  rfl

/-- A separator ends a member. -/
theorem run_separator (m : Declared) {c : Char} (hc : c = ';' ∨ c = ',') :
    run {} (afterType m behind pending members [] (c :: rest)) =
      run {} (afterMember m behind pending members [c] rest) := by
  rw [afterType_eq, run_typed_separator (f := m.typed) m.type.isTypeText_print hc, afterMember_eq]

theorem quiet_of_isWhite {taken : Text} {n : Nesting} {q : Nat} {c : Char} (h : isWhite c = true) :
    Quiet taken n q (c :: rest) := by
  refine quiet_of_sign ⟨?_, (isNeutral_of_isWhite h).1.1⟩
  rw [Bool.eq_false_iff]
  intro hstart
  have hno := not_isWhite_of_isIdentChar (isIdentChar_of_isIdentStart hstart)
  rw [h] at hno
  contradiction

/-- White space behind a type is taken up with it. -/
theorem run_afterTyped_gap (f : TypedName) {passed gap : Text} (h : isBlank gap = true) :
    run style (afterTyped f behind pending members passed (gap ++ rest)) =
      run style (afterTyped f behind pending members (passed ++ gap) rest) := by
  induction gap generalizing passed with
  | nil => rw [List.nil_append, List.append_nil]
  | cons c gap ih =>
      rw [isBlank, List.all_cons, Bool.and_eq_true] at h
      have hwhite : run style (afterTyped f behind pending members passed (c :: (gap ++ rest))) =
          run style (afterTyped f behind pending members (passed ++ [c]) (gap ++ rest)) := by
        rw [afterTyped, run_neutral (quiet_of_isWhite h.1) (isNeutral_of_isWhite h.1), afterTyped]
        simp
      rw [List.cons_append, hwhite, ih h.2, List.append_assoc, List.singleton_append]

theorem run_afterType_gap (m : Declared) {passed gap : Text} (h : isBlank gap = true) :
    run style (afterType m behind pending members passed (gap ++ rest)) =
      run style (afterType m behind pending members (passed ++ gap) rest) :=
  run_afterTyped_gap m.typed h

theorem step_of_nextStarts {s : Scan} {d : Draft} (hahead : s.cursor.ahead ≠ [])
    (hmode : s.mode = .type d) (hnext : s.nextStarts d = true) :
    s.step style = s.complete style d := by
  obtain ⟨c, rest, hcons⟩ := List.exists_cons_of_ne_nil hahead
  simp only [step, hcons, hmode, stepType, hnext, if_true]

/-- A line without a doc comment is recognised by the name of its member. -/
theorem startsMember_line (l : Line) (hdoc : l.doc = none) (t : Text) :
    startsMember (l.print ++ t) = true := by
  have hprint : l.print ++ t = printModifier l.member.readonly ++ (l.member.key.text ++
      (printMark l.member.optional ++ ':' :: (' ' :: (l.member.type.print ++
        (l.ending.print ++ (l.gap ++ t)))))) := by
    simp [Line.print, hdoc, Line.printDoc, Declared.print]
  rw [hprint]
  exact startsMember_member l.member.key l.short l.named _ _ _

/-- Behind a type and white space the name of a member is not part of the type. -/
theorem nextStarts_afterType (m : Declared) {passed : Text} (hne : passed ≠ [])
    (h : isBlank passed = true) (hstarts : startsMember rest = true) :
    (afterType m behind pending members passed rest).nextStarts
      (draftAt (draftOf m) (passed.reverse ++ m.type.print.reverse) .top 0) = true := by
  have hvisible : isBlank (passed.reverse ++ m.type.print.reverse) = false := by
    obtain ⟨c, more, hcons, hc⟩ := m.type.hasTypeEnds.first
    simp [isBlank, hcons, not_isWhite_of_opensType hc]
  have hwhite : (passed.reverse ++ m.type.print.reverse).head?.any isWhite = true := by
    obtain ⟨front, c, rfl⟩ := List.eq_nil_or_concat' passed |>.resolve_left hne
    simpa using List.all_eq_true.mp h c (by simp)
  simp only [nextStarts, draftAt, afterType, inType, hwhite, hvisible, hstarts]
  rfl

/-- Where the next line begins, a member that nothing ended is complete. -/
theorem step_break (m : Declared) {passed : Text} (hne : passed ≠ [])
    (h : isBlank passed = true) (l : Line) (t : Text) :
    (afterType m behind pending members passed (l.print ++ t)).step {} =
      afterMember m behind pending members passed (l.print ++ t) := by
  rw [← complete_afterType m h]
  cases hdoc : l.doc with
  | none =>
      have hstarts := startsMember_line l hdoc t
      refine step_of_nextStarts ?_ rfl (nextStarts_afterType m hne h hstarts)
      intro hnil
      rw [show l.print ++ t = [] from hnil] at hstarts
      contradiction
  | some doc =>
      obtain ⟨more, hprint⟩ : ∃ more, l.print ++ t = '/' :: '*' :: more :=
        ⟨'*' :: (doc.inner ++ '*' :: '/' :: '\n' :: (l.member.print ++ (l.ending.print ++
          (l.gap ++ t)))), by simp [Line.print, hdoc, Line.printDoc, DocText.print]⟩
      rw [hprint]
      change (afterType m behind pending members passed ('/' :: '*' :: more)).stepType {}
        (draftAt (draftOf m) (passed.reverse ++ m.type.print.reverse) .top 0) '/' ('*' :: more) = _
      rw [stepType, afterType, nextStarts_of_quiet (quiet_of_sign (by decide))]
      rfl

theorem finish_run_break (m : Declared) {passed : Text} (hne : passed ≠ [])
    (h : isBlank passed = true) (ls : List Line) :
    (run {} (afterType m behind pending members passed (Line.printAll ls))).finish {} =
      (run {} (afterMember m behind pending members passed (Line.printAll ls))).finish {} := by
  cases ls with
  | nil =>
      rw [run_end rfl, run_end rfl, ← complete_afterType m h]
      rfl
  | cons l ls =>
      have hprint : Line.printAll (l :: ls) = l.print ++ Line.printAll ls := rfl
      have hahead : l.print ++ Line.printAll ls ≠ [] := by
        simp [Line.print, Declared.print]
      rw [hprint, run_step hahead, step_break m hne h]

theorem run_printDoc (doc : Option DocText) :
    run {} ⟨⟨behind, Line.printDoc doc ++ rest⟩, .seeking, none, members⟩ =
      run {} ⟨⟨(Line.printDoc doc).reverse ++ behind, rest⟩, .seeking, doc.map DocText.text,
        members⟩ := by
  cases doc with
  | none => rfl
  | some doc => exact run_doc doc

theorem endsType_ending (ending : Ending) (t : Text) : EndsType (ending.print ++ t) := by
  cases ending <;> exact endsType_sign t (by decide)

/-- Scanning printed members takes them up one after another. -/
theorem finish_run_lines (ls : List Line) (behind : Text) (members : OrderedMap Text Member) :
    (run {} ⟨⟨behind, Line.printAll ls⟩, .seeking, none, members⟩).finish {} =
      ls.foldl (fun ms l => ms.insert l.key l.toMember) members := by
  induction ls generalizing behind members with
  | nil =>
      rw [run_end rfl]
      rfl
  | cons l ls ih =>
      have hprint : Line.printAll (l :: ls) = Line.printDoc l.doc ++ (l.member.print ++
          (l.ending.print ++ (l.gap ++ Line.printAll ls))) := by simp [Line.printAll, Line.print]
      have hnext : ∀ behind, (run {} ⟨⟨behind, Line.printAll ls⟩, .seeking, none,
          members.insert l.key l.toMember⟩).finish {} =
            (l :: ls).foldl (fun ms l => ms.insert l.key l.toMember) members :=
        fun behind => ih behind _
      rw [hprint, run_printDoc, run_declared l.member (endsType_ending _ _)]
      cases hending : l.ending with
      | semicolon =>
          rw [Ending.print, List.singleton_append, run_separator l.member (Or.inl rfl), afterMember,
            run_gap l.blank]
          exact hnext _
      | comma =>
          rw [Ending.print, List.singleton_append, run_separator l.member (Or.inr rfl), afterMember,
            run_gap l.blank]
          exact hnext _
      | newline =>
          have hblank : isBlank ('\n' :: l.gap) = true := l.blank
          rw [Ending.print, ← List.append_assoc, List.singleton_append,
            run_afterType_gap l.member hblank, List.nil_append,
            finish_run_break l.member (by simp) hblank]
          exact hnext _

end Scan

theorem scan_lines (ls : List Line) :
    scan {} (Line.printAll ls) = OrderedMap.ofList (ls.map fun l => (l.key, l.toMember)) := by
  rw [scan, Scan.start, Cursor.ofText, Scan.finish_run_lines, OrderedMap.ofList,
    OrderedMap.insertAll, List.foldl_map]

/-- The scanner undoes printing: it finds each name once, in the order of first occurrence, with the
type text, the optional flag and the doc text of its last occurrence, and it finds nothing else. -/
theorem scan_printed_members (ls : List Line) :
    (scan {} (Line.printAll ls)).keys = (ls.map Line.key).eraseDups ∧
      ∀ name, (scan {} (Line.printAll ls)).get? name =
        (ls.reverse.find? fun l => l.key = name).map Line.toMember := by
  rw [scan_lines, OrderedMap.keys_ofList]
  constructor
  · rw [List.map_map]
    rfl
  · intro name
    rw [OrderedMap.get?_ofList, ← List.map_reverse, List.find?_map, Option.map_map]
    rfl

end ComponentProps.Member
