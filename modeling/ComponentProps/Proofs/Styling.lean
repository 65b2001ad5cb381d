import ComponentProps.Proofs.Gathering
import ComponentProps.Proofs.Layout
import ComponentProps.Text.Spacing

/-!
# Styles

A style brings the types and the doc comments of members to normal form. A normal form is empty only
if the text is blank, and neither a type nor a doc comment that is taken up is blank. So the same
members are found with every style, each with its own texts in normal form: a scan with a style goes
in step with the scan without one, and so does the reading of declarations.
-/

namespace ComponentProps

open Text

/-! ### Normal forms of visible texts -/

namespace Text

theorem isBlank_cons (c : Char) (t : Text) : isBlank (c :: t) = (isWhite c && isBlank t) := rfl

theorem isBlank_append (s t : Text) : isBlank (s ++ t) = (isBlank s && isBlank t) :=
  List.all_append

theorem trimStart_eq_nil_iff {t : Text} : trimStart t = [] ↔ isBlank t = true := by
  rw [trimStart, List.dropWhile_eq_nil_iff, isBlank, List.all_eq_true]

theorem trimEnd_eq_nil_iff {t : Text} : trimEnd t = [] ↔ isBlank t = true := by
  rw [trimEnd, List.reverse_eq_nil_iff, ← trimStart, trimStart_eq_nil_iff, isBlank,
    List.all_reverse, isBlank]

theorem isBlank_trimStart (t : Text) : isBlank (trimStart t) = isBlank t := by
  induction t with
  | nil => rfl
  | cons c t ih =>
      cases hc : isWhite c with
      | true => rw [trimStart, List.dropWhile_cons_of_pos hc, ← trimStart, ih, isBlank_cons, hc,
          Bool.true_and]
      | false => rw [trimStart, List.dropWhile_cons_of_neg (by simp [hc])]

theorem trim_eq_nil_iff {t : Text} : trim t = [] ↔ isBlank t = true := by
  rw [trim, trimEnd_eq_nil_iff, isBlank_trimStart]

theorem isBlank_trim (t : Text) : isBlank (trim t) = isBlank t := by
  rw [Bool.eq_iff_iff, ← trim_eq_nil_iff, trim_trim, trim_eq_nil_iff]

theorem isBlank_of_trim {t : Text} (h : trim t = t) : isBlank t = t.isEmpty := by
  rw [Bool.eq_iff_iff, ← trim_eq_nil_iff, h, List.isEmpty_iff]

theorem isBlank_collapseFrom (quote : OpenQuote) (gap : Bool) (behind t : Text) :
    isBlank (collapseFrom quote gap behind t) = isBlank t := by
  induction t generalizing quote gap behind with
  | nil => rfl
  | cons c t ih =>
      have hspace : isWhite ' ' = true := by decide
      rw [collapseFrom]
      split
      · rename_i hskip
        rw [ih, isBlank_cons, (Bool.and_eq_true_iff.mp hskip).1, Bool.true_and]
      · split
        · rw [isBlank_cons, isBlank_cons, ih, hspace, Bool.true_and, isBlank_cons]
        · rw [isBlank_cons, ih, isBlank_cons]

theorem isBlank_tidyChar (out : Text) (c : Char) (rest : Text) :
    isBlank (tidyChar out c rest) = (isWhite c && isBlank out) := by
  have hspace : isWhite ' ' = true := by decide
  unfold tidyChar
  split
  · rename_i hc
    split <;> simp [isBlank_cons, hspace, hc]
  · rename_i hc
    have hvisible : isWhite c = false := by simpa using hc
    repeat' split
    all_goals simp [isBlank_cons, hvisible]

theorem isBlank_tidyFrom (quote : OpenQuote) (out behind t : Text) :
    isBlank (tidyFrom quote out behind t) = (isBlank out && isBlank t) := by
  induction t generalizing quote out behind with
  | nil => simp [tidyFrom, isBlank]
  | cons c t ih =>
      have hout : isBlank (if quote.covers behind c then c :: out else tidyChar out c t) =
          (isWhite c && isBlank out) := by
        split
        · rfl
        · exact isBlank_tidyChar out c t
      rw [tidyFrom, ih, hout, isBlank_cons, Bool.and_comm (isWhite c), Bool.and_assoc]

/-- The normal form of a type is empty only if the type is blank. -/
theorem normalizeType_eq_nil_iff {t : Text} : normalizeType t = [] ↔ isBlank t = true := by
  have htidy : isBlank (tidyFrom none [] [] (collapse t)).reverse = isBlank t := by
    rw [isBlank, List.all_reverse, ← isBlank, isBlank_tidyFrom, collapse, isBlank_collapseFrom,
      isBlank_trim]
    rfl
  rw [normalizeType, tidy, trim_eq_nil_iff, htidy]

theorem collapseProseFrom_eq_nil_iff (gap : Bool) (t : Text) :
    collapseProseFrom gap t = [] ↔ isBlank t = true := by
  induction t generalizing gap with
  | nil => simp [collapseProseFrom, isBlank]
  | cons c t ih =>
      cases hc : isWhite c <;> cases gap <;> simp [collapseProseFrom, isBlank_cons, hc, ih]

/-- Prose on one line is empty only if the prose is blank. -/
theorem collapseProse_eq_nil_iff {t : Text} : collapseProse t = [] ↔ isBlank t = true := by
  rw [collapseProse, collapseProseFrom_eq_nil_iff, isBlank_trim]

/-! ### Texts that are taken up -/

theorem isBlank_withoutMargin (row : Text) :
    isBlank (withoutMargin row) = (withoutMargin row).isEmpty := by
  unfold withoutMargin
  split
  · rename_i rest _
    rw [Bool.eq_iff_iff, List.isEmpty_iff, trimStart_eq_nil_iff, isBlank_trimStart]
  · exact isBlank_of_trim (trim_trim row)

/-- The prose of a doc comment ends in a visible character. -/
theorem isBlank_docProse (raw : Text) : isBlank (docProse raw) = (docProse raw).isEmpty := by
  have hrows : ∀ row ∈ ((lines raw).map withoutMargin).dropWhile List.isEmpty,
      isBlank row = row.isEmpty := by
    intro row hrow
    obtain ⟨line, -, rfl⟩ := List.mem_map.mp ((List.dropWhile_sublist _).subset hrow)
    exact isBlank_withoutMargin line
  unfold docProse
  generalize ((lines raw).map withoutMargin).dropWhile List.isEmpty = rows at hrows
  dsimp only
  cases hkept : rows.reverse.dropWhile List.isEmpty with
  | nil => rfl
  | cons last kept =>
      have hmem : last ∈ rows := List.mem_reverse.mp
        ((List.dropWhile_sublist List.isEmpty).subset (hkept ▸ List.mem_cons_self))
      have hlast : last.isEmpty = false := by
        have hhead := List.head?_dropWhile_not List.isEmpty rows.reverse
        rw [hkept] at hhead
        simpa using hhead
      obtain ⟨front, hfront⟩ := exists_unlines_concat kept.reverse last
      rw [List.reverse_cons, hfront, isBlank_append, hrows last hmem, hlast, Bool.and_false]
      simpa using fun _ => hlast

end Text

namespace Member

theorem isBlank_withoutLeadingOperator (raw : Text) :
    isBlank (withoutLeadingOperator raw) = (withoutLeadingOperator raw).isEmpty := by
  unfold withoutLeadingOperator
  split
  · rfl
  · rename_i c rest hdedent
    split
    · exact isBlank_of_trim (trim_dedent rest)
    · rw [← hdedent]
      exact isBlank_of_trim (trim_dedent raw)

/-- The arrow of a function type is visible. -/
theorem isBlank_functionType {signature : Text} (h : isBlank signature = signature.isEmpty) :
    isBlank (functionType signature) = (functionType signature).isEmpty := by
  have harrow : isBlank " => ".toList = false := by decide
  have hany : isBlank " => any".toList = false := by decide
  unfold functionType
  split
  · exact h
  · split
    · rw [isBlank_append, hany, Bool.and_false]
      simp
    · rw [isBlank_append, isBlank_append, harrow, Bool.and_false, Bool.false_and]
      simp
    · exact h

/-- The texts of a member with a style. -/
def Style.type (style : Style) (t : Text) : Text :=
  if style.normalizeTypes then normalizeType t else t

def Style.doc (style : Style) (t : Text) : Text :=
  if style.normalizeDocs then collapseProse t else t

/-- A member with its texts in the normal form that the style asks for. -/
def restyle (style : Style) (m : Member) : Member :=
  { m with type := style.type m.type, doc := m.doc.map style.doc }

theorem Style.type_eq_nil_iff (style : Style) {t : Text} (h : isBlank t = t.isEmpty) :
    style.type t = [] ↔ t = [] := by
  unfold type
  split
  · rw [normalizeType_eq_nil_iff, h, List.isEmpty_iff]
  · rfl

theorem Style.doc_eq_nil_iff (style : Style) {t : Text} (h : isBlank t = t.isEmpty) :
    style.doc t = [] ↔ t = [] := by
  unfold doc
  split
  · rw [collapseProse_eq_nil_iff, h, List.isEmpty_iff]
  · rfl

theorem typeText_restyle (style : Style) (method : Bool) (raw : Text) :
    typeText style method raw = style.type (typeText {} method raw) := rfl

theorem isBlank_typeText (method : Bool) (raw : Text) :
    isBlank (typeText {} method raw) = (typeText {} method raw).isEmpty := by
  have hplain := isBlank_withoutLeadingOperator raw
  cases method with
  | false => exact hplain
  | true => exact isBlank_functionType hplain

theorem docText?_eq (style : Style) (raw : Text) :
    docText? style raw =
      if style.doc (docProse raw) = [] then none else some (style.doc (docProse raw)) := by
  unfold docText?
  dsimp only
  split
  · rename_i hnil
    have hdoc : style.doc (docProse raw) = [] := hnil
    rw [if_pos hdoc]
  · rename_i c rest hcons
    have hdoc : style.doc (docProse raw) = c :: rest := hcons
    rw [hdoc, if_neg (List.cons_ne_nil c rest)]

/-- A doc comment has prose with every style or with none. -/
theorem docText?_restyle (style : Style) (raw : Text) :
    docText? style raw = (docText? {} raw).map style.doc := by
  have hempty := style.doc_eq_nil_iff (isBlank_docProse raw)
  have hplain : (({} : Style).doc (docProse raw)) = docProse raw := rfl
  rw [docText?_eq, docText?_eq, hplain]
  by_cases hprose : docProse raw = []
  · rw [if_pos hprose, if_pos (hempty.mpr hprose)]
    rfl
  · rw [if_neg hprose, if_neg (hempty.not.mpr hprose)]
    rfl

/-- A name and a captured type make a member with every style or with none. -/
theorem make?_restyle (style : Style) (name : Text) (optional method : Bool) (doc : Option Text)
    (raw : Text) :
    make? style name optional method (doc.map style.doc) raw =
      (make? {} name optional method doc raw).map (restyle style) := by
  have hempty := style.type_eq_nil_iff (isBlank_typeText method raw)
  unfold make?
  split
  · rfl
  · rw [typeText_restyle style]
    cases htype : typeText {} method raw with
    | nil => rw [htype] at hempty; rw [hempty.mpr rfl]; rfl
    | cons c rest =>
        rw [htype] at hempty
        obtain ⟨d, more, hmore⟩ := List.exists_cons_of_ne_nil (hempty.not.mpr (by simp))
        simp [hmore, restyle]

/-! ### Scans -/

namespace Scan

/-- A state with the texts found so far in normal form. -/
def restyle (style : Style) (s : Scan) : Scan :=
  { s with
    pending := s.pending.map style.doc
    members := s.members.mapValues fun _ m => m.restyle style }

variable (style : Style) (s : Scan)

@[simp] theorem cursor_restyle : (s.restyle style).cursor = s.cursor := rfl

@[simp] theorem mode_restyle : (s.restyle style).mode = s.mode := rfl

theorem nextStarts_restyle (d : Draft) : (s.restyle style).nextStarts d = s.nextStarts d := rfl

theorem restyle_move (n : Nat) (mode : Mode) :
    (s.restyle style).move n mode = (s.move n mode).restyle style := rfl

theorem restyle_complete (d : Draft) :
    (s.restyle style).complete style d = (s.complete {} d).restyle style := by
  have hmake := make?_restyle style d.name d.optional d.method s.pending d.taken.reverse
  simp only [complete, restyle, hmake]
  cases make? {} d.name d.optional d.method s.pending d.taken.reverse with
  | none => rfl
  | some m => simp [OrderedMap.mapValues_insert, Member.restyle]

theorem restyle_stepSeeking (c : Char) (rest : Text) :
    (s.restyle style).stepSeeking c rest = (s.stepSeeking c rest).restyle style := by
  simp only [stepSeeking, apply_ite (restyle style), restyle_move]

theorem restyle_stepDocComment (raw : Text) (c : Char) (rest : Text) :
    (s.restyle style).stepDocComment style raw c rest =
      (s.stepDocComment {} raw c rest).restyle style := by
  unfold stepDocComment
  split
  · rw [docText?_restyle style]
    rfl
  · rfl

theorem restyle_stepSignature (opening : Char) (depth : Nat) (quote : OpenQuote) (text : Text)
    (c : Char) :
    (s.restyle style).stepSignature opening depth quote text c =
      (s.stepSignature opening depth quote text c).restyle style := by
  simp only [stepSignature, apply_ite (restyle style), ← restyle_move]
  rfl

theorem restyle_stepName (name : Text) (ended : Bool) (c : Char) (rest : Text) :
    (s.restyle style).stepName name ended c rest =
      (s.stepName name ended c rest).restyle style := by
  unfold stepName
  repeat' split
  all_goals rfl

theorem restyle_stepAfterMark (name : Text) (c : Char) :
    (s.restyle style).stepAfterMark name c = (s.stepAfterMark name c).restyle style := by
  unfold stepAfterMark
  repeat' split
  all_goals rfl

theorem restyle_stepTypeCode (d : Draft) (c : Char) :
    (s.restyle style).stepTypeCode style d c = (s.stepTypeCode {} d c).restyle style := by
  have hdone := restyle_complete style s d
  simp only [stepTypeCode, cursor_restyle]
  split
  · split
    · exact hdone
    · rfl
  · simp only [apply_ite (restyle style), hdone, restyle_move]
    rfl

theorem restyle_stepType (d : Draft) (c : Char) (rest : Text) :
    (s.restyle style).stepType style d c rest = (s.stepType {} d c rest).restyle style := by
  have hdone := restyle_complete style s d
  rw [stepType, stepType, nextStarts_restyle, cursor_restyle]
  split
  · exact hdone
  · split
    · rfl
    · split
      · exact hdone
      · rfl
    · exact restyle_stepTypeCode style s _ c

/-- A step with a style goes as the step without one. -/
theorem restyle_step : (s.restyle style).step style = (s.step {}).restyle style := by
  simp only [step, cursor_restyle, mode_restyle]
  split
  · rfl
  · rename_i c rest hahead
    split
    · exact restyle_stepSeeking style s c rest
    · simp only [apply_ite (restyle style), restyle_move]
    · simp only [stepBlockComment, apply_ite (restyle style), restyle_move]
    · exact restyle_stepDocComment style s _ c rest
    · rw [stepQuotedName, stepQuotedName, cursor_restyle]
      simp only [apply_ite (restyle style), restyle_move]
    · exact restyle_stepSignature style s _ _ _ _ c
    · exact restyle_stepName style s _ _ c rest
    · exact restyle_stepAfterMark style s _ c
    · simp only [stepAfterColon, apply_ite (restyle style), restyle_move]
      rfl
    · exact restyle_stepType style s _ c rest

theorem restyle_run : (s.restyle style).run style = (s.run {}).restyle style := by
  induction s using Scan.run.induct {} with
  | case1 s hend =>
      have hend' : (s.restyle style).cursor.ahead = [] := hend
      rw [run, dif_pos hend', run, dif_pos hend]
  | case2 s hmore ih =>
      have hmore' : (s.restyle style).cursor.ahead ≠ [] := hmore
      rw [run, dif_neg hmore', restyle_step, ih, run.eq_def {} s, dif_neg hmore]

theorem restyle_finish : (s.restyle style).finish style =
    (s.finish {}).mapValues fun _ m => m.restyle style := by
  simp only [finish, mode_restyle]
  split
  · rw [restyle_complete]
    rfl
  · rfl

end Scan

/-- The members of a body are those found without a style, in the normal form asked for. -/
theorem scan_restyle (style : Style) (body : Text) :
    scan style body = (scan {} body).mapValues fun _ m => m.restyle style := by
  have hstart : Scan.start body = (Scan.start body).restyle style := rfl
  rw [scan, hstart, Scan.restyle_run, Scan.restyle_finish, scan]

end Member

/-! ### Declarations -/

/-- A definition with its members in the normal form that the style asks for. -/
def TypeDefinition.restyle (style : Member.Style) (d : TypeDefinition) : TypeDefinition :=
  { d with members := d.members.mapValues fun _ m => m.restyle style }

namespace TypeDeclaration

def restyle (style : Member.Style) (d : TypeDeclaration) : TypeDeclaration :=
  { d with definition := d.definition.restyle style }

variable (style : Member.Style)

theorem readInterface?_restyle (c : Cursor) :
    readInterface? style c = (readInterface? {} c).map (Prod.map (restyle style) id) := by
  unfold readInterface?
  cases readName? c with
  | none => rfl
  | some p =>
      simp only [Option.bind_eq_bind, Option.bind_some, Member.scan_restyle style]
      split
      · rfl
      · rfl

theorem readAliasSide_restyle (c : Cursor) :
    readAliasSide style c = Prod.map (TypeDefinition.restyle style) id (readAliasSide {} c) := by
  simp only [readAliasSide, Member.scan_restyle style]
  split <;> rfl

theorem readAlias?_restyle (c : Cursor) :
    readAlias? style c = (readAlias? {} c).map (Prod.map (restyle style) id) := by
  unfold readAlias?
  cases readName? c with
  | none => rfl
  | some p =>
      simp only [Option.bind_eq_bind, Option.bind_some, readAliasSide_restyle style]
      split
      · rfl
      · rfl

theorem read?_restyle (word : Cursor.Word) :
    read? style word = (read? {} word).map (Prod.map (restyle style) id) := by
  unfold read?
  split
  · exact readInterface?_restyle style word.stop
  · split
    · exact readAlias?_restyle style word.stop
    · rfl

/-- The same declarations are read with every style, and each is read up to the same place. -/
theorem allFrom_restyle (c : Cursor) :
    allFrom style c = (allFrom {} c).map (restyle style) := by
  induction c using allFrom.induct {} with
  | case1 c hnone =>
      rw [allFrom_nextWord, hnone, allFrom_nextWord, hnone]
      rfl
  | case2 c word hword d place hread ih =>
      rw [allFrom_nextWord, hword, allFrom_nextWord {}, hword]
      simp only [read?_restyle style, hread, Option.map_some, Prod.map, id_eq, List.map_cons, ih]
  | case3 c word hword hread ih =>
      rw [allFrom_nextWord, hword, allFrom_nextWord {}, hword]
      simp only [read?_restyle style, hread, Option.map_none, ih]

end TypeDeclaration

namespace TypeTable

theorem restyle_merge (style : Member.Style) (d other : TypeDefinition) :
    (d.merge other).restyle style = (d.restyle style).merge (other.restyle style) := by
  rw [TypeDefinition.merge, TypeDefinition.restyle, OrderedMap.mapValues_extend]
  rfl

/-- A style brings types and doc comments to normal form and changes nothing else: the types in their
order, their parents, and the members in their order with their names and marks are those found
without it, and a member has a doc comment if it has one without it. -/
theorem ofScripts_restyle (style : Member.Style) (scripts : List Text) :
    ofScripts style scripts =
      (ofScripts {} scripts).mapValues fun _ definition =>
        { members := definition.members.mapValues fun _ m =>
            { name := m.name
              type := if style.normalizeTypes then normalizeType m.type else m.type
              optional := m.optional
              doc := m.doc.map fun t => if style.normalizeDocs then collapseProse t else t }
          parents := definition.parents } := by
  have hall : ∀ script, TypeDeclaration.all style script =
      (TypeDeclaration.all {} script).map (TypeDeclaration.restyle style) :=
    fun script => TypeDeclaration.allFrom_restyle style (Cursor.ofText script)
  have hdeclared : scripts.flatMap (TypeDeclaration.all style) =
      (scripts.flatMap (TypeDeclaration.all {})).map (TypeDeclaration.restyle style) := by
    rw [List.map_flatMap]
    exact congrArg (scripts.flatMap ·) (funext hall)
  rw [ofScripts, hdeclared]
  exact (mapValues_foldl_declare rfl (restyle_merge style) _).symm

end TypeTable

end ComponentProps
