import ComponentProps.Display
import ComponentProps.Proofs.CommentedScripts
import ComponentProps.Proofs.DeclaredNames
import ComponentProps.Proofs.TypeNesting

/-!
# Signatures read back

A signature shows the props as an object type on one line, joined with the outside types. It is
itself the text of a type, so what is known of such texts holds of it as a whole. Main statement: the
signature of props, written as the annotation of an intake statement, gives the same props and
outside types back, unless the statement declares a type of the name of one of them.
-/

namespace ComponentProps

open Text Cursor

/-! ### References -/

/-- A reference to a type as it is written on one line: a name, perhaps with type arguments. -/
inductive IsTypeReference : Text → Prop
  | name (n : Identifier) : IsTypeReference n.text
  | applied (n : Identifier) {arguments : List Text}
      (types : ∀ t ∈ arguments, IsTypeText [] t) :
      IsTypeReference (n.text ++ '<' :: (separated ',' arguments ++ ['>']))

namespace IsTypeReference

variable {p : Text}

theorem isTypeText (h : IsTypeReference p) : IsTypeText [] p := by
  cases h with
  | name n => exact .name n List.not_mem_nil
  | applied n types => exact .generic n List.not_mem_nil types

theorem isReference (h : IsTypeReference p) : IsReference p := by
  cases h with
  | name n => simpa using n.isReference []
  | applied n types => exact n.isReference _

theorem exists_operand (h : IsTypeReference p) : ∃ o : Operand, o.print = p := by
  cases h with
  | name n => exact ⟨.name n, rfl⟩
  | @applied n arguments types =>
      have hkeeps : KeepsNesting (separated ',' arguments) :=
        typeClosed_keepsNesting.separated (by decide) fun t ht =>
          typeClosed_keepsNesting.typeText (types t ht)
      have hpassage : IsPassage [] (separated ',' arguments) :=
        isPassage_separated (by decide) fun t ht => (types t ht).isPassage List.not_mem_nil
      exact ⟨.applied n (separated ',' arguments) (hkeeps.isEnclosed hpassage)
        (getLast?_types fun t ht => (types t ht).hasTypeEnds), rfl⟩

end IsTypeReference

/-! ### Members -/

namespace Member

theorem endsType_last_space : EndsType [' '] := by
  have hdrop : [' '].dropWhile isGap = [] := by decide
  refine ⟨?_, ⟨by simp [hdrop], by simp [hdrop]⟩, by simp [hdrop]⟩
  intro c hc
  rw [← show ' ' = c by simpa using hc]
  decide

/-- The last field is complete where its object type ends. -/
theorem Scan.finish_run_field {f : TypedName} (hf : IsTypeText [] f.type) (behind : Text)
    (members : OrderedMap Text Member) :
    (run {} ⟨⟨behind, f.print ++ [' ']⟩, .seeking, none, members⟩).finish {} =
      members.insert f.name.text (ofTypedName f none) := by
  have htyped : run {} ⟨⟨behind, f.print ++ [' ']⟩, .seeking, none, members⟩ =
      run {} (afterTyped f behind none members [] [' ']) :=
    run_typed hf false endsType_last_space
  have hgap : run {} (afterTyped f behind none members [] ([' '] ++ [])) =
      run {} (afterTyped f behind none members [' '] []) := run_afterTyped_gap f (by decide)
  have hcomplete : (afterTyped f behind none members [' '] []).complete {}
      (draftAt (draftNamed f) ([' '] ++ f.type.reverse) .top 0) =
        afterNamed f behind none members [' '] [] := complete_afterTyped hf (by decide)
  rw [htyped, ← List.append_nil [' '], hgap, run_end rfl]
  exact congrArg Scan.members hcomplete

/-- Scanning fields with semicolons between them takes them up one after another. -/
theorem Scan.finish_run_fields {fs : List TypedName} (hfs : ∀ f ∈ fs, IsTypeText [] f.type)
    (hne : fs ≠ []) (behind : Text) (members : OrderedMap Text Member) :
    (run {} ⟨⟨behind, separated ';' (fs.map TypedName.print) ++ [' ']⟩, .seeking, none,
        members⟩).finish {} =
      fs.foldl (fun ms f => ms.insert f.name.text (ofTypedName f none)) members := by
  induction fs generalizing behind members with
  | nil => exact absurd rfl hne
  | cons f fs ih =>
      rw [List.forall_mem_cons] at hfs
      cases fs with
      | nil => simpa [separated] using finish_run_field hfs.1 behind members
      | cons g fs =>
          have hprint : separated ';' ((f :: g :: fs).map TypedName.print) ++ [' '] =
              f.print ++ ';' :: ([' '] ++
                (separated ';' ((g :: fs).map TypedName.print) ++ [' '])) := by
            simp [separated_cons_cons]
          have htyped : ∀ t, run {} ⟨⟨behind, f.print ++ ';' :: t⟩, .seeking, none, members⟩ =
              run {} (afterTyped f behind none members [] (';' :: t)) :=
            fun t => run_typed hfs.1 false (endsType_sign t (by decide))
          rw [hprint, htyped, run_typed_separator hfs.1 (Or.inl rfl), afterNamed,
            run_gap (by decide), ih hfs.2 (by simp)]
          rfl

/-- The body of an object type. -/
def printBody (fs : List TypedName) : Text :=
  if fs.isEmpty then [] else ' ' :: (separated ';' (fs.map TypedName.print) ++ [' '])

theorem scan_body {fs : List TypedName} (hfs : ∀ f ∈ fs, IsTypeText [] f.type) :
    scan {} (printBody fs) =
      OrderedMap.ofList (fs.map fun f => (f.name.text, ofTypedName f none)) := by
  cases fs with
  | nil =>
      have hempty : printBody [] = [] := rfl
      rw [hempty, scan, Scan.run_end rfl]
      rfl
  | cons f fs =>
      have hspace : ∀ t, Scan.run {} ⟨⟨[], [' '] ++ t⟩, .seeking, none, .empty⟩ =
          Scan.run {} ⟨⟨[' '], t⟩, .seeking, none, .empty⟩ := fun t => Scan.run_gap (by decide)
      have hrun := Scan.finish_run_fields hfs (by simp) [' '] .empty
      rw [← hspace] at hrun
      rw [OrderedMap.ofList, OrderedMap.insertAll, List.foldl_map]
      exact hrun

end Member

/-! ### Annotations -/

/-- Types joined to what stands before them. -/
def printJoined (ps : List Text) : Text := ps.flatMap fun p => " & ".toList ++ p

theorem printJoined_cons (p : Text) (ps : List Text) :
    printJoined (p :: ps) = [' ', '&', ' '] ++ (p ++ printJoined ps) := by
  simp [printJoined]

section

variable {ps : List Text} (hps : ∀ p ∈ ps, ∃ o : Operand, o.print = p)

include hps

/-- The annotation of a statement is captured past operands. -/
theorem captureFrom_joined (taken behind rest : Text) :
    captureFrom Intake.endsAscription .code .top taken behind (printJoined ps ++ rest) =
      inFront (printJoined ps) (captureFrom Intake.endsAscription .code .top
        ((printJoined ps).reverse ++ taken) ((printJoined ps).reverse ++ behind) rest) := by
  induction ps generalizing taken behind with
  | nil => rfl
  | cons p ps ih =>
      rw [List.forall_mem_cons] at hps
      obtain ⟨⟨o, rfl⟩, hps⟩ := hps
      have hflat : [' ', '&', ' '].all (fun c => IsFlat c ∧ c ∉ delimiters) = true := by decide
      rw [printJoined_cons, List.append_assoc, List.append_assoc,
        captureFrom_flats Intake.endsAscription_plain
          (by simpa only [List.all_eq_true, decide_eq_true_eq] using hflat),
        captureFrom_operand Intake.endsAscription_plain o fun _ _ => rfl, ih hps]
      simp only [← inFront_append]
      simp

/-- A split at the operators leaves the operands. -/
theorem partsFrom_joined (o : Operand) (gap : Text) (hgap : isBlank gap = true) (behind : Text) :
    partsFrom typeOperators behind (gap ++ (o.print ++ printJoined ps)) = o.print :: ps := by
  have hsep : ∀ c ∈ typeOperators, IsSeparator c :=
    fun c hc => (Intake.isSeparator_typeOperators c hc).1
  have htrimmed : ∀ o : Operand, ∀ gap after, isBlank gap = true → isBlank after = true →
      trimmed? (gap ++ (o.print ++ after)) = some o.print := by
    intro o gap after hgap hafter
    rw [trimmed?_blank_append hgap, trimmed?, trim_append_blank o.trim_print o.print_ne_nil hafter]
    obtain ⟨c, more, hprint, -⟩ := o.exists_first
    rw [hprint]
  induction ps generalizing o gap behind with
  | nil =>
      have huncut : IsUncut typeOperators (gap ++ (o.print ++ [])) := by
        rw [List.append_nil]
        exact (isUncut_blank hsep hgap).append (isUncut_operand hsep o)
      have hlast := htrimmed o gap [] hgap rfl
      rw [show printJoined [] = [] from rfl, partsFrom_uncut huncut, hlast]
      rfl
  | cons p ps ih =>
      rw [List.forall_mem_cons] at hps
      obtain ⟨⟨next, rfl⟩, hps⟩ := hps
      have huncut : IsUncut typeOperators (gap ++ (o.print ++ [' '])) :=
        (isUncut_blank hsep hgap).append ((isUncut_operand hsep o).append
          (isUncut_blank hsep (by decide)))
      have hsplit : gap ++ (o.print ++ printJoined (next.print :: ps)) =
          (gap ++ (o.print ++ [' '])) ++ '&' :: ([' '] ++ (next.print ++ printJoined ps)) := by
        simp [printJoined_cons]
      rw [hsplit, partsFrom_separator hsep huncut (by decide), htrimmed o gap [' '] hgap (by decide),
        ih hps next [' '] (by decide)]
      rfl

end

/-! ### The statement -/

/-- An intake statement that binds nothing, with its annotation. -/
def annotated (t : Text) : Text := "let \x7b\x7d: ".toList ++ (t ++ " = $props();".toList)

/-- The part of such a statement before the annotation. -/
def annotatedHead : AnnotationHead where
  keyword := Component.letWord
  isKeyword := List.mem_cons_self
  gap := ⟨[], .space⟩
  pattern := []
  enclosed := ⟨rfl, rfl, rfl⟩
  after := ⟨[], .none⟩

theorem annotated_eq (t : Text) : annotated t = Component.letWord.text ++
    (annotatedHead.afterKeyword ++ ' ' :: (t ++ ' ' :: '=' :: ' ' :: (Component.propsCall.text ++
      ['(', ')', ';']))) := by
  rfl

theorem readCall?_props (behind rest : Text) :
    ∃ stop, Intake.readCall? Component.propsCall.text
      ⟨behind, '=' :: ' ' :: (Component.propsCall.text ++ '(' :: ')' :: rest)⟩ =
        some (none, stop) := by
  rw [Intake.readCall?, Component.passCallName?_print]
  exact ⟨_, rfl⟩

/-- The statement is found with the whole annotation. -/
theorem find?_annotated {t : Text} {o : Operand} {ps : List Text}
    (hps : ∀ p ∈ ps, ∃ o : Operand, o.print = p) (ht : t = o.print ++ printJoined ps)
    (hends : HasTypeEnds t) :
    ∃ intake, Intake.find? Component.propsCall.text (annotated t) = some intake ∧
      intake.pattern = [] ∧ intake.ascription = some t := by
  have hcapture : ∀ behind rest, capture ⟨behind, ' ' :: (t ++ ' ' :: '=' :: ' ' :: rest)⟩
      Intake.endsAscription = (' ' :: (t ++ [' ']),
        ⟨' ' :: (t.reverse ++ ' ' :: behind), '=' :: ' ' :: rest⟩) := by
    intro behind rest
    rw [ht, capture, captureFrom_flat (by decide) (Intake.endsAscription_plain _ _ _ _ (by decide)),
      List.append_assoc, captureFrom_operand Intake.endsAscription_plain o fun _ _ => rfl,
      captureFrom_joined hps,
      captureFrom_flat (by decide) (Intake.endsAscription_plain _ _ _ _ (by decide)),
      captureFrom_stop (by decide) rfl]
    simp [inFront]
  have htrimmed : trimmed? (' ' :: (t ++ [' '])) = some t := by
    obtain ⟨c, more, hcons, -⟩ := hends.first
    rw [trimmed?, trim_space_cons, trim_append_blank (Member.trim_of_hasTypeEnds hends)
      (by simp [hcons]) (by decide), hcons]
  -- The capture stops at the equals sign of the assignment: arrows and the brackets of operands have
  -- been passed.
  have hread : ∃ stop, Intake.read? Component.propsCall.text ⟨Component.letWord.text.reverse,
      annotatedHead.afterKeyword ++ ' ' :: (t ++ ' ' :: '=' :: ' ' ::
        (Component.propsCall.text ++ ['(', ')', ';']))⟩ = some ([], some t, stop) := by
    obtain ⟨stop, hcall⟩ := readCall?_props (' ' :: (t.reverse ++ ' ' ::
      Intake.behindColon annotatedHead Component.letWord.text.reverse)) [';']
    rw [Intake.read?_assignment, hcapture, hcall, htrimmed]
    exact ⟨stop, rfl⟩
  obtain ⟨stop, hread⟩ := hread
  have hcontent : Intake.contentFrom? Component.propsCall.text (ofText (annotated t)) =
      some ([], some t) := by
    rw [annotated_eq, ofText, Intake.contentFrom?_keyword (by decide) rfl
      (annotatedHead.endsWord_afterKeyword _), List.append_nil, hread]
    rfl
  obtain ⟨intake, hfind, hintake⟩ := Option.map_eq_some_iff.mp hcontent
  obtain ⟨hpattern, hascription⟩ := Prod.mk.inj hintake
  exact ⟨intake, hfind, hpattern, hascription⟩

/-- The words of the statement are those of its annotation and two of its own. -/
theorem words_annotated {t : Text} (ht : IsTypeText [] t) :
    Region.code.words [] (annotated t) =
      Component.letWord.text :: (Region.code.words [] t ++ [Component.propsCall.text]) := by
  have hclosed : Region.code.after [] t = .code := (ht.isPassage List.not_mem_nil).closed
  have hhead : Region.code.words [] "let \x7b\x7d:".toList = [Component.letWord.text] ∧
      Region.code.after [] "let \x7b\x7d:".toList = .code := by decide
  have htail : Region.code.words [] "= $props();".toList = [Component.propsCall.text] := by decide
  have hsplit : annotated t = "let \x7b\x7d:".toList ++ ' ' :: (t ++ ' ' :: "= $props();".toList) :=
    rfl
  rw [hsplit, Region.words_append (signFirst_cons _ (by decide)), hhead.1, hhead.2,
    Region.words_sign_cons (by decide), Region.words_append (signFirst_cons _ (by decide)), hclosed,
    Region.words_sign_cons (by decide), htail]
  rfl

/-- The words of the statement are followed as within a type. -/
theorem eachWord_annotated {t : Text} (ht : IsTypeText [] t) :
    Region.code.EachWord IsFollowed [] (annotated t) := by
  have hend : ∀ b, Region.code.EachWord IsFollowed b (['(', ')', ';'] ++ []) :=
    fun b => Region.eachWord_signs (by decide) trivial
  have hcall : ∀ b, Region.code.EachWord IsFollowed b
      (Component.propsCall.text ++ ['(', ')', ';']) := fun b =>
    Region.eachWord_word Component.propsCall (signFirst_cons _ (by decide))
      (fun hkey => absurd hkey (by decide)) (hend _)
  have htail : ∀ b, Region.code.EachWord IsFollowed b
      ([' ', '=', ' '] ++ (Component.propsCall.text ++ ['(', ')', ';'])) :=
    fun b => Region.eachWord_signs (by decide) (hcall _)
  have htype : ∀ b, Region.code.EachWord IsFollowed (' ' :: b)
      (t ++ ([' ', '=', ' '] ++ (Component.propsCall.text ++ ['(', ')', ';']))) :=
    fun b => ht.keepsFollowed (' ' :: b) _ (by simp) (.space _ (by decide)) (htail _)
  exact Region.eachWord_word Component.letWord (signFirst_cons _ (by decide))
    (fun hkey => absurd hkey (by decide))
    (Region.eachWord_signs (u := [' ', '{', '}', ':', ' ']) (by decide) (htype _))

/-- The statement declares at most a type named after the keyword of conditional types. -/
theorem name_of_mem_all_annotated {t : Text} (ht : IsTypeText [] t) {style : Member.Style}
    {d : TypeDeclaration} (hd : d ∈ TypeDeclaration.all style (annotated t)) :
    d.name = Component.extendsWord.text ∧
      Component.interfaceWord.text ∈ Region.code.words [] t := by
  have hwords : ∀ w ∈ Region.code.words [] (annotated t), w = Component.interfaceWord.text →
      Component.interfaceWord.text ∈ Region.code.words [] t := by
    rintro w hw rfl
    have hown : Component.interfaceWord.text ≠ Component.letWord.text ∧
        Component.interfaceWord.text ≠ Component.propsCall.text := by decide
    simpa [words_annotated ht, hown] using hw
  exact TypeDeclaration.name_of_mem_allFrom
    (Region.eachWord_and (eachWord_annotated ht) (Region.eachWord_of_words hwords)) hd

/-! ### Resolution -/

namespace Resolution

/-- References to outside types are listed one after another. -/
theorem run_outside {style : Member.Style} {table : TypeTable} {ps : List Text}
    (hps : ∀ p ∈ ps, IsReference p ∧ withoutArguments p ∉ table.keys) (visited : List Text)
    (members : OrderedMap Text Member) (inherits : List Text) :
    run style table ⟨ps.map .part, visited, members, inherits⟩ =
      ⟨[], visited, members, ps.foldl addNew inherits⟩ := by
  induction ps generalizing inherits with
  | nil =>
      rw [run]
      rfl
  | cons p ps ih =>
      rw [List.forall_mem_cons] at hps
      have hstep : step style table ⟨(p :: ps).map .part, visited, members, inherits⟩ =
          ⟨ps.map .part, visited, members, addNew inherits p⟩ :=
        stepTask_outside (TypePart.of_reference hps.1.1) hps.1.2
      rw [run, dif_neg (by simp), hstep, ih hps.2]
      rfl

end Resolution

/-- A body and references to outside types are resolved to the members of the body and a list of the
references. -/
theorem resolve_joined {style : Member.Style} {table : TypeTable} {body : Text}
    {hbody : IsEnclosed body} {ps : List Text}
    (hps : ∀ p ∈ ps, IsTypeReference p ∧ withoutArguments p ∉ table.keys) (hdistinct : ps.Nodup) :
    resolve style table ((Operand.body body hbody).print ++ printJoined ps) =
      ⟨[], [], OrderedMap.empty.extend (Member.scan style body), ps⟩ := by
  have hparts : topLevelParts typeOperators ((Operand.body body hbody).print ++ printJoined ps) =
      (Operand.body body hbody).print :: ps :=
    partsFrom_joined (fun p hp => (hps p hp).1.exists_operand) (.body body hbody) [] rfl []
  have hstep : Resolution.step style table ⟨((Operand.body body hbody).print :: ps).map .part, [],
      .empty, []⟩ = ⟨ps.map .part, [], OrderedMap.empty.extend (Member.scan style body), []⟩ := by
    change Resolution.stepTask style table _ (.part ('{' :: (body ++ ['}']))) _ = _
    rw [Resolution.stepTask_body (TypePart.of_body body)]
  have hfold : ps.foldl addNew [] = ps := by
    have hall := foldl_addNew [] ps
    rwa [List.nil_append, eraseDups_of_nodup hdistinct] at hall
  rw [resolve, Resolution.start, hparts, Resolution.run, dif_neg (by simp), hstep,
    Resolution.run_outside (fun p hp => ⟨(hps p hp).1.isReference, (hps p hp).2⟩), hfold]

/-! ### Signatures -/

/-- Object types joined with other types are types. -/
theorem IsTypeText.joined {t : Text} (ht : IsTypeText [] t) {ps : List Text}
    (hps : ∀ p ∈ ps, IsTypeText [] p) : IsTypeText [] (t ++ printJoined ps) := by
  induction ps generalizing t with
  | nil => simpa [printJoined] using ht
  | cons p ps ih =>
      rw [List.forall_mem_cons] at hps
      simpa [printJoined_cons] using ih (ht.intersection hps.1) hps.2

theorem isTypeText_body {fs : List TypedName} (hfs : ∀ f ∈ fs, IsTypeText [] f.type) :
    IsTypeText [] ('{' :: (Member.printBody fs ++ ['}'])) := by
  cases fs with
  | nil => exact .empty
  | cons f fs =>
      simpa [Member.printBody, printTrailing] using
        IsTypeText.object (fun f _ => List.not_mem_nil) hfs false

theorem isEnclosed_body {fs : List TypedName} (hfs : ∀ f ∈ fs, IsTypeText [] f.type) :
    IsEnclosed (Member.printBody fs) := by
  have hspace : KeepsNesting [' '] := .flat (by decide)
  have hkeeps : KeepsNesting (separated ';' (fs.map TypedName.print)) :=
    typeClosed_keepsNesting.typedNames (by decide) fun f hf =>
      typeClosed_keepsNesting.typeText (hfs f hf)
  have hpassage : IsPassage [] (separated ';' (fs.map TypedName.print)) :=
    isPassage_typedNames (by decide) (fun _ _ => List.not_mem_nil)
      fun f hf => (hfs f hf).isPassage List.not_mem_nil
  unfold Member.printBody
  split
  · have hnil : IsPassage [] [] := IsPassage.nil
    exact KeepsNesting.nil.isEnclosed hnil
  · exact (hspace.append (hkeeps.append hspace)).isEnclosed
      ((hpassage.append_sign (by decide) IsPassage.nil).sign (by decide))

namespace PropSheet

/-- The signature of the props can be read: their names are distinct identifiers, their types are
written on one line and in normal form, and the outside types are distinct references. -/
structure IsSignable (s : PropSheet) : Prop where
  names : ∀ r ∈ s.props, isIdentifier r.name = true
  distinct : (s.props.map PropRecord.name).Nodup
  types : ∀ r ∈ s.props, IsTypeText [] r.type ∧ normalizeType r.type = r.type
  parents : ∀ p ∈ s.inherits, IsTypeReference p
  apart : s.inherits.Nodup

/-- The props without what a signature does not show. -/
def shown (s : PropSheet) : PropSheet :=
  { s with props := s.props.map fun r => { r with bindable := false, default := none, doc := none } }

theorem exists_fields {rs : List PropRecord} (hnames : ∀ r ∈ rs, isIdentifier r.name = true)
    (htypes : ∀ r ∈ rs, IsTypeText [] r.type ∧ normalizeType r.type = r.type) :
    ∃ fs : List TypedName, (∀ f ∈ fs, IsTypeText [] f.type) ∧
      fs.map TypedName.print = rs.map PropRecord.signature ∧
      fs.map (fun f => (f.name.text, Member.ofTypedName f none)) =
        rs.map fun r => (r.name, ⟨r.name, r.type, !r.required, none⟩) := by
  induction rs with
  | nil => exact ⟨[], by simp⟩
  | cons r rs ih =>
      rw [List.forall_mem_cons] at hnames htypes
      obtain ⟨fs, hfs, hprint, hmembers⟩ := ih hnames.2 htypes.2
      refine ⟨⟨⟨r.name, hnames.1⟩, !r.required, r.type⟩ :: fs, ?_, ?_, ?_⟩
      · exact List.forall_mem_cons.mpr ⟨htypes.1.1, hfs⟩
      · rw [List.map_cons, List.map_cons, hprint, PropRecord.signature, htypes.1.2]
        cases hrequired : r.required <;> simp [TypedName.print, printMark]
      · rw [List.map_cons, List.map_cons, hmembers]
        rfl

theorem signature_eq {s : PropSheet} {fs : List TypedName}
    (hprint : fs.map TypedName.print = s.props.map PropRecord.signature) :
    s.signature = '{' :: (Member.printBody fs ++ ['}']) ++ printJoined s.inherits := by
  have hempty : s.props.isEmpty = fs.isEmpty := by
    have hlength := congrArg List.isEmpty hprint
    simpa using hlength.symm
  rw [signature, ← hprint, Member.printBody, hempty]
  cases fs.isEmpty <;> simp [separated, printJoined]

/-- The types that the statement of a signature declares. -/
def signatureTypes (s : PropSheet) : TypeTable := TypeTable.ofScripts {} [annotated s.signature]

theorem mem_keys_signatureTypes {s : PropSheet} {name : Text} :
    name ∈ s.signatureTypes.keys ↔
      ∃ d ∈ TypeDeclaration.all {} (annotated s.signature), d.name = name := by
  simp [signatureTypes, TypeTable.ofScripts, TypeTable.keys_foldl_declare]

/-- The members that a signature shows. -/
def shownMembers (s : PropSheet) : OrderedMap Text Member :=
  .ofList (s.props.map fun r => (r.name, ⟨r.name, r.type, !r.required, none⟩))

namespace IsSignable

variable {s : PropSheet} (h : s.IsSignable)

include h

theorem unite_shownMembers : unite {} s.shownMembers s.inherits [] = s.shown := by
  have hentries : s.shownMembers.entries =
      s.props.map fun r => (r.name, ⟨r.name, r.type, !r.required, none⟩) :=
    OrderedMap.entries_ofList_of_nodup (by simpa [Function.comp_def] using h.distinct)
  rw [unite, shown]
  congr 1
  simp [hentries, OrderedMap.mapValues, OrderedMap.values, PropRecord.withFallback_empty,
    PropRecord.ofMember, Member.required, Function.comp_def]

theorem exists_body :
    ∃ (body : Text) (hbody : IsEnclosed body),
      s.signature = (Operand.body body hbody).print ++ printJoined s.inherits ∧
        IsTypeText [] s.signature ∧
        OrderedMap.empty.extend (Member.scan {} body) = s.shownMembers := by
  obtain ⟨fs, hfs, hprint, hmembers⟩ := exists_fields h.names h.types
  have hsignature := signature_eq hprint
  refine ⟨Member.printBody fs, isEnclosed_body hfs, hsignature, ?_, ?_⟩
  · rw [hsignature]
    exact (isTypeText_body hfs).joined fun p hp => (h.parents p hp).isTypeText
  · rw [Member.scan_body hfs, hmembers, shownMembers]
    exact OrderedMap.ofList_extend_ofList [] _

theorem isTypeText_signature : IsTypeText [] s.signature :=
  let ⟨_, _, _, htype, _⟩ := h.exists_body
  htype

/-- Reading the statement of a signature is resolving the signature. -/
theorem ofScripts_eq : ofScripts {} [annotated s.signature] =
    unite {} (resolve {} s.signatureTypes s.signature).members
      (resolve {} s.signatureTypes s.signature).inherits [] := by
  obtain ⟨body, hbody, hsignature, htype, -⟩ := h.exists_body
  obtain ⟨intake, hfind, hpattern, hascription⟩ := find?_annotated
    (fun p hp => (h.parents p hp).exists_operand) hsignature htype.hasTypeEnds
  have hfirst : Intake.find? ({} : Settings).intakeCall (annotated s.signature) = some intake := hfind
  have hbindings : Binding.ofPattern ({} : Settings).normalizeDefaults [] = [] := by decide
  have hstyle : ({} : Settings).memberStyle = {} := rfl
  simp only [ofScripts, List.findSome?_cons, hfirst, ofIntake, hpattern, hascription, hstyle,
    hbindings, signatureTypes]

theorem resolve_signature (hfree : ∀ p ∈ s.inherits, withoutArguments p ∉ s.signatureTypes.keys) :
    resolve {} s.signatureTypes s.signature = ⟨[], [], s.shownMembers, s.inherits⟩ := by
  obtain ⟨body, hbody, hsignature, -, hmembers⟩ := h.exists_body
  have hjoined : resolve {} s.signatureTypes
      ((Operand.body body hbody).print ++ printJoined s.inherits) = _ :=
    resolve_joined (fun p hp => ⟨h.parents p hp, hfree p hp⟩) h.apart
  rw [hmembers] at hjoined
  exact (congrArg (resolve {} _) hsignature).trans hjoined

/-- The sheet is read back if and only if the statement declares none of its outside types. -/
theorem ofScripts_eq_shown_iff : ofScripts {} [annotated s.signature] = s.shown ↔
    ∀ p ∈ s.inherits, withoutArguments p ∉ s.signatureTypes.keys := by
  constructor
  · intro hread p hp
    rw [h.ofScripts_eq] at hread
    have hinherits : (resolve {} s.signatureTypes s.signature).inherits = s.inherits :=
      congrArg PropSheet.inherits hread
    rw [← hinherits, mem_inherits_resolve_iff] at hp
    exact hp.2.2
  · intro hfree
    rw [h.ofScripts_eq, h.resolve_signature hfree]
    exact h.unite_shownMembers

end IsSignable

/-- Props and outside types are read back from their signature if none of the outside types is named
`extends` or no identifier `interface` is there to declare it. In general they are read back if and
only if the statement declares none of the outside types. -/
theorem ofScripts_signature {s : PropSheet} (h : s.IsSignable) :
    ((∀ p ∈ s.inherits, withoutArguments p ≠ Component.extendsWord.text) ∨
        Component.interfaceWord.text ∉ Region.code.words [] s.signature →
      ofScripts {} [annotated s.signature] = s.shown) ∧
    (ofScripts {} [annotated s.signature] = s.shown ↔
      ∀ p ∈ s.inherits, withoutArguments p ∉ s.signatureTypes.keys) := by
  refine ⟨fun hfree => h.ofScripts_eq_shown_iff.mpr fun p hp hkey => ?_, h.ofScripts_eq_shown_iff⟩
  obtain ⟨d, hd, hname⟩ := mem_keys_signatureTypes.mp hkey
  obtain ⟨hextends, hinterface⟩ := name_of_mem_all_annotated h.isTypeText_signature hd
  rcases hfree with hparents | hwords
  · exact hparents p hp (hname.symm.trans hextends)
  · exact hwords hinterface

/-- A conditional type that is read as the declaration of an interface. -/
def kindType : TypeExpr :=
  .conditional (.name Component.interfaceWord)
    (.object [.mk ⟨"b".toList, by decide⟩ false (.name ⟨"T".toList, by decide⟩)] false)
    (.name ⟨"X".toList, by decide⟩) (.name ⟨"Y".toList, by decide⟩)

def kindProp : PropRecord := ⟨"a".toList, kindType.print, true, false, none, none⟩

theorem kindProp_type : IsTypeText [] kindProp.type ∧ normalizeType kindProp.type = kindProp.type :=
  ⟨kindType.isTypeText_print, by decide +kernel⟩

/-- The type of a callback, with signs of all sorts in its literals and brackets. -/
def callbackType : TypeExpr :=
  .function
    [.mk ⟨"item".toList, by decide⟩ true (.union
      (.literal ⟨'"', "a; b => ? & c".toList, by decide, by decide⟩)
      (.object [.mk Component.letWord true (.array (.name ⟨"T".toList, by decide⟩))] true))]
    (.generic ⟨"Map".toList, by decide⟩ [.tuple [.name ⟨"X".toList, by decide⟩], kindType])

/-- Props with a callback, and outside types with type arguments among them. -/
def callbackSheet : PropSheet where
  props := [⟨"pick".toList, callbackType.print, false, true, some "null".toList, none⟩, kindProp]
  inherits := ["Base".toList, "Box<[X], T>".toList]

theorem isSignable_callbackSheet : callbackSheet.IsSignable where
  names := by decide
  distinct := by decide
  types := List.forall_mem_cons.mpr ⟨⟨callbackType.isTypeText_print, by decide +kernel⟩,
    List.forall_mem_singleton.mpr kindProp_type⟩
  parents := by
    have htypes : ∀ t ∈ ["[X]".toList, "T".toList], IsTypeText [] t :=
      List.forall_mem_cons.mpr ⟨(TypeExpr.tuple [.name ⟨"X".toList, by decide⟩]).isTypeText_print,
        List.forall_mem_singleton.mpr (.name ⟨"T".toList, by decide⟩ List.not_mem_nil)⟩
    exact List.forall_mem_cons.mpr ⟨.name ⟨"Base".toList, by decide⟩,
      List.forall_mem_singleton.mpr (.applied ⟨"Box".toList, by decide⟩ htypes)⟩
  apart := by decide

theorem ofScripts_signature_callback : callbackSheet.IsSignable ∧
    ofScripts {} [annotated callbackSheet.signature] = callbackSheet.shown := by
  have hparents : ∀ p ∈ callbackSheet.inherits, withoutArguments p ≠ Component.extendsWord.text :=
    List.forall_mem_cons.mpr ⟨by decide, List.forall_mem_singleton.mpr (by decide)⟩
  exact ⟨isSignable_callbackSheet, (ofScripts_signature isSignable_callbackSheet).1 (Or.inl hparents)⟩

/-- Props with an outside type named like the keyword of conditional types. -/
def extendsSheet : PropSheet := ⟨[kindProp], [Component.extendsWord.text]⟩

/-- An outside type is taken for the type that a conditional type declares. -/
theorem conditional_declares_parent :
    ¬ ∀ s : PropSheet, s.IsSignable →
      (∀ r ∈ s.props, r.name.length ≤ 100 ∧ r.name ∉ Component.reservedWords) →
        ofScripts {} [annotated s.signature] = s.shown := by
  intro hclaim
  have hsignable : extendsSheet.IsSignable :=
    { names := by decide
      distinct := by decide
      types := List.forall_mem_singleton.mpr kindProp_type
      parents := List.forall_mem_singleton.mpr (.name Component.extendsWord)
      apart := by decide }
  have hdeclared : withoutArguments Component.extendsWord.text ∈ extendsSheet.signatureTypes.keys := by
    decide +kernel
  have hread := hclaim extendsSheet hsignable (by decide)
  exact hsignable.ofScripts_eq_shown_iff.mp hread _ List.mem_cons_self hdeclared

end PropSheet

end ComponentProps
