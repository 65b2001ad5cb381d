import ComponentProps.Proofs.ComponentSyntax
import ComponentProps.Proofs.KeywordSearch
import Mathlib.Data.Bool.AllAny

/-!
# Reading printed declarations

A printed declaration is read back: its name, the list of its parents and the members of its body.
Reading ends with the declaration, so that a search through a script meets each declaration once.
-/

namespace ComponentProps

open Text

/-! ### Lists of names -/

namespace Text

theorem trim_spaces_append {lead : Text} (h : ∀ c ∈ lead, c = ' ') (t : Text) :
    trim (lead ++ t) = trim t := by
  induction lead with
  | nil => rfl
  | cons c lead ih =>
      obtain rfl : c = ' ' := h c List.mem_cons_self
      rw [List.cons_append, trim_space_cons, ih fun d hd => h d (List.mem_cons_of_mem _ hd)]

theorem isBlank_spaces {t : Text} (h : ∀ c ∈ t, c = ' ') : isBlank t = true := by
  rw [isBlank, List.all_eq_true]
  intro c hc
  rw [h c hc]
  decide

theorem trimmed?_spaces {t : Text} (h : ∀ c ∈ t, c = ' ') : trimmed? t = none := by
  have htrim := trim_spaces_append h []
  rw [List.append_nil] at htrim
  rw [trimmed?, htrim]
  rfl

/-- A name between spaces. -/
theorem trimmed?_identifier (n : Identifier) {lead trail : Text} (hl : ∀ c ∈ lead, c = ' ')
    (ht : ∀ c ∈ trail, c = ' ') : trimmed? (lead ++ (n.text ++ trail)) = some n.text := by
  have htrim : trim (lead ++ (n.text ++ trail)) = n.text := by
    rw [trim_spaces_append hl,
      trim_append_blank (Member.trim_of_hasTypeEnds n.hasTypeEnds) n.ne_nil (isBlank_spaces ht)]
  obtain ⟨c, more, htext, -⟩ := n.exists_cons
  rw [trimmed?, htrim, htext]

variable {separators : List Char}

/-- Flat text is cut at a separator. -/
theorem topLevelParts_append {s t : Text} {c : Char} (hs : ∀ d ∈ s, IsFlat d)
    (ht : ∀ d ∈ t, IsFlat d) (hc : IsFlat c) (hsep : c ∈ separators) :
    topLevelParts separators (s ++ c :: t) =
      topLevelParts separators s ++ topLevelParts separators t := by
  have hall : ∀ d ∈ s ++ c :: t, IsFlat d :=
    List.forall_mem_append.mpr ⟨hs, List.forall_mem_cons.mpr ⟨hc, ht⟩⟩
  rw [topLevelParts_flat hall, topLevelParts_flat hs, topLevelParts_flat ht,
    List.splitOnP_append_cons _ _ (by simpa using hsep), List.filterMap_append]

theorem topLevelParts_single {t : Text} (ht : ∀ d ∈ t, IsFlat d ∧ d ∉ separators) :
    topLevelParts separators t = (trimmed? t).toList := by
  rw [topLevelParts_flat fun d hd => (ht d hd).1,
    List.splitOnP_eq_singleton fun d hd => by simpa using (ht d hd).2]
  cases h : trimmed? t <;> simp [h]

end Text

namespace Component

/-- The separators of a list of names. -/
def nameSeparators : List Char := [',', '&', '|']

theorem flat_spaces {t : Text} (h : ∀ c ∈ t, c = ' ') {separators : List Char}
    (hsub : separators ⊆ nameSeparators) : ∀ c ∈ t, IsFlat c ∧ c ∉ separators := by
  intro c hc
  rw [h c hc]
  exact ⟨by decide, fun hmem => absurd (hsub hmem) (by decide)⟩

theorem flat_name (n : Name) {separators : List Char} (hsub : separators ⊆ nameSeparators) :
    ∀ c ∈ n.text, IsFlat c ∧ c ∉ separators := by
  intro c hc
  have hident := n.identifier.isIdentChar_of_mem hc
  have hno : c ∉ nameSeparators := not_mem_of_kind hident rfl
  exact ⟨isFlat_of_isIdentChar hident, fun hmem => hno (hsub hmem)⟩

/-- The characters of lists of names. -/
def isListChar (c : Char) : Bool := isIdentChar c || c == ' ' || nameSeparators.contains c

theorem isFlat_of_isListChar {c : Char} (h : isListChar c = true) : IsFlat c := by
  simp only [isListChar, Bool.or_eq_true, beq_iff_eq, List.contains_eq_mem, decide_eq_true_eq] at h
  rcases h with (h | rfl) | h
  · exact isFlat_of_isIdentChar h
  · decide
  · have hall : ∀ d ∈ nameSeparators, IsFlat d := List.all_iff_forall_prop.mp (by decide)
    exact hall c h

theorem isListChar_name (n : Name) : ∀ c ∈ n.text, isListChar c = true := by
  intro c hc
  simp [isListChar, n.identifier.isIdentChar_of_mem hc]

theorem isListChar_more {separator : Text} (h : separator.all isListChar = true)
    (names : List Name) : ∀ c ∈ printMore separator names, isListChar c = true := by
  intro c hc
  obtain ⟨n, -, hmem⟩ := List.mem_flatMap.mp hc
  rcases List.mem_append.mp hmem with hsep | hname
  · exact List.all_eq_true.mp h c hsep
  · exact isListChar_name n c hname

theorem isListChar_names {separator : Text} (h : separator.all isListChar = true)
    (first : Name) (more : List Name) :
    ∀ c ∈ first.text ++ printMore separator more, isListChar c = true :=
  List.forall_mem_append.mpr ⟨isListChar_name first, isListChar_more h more⟩

theorem isListChar_each (names : List Name) : ∀ c ∈ printEach names, isListChar c = true := by
  intro c hc
  obtain ⟨n, -, hmem⟩ := List.mem_flatMap.mp hc
  exact List.forall_mem_append.mpr ⟨isListChar_name n, List.all_eq_true.mp (by decide)⟩ c hmem

/-- A list of names is cut into its names. The separator may have spaces on both sides. -/
theorem topLevelParts_names {separators : List Char} (hsub : separators ⊆ nameSeparators) {c : Char}
    (hc : c ∈ separators) {pre post : Text} (hpre : ∀ d ∈ pre, d = ' ')
    (hpost : ∀ d ∈ post, d = ' ') (first : Name) (more : List Name) {lead trail : Text}
    (hlead : ∀ d ∈ lead, d = ' ') (htrail : ∀ d ∈ trail, d = ' ') :
    topLevelParts separators
        (lead ++ (first.text ++ (printMore (pre ++ c :: post) more ++ trail))) =
      first.text :: more.map Name.text := by
  have hlist : isListChar c = true := by simp [isListChar, hsub hc]
  have hspaces : ∀ {t : Text}, (∀ d ∈ t, d = ' ') → ∀ d ∈ t, isListChar d = true := by
    intro t h d hd
    rw [h d hd]
    decide
  induction more generalizing first lead with
  | nil =>
      have hall : ∀ d ∈ lead ++ (first.text ++ trail), IsFlat d ∧ d ∉ separators :=
        List.forall_mem_append.mpr ⟨flat_spaces hlead hsub,
          List.forall_mem_append.mpr ⟨flat_name first hsub, flat_spaces htrail hsub⟩⟩
      have hprint : lead ++ (first.text ++ (printMore (pre ++ c :: post) [] ++ trail)) =
          lead ++ (first.text ++ trail) := rfl
      rw [hprint, topLevelParts_single hall]
      exact congrArg Option.toList (trimmed?_identifier first.identifier hlead htrail)
  | cons n more ih =>
      have hsep : ∀ d ∈ pre ++ c :: post, isListChar d = true := List.forall_mem_append.mpr
        ⟨hspaces hpre, List.forall_mem_cons.mpr ⟨hlist, hspaces hpost⟩⟩
      have hhead : ∀ d ∈ lead ++ (first.text ++ pre), IsFlat d ∧ d ∉ separators :=
        List.forall_mem_append.mpr ⟨flat_spaces hlead hsub,
          List.forall_mem_append.mpr ⟨flat_name first hsub, flat_spaces hpre hsub⟩⟩
      have htail : ∀ d ∈ post ++ (n.text ++ (printMore (pre ++ c :: post) more ++ trail)),
          isListChar d = true :=
        List.forall_mem_append.mpr ⟨hspaces hpost, List.forall_mem_append.mpr ⟨isListChar_name n,
          List.forall_mem_append.mpr ⟨isListChar_more (List.all_eq_true.mpr hsep) more,
            hspaces htrail⟩⟩⟩
      have hprint : lead ++ (first.text ++ (printMore (pre ++ c :: post) (n :: more) ++ trail)) =
          (lead ++ (first.text ++ pre)) ++ c ::
            (post ++ (n.text ++ (printMore (pre ++ c :: post) more ++ trail))) := by
        simp [printMore]
      rw [hprint, topLevelParts_append (fun d hd => (hhead d hd).1)
        (fun d hd => isFlat_of_isListChar (htail d hd)) (isFlat_of_isListChar hlist) hc,
        topLevelParts_single hhead, ih n hpost]
      have hfirst := trimmed?_identifier first.identifier hlead hpre
      change (trimmed? (lead ++ (first.identifier.text ++ pre))).toList ++ _ = _
      rw [hfirst]
      rfl

/-- An intersection of names is cut into its names. -/
theorem topLevelParts_intersection {separators : List Char} (hsub : separators ⊆ nameSeparators)
    (hc : '&' ∈ separators) (first : Name) (more : List Name) {trail : Text}
    (htrail : ∀ d ∈ trail, d = ' ') :
    topLevelParts separators (first.text ++ (printMore [' ', '&', ' '] more ++ trail)) =
      (first :: more).map Name.text :=
  topLevelParts_names hsub hc (List.forall_mem_singleton.mpr rfl)
    (List.forall_mem_singleton.mpr rfl) first more (List.forall_mem_nil _) htrail

theorem printEach_cons (first : Name) (more : List Name) :
    printEach (first :: more) =
      (first.text ++ (printMore [' ', '&', ' '] more ++ [' '])) ++ '&' :: [' '] := by
  induction more generalizing first with
  | nil => simp [printEach, printMore]
  | cons n more ih =>
      have hcons : printEach (first :: n :: more) =
          first.text ++ ([' ', '&', ' '] ++ printEach (n :: more)) := by simp [printEach]
      rw [hcons, ih]
      simp [printMore]

theorem topLevelParts_each (names : List Name) :
    topLevelParts ['&', '|'] (printEach names) = names.map Name.text := by
  cases names with
  | nil => rfl
  | cons first more =>
      have hspace : ∀ d ∈ [' '], d = ' ' := List.forall_mem_singleton.mpr rfl
      have hflat := flat_spaces hspace (List.Subset.refl nameSeparators)
      have hlist := isListChar_each (first :: more)
      rw [printEach_cons] at hlist ⊢
      rw [List.forall_mem_append] at hlist
      rw [topLevelParts_append (fun d hd => isFlat_of_isListChar (hlist.1 d hd))
        (fun d hd => (hflat d hd).1) (by decide) (by decide),
        topLevelParts_intersection (by decide) (by decide) _ _ hspace,
        topLevelParts_single (flat_spaces hspace (by decide)), trimmed?_spaces hspace]
      exact List.append_nil _

/-! ### Passages -/

theorem signFirst_more {c : Char} (hc : IsSign c) (separator : Text) (names : List Name)
    {t : Text} (ht : SignFirst t) : SignFirst (printMore (c :: separator) names ++ t) := by
  cases names with
  | nil => exact ht
  | cons n names => exact signFirst_cons _ hc

theorem signFirst_extends (parents : List Name) {t : Text} (ht : SignFirst t) :
    SignFirst (Declaration.printExtends parents ++ t) := by
  cases parents with
  | nil => exact ht
  | cons first more => exact signFirst_cons _ (by decide)

section

variable {keys : List Text} (hkeys : keys ⊆ reservedWords)

include hkeys

theorem isPassage_name (n : Name) : IsPassage keys n.text :=
  IsPassage.word n.identifier fun hmem => n.free (hkeys hmem)

theorem isPassage_more {c : Char} {separator : Text}
    (hsigns : (c :: separator).all (IsJoint ·) = true) (names : List Name) :
    IsPassage keys (printMore (c :: separator) names) := by
  induction names with
  | nil => exact IsPassage.nil
  | cons n names ih =>
      have hc : IsJoint c := List.all_iff_forall_prop.mp hsigns c List.mem_cons_self
      have hnext : SignFirst (printMore (c :: separator) names) := by
        simpa using signFirst_more hc.1 separator names signFirst_nil
      have hprint : printMore (c :: separator) (n :: names) =
          (c :: separator) ++ (n.text ++ printMore (c :: separator) names) := by simp [printMore]
      rw [hprint]
      exact ((isPassage_name hkeys n).append ih hnext).signs (c :: separator) hsigns

theorem isPassage_intersection (first : Name) (more : List Name) :
    IsPassage keys (first.text ++ printMore [' ', '&', ' '] more) := by
  refine (isPassage_name hkeys first).append (isPassage_more hkeys (by decide) more) ?_
  simpa using signFirst_more (by decide) ['&', ' '] more signFirst_nil

theorem isPassage_each (names : List Name) : IsPassage keys (printEach names) := by
  induction names with
  | nil => exact IsPassage.nil
  | cons n names ih =>
      have hprint : printEach (n :: names) =
          n.text ++ ' ' :: (['&', ' '] ++ printEach names) := by simp [printEach]
      rw [hprint]
      exact (isPassage_name hkeys n).append_sign (by decide) (ih.signs ['&', ' '] (by decide))

theorem isPassage_properties (hextends : "extends".toList ∉ keys) (ps : List Property) :
    IsPassage keys (printProperties ps) := by
  induction ps with
  | nil => exact IsPassage.nil
  | cons p ps ih =>
      have htype := p.type.isPassage hextends fun n hn hmem => p.free n hn (hkeys hmem)
      have hprint : printProperties (p :: ps) = p.key.text ++ (printMark p.optional ++
          ':' :: ' ' :: (p.type.print ++ ';' :: ([' '] ++ printProperties ps))) := by
        simp [printProperties, Member.Declared.print, Property.declared, Member.printModifier,
          Name.text]
      have hcolon : IsPassage keys (':' :: ' ' :: (p.type.print ++ ';' ::
          ([' '] ++ printProperties ps))) :=
        (htype.append_sign (by decide) (ih.signs [' '] (by decide))).signs [':', ' '] (by decide)
      have hfirst : SignFirst (':' :: ' ' :: (p.type.print ++ ';' ::
          ([' '] ++ printProperties ps))) := signFirst_cons _ (by decide)
      rw [hprint]
      exact (isPassage_name hkeys p.key).append ((isPassage_mark p.optional).append hcolon hfirst)
        (signFirst_mark p.optional hfirst)

theorem isPassage_extends (hextends : "extends".toList ∉ keys) (parents : List Name) :
    IsPassage keys (Declaration.printExtends parents) := by
  cases parents with
  | nil => exact IsPassage.nil
  | cons first more =>
      have hmore : IsPassage keys (printMore [',', ' '] more) :=
        isPassage_more hkeys (by decide) more
      have hnames := (isPassage_name hkeys first).append hmore (by
        simpa using signFirst_more (by decide) [' '] more signFirst_nil)
      have hword := IsPassage.word extendsWord hextends
      exact (hword.append_sign (by decide) hnames).sign (by decide)

theorem isPassage_body (hextends : "extends".toList ∉ keys) (ps : List Property) :
    IsPassage keys (printBody ps) :=
  ((isPassage_properties hkeys hextends ps).sign (by decide)).braced

end

/-- A declaration is passed over by a search for other words than its keyword. -/
theorem Declaration.isPassage (d : Declaration) : IsPassage Intake.keywords d.print := by
  have hkeys : Intake.keywords ⊆ reservedWords := by decide
  have hextends : "extends".toList ∉ Intake.keywords := by decide
  have halias : ∀ name {side}, IsPassage Intake.keywords side →
      IsPassage Intake.keywords (Declaration.printAlias name side) := by
    intro name side hside
    have hright : IsPassage Intake.keywords (side ++ [';']) :=
      hside.append_sign (by decide) IsPassage.nil
    refine (IsPassage.word typeWord (by decide)).append_sign (by decide) ?_
    exact (isPassage_name hkeys name).append_sign (by decide) (hright.signs ['=', ' '] (by decide))
  cases d with
  | interface name parents properties =>
      have hbody : IsPassage Intake.keywords (' ' :: printBody properties) :=
        (isPassage_body hkeys hextends properties).sign (by decide)
      have hspace : SignFirst (' ' :: printBody properties) := signFirst_cons _ (by decide)
      have hclause := isPassage_extends hkeys hextends parents
      refine (IsPassage.word interfaceWord (by decide)).append_sign (by decide) ?_
      exact (isPassage_name hkeys name).append (hclause.append hbody hspace)
        (signFirst_extends parents hspace)
  | body name parents properties =>
      have hbody := isPassage_body hkeys hextends properties
      have hfirst : SignFirst (printBody properties) := signFirst_cons _ (by decide)
      exact halias name ((isPassage_each hkeys parents).append hbody hfirst)
  | reference name first more =>
      exact halias name (isPassage_intersection hkeys first more)

/-! ### Bodies -/

def Property.entry (p : Property) : Text × Member := (p.key.text, p.declared.toMember none)

theorem finish_run_properties (ps : List Property) (behind : Text)
    (members : OrderedMap Text Member) :
    ((Member.Scan.mk ⟨behind, printProperties ps⟩ .seeking none members).run {}).finish {} =
      members.insertAll (ps.map Property.entry) := by
  induction ps generalizing behind members with
  | nil =>
      rw [Member.Scan.run_end rfl]
      rfl
  | cons p ps ih =>
      have hprint : printProperties (p :: ps) =
          p.declared.print ++ ';' :: ([' '] ++ printProperties ps) := by simp [printProperties]
      have hends : Member.EndsType (';' :: ([' '] ++ printProperties ps)) :=
        Member.endsType_sign _ (by decide)
      rw [hprint, Member.Scan.run_declared p.declared hends,
        Member.Scan.run_separator p.declared (Or.inl rfl), Member.Scan.afterMember,
        Member.Scan.run_gap (by decide), ih]
      rfl

/-- The members of a body are its properties. -/
theorem scan_properties (ps : List Property) :
    Member.scan {} (' ' :: printProperties ps) = OrderedMap.ofList (ps.map Property.entry) := by
  have hspace : (Member.Scan.start (' ' :: printProperties ps)).run {} =
      (Member.Scan.mk ⟨[' '], printProperties ps⟩ .seeking none .empty).run {} :=
    Member.Scan.run_gap (show isBlank [' '] = true by decide)
  rw [Member.scan, hspace, finish_run_properties]
  rfl

/-! ### Reading -/

open TypeDeclaration

variable {behind rest : Text}

/-- The declaration that is read. -/
def Declaration.toTypeDeclaration (d : Declaration) : TypeDeclaration :=
  ⟨d.name.text, ⟨OrderedMap.ofList (d.properties.map Property.entry),
    (d.parents.map Name.text).foldl addNew []⟩⟩

theorem readName?_identifier (n : Identifier) {c : Char}
    (hc : (IsPlain c ∧ isWhite c = false) ∧ c ≠ '<') :
    readName? ⟨behind, ' ' :: (n.text ++ ' ' :: c :: rest)⟩ =
      some (n.text, ⟨' ' :: (n.text.reverse ++ ' ' :: behind), c :: rest⟩) := by
  have hspace : SignFirst (' ' :: c :: rest) := signFirst_cons _ (by decide)
  rw [readName?, Cursor.skipTrivia_space_identifier, Cursor.readIdent?_identifier n hspace]
  dsimp only
  rw [Cursor.skipTrivia_space hc.1]
  simp [Cursor.current?, hc.2]

theorem readName?_print (n : Name) {c : Char} (hc : (IsPlain c ∧ isWhite c = false) ∧ c ≠ '<') :
    readName? ⟨behind, ' ' :: (n.text ++ ' ' :: c :: rest)⟩ =
      some (n.text, ⟨' ' :: (n.text.reverse ++ ' ' :: behind), c :: rest⟩) :=
  readName?_identifier n.identifier hc

theorem readGroup_body (ps : List Property) :
    Cursor.readGroup ⟨behind, printBody ps ++ rest⟩ '{' '}' =
      (' ' :: printProperties ps, ⟨(printBody ps).reverse ++ behind, rest⟩) := by
  have hpassage : IsPassage [] (' ' :: printProperties ps) :=
    (isPassage_properties (by simp) (by simp) ps).sign (by decide)
  have hprint : printBody ps ++ rest = '{' :: (' ' :: printProperties ps ++ '}' :: rest) := by
    simp [printBody]
  rw [hprint, Cursor.readGroup_balanced (by decide) (by decide) (by decide) hpassage.closed
    hpassage.braces]
  simp [printBody]

/-- The parents of an interface between its keyword and its body. -/
def printClause (first : Name) (more : List Name) : Text :=
  ' ' :: (first.text ++ (printMore [',', ' '] more ++ [' ']))

theorem isListChar_clause (first : Name) (more : List Name) :
    ∀ c ∈ printClause first more, isListChar c = true := by
  have hprint : printClause first more =
      ' ' :: ((first.text ++ printMore [',', ' '] more) ++ [' ']) := by simp [printClause]
  have hspace : isListChar ' ' = true := by decide
  rw [hprint]
  refine List.forall_mem_cons.mpr ⟨hspace, List.forall_mem_append.mpr ⟨?_, ?_⟩⟩
  · exact isListChar_names (by decide) first more
  · exact List.forall_mem_singleton.mpr hspace

/-- The parents of an interface are read up to its body. -/
theorem readExtends_clause (first : Name) (more : List Name) :
    readExtends ⟨behind, extendsWord.text ++ (printClause first more ++ '{' :: rest)⟩ =
      (((first :: more).map Name.text).foldl addNew [],
        ⟨(printClause first more).reverse ++ (extendsWord.text.reverse ++ behind),
          '{' :: rest⟩) := by
  have hword : Cursor.atWord ⟨behind, extendsWord.text ++ (printClause first more ++ '{' :: rest)⟩
      "extends".toList = true :=
    Cursor.atWord_identifier extendsWord (signFirst_cons _ (by decide))
  have hadvance : Cursor.advanceBy ⟨behind, extendsWord.text ++ (printClause first more ++
      '{' :: rest)⟩ "extends".length =
        ⟨extendsWord.text.reverse ++ behind, printClause first more ++ '{' :: rest⟩ :=
    Cursor.advanceBy_length behind extendsWord.text _
  have hflat : ∀ d ∈ printClause first more, IsFlat d :=
    fun d hd => isFlat_of_isListChar (isListChar_clause first more d hd)
  have hgo : ∀ d ∈ printClause first more, ∀ taken behind rest,
      (fun (_ : Text) (c : Cursor) => c.current? == some '{') taken ⟨behind, d :: rest⟩ =
        false := by
    intro d hd _ _ _
    simpa [Cursor.current?] using ne_of_kind (isListChar_clause first more d hd) rfl
  have hparts : topLevelParts [','] (printClause first more) = (first :: more).map Name.text :=
    topLevelParts_names (List.cons_subset.mpr ⟨by decide, List.nil_subset _⟩) List.mem_cons_self
      (List.forall_mem_nil _) (List.forall_mem_singleton.mpr rfl) first more
      (List.forall_mem_singleton.mpr rfl) (List.forall_mem_singleton.mpr rfl)
  rw [readExtends, if_pos hword, hadvance,
    Cursor.capture_flat hflat hgo (by decide) rfl]
  dsimp only
  rw [hparts]

/-- An interface is read back. -/
theorem readInterface?_print (name : Name) (parents : List Name) (ps : List Property) :
    readInterface? {} ⟨behind, ' ' :: (name.text ++ (Declaration.printExtends parents ++
        ' ' :: (printBody ps ++ rest)))⟩ =
      some ((Declaration.interface name parents ps).toTypeDeclaration,
        ⟨(printBody ps).reverse ++ (' ' :: ((Declaration.printExtends parents).reverse ++
          (name.text.reverse ++ ' ' :: behind))), rest⟩) := by
  obtain ⟨t, ht⟩ : ∃ t, printBody ps ++ rest = '{' :: t := ⟨_, rfl⟩
  have hcurrent : ∀ b, Cursor.current? ⟨b, printBody ps ++ rest⟩ = some '{' := fun _ => rfl
  cases parents with
  | nil =>
      have hname : readName? ⟨behind, ' ' :: (name.text ++ ' ' :: (printBody ps ++ rest))⟩ =
          some (name.text, ⟨' ' :: (name.text.reverse ++ ' ' :: behind),
            printBody ps ++ rest⟩) := by
        rw [ht]
        exact readName?_print name (by decide)
      have hextends : ∀ b, readExtends ⟨b, printBody ps ++ rest⟩ =
          ([], ⟨b, printBody ps ++ rest⟩) := by
        intro b
        rw [ht]
        rfl
      simp only [Declaration.printExtends, List.nil_append, readInterface?, hname, hextends,
        Option.bind_eq_bind, Option.bind_some, hcurrent, if_true, readGroup_body, scan_properties]
      rfl
  | cons first more =>
      have hprint : Declaration.printExtends (first :: more) ++ ' ' :: (printBody ps ++ rest) =
          ' ' :: (extendsWord.text ++ (printClause first more ++ (printBody ps ++ rest))) := by
        simp [Declaration.printExtends, printClause]
      have hname : ∀ u, readName? ⟨behind, ' ' :: (name.text ++ ' ' :: (extendsWord.text ++ u))⟩ =
          some (name.text, ⟨' ' :: (name.text.reverse ++ ' ' :: behind), extendsWord.text ++ u⟩) :=
        fun u => readName?_print name (by decide)
      have hextends : ∀ b, readExtends ⟨b, extendsWord.text ++ (printClause first more ++
          (printBody ps ++ rest))⟩ = (((first :: more).map Name.text).foldl addNew [],
            ⟨(printClause first more).reverse ++ (extendsWord.text.reverse ++ b),
              printBody ps ++ rest⟩) := by
        intro b
        rw [ht]
        exact readExtends_clause first more
      simp only [hprint, readInterface?, hname, hextends, Option.bind_eq_bind, Option.bind_some,
        hcurrent, if_true, readGroup_body, scan_properties]
      simp [Declaration.toTypeDeclaration, Declaration.name, Declaration.parents,
        Declaration.properties, Declaration.printExtends, printClause]

/-- A list of names does not end the right side of an alias. -/
theorem endsAliasHead_list {c : Char} (h : isListChar c = true) (taken behind rest : Text) :
    endsAliasHead taken ⟨behind, c :: rest⟩ = false := by
  have h1 : c ≠ ';' := ne_of_kind h rfl
  have h2 : c ≠ '{' := ne_of_kind h rfl
  have h3 : c ≠ '\n' := ne_of_kind h rfl
  simp [endsAliasHead, h1, h2, h3]

/-- The right side of an alias with a body is read back. -/
theorem readAliasSide_body (parents : List Name) (ps : List Property) :
    readAliasSide {} ⟨behind, ' ' :: (printEach parents ++ (printBody ps ++ ';' :: rest))⟩ =
      (⟨OrderedMap.ofList (ps.map Property.entry), (parents.map Name.text).foldl addNew []⟩,
        ⟨(printBody ps).reverse ++ ((printEach parents).reverse ++ ' ' :: behind),
          ';' :: rest⟩) := by
  obtain ⟨t, ht⟩ : ∃ t, printBody ps ++ ';' :: rest = '{' :: t := ⟨_, rfl⟩
  have hflat : ∀ c ∈ printEach parents, IsFlat c :=
    fun c hc => isFlat_of_isListChar (isListChar_each parents c hc)
  have hskip : Cursor.skipTrivia ⟨behind, ' ' :: (printEach parents ++ '{' :: t)⟩ =
      ⟨' ' :: behind, printEach parents ++ '{' :: t⟩ := by
    cases parents with
    | nil => exact Cursor.skipTrivia_space (by decide)
    | cons first more =>
        rw [printEach_cons, List.append_assoc, List.append_assoc]
        exact Cursor.skipTrivia_space_identifier first.identifier
  have hgo : ∀ d ∈ printEach parents, ∀ taken behind rest,
      endsAliasHead taken ⟨behind, d :: rest⟩ = false :=
    fun d hd => endsAliasHead_list (isListChar_each parents d hd)
  have hstop : ∀ b, endsAliasHead (printEach parents).reverse ⟨b, '{' :: t⟩ = true := by
    intro b
    cases parents with
    | nil => rfl
    | cons first more =>
        rw [printEach_cons]
        simp only [List.reverse_append, List.reverse_cons, List.reverse_nil, List.nil_append,
          List.cons_append]
        rfl
  have hparts := topLevelParts_each parents
  have htail : ∀ b, readAliasTail ⟨b, ';' :: rest⟩ = ([], ⟨b, ';' :: rest⟩) := by
    intro b
    rw [readAliasTail, Cursor.skipTrivia_visible (by decide)]
    rfl
  have hcurrent : ∀ b, Cursor.current? ⟨b, printBody ps ++ ';' :: rest⟩ = some '{' := fun _ => rfl
  rw [readAliasSide]
  rw [ht, hskip, Cursor.capture_flat hflat hgo (by decide) (hstop _), ← ht]
  simp only [hcurrent, if_true, readGroup_body, htail, scan_properties, hparts, List.append_nil]

/-- The right side of an alias of names is read back. -/
theorem readAliasSide_names (first : Name) (more : List Name) :
    readAliasSide {} ⟨behind, ' ' :: (first.text ++ (printMore [' ', '&', ' '] more ++
        ';' :: rest))⟩ =
      (⟨.empty, ((first :: more).map Name.text).foldl addNew []⟩,
        ⟨(printMore [' ', '&', ' '] more).reverse ++ (first.text.reverse ++ ' ' :: behind),
          ';' :: rest⟩) := by
  have hlist : ∀ d ∈ first.text ++ printMore [' ', '&', ' '] more, isListChar d = true :=
    isListChar_names (by decide) first more
  have hgo : ∀ d ∈ first.text ++ printMore [' ', '&', ' '] more, ∀ taken behind rest,
      endsAliasHead taken ⟨behind, d :: rest⟩ = false :=
    fun d hd => endsAliasHead_list (hlist d hd)
  have hparts : topLevelParts ['&', '|'] (first.text ++ printMore [' ', '&', ' '] more) =
      (first :: more).map Name.text := by
    simpa using topLevelParts_intersection (by decide) (by decide) first more
      (List.forall_mem_nil _)
  have hskip : Cursor.skipTrivia ⟨behind, ' ' :: (first.text ++ (printMore [' ', '&', ' '] more ++
      ';' :: rest))⟩ = ⟨' ' :: behind, (first.text ++ printMore [' ', '&', ' '] more) ++
        ';' :: rest⟩ := by
    rw [List.append_assoc]
    exact Cursor.skipTrivia_space_identifier first.identifier
  rw [readAliasSide, hskip,
    Cursor.capture_flat (fun d hd => isFlat_of_isListChar (hlist d hd)) hgo (by decide) rfl]
  simp only [hparts]
  simp [Cursor.current?]

/-- An alias is read back up to the semicolon behind it. -/
theorem readAlias?_body (name : Name) (parents : List Name) (ps : List Property) :
    readAlias? {} ⟨behind, ' ' :: (name.text ++ ' ' :: '=' :: ' ' :: (printEach parents ++
        (printBody ps ++ ';' :: rest)))⟩ =
      some ((Declaration.body name parents ps).toTypeDeclaration,
        ⟨(printBody ps).reverse ++ ((printEach parents).reverse ++ ' ' :: '=' :: ' ' ::
          (name.text.reverse ++ ' ' :: behind)), ';' :: rest⟩) := by
  rw [readAlias?, readName?_print name (by decide)]
  simp only [Option.bind_eq_bind, Option.bind_some, Cursor.current?, Cursor.peek?, Cursor.advance,
    readAliasSide_body]
  rfl

theorem readAlias?_reference (name first : Name) (more : List Name) :
    readAlias? {} ⟨behind, ' ' :: (name.text ++ ' ' :: '=' :: ' ' :: (first.text ++
        (printMore [' ', '&', ' '] more ++ ';' :: rest)))⟩ =
      some ((Declaration.reference name first more).toTypeDeclaration,
        ⟨(printMore [' ', '&', ' '] more).reverse ++ (first.text.reverse ++ ' ' :: '=' :: ' ' ::
          (name.text.reverse ++ ' ' :: behind)), ';' :: rest⟩) := by
  rw [readAlias?, readName?_print name (by decide)]
  simp only [Option.bind_eq_bind, Option.bind_some, Cursor.current?, Cursor.peek?, Cursor.advance,
    readAliasSide_names]
  rfl

/-! ### Searching -/

/-- The search finds a declaration and goes on behind it. -/
theorem allFrom_declaration (d : Declaration) (hb : SignFirst behind) :
    allFrom {} ⟨behind, d.print ++ rest⟩ =
      d.toTypeDeclaration :: allFrom {} ⟨d.print.reverse ++ behind, rest⟩ := by
  have hspace : ∀ t, SignFirst (' ' :: t) := fun t => signFirst_cons t (by decide)
  cases d with
  | interface name parents ps =>
      have hprint : Declaration.printInterface name parents ps ++ rest =
          interfaceWord.text ++ ' ' :: (name.text ++ (Declaration.printExtends parents ++
            ' ' :: (printBody ps ++ rest))) := by simp [Declaration.printInterface]
      have hread : ∀ start, read? {} ⟨interfaceWord.text, start,
          ⟨interfaceWord.text.reverse ++ behind, ' ' :: (name.text ++
            (Declaration.printExtends parents ++ ' ' :: (printBody ps ++ rest)))⟩⟩ = some _ :=
        fun start => (read?_interface start _).trans (readInterface?_print name parents ps)
      rw [Declaration.print, hprint, allFrom_keyword interfaceWord (by decide) hb
        (hspace _) (hread _)]
      simp [Declaration.printInterface]
  | body name parents ps =>
      have hprint : Declaration.printAlias name (printEach parents ++ printBody ps) ++ rest =
          typeWord.text ++ ' ' :: (name.text ++ ' ' :: '=' :: ' ' :: (printEach parents ++
            (printBody ps ++ ';' :: rest))) := by simp [Declaration.printAlias]
      have hread : ∀ start, read? {} ⟨typeWord.text, start, ⟨typeWord.text.reverse ++ behind,
          ' ' :: (name.text ++ ' ' :: '=' :: ' ' :: (printEach parents ++
            (printBody ps ++ ';' :: rest)))⟩⟩ = some _ :=
        fun start => (read?_type start _).trans (readAlias?_body name parents ps)
      rw [Declaration.print, hprint, allFrom_keyword typeWord (by decide) hb (hspace _) (hread _),
        allFrom_sign (by decide)]
      simp [Declaration.printAlias]
  | reference name first more =>
      have hprint : Declaration.printAlias name (first.text ++ printMore [' ', '&', ' '] more) ++
          rest = typeWord.text ++ ' ' :: (name.text ++ ' ' :: '=' :: ' ' :: (first.text ++
            (printMore [' ', '&', ' '] more ++ ';' :: rest))) := by simp [Declaration.printAlias]
      have hread : ∀ start, read? {} ⟨typeWord.text, start, ⟨typeWord.text.reverse ++ behind,
          ' ' :: (name.text ++ ' ' :: '=' :: ' ' :: (first.text ++
            (printMore [' ', '&', ' '] more ++ ';' :: rest)))⟩⟩ = some _ :=
        fun start => (read?_type start _).trans (readAlias?_reference name first more)
      rw [Declaration.print, hprint, allFrom_keyword typeWord (by decide) hb (hspace _) (hread _),
        allFrom_sign (by decide)]
      simp [Declaration.printAlias]

end Component

end ComponentProps
