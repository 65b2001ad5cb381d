import ComponentProps.Extraction
import ComponentProps.Proofs.DeclarationReading
import ComponentProps.Proofs.PatternScan

/-!
# Reading the printed receiver

The statement that receives the props is found and read back: its pattern, the bindings of the
pattern and the annotation. A search for declarations passes over it. A default value given as
bindable is a call, and a call is a value like any other until its marker is taken off.
-/

namespace ComponentProps

open Text

/-! ### Calls as values -/

section Call

variable (n : Identifier) {v : Text}

theorem roles_call (h : IsBalanced v) :
    Region.code.roles [] (n.text ++ '(' :: (v ++ [')'])) =
      n.text.map (fun c => (c, .code)) ++ ('(', .code) ::
        (Region.code.roles [] v ++ [(')', .code)]) := by
  have hplain : ∀ c ∈ n.text, IsPlain c := fun c hc => n.isPlain_of_mem hc
  have hopen : SignFirst ('(' :: (v ++ [')'])) := signFirst_cons _ (by decide)
  have hclose : SignFirst [')'] := signFirst_cons _ (by decide)
  rw [Region.roles_append hopen.endsSlash, Region.roles_plain hplain, Region.after_plain hplain,
    Region.roles_sign_cons (by decide), Region.roles_append hclose.endsSlash, h.closed,
    Region.roles_sign_cons (by decide), Region.roles_nil]

theorem after_call (h : IsBalanced v) :
    Region.code.after [] (n.text ++ '(' :: (v ++ [')'])) = .code := by
  have hplain : ∀ c ∈ n.text, IsPlain c := fun c hc => n.isPlain_of_mem hc
  have hopen : SignFirst ('(' :: (v ++ [')'])) := signFirst_cons _ (by decide)
  have hclose : SignFirst [')'] := signFirst_cons _ (by decide)
  rw [Region.after_append hopen.endsSlash, Region.after_plain hplain,
    Region.after_sign_cons (by decide), Region.after_append hclose.endsSlash, h.closed,
    Region.after_sign_cons (by decide), Region.after_nil]

/-- A name opens and closes no bracket. -/
theorem depthAfter?_name {opening close : Char} (hopen : isIdentChar opening = false)
    (hclose : isIdentChar close = false) (depth : Nat) :
    depthAfter? opening close depth (n.text.map fun c => (c, .code)) = some depth := by
  refine depthAfter?_of_ne fun p hp => ?_
  obtain ⟨c, hc, rfl⟩ := List.mem_map.mp hp
  have hident := n.isIdentChar_of_mem hc
  exact Or.inr ⟨ne_of_kind hident hopen, ne_of_kind hident hclose⟩

theorem atTop_call (h : IsBalanced v) :
    AtTop (Region.code.roles [] (n.text ++ '(' :: (v ++ [')']))) := by
  rw [roles_call n h]
  intro kind hkind
  have hvalue := h.balanced kind hkind
  simp only [bracketKinds, List.mem_cons, List.not_mem_nil, or_false] at hkind
  rcases hkind with rfl | rfl | rfl
  · have hwithin := depthAfter?_add hvalue 1
    rw [depthAfter?_append, depthAfter?_name n (by decide) (by decide)]
    change depthAfter? '(' ')' 1 (Region.code.roles [] v ++ _) = _
    rw [depthAfter?_append, hwithin]
    rfl
  · rw [depthAfter?_append, depthAfter?_name n (by decide) (by decide)]
    change depthAfter? '[' ']' 0 (Region.code.roles [] v ++ _) = _
    rw [depthAfter?_append, hvalue]
    rfl
  · rw [depthAfter?_append, depthAfter?_name n (by decide) (by decide)]
    change depthAfter? '{' '}' 0 (Region.code.roles [] v ++ _) = _
    rw [depthAfter?_append, hvalue]
    rfl

/-- A call is outside all brackets only in its name and behind its last bracket. -/
theorem last_of_atTop_call (h : IsBalanced v) {front : List (Char × Role)}
    (hfront : front ∈ (Region.code.roles [] (n.text ++ '(' :: (v ++ [')']))).inits)
    (htop : AtTop front) {x : Char × Role} (hlast : front.getLast? = some x) :
    x.2 = .code ∧ x.1 ≠ ',' := by
  have hname : x ∈ n.text.map (fun c => (c, Role.code)) → x.2 = .code ∧ x.1 ≠ ',' := by
    intro hx
    obtain ⟨c, hc, rfl⟩ := List.mem_map.mp hx
    exact ⟨rfl, ne_of_kind (n.isIdentChar_of_mem hc) rfl⟩
  have hinside : ∀ within, within <+: Region.code.roles [] v →
      ¬ AtTop (n.text.map (fun c => (c, Role.code)) ++ ('(', .code) :: within) := by
    intro within hwithin hwithin_top
    have hround := hwithin_top ('(', ')') (by decide)
    rw [depthAfter?_append, depthAfter?_name n (by decide) (by decide)] at hround
    exact Binding.Scan.not_reads_top_of_balanced (h.balanced ('(', ')') (by decide))
      ((List.mem_inits _ _).mpr hwithin) hround
  rw [roles_call n h, List.mem_inits] at hfront
  obtain ⟨more, hmore⟩ := hfront
  rcases List.append_eq_append_iff.mp hmore with ⟨tail, heq, -⟩ | ⟨within, rfl, hrest⟩
  · exact hname (heq ▸ List.mem_append_left tail (List.mem_of_getLast? hlast))
  cases within with
  | nil =>
      rw [List.append_nil] at hlast
      exact hname (List.mem_of_getLast? hlast)
  | cons y within =>
      obtain ⟨rfl, hinner⟩ := List.cons.inj hrest
      rcases List.append_eq_append_iff.mp hinner with ⟨tail, rfl, htail⟩ | ⟨tail, heq, -⟩
      · cases tail with
        | nil => exact absurd htop (hinside _ (by simp))
        | cons z tail =>
            obtain ⟨rfl, hnil⟩ := List.cons.inj htail
            obtain ⟨rfl, -⟩ := List.append_eq_nil_iff.mp hnil.symm
            rw [← List.cons_append, ← List.append_assoc, List.getLast?_concat] at hlast
            obtain rfl := Option.some.inj hlast
            decide
      · exact absurd htop (hinside within ⟨tail, heq.symm⟩)

theorem isValue_call (h : IsBalanced v) : IsValue (n.text ++ '(' :: (v ++ [')'])) where
  closed := after_call n h
  balanced := atTop_call n h
  nonempty := by simp
  trimmed := by
    obtain ⟨c, more, htext, hstart, -⟩ := n.exists_cons
    have hc := not_isWhite_of_isIdentChar (isIdentChar_of_isIdentStart hstart)
    have hlast : n.text ++ '(' :: (v ++ [')']) = (n.text ++ '(' :: v) ++ [')'] := by simp
    exact trim_of_ends (by rw [htext]; rfl) hc hlast (by decide)
  commas front hfront hlast htop := (last_of_atTop_call n h hfront htop hlast).2 rfl
  comments front hfront hlast htop := by
    obtain ⟨x, hx, hcomment⟩ := Option.map_eq_some_iff.mp hlast
    have hcode := (last_of_atTop_call n h hfront htop hx).1
    rw [hcode] at hcomment
    contradiction

end Call

namespace Component

/-! ### Default values -/

namespace Default

theorem isValue_print (d : Default) : IsValue d.print := by
  unfold print
  split
  · exact isValue_call bindableCall d.valid.toIsBalanced
  · exact d.valid

def toValue (d : Default) : Binding.Value := ⟨d.print, d.isValue_print⟩

/-- On one line a default value is kept as it is. -/
theorem dedent_print (d : Default) : dedent d.print = d.print := by
  have hname : '\n' ∉ bindableCall.text := by decide
  have hline : '\n' ∉ d.print := by
    unfold print
    split
    · simp [d.oneLine, hname]
    · exact d.oneLine
  have htrim := d.isValue_print.trimmed
  rw [dedent_oneLine (htrim.symm ▸ hline), htrim]

/-- The marker is taken off a value that is given as bindable, and no other value begins with it. -/
theorem unwrapMarker?_print (d : Default) :
    unwrapMarker? bindableCall.text d.print = if d.bindable then some d.value else none := by
  unfold print
  cases d.bindable with
  | false =>
      have hafter : after? bindableCall.text d.value = none := by
        simpa [after?] using d.unmarked
      simp only [unwrapMarker?, hafter, Bool.false_eq_true, if_false]
  | true =>
      have hafter : after? bindableCall.text (bindableCall.text ++ '(' :: (d.value ++ [')'])) =
          some ('(' :: (d.value ++ [')'])) := by simp [after?]
      have hskip : Cursor.skipTrivia (Cursor.ofText ('(' :: (d.value ++ [')']))) =
          ⟨[], '(' :: (d.value ++ [')'])⟩ := Cursor.skipTrivia_visible (by decide)
      have hopen : Cursor.current? ⟨[], '(' :: (d.value ++ [')'])⟩ = some '(' := rfl
      have hgroup : Cursor.readGroup ⟨[], '(' :: (d.value ++ [')'])⟩ '(' ')' =
          (d.value, ⟨')' :: (d.value.reverse ++ ['(']), []⟩) :=
        Cursor.readGroup_balanced (by decide) (by decide) (by decide) d.valid.closed
          (d.valid.balanced ('(', ')') (by decide))
      have hend : (Cursor.skipTrivia ⟨')' :: (d.value.reverse ++ ['(']), []⟩).atEnd = true := rfl
      simp only [if_true, unwrapMarker?, hafter, hskip, hopen, hgroup, hend, d.valid.trimmed]

end Default

/-- The pattern says whether a prop is bindable and what its default value is. -/
theorem bind_print (default : Option Default) (r : PropRecord) :
    r.bind bindableCall.text (default.map Default.print) =
      { r with
        bindable := default.any Default.bindable
        default := default.map Default.value } := by
  cases default with
  | none => rfl
  | some d =>
      have hne : d.value.isEmpty = false := by simpa using d.valid.nonempty
      simp only [Option.map_some, PropRecord.bind, d.unwrapMarker?_print, Option.any_some]
      cases hb : d.bindable with
      | false => simp [Default.print, hb]
      | true => simp [hne]

/-! ### Bindings -/

def Item.toBinding : Item → Binding.Item
  | rest name => .rest name.identifier
  | prop name renamed default =>
    .bind name.identifier (renamed.map fun n => .name n.identifier) (default.map Default.toValue)

theorem Item.print_toBinding (item : Item) : item.toBinding.print = item.print := by
  cases item with
  | rest name => rfl
  | prop name renamed default => cases renamed <;> cases default <;> rfl

theorem Item.entry?_toBinding (item : Item) :
    item.toBinding.entry? = item.binding?.map fun b => (b.1, b.2.map Default.print) := by
  cases item with
  | rest name => rfl
  | prop name renamed default =>
      cases default with
      | none => rfl
      | some d =>
          change some (name.text, some (dedent d.print)) = some (name.text, some d.print)
          rw [d.dedent_print]

/-- The bindings of the pattern are read back. -/
theorem scan_pattern (r : Receiver) :
    Binding.scan false r.pattern =
      OrderedMap.ofList ((bindings r.items).map fun b => (b.1, b.2.map Default.print)) := by
  have hpattern : r.pattern =
      ' ' :: (Binding.Item.printAll (r.items.map Item.toBinding) ++ [' ']) := by
    simp only [Receiver.pattern, Binding.Item.printAll, List.map_map, Function.comp_def,
      Item.print_toBinding]
  have hentries : (r.items.map Item.toBinding).filterMap Binding.Item.entry? =
      (bindings r.items).map fun b => (b.1, b.2.map Default.print) := by
    rw [bindings, List.filterMap_map, List.map_filterMap]
    exact congrArg (List.filterMap · r.items) (funext fun item => item.entry?_toBinding)
  rw [hpattern, Binding.scan_padded, hentries]

/-! ### Passages -/

theorem Default.isPassage (d : Default) : IsPassage declarationWords d.print := by
  have hvalue : IsPassage declarationWords d.value := by
    refine ⟨d.valid.closed, d.valid.balanced ('{', '}') (by decide), fun w hw hmem => ?_⟩
    obtain ⟨htype, hinterface⟩ := d.free w hw
    rcases List.mem_cons.mp hmem with rfl | hmem
    · exact hinterface rfl
    · exact htype (List.mem_singleton.mp hmem)
  unfold print
  split
  · exact (IsPassage.word bindableCall (by decide)).append_sign (by decide)
      (hvalue.append_sign (by decide) IsPassage.nil)
  · exact hvalue

/-- A name behind dots is no word that stands alone. -/
theorem isPassage_rest (name : Name) : IsPassage declarationWords (Item.rest name).print := by
  obtain ⟨c, more, htext, hstart, hall⟩ := name.identifier.exists_cons
  have hname : ∀ d ∈ name.text, IsPlain d ∧ d ≠ '{' ∧ d ≠ '}' := by
    intro d hd
    have hident := name.identifier.isIdentChar_of_mem hd
    exact ⟨isPlain_of_isIdentChar hident, ne_of_kind hident rfl,
      ne_of_kind hident rfl⟩
  have hplain : ∀ d ∈ (Item.rest name).print, IsPlain d ∧ d ≠ '{' ∧ d ≠ '}' := by
    simpa [Item.print, show IsPlain '.' by decide] using hname
  refine ⟨Region.after_plain (fun d hd => (hplain d hd).1) [], ?_, ?_⟩
  · rw [Region.roles_plain fun d hd => (hplain d hd).1]
    refine depthAfter?_of_ne fun p hp => ?_
    obtain ⟨d, hd, rfl⟩ := List.mem_map.mp hp
    exact Or.inr (hplain d hd).2
  · have hc := isIdentChar_of_isIdentStart hstart
    have hdot : IsPlain '.' ∧ isIdentStart '.' = false := by decide
    have hinside : Cursor.standsAlone ['.', '.', '.'] = false := by decide
    have htail : Region.code.words [c, '.', '.', '.'] more = [] :=
      Region.words_word_tail (fun d hd => hall d (by simp [htext, hd])) hc _
    simp only [Item.print, Name.text, htext, Region.words, Region.read_plain hdot.1, hdot.2,
      Region.read_plain (isPlain_of_isIdentChar hc), hinside, htail, Bool.false_and,
      Bool.and_false, Bool.false_eq_true, if_false, List.not_mem_nil, false_imp_iff, implies_true]

theorem Item.isPassage (item : Item) : IsPassage declarationWords item.print := by
  have hkeys : declarationWords ⊆ reservedWords := by decide
  cases item with
  | rest name => exact isPassage_rest name
  | prop name renamed default =>
      have hdefault : IsPassage declarationWords (printDefault default) ∧
          SignFirst (printDefault default) := by
        cases default with
        | none => exact ⟨IsPassage.nil, signFirst_nil⟩
        | some d =>
            exact ⟨d.isPassage.signs [' ', '=', ' '] (by decide), signFirst_cons _ (by decide)⟩
      have hrenamed : IsPassage declarationWords (printRenamed renamed ++ printDefault default) ∧
          SignFirst (printRenamed renamed ++ printDefault default) := by
        cases renamed with
        | none => exact hdefault
        | some n =>
            have hname := (isPassage_name hkeys n).append hdefault.1 hdefault.2
            exact ⟨hname.signs [':', ' '] (by decide), signFirst_cons _ (by decide)⟩
      exact (isPassage_name hkeys name).append hrenamed.1 hrenamed.2

theorem isPassage_items (items : List Item) :
    IsPassage declarationWords ([',', ' '].intercalate (items.map Item.print)) := by
  induction items with
  | nil => exact IsPassage.nil
  | cons item items ih =>
      cases items with
      | nil => simpa using item.isPassage
      | cons next items =>
          have hprint : [',', ' '].intercalate ((item :: next :: items).map Item.print) =
              item.print ++ ',' :: ' ' ::
                [',', ' '].intercalate ((next :: items).map Item.print) := by
            simp [List.intercalate_cons_cons]
          rw [hprint]
          exact item.isPassage.append_sign (by decide) (ih.sign (by decide))

theorem isPassage_pattern (r : Receiver) : IsPassage declarationWords r.pattern :=
  ((isPassage_items r.items).append_sign (by decide) IsPassage.nil).sign (by decide)

/-- The statement that receives the props holds no declaration. -/
theorem Receiver.isPassage (r : Receiver) : IsPassage declarationWords r.print := by
  have hcall : IsPassage declarationWords (propsCall.text ++ ['(', ')', ';']) :=
    (IsPassage.word propsCall (by decide)).append_sign (by decide)
      (IsPassage.nil.signs [')', ';'] (by decide))
  have hassigned : IsPassage declarationWords (r.annotation ++
      ' ' :: '=' :: ' ' :: (propsCall.text ++ ['(', ')', ';'])) :=
    (isPassage_intersection (by decide) r.first r.more).append_sign (by decide)
      (hcall.signs ['=', ' '] (by decide))
  have htail : IsPassage declarationWords (':' :: ' ' :: (r.annotation ++
      ' ' :: '=' :: ' ' :: (propsCall.text ++ ['(', ')', ';']))) :=
    hassigned.signs [':', ' '] (by decide)
  have hgroup : IsPassage declarationWords (('{' :: (r.pattern ++ ['}'])) ++ ':' :: ' ' ::
      (r.annotation ++ ' ' :: '=' :: ' ' :: (propsCall.text ++ ['(', ')', ';']))) :=
    (isPassage_pattern r).braced.append htail (signFirst_cons _ (by decide))
  have hprint : r.print = letWord.text ++ ' ' :: (('{' :: (r.pattern ++ ['}'])) ++ ':' :: ' ' ::
      (r.annotation ++ ' ' :: '=' :: ' ' :: (propsCall.text ++ ['(', ')', ';']))) := by
    simp [Receiver.print]
  rw [hprint]
  exact (IsPassage.word letWord (by decide)).append_sign (by decide) hgroup

/-! ### The intake statement -/

open Intake

variable {behind rest : Text}

theorem readPattern?_print (r : Receiver) :
    readPattern? ⟨behind, ' ' :: '{' :: (r.pattern ++ '}' :: rest)⟩ =
      some (r.pattern, ⟨'}' :: (r.pattern.reverse ++ '{' :: ' ' :: behind), rest⟩) := by
  have hpattern := isPassage_pattern r
  have hgroup : Cursor.readGroup ⟨' ' :: behind, '{' :: (r.pattern ++ '}' :: rest)⟩ '{' '}' =
      (r.pattern, ⟨'}' :: (r.pattern.reverse ++ '{' :: ' ' :: behind), rest⟩) :=
    Cursor.readGroup_balanced (by decide) (by decide) (by decide) hpattern.closed hpattern.braces
  rw [readPattern?, Cursor.skipTrivia_space (by decide), hgroup]
  rfl

theorem hasTypeEnds_intersection (first : Name) (more : List Name) :
    HasTypeEnds (first.text ++ printMore [' ', '&', ' '] more) := by
  induction more generalizing first with
  | nil => simpa [printMore, Name.text] using first.identifier.hasTypeEnds
  | cons n more ih =>
      have hprint : first.text ++ printMore [' ', '&', ' '] (n :: more) =
          first.text ++ ([' ', '&', ' '] ++ (n.text ++ printMore [' ', '&', ' '] more)) := by
        simp [printMore]
      rw [hprint]
      exact first.identifier.hasTypeEnds.append (ih n) [' ', '&', ' ']

theorem endsAscription_list {c : Char} (h : isListChar c = true) (taken behind rest : Text) :
    endsAscription taken ⟨behind, c :: rest⟩ = false := by
  have h1 : c ≠ ';' := ne_of_kind h rfl
  have h2 : c ≠ '=' := ne_of_kind h rfl
  simp [endsAscription, h1, h2]

/-- The annotation is read up to the equals sign. -/
theorem readAscription_print (r : Receiver) :
    readAscription ⟨behind, ':' :: ' ' :: (r.annotation ++ ' ' :: '=' :: ' ' :: rest)⟩ =
      (some r.annotation, ⟨' ' :: (r.annotation.reverse ++ ' ' :: ':' :: behind),
        '=' :: ' ' :: rest⟩) := by
  have hnames : ∀ c ∈ r.annotation, isListChar c = true :=
    isListChar_names (by decide) r.first r.more
  have hspace : isListChar ' ' = true := by decide
  have hlist : ∀ c ∈ ' ' :: (r.annotation ++ [' ']), isListChar c = true :=
    List.forall_mem_cons.mpr ⟨hspace, List.forall_mem_append.mpr
      ⟨hnames, List.forall_mem_singleton.mpr hspace⟩⟩
  have hgo : ∀ c ∈ ' ' :: (r.annotation ++ [' ']), ∀ taken behind rest,
      endsAscription taken ⟨behind, c :: rest⟩ = false := fun c hc =>
    endsAscription_list (hlist c hc)
  have hends : HasTypeEnds r.annotation := hasTypeEnds_intersection r.first r.more
  have htrim : trim (' ' :: (r.annotation ++ [' '])) = r.annotation := by
    obtain ⟨c, more, hcons, -⟩ := hends.first
    rw [trim_space_cons]
    exact trim_append_blank (Member.trim_of_hasTypeEnds hends) (by simp [hcons]) (by decide)
  have htrimmed : trimmed? (' ' :: (r.annotation ++ [' '])) = some r.annotation := by
    obtain ⟨c, more, hcons, -⟩ := hends.first
    rw [trimmed?, htrim, hcons]
  have hcapture : Cursor.capture ⟨':' :: behind, (' ' :: (r.annotation ++ [' '])) ++
      '=' :: ' ' :: rest⟩ endsAscription = (' ' :: (r.annotation ++ [' ']),
        ⟨(' ' :: (r.annotation ++ [' '])).reverse ++ ':' :: behind, '=' :: ' ' :: rest⟩) :=
    Cursor.capture_flat (fun c hc => isFlat_of_isListChar (hlist c hc)) hgo (by decide) rfl
  have htext : ':' :: ' ' :: (r.annotation ++ ' ' :: '=' :: ' ' :: rest) =
      ':' :: ((' ' :: (r.annotation ++ [' '])) ++ '=' :: ' ' :: rest) := by simp
  rw [htext, readAscription, Cursor.skipTrivia_visible (by decide)]
  simp only [Cursor.current?, List.head?_cons, if_true, Cursor.advance, hcapture, htrimmed]
  simp

theorem passCallName?_print :
    passCallName? propsCall.text ⟨behind, '=' :: ' ' :: (propsCall.text ++ '(' :: rest)⟩ =
      some ⟨propsCall.text.reverse ++ ' ' :: '=' :: behind, '(' :: rest⟩ := by
  have hword : Cursor.atWord ⟨' ' :: '=' :: behind, propsCall.text ++ '(' :: rest⟩
      propsCall.text = true :=
    Cursor.atWord_identifier propsCall (signFirst_cons _ (by decide))
  have hskip : Cursor.skipTrivia ⟨'=' :: behind, ' ' :: (propsCall.text ++ '(' :: rest)⟩ =
      ⟨' ' :: '=' :: behind, propsCall.text ++ '(' :: rest⟩ :=
    Cursor.skipTrivia_space_identifier propsCall
  simp only [passCallName?, Cursor.current?, List.head?_cons, if_true, Cursor.advance, hskip,
    hword, Cursor.advanceBy_length, Cursor.skipTrivia_visible (show IsPlain '(' ∧
      isWhite '(' = false by decide)]

/-- The statement is read back behind its keyword. -/
theorem read?_print (r : Receiver) (behind rest : Text) :
    ∃ stop, Intake.read? propsCall.text ⟨behind, ' ' :: '{' :: (r.pattern ++ '}' :: ':' :: ' ' ::
      (r.annotation ++ ' ' :: '=' :: ' ' :: (propsCall.text ++ '(' :: ')' :: rest)))⟩ =
        some (r.pattern, some r.annotation, stop) := by
  have hargument : ∀ b, readArgument ⟨b, '(' :: ')' :: rest⟩ = (none, ⟨b, '(' :: ')' :: rest⟩) :=
    fun _ => rfl
  have harguments : ∀ b, passArguments? ⟨b, '(' :: ')' :: rest⟩ =
      some (Cursor.readGroup ⟨b, '(' :: ')' :: rest⟩ '(' ')').2 := fun _ => rfl
  rw [Intake.read?]
  simp only [readPattern?_print, readAscription_print, passCallName?_print, hargument, harguments,
    Option.bind_eq_bind, Option.bind_some, Option.pure_def, Option.or_none, Option.some.injEq,
    Prod.mk.injEq, true_and, exists_eq']

end Component

end ComponentProps
