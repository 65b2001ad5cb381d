import ComponentProps.Proofs.ScriptReading

/-!
# Script blocks of written components

A component is written as segments: text without tags, comments, and script elements with their
attributes and content. Its script blocks are the elements in their order, whatever stands in
comments, in the values of attributes and in the contents. Three readers have to agree on this: one
that looks for the end of a tag, one that reads attributes, and one that looks for a closing tag.
-/

namespace ComponentProps

open Text

/-- An attribute as it is written. Its value stands in double quotes. -/
structure WrittenAttribute where
  name : Text
  value : Option Text
  nonempty : name ≠ []
  plain : ∀ c ∈ name, isWhite c = false ∧ c ∉ ['=', '/', '>', '"', '\'']
  quoted : ∀ v ∈ value, '"' ∉ v

/-- No closing tag of a script begins in the text. -/
def ClosesNoScript (t : Text) : Prop :=
  ∀ (tag : Text) (c : Char), tag ++ [c] <:+: t → eqIgnoringCase tag "</script".toList = true →
    isMarkupSpace c = false ∧ c ≠ '>' ∧ c ≠ '/'

/-- A part of a component as it is written. -/
inductive Segment
  | filler (text : Text) (valid : '<' ∉ text)
  | comment (inner : Text) (valid : ¬ ['-', '-', '>'] <:+: inner)
  | element (attributes : List WrittenAttribute) (content : Text) (valid : ClosesNoScript content)

namespace WrittenAttribute

def printValue : Option Text → Text
  | none => []
  | some v => '=' :: '"' :: (v ++ ['"'])

def print (a : WrittenAttribute) : Text := ' ' :: (a.name ++ printValue a.value)

def printAll (attrs : List WrittenAttribute) : Text := attrs.flatMap print

/-- The first attribute of a name, letter case ignored. -/
def first? (name : Text) (attrs : List WrittenAttribute) : Option WrittenAttribute :=
  attrs.find? fun a => eqIgnoringCase a.name name

end WrittenAttribute

namespace Segment

open WrittenAttribute

/-- The tag that opens an element. -/
def startTag (attrs : List WrittenAttribute) : Text := "<script".toList ++ (printAll attrs ++ ['>'])

/-- The tag that closes an element. -/
def endTag : Text := "</script>".toList

def print : Segment → Text
  | filler text _ => text
  | comment inner _ => "<!--".toList ++ (inner ++ "-->".toList)
  | element attrs content _ => startTag attrs ++ (content ++ endTag)

def printAll (segments : List Segment) : Text := segments.flatMap print

/-- The script block of a segment that begins at a UTF-8 offset. -/
def block? (offset : Nat) : Segment → Option Script
  | element attrs content _ => some
    { content := content
      lang := (first? "lang".toList attrs).bind value
      isModule := decide ((first? "context".toList attrs).bind value = some "module".toList ∨
        (first? "module".toList attrs).map value = some none)
      start := offset + byteLength (startTag attrs) }
  | _ => none

/-- The script blocks of segments of which the first begins at a UTF-8 offset. -/
def blocksAt (offset : Nat) : List Segment → List Script
  | [] => []
  | s :: more => (s.block? offset).toList ++ blocksAt (offset + byteLength s.print) more

end Segment

namespace Script

open WrittenAttribute

/-! ### Attributes -/

theorem attributeFrom?_trimStart (t : Text) : attributeFrom? (trimStart t) = attributeFrom? t := by
  have hdrop : (trimStart t).dropWhile (!isNameChar ·) = t.dropWhile (!isNameChar ·) := by
    induction t with
    | nil => rfl
    | cons c t ih =>
        cases hc : isWhite c with
        | false => simp [trimStart, hc]
        | true =>
            have hname : isNameChar c = false := by simp [isNameChar, hc]
            simpa [trimStart, hc, hname] using ih
  simp only [attributeFrom?, hdrop]

theorem attributesFrom_eq (t : Text) :
    attributesFrom t =
      match attributeFrom? t with
      | none => []
      | some (attr, rest) => attr :: attributesFrom rest := by
  rw [attributesFrom]
  split
  · rename_i hnone
    rw [hnone]
  · rename_i hsome
    rw [hsome]

theorem attributesFrom_trimStart (t : Text) : attributesFrom (trimStart t) = attributesFrom t := by
  rw [attributesFrom_eq, attributeFrom?_trimStart, ← attributesFrom_eq]

theorem isNameChar_of_mem (a : WrittenAttribute) {c : Char} (hc : c ∈ a.name) :
    isNameChar c = true := by
  obtain ⟨hwhite, hsigns⟩ := a.plain c hc
  simp only [List.mem_cons, List.not_mem_nil, or_false, not_or] at hsigns
  simp [isNameChar, hwhite, hsigns]

/-- A name is read up to a character that ends it. -/
theorem exists_span_name (a : WrittenAttribute) {t : Text}
    (ht : ∀ c ∈ t.head?, isNameChar c = false) :
    ∃ c name, a.name = c :: name ∧
      (' ' :: (a.name ++ t)).dropWhile (!isNameChar ·) = c :: (name ++ t) ∧
      (name ++ t).takeWhile isNameChar = name ∧ (name ++ t).dropWhile isNameChar = t := by
  obtain ⟨c, name, hname⟩ := List.exists_cons_of_ne_nil a.nonempty
  have hspace : isNameChar ' ' = false := by decide
  have hall : ∀ d ∈ c :: name, isNameChar d = true :=
    fun d hd => isNameChar_of_mem a (hname ▸ hd)
  have hstop : t.takeWhile isNameChar = [] ∧ t.dropWhile isNameChar = t := by
    cases t with
    | nil => exact ⟨rfl, rfl⟩
    | cons d t => simp [ht d rfl]
  rw [List.forall_mem_cons] at hall
  refine ⟨c, name, hname, ?_, ?_, ?_⟩
  · simp [hname, hspace, hall.1]
  · rw [List.takeWhile_append_of_pos hall.2, hstop.1, List.append_nil]
  · rw [List.dropWhile_append_of_pos hall.2, hstop.2]

theorem printAll_cons (a : WrittenAttribute) (attrs : List WrittenAttribute) :
    printAll (a :: attrs) = ' ' :: (a.name ++ (printValue a.value ++ printAll attrs)) := by
  simp [printAll, WrittenAttribute.print]

/-- A space stands before each attribute. -/
theorem printAll_eq_nil_or (attrs : List WrittenAttribute) :
    printAll attrs = [] ∨ ∃ t, printAll attrs = ' ' :: t := by
  cases attrs with
  | nil => exact .inl rfl
  | cons a attrs => exact .inr ⟨_, printAll_cons a attrs⟩

/-- An attribute without a value is read up to the space before the next one. -/
theorem attributeFrom?_bare (a : WrittenAttribute) (attrs : List WrittenAttribute) :
    attributeFrom? (' ' :: (a.name ++ printAll attrs)) =
      some ((a.name, none), trimStart (printAll attrs)) := by
  have hends : ∀ c ∈ (printAll attrs).head?, isNameChar c = false := by
    intro c hc
    obtain hnil | ⟨t, ht⟩ := printAll_eq_nil_or attrs
    · simp [hnil] at hc
    · obtain rfl : ' ' = c := by simpa [ht] using hc
      decide
  have hsign : ∀ after, trimStart (printAll attrs) ≠ '=' :: after := by
    cases attrs with
    | nil => simp [printAll, trimStart]
    | cons b attrs =>
        obtain ⟨c, name, hname⟩ := List.exists_cons_of_ne_nil b.nonempty
        obtain ⟨hwhite, hsigns⟩ := b.plain c (hname ▸ List.mem_cons_self)
        have hspace : isWhite ' ' = true := by decide
        simp only [List.mem_cons, not_or] at hsigns
        rw [printAll_cons, hname]
        simp [trimStart, hspace, hwhite, hsigns.1]
  obtain ⟨c, name, hname, hdrop, htake, hrest⟩ := exists_span_name a hends
  rw [attributeFrom?, hdrop]
  dsimp only
  rw [htake, hrest]
  split
  · rename_i after hafter
    exact absurd hafter (hsign after)
  · rw [hname]

/-- An attribute with a value is read up to the quote that ends the value. -/
theorem attributeFrom?_valued (a : WrittenAttribute) {v : Text} (hv : '"' ∉ v) (rest : Text) :
    attributeFrom? (' ' :: (a.name ++ (printValue (some v) ++ rest))) =
      some ((a.name, some v), rest) := by
  have hvalue : ∀ c ∈ v, (c != '"') = true := by
    intro c hc
    simpa using ne_of_mem_of_not_mem hc hv
  have hsplit : splitValue ('"' :: (v ++ '"' :: rest)) = (v, rest) := by
    simp [splitValue, List.takeWhile_append_of_pos hvalue, List.dropWhile_append_of_pos hvalue]
  have htrim : trimStart ('"' :: (v ++ '"' :: rest)) = '"' :: (v ++ '"' :: rest) := by
    have hquote : isWhite '"' = false := by decide
    simp [trimStart, hquote]
  have hsign : ∀ t, trimStart ('=' :: t) = '=' :: t := by
    have heq : isWhite '=' = false := by decide
    simp [trimStart, heq]
  have hends : ∀ c ∈ (printValue (some v) ++ rest).head?, isNameChar c = false := by
    intro c hc
    obtain rfl : '=' = c := by simpa [printValue] using hc
    decide
  obtain ⟨c, name, hname, hdrop, htake, hrest⟩ := exists_span_name a hends
  rw [attributeFrom?, hdrop]
  dsimp only
  rw [htake, hrest, hname]
  simp [printValue, hsign, htrim, hsplit]

/-- Attributes are read as they are written. -/
theorem attributesFrom_printAll (attrs : List WrittenAttribute) :
    attributesFrom (printAll attrs) = attrs.map fun a => (a.name, a.value) := by
  induction attrs with
  | nil =>
      rw [attributesFrom_eq]
      rfl
  | cons a attrs ih =>
      rw [printAll_cons, attributesFrom_eq, List.map_cons, ← ih]
      cases hvalue : a.value with
      | none =>
          rw [printValue, List.nil_append, attributeFrom?_bare]
          exact congrArg _ (attributesFrom_trimStart _)
      | some v => rw [attributeFrom?_valued a (a.quoted v hvalue)]

/-- No slash ends the attributes of a tag. -/
theorem getLast?_printAll (attrs : List WrittenAttribute) :
    (printAll attrs).getLast? ≠ some '/' := by
  have hlast : ∀ a : WrittenAttribute, a.print.getLast? ≠ some '/' := by
    intro a hslash
    cases hvalue : a.value with
    | none =>
        rw [WrittenAttribute.print, hvalue, printValue, List.append_nil,
          List.getLast?_cons_of_ne_nil a.nonempty] at hslash
        exact (a.plain _ (List.mem_of_getLast? hslash)).2 (by simp)
    | some v =>
        have hquote : a.print = ' ' :: (a.name ++ '=' :: '"' :: v) ++ ['"'] := by
          simp [WrittenAttribute.print, hvalue, printValue]
        rw [hquote, List.getLast?_concat] at hslash
        exact absurd hslash (by decide)
  rcases List.eq_nil_or_concat attrs with rfl | ⟨attrs, a, rfl⟩
  · simp [printAll]
  · have hne : a.print ≠ [] := by simp [WrittenAttribute.print]
    rw [printAll, List.concat_eq_append, List.flatMap_append, List.flatMap_singleton,
      List.getLast?_append_of_ne_nil _ hne]
    exact hlast a

theorem attributes_printAll (attrs : List WrittenAttribute) :
    attributes (printAll attrs) = attrs.map fun a => (a.name, a.value) := by
  have hkept : (printAll attrs).reverse.dropWhile (· == '/') = (printAll attrs).reverse := by
    have hlast := getLast?_printAll attrs
    rw [← List.head?_reverse] at hlast
    cases hreverse : (printAll attrs).reverse with
    | nil => rfl
    | cons c t =>
        have hc : (c == '/') = false := by simpa [hreverse] using hlast
        simp [hc]
  rw [attributes, hkept, List.reverse_reverse, attributesFrom_printAll]

/-! ### Tags -/

section

variable {behind rest tag : Text} {place : Cursor}

/-- A tag is read over signs that neither quote nor end it. -/
theorem tagFrom?_plain {t : Text} (ht : ∀ c ∈ t, c ∉ ['"', '\'', '>'])
    (h : tagFrom? none (t.reverse ++ behind) rest = some (tag, place)) :
    tagFrom? none behind (t ++ rest) = some (t ++ tag, place) := by
  induction t generalizing behind with
  | nil => exact h
  | cons c t ih =>
      rw [List.forall_mem_cons] at ht
      have hc := ht.1
      have hrest : tagFrom? none (c :: behind) (t ++ rest) = some (t ++ tag, place) :=
        ih ht.2 (by simpa using h)
      simp only [List.mem_cons, List.not_mem_nil, or_false, not_or] at hc
      simp [tagFrom?, hc, hrest]

/-- A tag is read over a value up to the quote that ends it. -/
theorem tagFrom?_value {v : Text} (hv : '"' ∉ v)
    (h : tagFrom? none ('"' :: (v.reverse ++ behind)) rest = some (tag, place)) :
    tagFrom? (some '"') behind (v ++ '"' :: rest) = some (v ++ '"' :: tag, place) := by
  induction v generalizing behind with
  | nil =>
      have hend : tagFrom? none ('"' :: behind) rest = some (tag, place) := h
      simp [tagFrom?, hend]
  | cons c v ih =>
      rw [List.mem_cons, not_or] at hv
      have hrest : tagFrom? (some '"') (c :: behind) (v ++ '"' :: rest) =
          some (v ++ '"' :: tag, place) := ih hv.2 (by simpa using h)
      simp [tagFrom?, Ne.symm hv.1, hrest]

/-- A tag is read over an attribute. -/
theorem tagFrom?_print (a : WrittenAttribute)
    (h : tagFrom? none (a.print.reverse ++ behind) rest = some (tag, place)) :
    tagFrom? none behind (a.print ++ rest) = some (a.print ++ tag, place) := by
  have hname : ∀ c ∈ ' ' :: a.name, c ∉ ['"', '\'', '>'] := by
    refine List.forall_mem_cons.mpr ⟨by decide, fun c hc => ?_⟩
    have hsigns := (a.plain c hc).2
    simp only [List.mem_cons, List.not_mem_nil, or_false, not_or] at hsigns ⊢
    exact ⟨hsigns.2.2.2.1, hsigns.2.2.2.2, hsigns.2.2.1⟩
  cases hvalue : a.value with
  | none =>
      have hprint : a.print = ' ' :: a.name := by
        simp [WrittenAttribute.print, hvalue, printValue]
      rw [hprint] at h ⊢
      exact tagFrom?_plain hname h
  | some v =>
      have hprint : a.print = ' ' :: a.name ++ '=' :: '"' :: (v ++ ['"']) := by
        simp [WrittenAttribute.print, hvalue, printValue]
      have hafter : tagFrom? (some '"') ('"' :: '=' :: ((' ' :: a.name).reverse ++ behind))
          (v ++ '"' :: rest) = some (v ++ '"' :: tag, place) :=
        tagFrom?_value (a.quoted v hvalue) (by simpa [hprint] using h)
      have hsign : tagFrom? none ((' ' :: a.name).reverse ++ behind)
          ('=' :: '"' :: (v ++ '"' :: rest)) = some ('=' :: '"' :: (v ++ '"' :: tag), place) := by
        simpa [tagFrom?] using hafter
      have hwhole := tagFrom?_plain hname hsign
      simpa [hprint] using hwhole

/-- The opening tag of an element ends behind its attributes. -/
theorem tagFrom?_printAll (attrs : List WrittenAttribute) (behind rest : Text) :
    tagFrom? none behind (printAll attrs ++ '>' :: rest) =
      some (printAll attrs, ⟨'>' :: ((printAll attrs).reverse ++ behind), rest⟩) := by
  induction attrs generalizing behind with
  | nil => rfl
  | cons a attrs ih =>
      have hcons : printAll (a :: attrs) = a.print ++ printAll attrs := rfl
      have hrest := tagFrom?_print a (ih (a.print.reverse ++ behind))
      simpa [hcons] using hrest

end

/-- The closing tag of an element ends at its first `>`. -/
theorem tagFrom?_closeTag (behind rest : Text) :
    tagFrom? none behind (Segment.endTag ++ rest) =
      some (closeTag, ⟨Segment.endTag.reverse ++ behind, rest⟩) :=
  rfl

/-! ### Contents and comments -/

/-- No closing tag begins in the content of an element, the closing tag behind it included. -/
theorem startsTag_of_closesNoScript {c : Char} {t : Text} (h : ClosesNoScript (c :: t))
    (rest : Text) : startsTag closeTag (c :: (t ++ '<' :: rest)) = false := by
  rw [Bool.eq_false_iff]
  intro hstarts
  obtain ⟨htag, hend⟩ := Bool.and_eq_true_iff.mp hstarts
  -- a `<` stands only at the start of the tag, so the tag cannot reach the one behind the content
  have hlength : 7 ≤ t.length := by
    by_contra hshort
    have hmem : '<' ∈ (t ++ '<' :: rest).take 7 := by
      obtain ⟨n, hn⟩ : ∃ n, 7 - t.length = n + 1 := ⟨6 - t.length, by omega⟩
      rw [List.take_append, hn, List.take_succ_cons]
      exact List.mem_append_right _ List.mem_cons_self
    have hlower : ((t ++ '<' :: rest).take 7).map Char.toLower = "/script".toList := by
      have heq := eq_of_beq htag
      exact (List.cons.inj heq).2
    have hsign : '<' ∈ "/script".toList := hlower ▸ List.mem_map_of_mem (f := Char.toLower) hmem
    exact absurd hsign (by decide)
  have htake : (c :: (t ++ '<' :: rest)).take closeTag.length = c :: t.take 7 := by
    change c :: (t ++ '<' :: rest).take 7 = _
    rw [List.take_append_of_le_length hlength]
  rw [htake] at htag
  change ((t ++ '<' :: rest)[7]?).any _ = true at hend
  obtain hlong | hlong := Nat.lt_or_ge 7 t.length
  · have hpart : (c :: t.take 7) ++ [t[7]] <:+: c :: t := by
      have hhead : (c :: t).take 9 <+: c :: t := List.take_prefix _ _
      rw [List.take_succ_cons, List.take_succ_eq_append_getElem hlong] at hhead
      exact hhead.isInfix
    obtain ⟨hspace, hclose, hslash⟩ := h _ _ hpart htag
    rw [List.getElem?_append_left hlong, List.getElem?_eq_getElem hlong] at hend
    simp [hspace, hclose, hslash] at hend
  · have hhead : (t ++ '<' :: rest)[7]? = some '<' := by
      rw [List.getElem?_append_right hlong, Nat.sub_eq_zero_of_le hlength]
      rfl
    rw [hhead] at hend
    exact absurd hend (by decide)

/-- The content of an element goes up to its closing tag. -/
theorem contentFrom_closeTag {t : Text} (h : ClosesNoScript t) (behind rest : Text) :
    contentFrom behind (t ++ (Segment.endTag ++ rest)) =
      (t, ⟨t.reverse ++ behind, Segment.endTag ++ rest⟩) := by
  induction t generalizing behind with
  | nil => rfl
  | cons c t ih =>
      have hnext : ClosesNoScript t := fun tag d hpart =>
        h tag d (hpart.trans (List.suffix_cons c t).isInfix)
      have hhere : startsTag closeTag (c :: (t ++ (Segment.endTag ++ rest))) = false :=
        startsTag_of_closesNoScript h _
      rw [List.cons_append, contentFrom, hhere, ih hnext]
      simp

/-- A comment goes up to the first sign that ends it. -/
theorem afterCommentFrom_close {t : Text} (h : ¬ ['-', '-', '>'] <:+: t) (behind rest : Text) :
    afterCommentFrom behind (t ++ ("-->".toList ++ rest)) =
      ⟨"-->".toList.reverse ++ (t.reverse ++ behind), rest⟩ := by
  induction t generalizing behind with
  | nil => rfl
  | cons c t ih =>
      have hnext : ¬ ['-', '-', '>'] <:+: t := fun hpart =>
        h (hpart.trans (List.suffix_cons c t).isInfix)
      have hhere : "-->".toList.isPrefixOf (c :: (t ++ ("-->".toList ++ rest))) = false := by
        rw [Bool.eq_false_iff]
        intro hstarts
        match t with
        | [] | [_] => simp [List.isPrefixOf] at hstarts
        | d :: e :: t =>
            have hhead : ['-', '-', '>'] <+: c :: d :: e :: t := by
              simpa [List.isPrefixOf, List.cons_prefix_cons] using hstarts
            exact h hhead.isInfix
      rw [List.cons_append, afterCommentFrom, hhere, if_neg Bool.false_ne_true, ih hnext]
      simp

/-! ### Segments -/

variable {behind rest : Text}

theorem attribute?_map (attrs : List WrittenAttribute) (name : Text) :
    attribute? (attrs.map fun a => (a.name, a.value)) name =
      (first? name attrs).map fun a => (a.name, a.value) := by
  rw [attribute?, List.find?_map]
  rfl

theorem langOf_map (attrs : List WrittenAttribute) :
    langOf (attrs.map fun a => (a.name, a.value)) = (first? "lang".toList attrs).bind value := by
  rw [langOf, attribute?_map, Option.bind_map]
  rfl

theorem isModuleOf_map (attrs : List WrittenAttribute) :
    isModuleOf (attrs.map fun a => (a.name, a.value)) =
      decide ((first? "context".toList attrs).bind value = some "module".toList ∨
        (first? "module".toList attrs).map value = some none) := by
  rw [isModuleOf, attribute?_map, attribute?_map, Bool.decide_or]
  congr 1
  · cases first? "context".toList attrs with
    | none => rfl
    | some a => exact beq_eq_decide _ _
  · cases first? "module".toList attrs with
    | none => rfl
    | some a => cases hvalue : a.value <;> simp [hvalue]

/-- The attributes of an element do not belong to its name. -/
theorem startsTag_printAll (attrs : List WrittenAttribute) (rest : Text) :
    startsTag openTag (openTag ++ (printAll attrs ++ '>' :: rest)) = true := by
  obtain hnil | ⟨t, ht⟩ := printAll_eq_nil_or attrs
  · rw [hnil]
    rfl
  · rw [ht]
    rfl

theorem readAt?_openTag {t : Text} (h : startsTag openTag (openTag ++ t) = true) :
    readAt? ⟨behind, openTag ++ t⟩ = elementAt? ⟨behind, openTag ++ t⟩ := by
  have hsome : (openTag ++ t).isEmpty = false := rfl
  have hcomment : "<!--".toList.isPrefixOf (openTag ++ t) = false := rfl
  simp only [readAt?, hsome, hcomment, h, Bool.false_eq_true, if_false, if_true]

theorem advanceBy_openTag (t : Text) :
    Cursor.advanceBy ⟨behind, openTag ++ t⟩ openTag.length = ⟨openTag.reverse ++ behind, t⟩ :=
  rfl

/-- An element is read as a whole. -/
theorem readAt?_element (attrs : List WrittenAttribute) (content : Text)
    (valid : ClosesNoScript content) :
    readAt? ⟨behind, (Segment.element attrs content valid).print ++ rest⟩ =
      some ((Segment.element attrs content valid).block? (byteLength behind),
        ⟨(Segment.element attrs content valid).print.reverse ++ behind, rest⟩) := by
  have hprint : (Segment.element attrs content valid).print =
      Segment.startTag attrs ++ (content ++ Segment.endTag) := rfl
  have hstart : Segment.startTag attrs = openTag ++ (printAll attrs ++ ['>']) := rfl
  have hbehind : (Segment.startTag attrs).reverse ++ behind =
      '>' :: ((printAll attrs).reverse ++ (openTag.reverse ++ behind)) := by
    simp only [hstart, List.reverse_append, List.reverse_singleton, List.append_assoc,
      List.cons_append, List.nil_append]
  have hoffset : byteLength ('>' :: ((printAll attrs).reverse ++ (openTag.reverse ++ behind))) =
      byteLength behind + byteLength (Segment.startTag attrs) := by
    rw [← hbehind, byteLength_append, byteLength_reverse, Nat.add_comm]
  have hslash : ((printAll attrs).getLast? == some '/') = false :=
    beq_eq_false_iff_ne.mpr (getLast?_printAll attrs)
  rw [hprint]
  simp only [List.reverse_append, List.append_assoc, hbehind]
  rw [hstart]
  simp only [List.append_assoc, List.cons_append, List.nil_append]
  rw [readAt?_openTag (startsTag_printAll attrs _), elementAt?, advanceBy_openTag]
  dsimp only
  rw [tagFrom?_printAll]
  simp only [hslash, contentFrom_closeTag valid, tagFrom?_closeTag, attributes_printAll,
    langOf_map, isModuleOf_map, Bool.false_eq_true, if_false, Segment.block?, Cursor.byteOffset,
    hoffset]

/-- Only a `<` is equal to it when case is ignored. -/
theorem eq_of_toLower_eq {c : Char} (h : c.toLower = '<') : c = '<' := by
  unfold Char.toLower at h
  split at h
  · rename_i hupper
    have hsum : (c.toNat + 32) % 2 ^ 32 = 60 := congrArg (fun d : Char => d.val.toNat) h
    have hlow : 65 ≤ c.toNat := UInt32.le_iff_toNat_le.mp hupper.1
    have hhigh : c.toNat ≤ 90 := UInt32.le_iff_toNat_le.mp hupper.2
    omega
  · exact h

/-- Text without a `<` is passed over. -/
theorem blocksFrom_filler {t : Text} (ht : '<' ∉ t) :
    blocksFrom ⟨behind, t ++ rest⟩ = blocksFrom ⟨t.reverse ++ behind, rest⟩ := by
  induction t generalizing behind with
  | nil => rfl
  | cons c t ih =>
      rw [List.mem_cons, not_or] at ht
      have hcomment : "<!--".toList.isPrefixOf (c :: (t ++ rest)) = false := by
        simp [List.isPrefixOf, ht.1]
      have htag : startsTag openTag (c :: (t ++ rest)) = false := by
        rw [Bool.eq_false_iff]
        intro hstarts
        have heq := eq_of_beq (Bool.and_eq_true_iff.mp hstarts).1
        exact ht.1 (eq_of_toLower_eq (List.cons.inj heq).1).symm
      have hread : readAt? ⟨behind, c :: (t ++ rest)⟩ = some (none, ⟨c :: behind, t ++ rest⟩) := by
        rw [readAt?, hcomment, htag]
        rfl
      rw [List.cons_append, Component.blocksFrom_eq, hread, List.reverse_cons, List.append_assoc]
      exact ih ht.2

/-- A comment is passed over, whatever stands in it. -/
theorem readAt?_comment {inner : Text} (h : ¬ ['-', '-', '>'] <:+: inner) :
    readAt? ⟨behind, "<!--".toList ++ (inner ++ ("-->".toList ++ rest))⟩ = some (none,
      ⟨"-->".toList.reverse ++ (inner.reverse ++ ("<!--".toList.reverse ++ behind)), rest⟩) := by
  rw [← afterCommentFrom_close h]
  rfl

/-- A segment is read as its block. -/
theorem blocksFrom_print (s : Segment) :
    blocksFrom ⟨behind, s.print ++ rest⟩ =
      (s.block? (byteLength behind)).toList ++ blocksFrom ⟨s.print.reverse ++ behind, rest⟩ := by
  cases s with
  | filler text valid => exact blocksFrom_filler valid
  | comment inner valid =>
      have hprint : (Segment.comment inner valid).print =
          "<!--".toList ++ (inner ++ "-->".toList) := rfl
      rw [hprint, List.append_assoc, List.append_assoc, Component.blocksFrom_eq,
        readAt?_comment valid]
      simp only [List.reverse_append, List.append_assoc]
      rfl
  | element attrs content valid => rw [Component.blocksFrom_eq, readAt?_element]

theorem blocksFrom_segments (segments : List Segment) (behind : Text) :
    blocksFrom ⟨behind, Segment.printAll segments⟩ =
      Segment.blocksAt (byteLength behind) segments := by
  induction segments generalizing behind with
  | nil => exact Component.blocksFrom_eq_nil (by decide) behind
  | cons s segments ih =>
      have hprint : Segment.printAll (s :: segments) = s.print ++ Segment.printAll segments := rfl
      have hoffset : byteLength (s.print.reverse ++ behind) =
          byteLength behind + byteLength s.print := by
        rw [byteLength_append, byteLength_reverse, Nat.add_comm]
      rw [hprint, blocksFrom_print, ih, hoffset]
      rfl

end Script

end ComponentProps
