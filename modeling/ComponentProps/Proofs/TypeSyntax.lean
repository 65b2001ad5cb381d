import ComponentProps.Proofs.Identifiers

/-!
# Type expressions as trees

Type expressions and how they are written on one line. The readers of types never see a tree, so
what they rely on is said of texts: a rule for each way to write a type on one line, and that such a
text begins and ends with a visible character of a few kinds and holds no line feed. A property that
is closed under the ways to write types holds of every such text.
-/

namespace ComponentProps

open Text

/-- A string literal. Its content has neither its quote nor a backslash nor a line feed. -/
structure StringLiteral where
  quote : Char
  content : Text
  isQuote : Text.isQuote quote = true
  valid : content.all (fun c => c != quote && c != '\\' && c != '\n') = true
  deriving DecidableEq, Repr

namespace StringLiteral

def print (l : StringLiteral) : Text := l.quote :: (l.content ++ [l.quote])

theorem ne_of_mem (l : StringLiteral) {c : Char} (h : c ∈ l.content) :
    c ≠ l.quote ∧ c ≠ '\\' ∧ c ≠ '\n' := by
  have hc := List.all_eq_true.mp l.valid c h
  simp only [Bool.and_eq_true, bne_iff_ne, ne_eq] at hc
  exact ⟨hc.1.1, hc.1.2, hc.2⟩

end StringLiteral

mutual

/-- A type expression. -/
inductive TypeExpr
  | name (n : Identifier)
  | literal (l : StringLiteral)
  | generic (n : Identifier) (arguments : List TypeExpr)
  | array (element : TypeExpr)
  | tuple (elements : List TypeExpr)
  /-- An object type. A semicolon may stand behind its last field. -/
  | object (fields : List Field) (closed : Bool)
  | function (parameters : List Field) (result : TypeExpr)
  | union (left right : TypeExpr)
  | intersection (left right : TypeExpr)
  | conditional (checked bound positive negative : TypeExpr)

/-- A named type: a field of an object type or a parameter of a function type. -/
inductive Field
  | mk (name : Identifier) (optional : Bool) (type : TypeExpr)

end

/-- The question mark of an optional name. -/
def printMark (optional : Bool) : Text := if optional then ['?'] else []

/-- The semicolon behind the last field of an object type. -/
def printTrailing (closed : Bool) : Text := if closed then [';'] else []

mutual

def TypeExpr.print : TypeExpr → Text
  | .name n => n.text
  | .literal l => l.print
  | .generic n arguments => n.text ++ '<' :: (printTypes arguments ++ ['>'])
  | .array element => element.print ++ ['[', ']']
  | .tuple elements => '[' :: (printTypes elements ++ [']'])
  | .object fields closed =>
    '{' :: ' ' :: (printFields ';' fields ++ (printTrailing closed ++ [' ', '}']))
  | .function parameters result =>
    '(' :: (printFields ',' parameters ++ ')' :: ' ' :: '=' :: '>' :: ' ' :: result.print)
  | .union left right => left.print ++ ' ' :: '|' :: ' ' :: right.print
  | .intersection left right => left.print ++ ' ' :: '&' :: ' ' :: right.print
  | .conditional checked bound positive negative =>
    checked.print ++ ' ' :: ("extends".toList ++ ' ' :: (bound.print ++ ' ' :: '?' :: ' ' ::
      (positive.print ++ ' ' :: ':' :: ' ' :: negative.print)))

/-- Types with commas between them. -/
def printTypes : List TypeExpr → Text
  | [] => []
  | type :: types => type.print ++ printMoreTypes types

def printMoreTypes : List TypeExpr → Text
  | [] => []
  | type :: types => ',' :: ' ' :: (type.print ++ printMoreTypes types)

def Field.print : Field → Text
  | .mk name optional type => name.text ++ (printMark optional ++ ':' :: ' ' :: type.print)

/-- Fields with a separator between them. -/
def printFields (separator : Char) : List Field → Text
  | [] => []
  | field :: fields => field.print ++ printMoreFields separator fields

def printMoreFields (separator : Char) : List Field → Text
  | [] => []
  | field :: fields => separator :: ' ' :: (field.print ++ printMoreFields separator fields)

end

mutual

/-- The identifiers of a type expression. -/
def TypeExpr.names : TypeExpr → List Text
  | .name n => [n.text]
  | .literal _ => []
  | .generic n arguments => n.text :: namesOfTypes arguments
  | .array element => element.names
  | .tuple elements => namesOfTypes elements
  | .object fields _ => namesOfFields fields
  | .function parameters result => namesOfFields parameters ++ result.names
  | .union left right => left.names ++ right.names
  | .intersection left right => left.names ++ right.names
  | .conditional checked bound positive negative =>
    checked.names ++ (bound.names ++ (positive.names ++ negative.names))

def namesOfTypes : List TypeExpr → List Text
  | [] => []
  | type :: types => type.names ++ namesOfTypes types

def Field.names : Field → List Text
  | .mk name _ type => name.text :: type.names

def namesOfFields : List Field → List Text
  | [] => []
  | field :: fields => field.names ++ namesOfFields fields

end

/-! ### The ends of a text -/

/-- The characters that a type may begin with. -/
def opensType (c : Char) : Bool :=
  isIdentStart c || isQuote c || c == '[' || c == '{' || c == '('

/-- The characters that a type may end with. -/
def closesType (c : Char) : Bool :=
  isIdentChar c || isQuote c || c == '>' || c == ']' || c == '}'

theorem not_isWhite_of_isQuote {c : Char} (h : isQuote c = true) : isWhite c = false := by
  simp only [isQuote, Bool.or_eq_true, beq_iff_eq] at h
  rcases h with (rfl | rfl) | rfl <;> decide

theorem not_isWhite_of_opensType {c : Char} (h : opensType c = true) : isWhite c = false := by
  simp only [opensType, Bool.or_eq_true, beq_iff_eq] at h
  rcases h with (((h | h) | rfl) | rfl) | rfl
  · exact not_isWhite_of_isIdentChar (isIdentChar_of_isIdentStart h)
  · exact not_isWhite_of_isQuote h
  all_goals decide

theorem not_isWhite_of_closesType {c : Char} (h : closesType c = true) : isWhite c = false := by
  simp only [closesType, Bool.or_eq_true, beq_iff_eq] at h
  rcases h with (((h | h) | rfl) | rfl) | rfl
  · exact not_isWhite_of_isIdentChar h
  · exact not_isWhite_of_isQuote h
  all_goals decide

/-- A text begins and ends like a type. -/
structure HasTypeEnds (t : Text) : Prop where
  first : ∃ c rest, t = c :: rest ∧ opensType c = true
  last : ∃ front c, t = front ++ [c] ∧ closesType c = true

namespace HasTypeEnds

theorem append {s t : Text} (hs : HasTypeEnds s) (ht : HasTypeEnds t) (glue : Text) :
    HasTypeEnds (s ++ (glue ++ t)) := by
  obtain ⟨c, rest, rfl, hc⟩ := hs.first
  obtain ⟨front, d, rfl, hd⟩ := ht.last
  exact ⟨⟨c, _, rfl, hc⟩, ⟨c :: rest ++ (glue ++ front), d, by simp, hd⟩⟩

theorem close {t : Text} (h : HasTypeEnds t) (glue : Text) {c : Char} (hc : closesType c = true) :
    HasTypeEnds (t ++ (glue ++ [c])) := by
  obtain ⟨d, rest, rfl, hd⟩ := h.first
  exact ⟨⟨d, _, rfl, hd⟩, ⟨d :: rest ++ glue, c, by simp, hc⟩⟩

theorem bracketed {c d : Char} (hc : opensType c = true) (hd : closesType d = true) (t : Text) :
    HasTypeEnds (c :: (t ++ [d])) :=
  ⟨⟨c, _, rfl, hc⟩, ⟨c :: t, d, rfl, hd⟩⟩

theorem cons {t : Text} (ht : HasTypeEnds t) {c : Char} (hc : opensType c = true) (glue : Text) :
    HasTypeEnds (c :: (glue ++ t)) := by
  obtain ⟨front, d, rfl, hd⟩ := ht.last
  exact ⟨⟨c, _, rfl, hc⟩, ⟨c :: (glue ++ front), d, by simp, hd⟩⟩

end HasTypeEnds

theorem Identifier.hasTypeEnds (n : Identifier) : HasTypeEnds n.text := by
  obtain ⟨c, rest, htext, hstart, hall⟩ := n.exists_cons
  refine ⟨⟨c, rest, htext, by simp [opensType, hstart]⟩, ?_⟩
  refine ⟨n.text.dropLast, n.text.getLast n.ne_nil,
    (List.dropLast_concat_getLast n.ne_nil).symm, ?_⟩
  simp [closesType, hall _ (List.getLast_mem n.ne_nil)]

theorem StringLiteral.hasTypeEnds (l : StringLiteral) : HasTypeEnds l.print :=
  HasTypeEnds.bracketed (by simp [opensType, l.isQuote]) (by simp [closesType, l.isQuote]) _

theorem StringLiteral.newline_not_mem (l : StringLiteral) : '\n' ∉ l.print := by
  have hquote : l.quote ≠ '\n' := ne_of_kind l.isQuote rfl
  intro hmem
  simp only [StringLiteral.print, List.mem_cons, List.mem_append, List.not_mem_nil, or_false] at hmem
  rcases hmem with heq | hmem | heq
  · exact hquote heq.symm
  · exact (l.ne_of_mem hmem).2.2 rfl
  · exact hquote heq.symm

/-! ### Texts of types -/

/-- Texts with a separator and a space between them. -/
def separated (separator : Char) (ts : List Text) : Text := [separator, ' '].intercalate ts

theorem separated_cons_cons (separator : Char) (t u : Text) (ts : List Text) :
    separated separator (t :: u :: ts) =
      t ++ separator :: ' ' :: separated separator (u :: ts) := by
  simp [separated, List.intercalate_cons_cons]

/-- What holds of some texts and is kept when one is put in front holds of all of them together. -/
theorem separated_induction {p : Text → Prop} {separator : Char} {ts : List Text} (nil : p [])
    (one : ∀ t ∈ ts, p t) (cons : ∀ t ∈ ts, ∀ u, p u → p (t ++ separator :: ' ' :: u)) :
    p (separated separator ts) := by
  induction ts with
  | nil => exact nil
  | cons t ts ih =>
      cases ts with
      | nil => simpa [separated] using one t List.mem_cons_self
      | cons u ts =>
          rw [separated_cons_cons]
          refine cons t List.mem_cons_self _ (ih ?_ ?_)
          · exact fun v hv => one v (List.mem_cons_of_mem _ hv)
          · exact fun v hv => cons v (List.mem_cons_of_mem _ hv)

/-- Types with commas between them do not end like an arrow. -/
theorem getLast?_types {ts : List Text} (hts : ∀ t ∈ ts, HasTypeEnds t) :
    (separated ',' ts).getLast? ≠ some '=' := by
  refine separated_induction (p := fun u => u.getLast? ≠ some '=') (by simp) ?_ ?_
  · intro t ht
    obtain ⟨front, c, rfl, hc⟩ := (hts t ht).last
    simpa using ne_of_kind hc rfl
  · intro t _ u hu
    cases u with
    | nil => simp
    | cons c u => simpa [List.getLast?_append, List.getLast?_cons] using hu

/-- A name with the text of its type. -/
structure TypedName where
  name : Identifier
  optional : Bool
  type : Text

def TypedName.print (f : TypedName) : Text :=
  f.name.text ++ (printMark f.optional ++ ':' :: ' ' :: f.type)

/-- A type as it is written on one line. Its identifiers are none of `keys`. -/
inductive IsTypeText (keys : List Text) : Text → Prop
  | name (n : Identifier) (free : n.text ∉ keys) : IsTypeText keys n.text
  | literal (l : StringLiteral) : IsTypeText keys l.print
  | generic (n : Identifier) (free : n.text ∉ keys) {arguments : List Text}
      (types : ∀ t ∈ arguments, IsTypeText keys t) :
      IsTypeText keys (n.text ++ '<' :: (separated ',' arguments ++ ['>']))
  | array {element : Text} (type : IsTypeText keys element) :
      IsTypeText keys (element ++ ['[', ']'])
  | tuple {elements : List Text} (types : ∀ t ∈ elements, IsTypeText keys t) :
      IsTypeText keys ('[' :: (separated ',' elements ++ [']']))
  /-- The object type without fields. -/
  | empty : IsTypeText keys ['{', '}']
  | object {fields : List TypedName} (free : ∀ f ∈ fields, f.name.text ∉ keys)
      (types : ∀ f ∈ fields, IsTypeText keys f.type) (closed : Bool) :
      IsTypeText keys ('{' :: ' ' :: (separated ';' (fields.map TypedName.print) ++
        (printTrailing closed ++ [' ', '}'])))
  | function {parameters : List TypedName} (free : ∀ f ∈ parameters, f.name.text ∉ keys)
      (types : ∀ f ∈ parameters, IsTypeText keys f.type) {result : Text}
      (type : IsTypeText keys result) :
      IsTypeText keys ('(' :: (separated ',' (parameters.map TypedName.print) ++
        ')' :: ' ' :: '=' :: '>' :: ' ' :: result))
  | union {left right : Text} (first : IsTypeText keys left) (second : IsTypeText keys right) :
      IsTypeText keys (left ++ ' ' :: '|' :: ' ' :: right)
  | intersection {left right : Text} (first : IsTypeText keys left)
      (second : IsTypeText keys right) : IsTypeText keys (left ++ ' ' :: '&' :: ' ' :: right)
  | conditional {checked bound positive negative : Text} (hchecked : IsTypeText keys checked)
      (hbound : IsTypeText keys bound) (hpositive : IsTypeText keys positive)
      (hnegative : IsTypeText keys negative) :
      IsTypeText keys (checked ++ ' ' :: ("extends".toList ++ ' ' :: (bound ++ ' ' :: '?' :: ' ' ::
        (positive ++ ' ' :: ':' :: ' ' :: negative))))

/-! ### Printed trees -/

def Field.toTypedName : Field → TypedName
  | .mk name optional type => ⟨name, optional, type.print⟩

theorem Field.print_toTypedName (f : Field) : f.toTypedName.print = f.print := by
  cases f
  rw [Field.print]
  rfl

theorem printTypes_eq (ts : List TypeExpr) :
    printTypes ts = separated ',' (ts.map TypeExpr.print) := by
  have hmore : ∀ (t : Text) (ts : List TypeExpr),
      t ++ printMoreTypes ts = separated ',' (t :: ts.map TypeExpr.print) := by
    intro t ts
    induction ts generalizing t with
    | nil => simp [printMoreTypes, separated]
    | cons u ts ih => rw [printMoreTypes, ih, List.map_cons, separated_cons_cons]
  cases ts with
  | nil => rfl
  | cons t ts => rw [printTypes, hmore, List.map_cons]

theorem printFields_eq (separator : Char) (fs : List Field) :
    printFields separator fs =
      separated separator ((fs.map Field.toTypedName).map TypedName.print) := by
  have hmore : ∀ (t : Text) (fs : List Field), t ++ printMoreFields separator fs =
      separated separator (t :: (fs.map Field.toTypedName).map TypedName.print) := by
    intro t fs
    induction fs generalizing t with
    | nil => simp [printMoreFields, separated]
    | cons f fs ih =>
        rw [printMoreFields, ih, List.map_cons, List.map_cons, separated_cons_cons,
          f.print_toTypedName]
  cases fs with
  | nil => rfl
  | cons f fs => rw [printFields, hmore, List.map_cons, List.map_cons, f.print_toTypedName]

section

variable {keys : List Text}

mutual

/-- A printed tree is a text of a type. -/
theorem TypeExpr.isTypeText :
    ∀ t : TypeExpr, (∀ n ∈ t.names, n ∉ keys) → IsTypeText keys t.print
  | .name n, h => by
      rw [TypeExpr.print]
      exact .name n (h _ (by simp [TypeExpr.names]))
  | .literal l, _ => by
      rw [TypeExpr.print]
      exact .literal l
  | .generic n arguments, h => by
      rw [TypeExpr.names, List.forall_mem_cons] at h
      rw [TypeExpr.print, printTypes_eq]
      exact .generic n h.1 (isTypeText_types arguments h.2)
  | .array element, h => by
      rw [TypeExpr.names] at h
      rw [TypeExpr.print]
      exact .array (element.isTypeText h)
  | .tuple elements, h => by
      rw [TypeExpr.names] at h
      rw [TypeExpr.print, printTypes_eq]
      exact .tuple (isTypeText_types elements h)
  | .object fields closed, h => by
      rw [TypeExpr.names] at h
      rw [TypeExpr.print, printFields_eq]
      have hfields := isTypeText_fields fields h
      exact .object (fun f hf => (hfields f hf).1) (fun f hf => (hfields f hf).2) closed
  | .function parameters result, h => by
      rw [TypeExpr.names, List.forall_mem_append] at h
      rw [TypeExpr.print, printFields_eq]
      have hfields := isTypeText_fields parameters h.1
      exact .function (fun f hf => (hfields f hf).1) (fun f hf => (hfields f hf).2)
        (result.isTypeText h.2)
  | .union left right, h => by
      rw [TypeExpr.names, List.forall_mem_append] at h
      rw [TypeExpr.print]
      exact .union (left.isTypeText h.1) (right.isTypeText h.2)
  | .intersection left right, h => by
      rw [TypeExpr.names, List.forall_mem_append] at h
      rw [TypeExpr.print]
      exact .intersection (left.isTypeText h.1) (right.isTypeText h.2)
  | .conditional checked bound positive negative, h => by
      simp only [TypeExpr.names, List.forall_mem_append] at h
      rw [TypeExpr.print]
      exact .conditional (checked.isTypeText h.1) (bound.isTypeText h.2.1)
        (positive.isTypeText h.2.2.1) (negative.isTypeText h.2.2.2)

theorem isTypeText_types : ∀ ts : List TypeExpr, (∀ n ∈ namesOfTypes ts, n ∉ keys) →
    ∀ t ∈ ts.map TypeExpr.print, IsTypeText keys t
  | [], _ => by simp
  | t :: ts, h => by
      rw [namesOfTypes, List.forall_mem_append] at h
      rw [List.map_cons, List.forall_mem_cons]
      exact ⟨t.isTypeText h.1, isTypeText_types ts h.2⟩

theorem isTypeText_field : ∀ f : Field, (∀ n ∈ f.names, n ∉ keys) →
    f.toTypedName.name.text ∉ keys ∧ IsTypeText keys f.toTypedName.type
  | .mk name optional type, h => by
      rw [Field.names, List.forall_mem_cons] at h
      exact ⟨h.1, type.isTypeText h.2⟩

theorem isTypeText_fields : ∀ fs : List Field, (∀ n ∈ namesOfFields fs, n ∉ keys) →
    ∀ f ∈ fs.map Field.toTypedName, f.name.text ∉ keys ∧ IsTypeText keys f.type
  | [], _ => by simp
  | f :: fs, h => by
      rw [namesOfFields, List.forall_mem_append] at h
      rw [List.map_cons, List.forall_mem_cons]
      exact ⟨isTypeText_field f h.1, isTypeText_fields fs h.2⟩

end

end

theorem TypeExpr.isTypeText_print (t : TypeExpr) : IsTypeText [] t.print :=
  t.isTypeText fun _ _ => List.not_mem_nil

namespace IsTypeText

variable {keys : List Text} {t : Text}

theorem hasTypeEnds (h : IsTypeText keys t) : HasTypeEnds t := by
  induction h with
  | name n _ => exact n.hasTypeEnds
  | literal l => exact l.hasTypeEnds
  | @generic n _ arguments _ _ =>
      simpa using n.hasTypeEnds.close ('<' :: separated ',' arguments) (c := '>') (by decide)
  | array _ ih => exact ih.close ['['] (by decide)
  | tuple _ _ => exact .bracketed (by decide) (by decide) _
  | empty => exact .bracketed (by decide) (by decide) []
  | @object fields _ _ closed _ =>
      simpa using HasTypeEnds.bracketed (c := '{') (d := '}') (by decide) (by decide)
        (' ' :: (separated ';' (fields.map TypedName.print) ++ (printTrailing closed ++ [' '])))
  | @function parameters _ _ result _ _ ih =>
      simpa using ih.cons (c := '(') (by decide)
        (separated ',' (parameters.map TypedName.print) ++ [')', ' ', '=', '>', ' '])
  | union _ _ hleft hright => simpa using hleft.append hright [' ', '|', ' ']
  | intersection _ _ hleft hright => simpa using hleft.append hright [' ', '&', ' ']
  | @conditional _ bound positive _ _ _ _ _ hchecked _ _ hnegative =>
      simpa using hchecked.append hnegative (' ' :: ("extends".toList ++ ' ' ::
        (bound ++ ' ' :: '?' :: ' ' :: (positive ++ [' ', ':', ' ']))))

end IsTypeText

theorem TypeExpr.hasTypeEnds (t : TypeExpr) : HasTypeEnds t.print :=
  t.isTypeText_print.hasTypeEnds

/-! ### Properties built up along a type -/

/-- What holds of the characters of a text one by one, and is kept when texts are joined, holds of
the text. -/
theorem append_induction {p : Text → Prop} (nil : p []) (append : ∀ s t, p s → p t → p (s ++ t))
    {t : Text} (one : ∀ c ∈ t, p [c]) : p t := by
  induction t with
  | nil => exact nil
  | cons c t ih =>
      rw [List.forall_mem_cons] at one
      exact append [c] t one.1 (ih one.2)

/-- The signs of a type other than quotes, brackets and arrows. -/
def typeSigns : List Char := [' ', ',', ';', ':', '?', '|', '&']

/-- The property is closed under the ways in which types are written. -/
structure TypeClosed (p : Text → Prop) : Prop where
  nil : p []
  append {s t : Text} : p s → p t → p (s ++ t)
  letter {c : Char} : isIdentChar c = true → p [c]
  sign {c : Char} : c ∈ typeSigns → p [c]
  arrow : p ['=', '>']
  literal (l : StringLiteral) : p l.print
  group {opening close : Char} {t : Text} :
    (opening, close) ∈ [('(', ')'), ('[', ']'), ('{', '}')] → p t → p (opening :: (t ++ [close]))
  angles {t : Text} : t.getLast? ≠ some '=' → p t → p ('<' :: (t ++ ['>']))

namespace TypeClosed

variable {p : Text → Prop} (hp : TypeClosed p)

include hp

theorem word (n : Identifier) : p n.text :=
  append_induction hp.nil (fun _ _ => hp.append) fun _ hc => hp.letter (n.isIdentChar_of_mem hc)

theorem signs {t : Text} (ht : t.all (· ∈ typeSigns) = true) : p t :=
  append_induction hp.nil (fun _ _ => hp.append) fun c hc =>
    hp.sign (of_decide_eq_true (List.all_eq_true.mp ht c hc))

theorem separated {separator : Char} (hs : separator ∈ typeSigns) {ts : List Text}
    (h : ∀ t ∈ ts, p t) : p (separated separator ts) :=
  separated_induction hp.nil h fun t ht _ hu =>
    hp.append (h t ht) (hp.append (hp.sign hs) (hp.append (hp.signs (t := [' ']) (by decide)) hu))

theorem typedNames {separator : Char} (hs : separator ∈ typeSigns) {fs : List TypedName}
    (h : ∀ f ∈ fs, p f.type) :
    p (ComponentProps.separated separator (fs.map TypedName.print)) := by
  refine hp.separated hs fun t ht => ?_
  obtain ⟨f, hf, rfl⟩ := List.mem_map.mp ht
  have hmark : p (printMark f.optional) := hp.signs (by cases f.optional <;> decide)
  have hcolon : p [':', ' '] := hp.signs (by decide)
  exact hp.append (hp.word f.name) (hp.append hmark (hp.append hcolon (h f hf)))

/-- A property that is closed under the ways in which types are written holds of every type. -/
theorem typeText {keys : List Text} {t : Text} (h : IsTypeText keys t) : p t := by
  have hspace : p [' '] := hp.signs (by decide)
  have hjoin : ∀ {c left right}, c ∈ typeSigns → p left → p right →
      p (left ++ ' ' :: c :: ' ' :: right) := fun hc hleft hright =>
    hp.append hleft (hp.append hspace (hp.append (hp.sign hc) (hp.append hspace hright)))
  induction h with
  | name n _ => exact hp.word n
  | literal l => exact hp.literal l
  | generic n _ types ih =>
      have hlast := getLast?_types fun t ht => (types t ht).hasTypeEnds
      exact hp.append (hp.word n) (hp.angles hlast (hp.separated (by decide) ih))
  | array _ ih => exact hp.append ih (hp.group (by decide) hp.nil)
  | tuple _ ih => exact hp.group (by decide) (hp.separated (by decide) ih)
  | empty => exact hp.group (by decide) hp.nil
  | @object fields _ _ closed ih =>
      have hfields : p (ComponentProps.separated ';' (fields.map TypedName.print)) :=
        hp.typedNames (by decide) ih
      have htrailing : p (printTrailing closed) := hp.signs (by cases closed <;> decide)
      have hbody := hp.append hspace (hp.append hfields (hp.append htrailing hspace))
      simpa using hp.group (show ('{', '}') ∈ _ by decide) hbody
  | @function parameters _ _ _ _ ih hresult =>
      have hparameters : p (ComponentProps.separated ',' (parameters.map TypedName.print)) :=
        hp.typedNames (by decide) ih
      have hround := hp.group (show ('(', ')') ∈ _ by decide) hparameters
      simpa using hp.append hround
        (hp.append hspace (hp.append hp.arrow (hp.append hspace hresult)))
  | union _ _ hleft hright => exact hjoin (by decide) hleft hright
  | intersection _ _ hleft hright => exact hjoin (by decide) hleft hright
  | conditional _ _ _ _ hchecked hbound hpositive hnegative =>
      have hkeyword : p "extends".toList := hp.word ⟨"extends".toList, by decide⟩
      have hcases := hjoin (c := '?') (by decide) hbound
        (hjoin (c := ':') (by decide) hpositive hnegative)
      exact hp.append hchecked (hp.append hspace (hp.append hkeyword (hp.append hspace hcases)))

theorem types (ts : List TypeExpr) : p (printTypes ts) := by
  have htypes : ∀ t ∈ ts.map TypeExpr.print, IsTypeText [] t :=
    isTypeText_types ts fun _ _ => List.not_mem_nil
  rw [printTypes_eq]
  exact hp.separated (by decide) fun t ht => hp.typeText (htypes t ht)

theorem fields {separator : Char} (hs : separator ∈ typeSigns) (fs : List Field) :
    p (printFields separator fs) := by
  have hfields : ∀ f ∈ fs.map Field.toTypedName, f.name.text ∉ [] ∧ IsTypeText [] f.type :=
    isTypeText_fields fs fun _ _ => List.not_mem_nil
  rw [printFields_eq]
  exact hp.typedNames hs fun f hf => hp.typeText (hfields f hf).2

end TypeClosed

theorem typeClosed_newline_not_mem : TypeClosed ('\n' ∉ ·) where
  nil := List.not_mem_nil
  append hs ht := by simp [hs, ht]
  letter hc := by simpa using (ne_of_kind hc rfl).symm
  sign hc := by
    rw [List.mem_singleton]
    rintro rfl
    exact absurd hc (by decide)
  arrow := by decide
  literal l := l.newline_not_mem
  group hkind ht := by
    simp only [List.mem_cons, List.not_mem_nil, or_false, Prod.mk.injEq] at hkind
    rcases hkind with ⟨rfl, rfl⟩ | ⟨rfl, rfl⟩ | ⟨rfl, rfl⟩ <;> simp [ht]
  angles _ ht := by simp [ht]

/-- A type is written on one line. -/
theorem IsTypeText.newline_not_mem {keys : List Text} {t : Text} (h : IsTypeText keys t) :
    '\n' ∉ t :=
  typeClosed_newline_not_mem.typeText h

end ComponentProps
