import ComponentProps.Text.Cursor

/-!
# Script blocks

The `<script>` elements of a component. Other markup is passed over and comments are skipped, so a
block that is commented out is not found.
-/

namespace ComponentProps

open Text

/-- A script element of a component. -/
structure Script where
  content : Text
  /-- The value of the `lang` attribute. -/
  lang : Option Text
  /-- The block belongs to the module, not to each component. -/
  isModule : Bool
  /-- The UTF-8 offset of the content in the source. -/
  start : Nat
  deriving DecidableEq, Repr

namespace Script

/-- The UTF-8 offset of the end of the content. -/
def stop (s : Script) : Nat := s.start + byteLength s.content

def isTypeScript (s : Script) : Bool :=
  s.lang.any fun l => eqIgnoringCase l "ts".toList || eqIgnoringCase l "typescript".toList

/-! ### Attributes -/

/-- An attribute with its value, if it has one. -/
abbrev Attribute := Text × Option Text

/-- The value of an attribute at the start of a text, and what follows it. -/
def splitValue (t : Text) : Text × Text :=
  match t with
  | [] => ([], [])
  | q :: rest =>
    if q == '"' || q == '\'' then
      (rest.takeWhile (· != q), (rest.dropWhile (· != q)).drop 1)
    else (t.takeWhile (!isWhite ·), t.dropWhile (!isWhite ·))

theorem length_dropWhile_le (p : Char → Bool) (t : Text) : (t.dropWhile p).length ≤ t.length :=
  (List.dropWhile_sublist p).length_le

theorem length_splitValue_le (t : Text) : (splitValue t).2.length ≤ t.length := by
  unfold splitValue
  split
  · simp
  · rename_i q rest
    split
    · have := length_dropWhile_le (· != q) rest
      simp only [List.length_drop, List.length_cons]
      omega
    · exact length_dropWhile_le _ _

def isNameChar (c : Char) : Bool := !(isWhite c || c == '=' || c == '/')

/-- The first attribute in the text of a tag, and what follows it. -/
def attributeFrom? (t : Text) : Option (Attribute × Text) :=
  match t.dropWhile (!isNameChar ·) with
  | [] => none
  | c :: rest =>
    let name := c :: rest.takeWhile isNameChar
    match trimStart (rest.dropWhile isNameChar) with
    | '=' :: after =>
      let (value, other) := splitValue (trimStart after)
      some ((name, some value), other)
    | other => some ((name, none), other)

theorem length_attributeFrom?_lt {t : Text} {p : Attribute × Text}
    (h : attributeFrom? t = some p) : p.2.length < t.length := by
  unfold attributeFrom? at h
  split at h
  · contradiction
  rename_i c rest ht
  have h1 := length_dropWhile_le (!isNameChar ·) t
  have h2 := length_dropWhile_le isWhite (rest.dropWhile isNameChar)
  have h3 := length_dropWhile_le isNameChar rest
  rw [ht, List.length_cons] at h1
  dsimp only at h
  split at h
  · rename_i after hr
    have h4 := length_splitValue_le (trimStart after)
    have h5 : (trimStart after).length ≤ after.length := length_dropWhile_le isWhite after
    rw [show (rest.dropWhile isNameChar).dropWhile isWhite = '=' :: after from hr,
      List.length_cons] at h2
    injection h with h
    subst h
    dsimp only
    omega
  · injection h with h
    subst h
    exact Nat.lt_of_le_of_lt (Nat.le_trans h2 h3) h1

/-- The attributes in the text of a tag. -/
def attributesFrom (t : Text) : List Attribute :=
  match _ : attributeFrom? t with
  | none => []
  | some (attr, rest) => attr :: attributesFrom rest
termination_by t.length
decreasing_by exact length_attributeFrom?_lt (by assumption)

/-- The attributes of a tag; slashes at its end belong to none. -/
def attributes (tag : Text) : List Attribute :=
  attributesFrom (tag.reverse.dropWhile (· == '/')).reverse

/-- The first attribute of a name, case ignored. -/
def attribute? (attrs : List Attribute) (name : Text) : Option Attribute :=
  attrs.find? fun a => eqIgnoringCase a.1 name

def langOf (attrs : List Attribute) : Option Text :=
  (attribute? attrs "lang".toList).bind Prod.snd

def isModuleOf (attrs : List Attribute) : Bool :=
  (attribute? attrs "context".toList).any (fun a => a.2 == some "module".toList) ||
    (attribute? attrs "module".toList).any fun a => a.2 == none

/-! ### Tags -/

/-- Whether a tag begins at the head of a text: its name, case ignored, and then a character that
ends the name. -/
def startsTag (tag : Text) (ahead : Text) : Bool :=
  eqIgnoringCase (ahead.take tag.length) tag &&
    (ahead[tag.length]?).any fun c => isMarkupSpace c || c == '>' || c == '/'

def openTag : Text := "<script".toList

def closeTag : Text := "</script".toList

/-- The text of a tag up to the `>` that ends it, and the place after that. Quoted values are passed
over. -/
def tagFrom? (quote : Option Char) (behind : Text) : Text → Option (Text × Cursor)
  | [] => none
  | c :: rest =>
    let keep (quote' : Option Char) : Option (Text × Cursor) :=
      (tagFrom? quote' (c :: behind) rest).map fun p => (c :: p.1, p.2)
    match quote with
    | some q => keep (if c == q then none else some q)
    | none =>
      if c == '"' || c == '\'' then keep (some c)
      else if c == '>' then some ([], ⟨c :: behind, rest⟩)
      else keep none

/-- The text before the next closing tag, and the place of that tag. -/
def contentFrom (behind : Text) : Text → Text × Cursor
  | [] => ([], ⟨behind, []⟩)
  | c :: rest =>
    if startsTag closeTag (c :: rest) then ([], ⟨behind, c :: rest⟩)
    else
      let (content, place) := contentFrom (c :: behind) rest
      (c :: content, place)

/-- The place after the next end of a comment. -/
def afterCommentFrom (behind : Text) : Text → Cursor
  | [] => ⟨behind, []⟩
  | c :: rest =>
    if "-->".toList.isPrefixOf (c :: rest) then (Cursor.mk behind (c :: rest)).advanceBy 3
    else afterCommentFrom (c :: behind) rest

theorem length_afterCommentFrom_le (behind ahead : Text) :
    (afterCommentFrom behind ahead).ahead.length ≤ ahead.length := by
  induction ahead generalizing behind with
  | nil => simp [afterCommentFrom]
  | cons c rest ih =>
    rw [afterCommentFrom]
    split
    · rw [Cursor.length_ahead_advanceBy]
      exact Nat.sub_le _ _
    · exact Nat.le_succ_of_le (ih _)

theorem length_contentFrom_le (behind ahead : Text) :
    (contentFrom behind ahead).2.ahead.length ≤ ahead.length := by
  induction ahead generalizing behind with
  | nil => simp [contentFrom]
  | cons c rest ih =>
    rw [contentFrom]
    split
    · exact Nat.le_refl _
    · exact Nat.le_succ_of_le (ih _)

theorem length_tagFrom?_lt {quote : Option Char} {behind ahead : Text} {p : Text × Cursor}
    (h : tagFrom? quote behind ahead = some p) : p.2.ahead.length < ahead.length := by
  induction ahead generalizing quote behind p with
  | nil => simp [tagFrom?] at h
  | cons c rest ih =>
    have keep : ∀ {quote' : Option Char} {p : Text × Cursor},
        (tagFrom? quote' (c :: behind) rest).map (fun p => (c :: p.1, p.2)) = some p →
          p.2.ahead.length < (c :: rest).length := by
      intro quote' p hk
      obtain ⟨p', hp', rfl⟩ := Option.map_eq_some_iff.mp hk
      have shorter := ih hp'
      exact Nat.lt_succ_of_lt shorter
    unfold tagFrom? at h
    split at h
    · exact keep h
    · split at h
      · exact keep h
      · split at h
        · injection h with h
          subst h
          exact Nat.lt_succ_self _
        · exact keep h

/-! ### Blocks -/

/-- Read the element whose name is at the cursor: its block, unless it closes itself, and the place
after it. A block without a closing tag runs to the end. -/
def elementAt? (c : Cursor) : Option (Option Script × Cursor) :=
  match tagFrom? none (c.advanceBy openTag.length).behind (c.advanceBy openTag.length).ahead with
  | none => none
  | some (tag, inside) =>
    if tag.getLast? == some '/' then some (none, inside)
    else
      let attrs := attributes tag
      let (content, place) := contentFrom inside.behind inside.ahead
      let block : Script := ⟨content, langOf attrs, isModuleOf attrs, inside.byteOffset⟩
      match tagFrom? none place.behind place.ahead with
      | none => some (some block, place.advanceBy place.ahead.length)
      | some (_, outside) => some (some block, outside)

/-- Read what is at the cursor: a comment, a script element or another character. Nothing is read at
the end, nor from a script tag that does not end. -/
def readAt? (c : Cursor) : Option (Option Script × Cursor) :=
  if c.ahead.isEmpty then none
  else if "<!--".toList.isPrefixOf c.ahead then
    some (none, afterCommentFrom (c.advanceBy 4).behind (c.advanceBy 4).ahead)
  else if startsTag openTag c.ahead then elementAt? c
  else some (none, c.advanceBy 1)

theorem length_elementAt?_lt {c : Cursor} {p : Option Script × Cursor}
    (h : elementAt? c = some p) : p.2.ahead.length < c.ahead.length := by
  unfold elementAt? at h
  split at h
  · contradiction
  rename_i tag inside ht
  have h1 := length_tagFrom?_lt ht
  have h2 := Cursor.length_ahead_advanceBy c openTag.length
  have h3 := length_contentFrom_le inside.behind inside.ahead
  dsimp only at h1
  split at h
  · injection h with h
    subst h
    dsimp only
    omega
  · dsimp only at h
    split at h
    · injection h with h
      subst h
      simp only [Cursor.length_ahead_advanceBy]
      omega
    · rename_i outside hp
      have h4 := length_tagFrom?_lt hp
      injection h with h
      subst h
      dsimp only at h4 ⊢
      omega

theorem length_readAt?_lt {c : Cursor} {p : Option Script × Cursor}
    (h : readAt? c = some p) : p.2.ahead.length < c.ahead.length := by
  unfold readAt? at h
  split at h
  · contradiction
  rename_i hne
  have hpos : 0 < c.ahead.length := List.length_pos_iff.mpr (by simpa using hne)
  split at h
  · have h1 := length_afterCommentFrom_le (c.advanceBy 4).behind (c.advanceBy 4).ahead
    have h2 := Cursor.length_ahead_advanceBy c 4
    injection h with h
    subst h
    dsimp only
    omega
  · split at h
    · exact length_elementAt?_lt h
    · injection h with h
      subst h
      simp only [Cursor.length_ahead_advanceBy]
      omega

/-- The script blocks at or after a place of the source. -/
def blocksFrom (c : Cursor) : List Script :=
  match _ : readAt? c with
  | none => []
  | some (block, place) => block.toList ++ blocksFrom place
termination_by c.ahead.length
decreasing_by exact length_readAt?_lt (by assumption)

/-- The script blocks of a component in source order. -/
def blocks (source : Text) : List Script := blocksFrom (Cursor.ofText source)

end Script

end ComponentProps
