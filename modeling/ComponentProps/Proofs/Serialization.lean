import ComponentProps.Interchange
import Mathlib.Data.List.Forall2
import Mathlib.Tactic.SplitIfs

/-!
# Props that are written and read

A prop sheet that is written as JSON is read back as it was, whatever its texts hold. Each reader is
given the text of one value and anything behind it: it finds the value and stops just behind its
text. Main statement: reading undoes writing.
-/

namespace ComponentProps.Json

open Text

/-! ### Strings -/

theorem readStringBody_quote (offset : Nat) (rest : Text) :
    readStringBody ⟨offset, '"' :: rest⟩ = .ok ([], ⟨offset + 1, rest⟩) := by
  rw [readStringBody]
  simp [Input.pass]

theorem readStringBody_plain {c : Char} (hquote : c ≠ '"') (hslash : c ≠ '\\')
    (hcontrol : ¬ c.toNat < 0x20) {offset : Nat} {t rest : Text} {i : Input}
    (h : readStringBody ⟨offset + c.utf8Size, rest⟩ = .ok (t, i)) :
    readStringBody ⟨offset, c :: rest⟩ = .ok (c :: t, i) := by
  rw [readStringBody]
  simp [hquote, hslash, hcontrol, h]

theorem readStringBody_escape {offset : Nat} {t rest : Text} {d : Char} {i j : Input}
    (hescape : readEscape ⟨offset + 1, rest⟩ = .ok (d, j)) (h : readStringBody j = .ok (t, i)) :
    readStringBody ⟨offset, '\\' :: rest⟩ = .ok (d :: t, i) := by
  have hread : readEscape (Input.pass ⟨offset, '\\' :: rest⟩ 1) = .ok (d, j) := hescape
  rw [readStringBody]
  simp only [↓reduceIte]
  rw [if_neg (by decide)]
  split <;> simp_all

theorem readEscape_letter {l d : Char} (hl : l ≠ 'u') (hd : escapeChar? l = some d) (offset : Nat)
    (rest : Text) : readEscape ⟨offset, l :: rest⟩ = .ok (d, ⟨offset + 1, rest⟩) := by
  simp [readEscape, hl, hd, Input.pass]

/-- The two digits of a control character give its number back. -/
theorem readUnicode_control {c : Char} (hcontrol : c.toNat < 0x20) (offset : Nat) (rest : Text) :
    readUnicode ⟨offset, '0' :: '0' :: Nat.digitChar (c.toNat / 16) ::
      Nat.digitChar (c.toNat % 16) :: rest⟩ = .ok (c, ⟨offset + 4, rest⟩) := by
  have hdigits : ∀ n < 0x20,
      byteLength ['0', '0', Nat.digitChar (n / 16), Nat.digitChar (n % 16)] = 4 ∧
      ['0', '0', Nat.digitChar (n / 16), Nat.digitChar (n % 16)].all isHexDigit ∧
      ['0', '0', Nat.digitChar (n / 16), Nat.digitChar (n % 16)].foldl
        (fun n c => 16 * n + hexValue c) 0 = n := by decide
  obtain ⟨hbytes, hhex, hvalue⟩ := hdigits _ hcontrol
  have hread : readHex ⟨offset, '0' :: '0' :: Nat.digitChar (c.toNat / 16) ::
      Nat.digitChar (c.toNat % 16) :: rest⟩ = .ok (c.toNat, ⟨offset + 4, rest⟩) := by
    simp only [readHex, List.take_succ_cons, List.take_zero, hbytes, hhex, hvalue, Input.pass,
      List.drop_succ_cons, List.drop_zero, Nat.lt_irrefl, ↓reduceIte]
  have hlow : ¬ 0xDC00 ≤ c.toNat := by omega
  have hhigh : ¬ 0xD800 ≤ c.toNat := by omega
  simp [readUnicode, hread, hlow, hhigh, Char.ofNat_toNat]

theorem byteLength_control {c : Char} (hcontrol : c.toNat < 0x20) :
    byteLength ['\\', 'u', '0', '0', Nat.digitChar (c.toNat / 16),
      Nat.digitChar (c.toNat % 16)] = 6 := by
  have hdigits : ∀ n < 0x20, byteLength ['\\', 'u', '0', '0', Nat.digitChar (n / 16),
      Nat.digitChar (n % 16)] = 6 := by decide
  exact hdigits _ hcontrol

/-- A character is written by a letter, by its number, or as it is. -/
theorem escapedChar_cases (c : Char) :
    (∃ l, escapedChar c = ['\\', l] ∧ l ≠ 'u' ∧ l.utf8Size = 1 ∧ escapeChar? l = some c) ∨
    (c.toNat < 0x20 ∧ escapedChar c =
      ['\\', 'u', '0', '0', Nat.digitChar (c.toNat / 16), Nat.digitChar (c.toNat % 16)]) ∨
    (c ≠ '"' ∧ c ≠ '\\' ∧ ¬ c.toNat < 0x20 ∧ escapedChar c = [c]) := by
  unfold escapedChar
  split_ifs with hquote hslash hb hf hn hr ht hcontrol
  · exact .inl ⟨'"', rfl, by decide, by decide, by rw [hquote]; rfl⟩
  · exact .inl ⟨'\\', rfl, by decide, by decide, by rw [hslash]; rfl⟩
  · exact .inl ⟨'b', rfl, by decide, by decide, hb ▸ rfl⟩
  · exact .inl ⟨'f', rfl, by decide, by decide, hf ▸ rfl⟩
  · exact .inl ⟨'n', rfl, by decide, by decide, hn ▸ rfl⟩
  · exact .inl ⟨'r', rfl, by decide, by decide, hr ▸ rfl⟩
  · exact .inl ⟨'t', rfl, by decide, by decide, ht ▸ rfl⟩
  · exact .inr (.inl ⟨hcontrol, rfl⟩)
  · exact .inr (.inr ⟨hquote, hslash, hcontrol, rfl⟩)

/-- A written character is read as one character. -/
theorem readStringBody_escapedChar (c : Char) {offset : Nat} {t rest : Text} {i : Input}
    (h : readStringBody ⟨offset + byteLength (escapedChar c), rest⟩ = .ok (t, i)) :
    readStringBody ⟨offset, escapedChar c ++ rest⟩ = .ok (c :: t, i) := by
  have hbackslash : '\\'.utf8Size = 1 := by decide
  obtain ⟨l, hwritten, hl, hsize, hc⟩ | ⟨hcontrol, hwritten⟩ |
    ⟨hquote, hslash, hcontrol, hwritten⟩ := escapedChar_cases c
  · rw [hwritten] at h ⊢
    refine readStringBody_escape (readEscape_letter hl hc _ rest) ?_
    simpa [hsize, hbackslash, Nat.add_assoc] using h
  · rw [hwritten] at h ⊢
    refine readStringBody_escape (j := ⟨offset + 6, rest⟩) ?_ ?_
    · exact readUnicode_control hcontrol (offset + 2) rest
    · rw [byteLength_control hcontrol] at h
      exact h
  · rw [hwritten] at h ⊢
    exact readStringBody_plain hquote hslash hcontrol h

/-- The text of a string, up to its closing quote. -/
theorem readStringBody_flatMap (t : Text) (offset : Nat) (rest : Text) :
    readStringBody ⟨offset, t.flatMap escapedChar ++ '"' :: rest⟩ =
      .ok (t, ⟨offset + byteLength (t.flatMap escapedChar) + 1, rest⟩) := by
  induction t generalizing offset with
  | nil => exact readStringBody_quote offset rest
  | cons c t ih =>
    rw [List.flatMap_cons, List.append_assoc, byteLength_append, ← Nat.add_assoc]
    exact readStringBody_escapedChar c (ih _)

/-! ### Values -/

/-- The text `t` is read as `a`, whatever follows it. It starts with a character of its own, which
is neither white space nor the end of a list. -/
structure Reads {α : Type} (reader : Reader α) (t : Text) (a : α) : Prop where
  starts : ∃ c u, t = c :: u ∧ Input.isSpace c = false ∧ c ≠ ']'
  read : ∀ offset rest, reader ⟨offset, t ++ rest⟩ = .ok (a, ⟨offset + byteLength t, rest⟩)

theorem Input.skipSpace_cons {c : Char} (h : isSpace c = false) (offset : Nat) (rest : Text) :
    skipSpace ⟨offset, c :: rest⟩ = ⟨offset, c :: rest⟩ := by
  simp [skipSpace, h]

theorem readQuoted_writeString (t : Text) (offset : Nat) (rest : Text) :
    readQuoted ⟨offset, writeString t ++ rest⟩ =
      .ok (t, ⟨offset + byteLength (writeString t), rest⟩) := by
  have hquote : '"'.utf8Size = 1 := by decide
  have hsize : offset + byteLength (writeString t) =
      offset + 1 + byteLength (t.flatMap escapedChar) + 1 := by
    simp only [writeString, byteLength_append, List.cons_append, byteLength_cons, byteLength_nil,
      hquote]
    omega
  rw [hsize, ← readStringBody_flatMap]
  simp [readQuoted, writeString, Input.pass]

theorem reads_string (t : Text) : Reads readText (Value.string t).write t where
  starts := ⟨'"', _, rfl, rfl, by decide⟩
  read offset rest := by
    have hspace : Input.skipSpace ⟨offset, (Value.string t).write ++ rest⟩ =
        ⟨offset, (Value.string t).write ++ rest⟩ := Input.skipSpace_cons rfl offset _
    simp only [readText, hspace]
    exact readQuoted_writeString t offset rest

/-- A text that may be absent is written only if it is there. -/
theorem reads_optional_string (t : Text) :
    Reads readOptionalText (Value.string t).write (some t) where
  starts := (reads_string t).starts
  read offset rest := by
    have hspace : Input.skipSpace ⟨offset, (Value.string t).write ++ rest⟩ =
        ⟨offset, (Value.string t).write ++ rest⟩ := Input.skipSpace_cons rfl offset _
    have hread := (reads_string t).read offset rest
    simp only [readOptionalText, hspace]
    rw [hread]
    rfl

theorem reads_bool (b : Bool) : Reads readBool (Value.bool b).write b where
  starts := by cases b <;> exact ⟨_, _, rfl, rfl, by decide⟩
  read offset rest := by cases b <;> rfl

/-! ### Lists -/

/-- Items behind the first one, each with the comma before it. -/
def moreItems (vs : List Value) : Text := vs.flatMap fun v => ',' :: v.write

theorem writeItems_cons (v : Value) (vs : List Value) :
    Value.writeItems (v :: vs) = v.write ++ moreItems vs := by
  induction vs generalizing v with
  | nil => simp [Value.writeItems, moreItems]
  | cons w vs ih => simp [Value.writeItems, moreItems, ih w]

theorem length_le_moreItems (vs : List Value) : vs.length ≤ (moreItems vs).length := by
  induction vs with
  | nil => exact Nat.le_refl 0
  | cons v vs ih =>
    simp only [moreItems, List.flatMap_cons, List.length_append, List.length_cons] at ih ⊢
    omega

section Lists

variable {α : Type} {element : Reader α}

theorem hasElement_first {c : Char} (hspace : Input.isSpace c = false) (hend : c ≠ ']')
    (offset : Nat) (rest : Text) :
    hasElement true ⟨offset, c :: rest⟩ = .ok (true, ⟨offset, c :: rest⟩) := by
  simp [hasElement, Input.skipSpace_cons hspace, hend]

theorem hasElement_next {c : Char} (hspace : Input.isSpace c = false) (hend : c ≠ ']')
    (offset : Nat) (rest : Text) :
    hasElement false ⟨offset, ',' :: c :: rest⟩ = .ok (true, ⟨offset + 1, c :: rest⟩) := by
  have hcomma : Input.skipSpace ⟨offset, ',' :: c :: rest⟩ = ⟨offset, ',' :: c :: rest⟩ :=
    Input.skipSpace_cons rfl _ _
  simp [hasElement, hcomma, Input.pass, Input.skipSpace_cons hspace, hend]

theorem readElements_step {rounds : Nat} {first : Bool} {i j k l : Input} {x : α} {xs : List α}
    (hmore : hasElement first i = .ok (true, j)) (helement : element j = .ok (x, k))
    (h : readElements element rounds false k = .ok (xs, l)) :
    readElements element (rounds + 1) first i = .ok (x :: xs, l) := by
  simp [readElements, hmore, helement, h]

/-- The elements behind the first one, up to the end of the list. -/
theorem readElements_more {vs : List Value} {xs : List α}
    (h : List.Forall₂ (fun v x => Reads element v.write x) vs xs) {rounds : Nat}
    (hrounds : vs.length < rounds) (offset : Nat) (rest : Text) :
    readElements element rounds false ⟨offset, moreItems vs ++ ']' :: rest⟩ =
      .ok (xs, ⟨offset + byteLength (moreItems vs) + 1, rest⟩) := by
  induction h generalizing rounds offset with
  | nil =>
    obtain ⟨n, rfl⟩ := Nat.exists_eq_add_one_of_ne_zero (Nat.ne_zero_of_lt hrounds)
    rfl
  | @cons v x vs xs hv _ ih =>
    obtain ⟨n, rfl⟩ := Nat.exists_eq_add_one_of_ne_zero (Nat.ne_zero_of_lt hrounds)
    have hlast := ih (Nat.lt_of_succ_lt_succ hrounds) (offset + 1 + byteLength v.write)
    have hoffset : offset + byteLength (moreItems (v :: vs)) =
        offset + 1 + byteLength v.write + byteLength (moreItems vs) := by
      simp only [moreItems, List.flatMap_cons, byteLength_append, byteLength_cons,
        (by decide : ','.utf8Size = 1)]
      omega
    rw [hoffset]
    refine readElements_step ?_ (hv.read (offset + 1) (moreItems vs ++ ']' :: rest)) hlast
    obtain ⟨c, u, hstart, hspace, hend⟩ := hv.starts
    simpa [moreItems, hstart] using hasElement_next hspace hend offset _

theorem reads_array {vs : List Value} {xs : List α}
    (h : List.Forall₂ (fun v x => Reads element v.write x) vs xs) :
    Reads (readList element) (Value.array vs).write xs where
  starts := ⟨'[', _, rfl, rfl, by decide⟩
  read offset rest := by
    have hspace : Input.skipSpace ⟨offset, (Value.array vs).write ++ rest⟩ =
        ⟨offset, (Value.array vs).write ++ rest⟩ := Input.skipSpace_cons rfl offset _
    have hoffset : offset + byteLength (Value.array vs).write =
        offset + 1 + byteLength (Value.writeItems vs) + 1 := by
      simp only [Value.write, List.cons_append, byteLength_cons, byteLength_append, byteLength_nil,
        (by decide : '['.utf8Size = 1), (by decide : ']'.utf8Size = 1)]
      omega
    simp only [readList, hspace]
    rw [hoffset]
    cases h with
    | nil => rfl
    | @cons v x vs xs hv hvs =>
      simp only [Value.write, writeItems_cons, List.cons_append, List.append_assoc,
        List.nil_append, List.length_cons, Input.pass, List.drop_succ_cons, List.drop_zero,
        byteLength_append]
      have hlength : vs.length < (v.write ++ (moreItems vs ++ ']' :: rest)).length := by
        have := length_le_moreItems vs
        simp only [List.length_append, List.length_cons]
        omega
      have hlast := readElements_more hvs hlength (offset + 1 + byteLength v.write) rest
      rw [← Nat.add_assoc]
      refine readElements_step ?_ (hv.read (offset + 1) (moreItems vs ++ ']' :: rest)) hlast
      obtain ⟨c, u, hstart, hspace, hend⟩ := hv.starts
      simpa [hstart] using hasElement_first hspace hend (offset + 1) _

end Lists

/-! ### Records -/

def writeField (f : Text × Value) : Text := writeString f.1 ++ ':' :: f.2.write

/-- Fields behind the first one, each with the comma before it. -/
def moreFields (fs : List (Text × Value)) : Text := fs.flatMap fun f => ',' :: writeField f

theorem writeFields_cons (f : Text × Value) (fs : List (Text × Value)) :
    Value.writeFields (f :: fs) = writeField f ++ moreFields fs := by
  induction fs generalizing f with
  | nil => simp [Value.writeFields, moreFields, writeField]
  | cons g fs ih => simp [Value.writeFields, moreFields, writeField, ih g]

theorem length_le_moreFields (fs : List (Text × Value)) : fs.length ≤ (moreFields fs).length := by
  induction fs with
  | nil => exact Nat.le_refl 0
  | cons f fs ih =>
    simp only [moreFields, List.flatMap_cons, List.length_append, List.length_cons] at ih ⊢
    omega

theorem hasKey_first (offset : Nat) (rest : Text) :
    hasKey true ⟨offset, '"' :: rest⟩ = .ok (true, ⟨offset, '"' :: rest⟩) := rfl

theorem hasKey_next (offset : Nat) (rest : Text) :
    hasKey false ⟨offset, ',' :: '"' :: rest⟩ = .ok (true, ⟨offset + 1, '"' :: rest⟩) := rfl

section Records

variable {ρ α : Type}

/-- Each field of an object is one of the shape's own and fills a place of the draft that was
empty. In the end all required places are filled. -/
inductive Fills (shape : Shape ρ α) : ρ → List (Text × Value) → ρ → Prop
  | done {draft : ρ} (h : shape.fields.find? (fun f => f.required && !f.given draft) = none) :
      Fills shape draft [] draft
  | field {draft next final : ρ} {key : Text} {v : Value} {fs : List (Text × Value)}
      {field : Field ρ} (named : shape.fields.find? (fun f => f.name = key) = some field)
      (unset : field.given draft = false) (reads : Reads (field.read draft) v.write next)
      (others : Fills shape next fs final) : Fills shape draft ((key, v) :: fs) final

/-- One field is read, with the input at its key. -/
theorem readKeys_field {shape : Shape ρ α} {draft next : ρ} {key : Text} {v : Value}
    {field : Field ρ} (named : shape.fields.find? (fun f => f.name = key) = some field)
    (unset : field.given draft = false) (reads : Reads (field.read draft) v.write next)
    {first : Bool} {i : Input} {offset : Nat} {rest : Text}
    (hmore : hasKey first i = .ok (true, ⟨offset, writeField (key, v) ++ rest⟩)) (rounds : Nat) :
    shape.readKeys (rounds + 1) first draft i =
      shape.readKeys rounds false next ⟨offset + byteLength (writeField (key, v)), rest⟩ := by
  have hkey : readQuoted ⟨offset, writeField (key, v) ++ rest⟩ =
      .ok (key, ⟨offset + byteLength (writeString key), ':' :: (v.write ++ rest)⟩) := by
    simpa [writeField] using readQuoted_writeString key offset (':' :: (v.write ++ rest))
  have hcolon (o : Nat) : passColon ⟨o, ':' :: (v.write ++ rest)⟩ =
      .ok ⟨o + 1, v.write ++ rest⟩ := rfl
  have hoffset : offset + byteLength (writeField (key, v)) =
      offset + byteLength (writeString key) + 1 + byteLength v.write := by
    simp only [writeField, byteLength_append, byteLength_cons, (by decide : ':'.utf8Size = 1)]
    omega
  simp only [Shape.readKeys, hmore, hkey, named, unset, hcolon, reads.read, hoffset, bind,
    Except.bind, ↓reduceIte, Bool.false_eq_true]

/-- The fields behind the first one, up to the end of the object. -/
theorem readKeys_more {shape : Shape ρ α} {draft final : ρ} {fs : List (Text × Value)}
    (h : Fills shape draft fs final) {rounds : Nat} (hrounds : fs.length < rounds) (offset : Nat)
    (rest : Text) :
    shape.readKeys rounds false draft ⟨offset, moreFields fs ++ '}' :: rest⟩ =
      .ok (final, ⟨offset + byteLength (moreFields fs) + 1, rest⟩) := by
  induction h generalizing rounds offset with
  | done h =>
    obtain ⟨n, rfl⟩ := Nat.exists_eq_add_one_of_ne_zero (Nat.ne_zero_of_lt hrounds)
    have hmore : hasKey false ⟨offset, '}' :: rest⟩ = .ok (false, ⟨offset, '}' :: rest⟩) := rfl
    simp [moreFields, Shape.readKeys, hmore, h, bind, Except.bind, pure, Except.pure, Input.pass]
  | @field draft next final key v fs field named unset reads others ih =>
    obtain ⟨n, rfl⟩ := Nat.exists_eq_add_one_of_ne_zero (Nat.ne_zero_of_lt hrounds)
    have hoffset : offset + byteLength (moreFields ((key, v) :: fs)) =
        offset + 1 + byteLength (writeField (key, v)) + byteLength (moreFields fs) := by
      simp only [moreFields, List.flatMap_cons, byteLength_append, byteLength_cons,
        (by decide : ','.utf8Size = 1)]
      omega
    have hmore : hasKey false ⟨offset, moreFields ((key, v) :: fs) ++ '}' :: rest⟩ =
        .ok (true, ⟨offset + 1, writeField (key, v) ++ (moreFields fs ++ '}' :: rest)⟩) := by
      simpa [moreFields, writeField, writeString] using hasKey_next offset _
    rw [readKeys_field named unset reads hmore, hoffset]
    exact ih (Nat.lt_of_succ_lt_succ hrounds) _

theorem reads_object {shape : Shape ρ α} {final : ρ} {fs : List (Text × Value)}
    (h : Fills shape shape.blank fs final) :
    Reads shape.read (Value.object fs).write (shape.build final) where
  starts := ⟨'{', _, rfl, rfl, by decide⟩
  read offset rest := by
    have hspace : Input.skipSpace ⟨offset, (Value.object fs).write ++ rest⟩ =
        ⟨offset, (Value.object fs).write ++ rest⟩ := Input.skipSpace_cons rfl offset _
    have hoffset : offset + byteLength (Value.object fs).write =
        offset + 1 + byteLength (Value.writeFields fs) + 1 := by
      simp only [Value.write, List.cons_append, byteLength_cons, byteLength_append, byteLength_nil,
        (by decide : '{'.utf8Size = 1), (by decide : '}'.utf8Size = 1)]
      omega
    have hkeys : shape.readKeys ((Value.object fs).write ++ rest).length true shape.blank
        ⟨offset + 1, Value.writeFields fs ++ '}' :: rest⟩ =
        .ok (final, ⟨offset + 1 + byteLength (Value.writeFields fs) + 1, rest⟩) := by
      cases h with
      | done h =>
        have hmore : hasKey true ⟨offset + 1, '}' :: rest⟩ =
            .ok (false, ⟨offset + 1, '}' :: rest⟩) := rfl
        simp [Value.write, Value.writeFields, Shape.readKeys, hmore, h, bind, Except.bind, pure,
          Except.pure, Input.pass]
      | @field _ next _ key v fs field named unset reads others =>
        have hmore : hasKey true ⟨offset + 1, Value.writeFields ((key, v) :: fs) ++ '}' :: rest⟩ =
            .ok (true, ⟨offset + 1, writeField (key, v) ++ (moreFields fs ++ '}' :: rest)⟩) := by
          simpa [writeFields_cons, writeField, writeString] using hasKey_first (offset + 1) _
        have hlength : fs.length < (Value.writeFields ((key, v) :: fs) ++ '}' :: rest).length := by
          have := length_le_moreFields fs
          simp only [writeFields_cons, List.length_append, List.length_cons]
          omega
        have hrounds : ((Value.object ((key, v) :: fs)).write ++ rest).length =
            (Value.writeFields ((key, v) :: fs) ++ '}' :: rest).length + 1 := by
          simp [Value.write]
        rw [hrounds, readKeys_field named unset reads hmore, readKeys_more others hlength,
          writeFields_cons, byteLength_append]
        simp only [Nat.add_assoc]
    have htext : Input.pass ⟨offset, (Value.object fs).write ++ rest⟩ 1 =
        ⟨offset + 1, Value.writeFields fs ++ '}' :: rest⟩ := by
      simp [Value.write, Input.pass]
    simp only [Shape.read, hspace]
    rw [htext, hkeys, hoffset]
    rfl

/-- A field is read by its own reader. -/
theorem Reads.field {β : Type} {reader : Reader β} {t : Text} {b : β} (h : Reads reader t b)
    (name : Text) (required : Bool) (get : ρ → Option β) (set : ρ → β → ρ) (draft : ρ) :
    Reads ((Field.of name required get set reader).read draft) t (set draft b) where
  starts := h.starts
  read offset rest := by simp [Field.of, h.read, Except.map]

end Records

/-- A text that is read as a value to its end is parsed as it. -/
theorem Reads.parse_eq {α : Type} {reader : Reader α} {t : Text} {a : α} (h : Reads reader t a) :
    parse reader t = .ok a := by
  have hread := h.read 0 []
  rw [List.append_nil] at hread
  simp [parse, Input.ofText, hread, Input.skipSpace]

end ComponentProps.Json

namespace ComponentProps

open Json

/-! ### Prop sheets -/

namespace PropRecord

/-- A prop with all its fields read. -/
def filled (r : PropRecord) : PropDraft :=
  { name := some r.name
    type := some r.type
    required := some r.required
    bindable := some r.bindable
    default := r.default.map some
    doc := r.doc.map some }

theorem ofDraft_filled (r : PropRecord) : ofDraft r.filled = r := by
  obtain ⟨name, type, required, bindable, default, doc⟩ := r
  cases default <;> cases doc <;> rfl

theorem fills_doc (r : PropRecord) :
    Fills shape { r.filled with doc := none } (optionalField "comment".toList r.doc) r.filled := by
  obtain ⟨name, type, required, bindable, default, doc⟩ := r
  cases doc with
  | none => exact .done rfl
  | some doc => exact .field rfl rfl ((reads_optional_string doc).field ..) (.done rfl)

theorem fills_default (r : PropRecord) :
    Fills shape { r.filled with default := none, doc := none }
      (optionalField "defaultValue".toList r.default ++ optionalField "comment".toList r.doc)
      r.filled := by
  have hdoc := fills_doc r
  obtain ⟨name, type, required, bindable, default, doc⟩ := r
  cases default with
  | none => exact hdoc
  | some default => exact .field rfl rfl ((reads_optional_string default).field ..) hdoc

theorem reads_toJson (r : PropRecord) : Reads shape.read r.toJson.write r := by
  have hfills : Fills shape shape.blank
      (("name".toList, .string r.name) :: ("type".toList, .string r.type) ::
        ("required".toList, .bool r.required) :: ("bindable".toList, .bool r.bindable) ::
        (optionalField "defaultValue".toList r.default ++ optionalField "comment".toList r.doc))
      r.filled :=
    .field rfl rfl ((reads_string r.name).field ..) <|
    .field rfl rfl ((reads_string r.type).field ..) <|
    .field rfl rfl ((reads_bool r.required).field ..) <|
    .field rfl rfl ((reads_bool r.bindable).field ..) (fills_default r)
  have hread := reads_object hfills
  rwa [show shape.build r.filled = r from ofDraft_filled r] at hread

end PropRecord

theorem PropSheet.reads_toJson (s : PropSheet) : Reads PropSheet.shape.read s.toJson.write s := by
  have hprops : Reads (readList PropRecord.shape.read)
      (Value.array (s.props.map PropRecord.toJson)).write s.props := by
    refine reads_array ?_
    rw [List.forall₂_map_left_iff]
    exact List.forall₂_same.2 fun r _ => r.reads_toJson
  have hinherits : Reads (readList readText) (Value.array (s.inherits.map .string)).write
      s.inherits := by
    refine reads_array ?_
    rw [List.forall₂_map_left_iff]
    exact List.forall₂_same.2 fun t _ => reads_string t
  have hfills : Fills shape shape.blank
      [("props".toList, .array (s.props.map PropRecord.toJson)),
        ("inherits".toList, .array (s.inherits.map .string))]
      ⟨some s.props, some s.inherits⟩ :=
    .field rfl rfl (hprops.field ..) (.field rfl rfl (hinherits.field ..) (.done rfl))
  exact reads_object hfills

/-- Reading undoes writing. -/
theorem PropSheet.ofJson?_toJson (s : PropSheet) : PropSheet.ofJson? s.toJson.write = .ok s :=
  (PropSheet.reads_toJson s).parse_eq

end ComponentProps
