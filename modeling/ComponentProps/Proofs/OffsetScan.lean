import ComponentProps.Proofs.ByteSlices
import ComponentProps.Proofs.IntakeRange
import ComponentProps.Proofs.ScriptSegments

/-!
# The scan by byte offsets

The scan for script blocks as it goes over the bytes of the source: places are byte offsets, a step
over unknown markup is one byte, and every slice is checked. The scan never fails and finds the same
blocks as the reading by characters.
-/

namespace ComponentProps.Script

open Text

/-! ### Attributes -/

/-- A value without quotes and what follows it. -/
def bareValue? (t : Text) : Option (Text × Text) := do
  let stop := (offset? (fun u => u.head?.any isWhite) t).getD (byteLength t)
  let value ← takeBytes? t stop
  let rest ← dropBytes? t stop
  some (value, rest)

/-- The value up to a quote and what follows that. -/
def quotedValue? (q : Char) (t : Text) : Option (Text × Text) :=
  match offset? (fun u => u.head?.any (· == q)) t with
  | none => some (t, [])
  | some stop => do
    let value ← takeBytes? t stop
    let rest ← dropBytes? t (stop + 1)
    some (value, rest)

/-- The value of an attribute and what follows it. -/
def splitValue? (t : Text) : Option (Text × Text) :=
  match t with
  | [] => bareValue? []
  | q :: _ =>
    if q == '"' || q == '\'' then (dropBytes? t 1).bind (quotedValue? q) else bareValue? t

/-- A turn of the loop over the attributes of a tag: an attribute or a sign that belongs to none,
and what follows it. The loop is done when nothing is left. -/
def attributeTurn? (t : Text) : Option (Option (Option Attribute × Text)) :=
  let rest := trimStart t
  let stop := (offset? (fun u => u.head?.any (!isNameChar ·)) rest).getD (byteLength rest)
  if stop = 0 then
    match rest with
    | [] => some none
    | c :: _ => (dropBytes? rest c.utf8Size).map fun rest => some (none, rest)
  else do
    let name ← takeBytes? rest stop
    let rest ← dropBytes? rest stop
    match trimStart rest with
    | '=' :: after => do
      let (value, rest) ← splitValue? (trimStart after)
      some (some (some (name, some value), rest))
    | rest => some (some (some (name, none), rest))

/-- The attributes of a tag, by offsets. A turn that leaves as much as there was would be repeated
for ever and counts as a failure. -/
def attributesFrom? (t : Text) : Option (List Attribute) :=
  match attributeTurn? t with
  | none => none
  | some none => some []
  | some (some (attr, rest)) =>
    if rest.length < t.length then (attributesFrom? rest).map (attr.toList ++ ·) else none
termination_by t.length

/-! ### Tags -/

/-- The characters that end the name of a tag. -/
def nameEnds : Text := [' ', '\t', '\n', '\x0c', '\r', '>', '/']

def endsName (b : UInt8) : Bool := nameEnds.any fun c => b == c.toUInt8

def startsTagAt (source tag : Text) (pos : Nat) : Bool :=
  match slice? source pos (pos + byteLength tag) with
  | none => false
  | some candidate =>
    eqIgnoringCase candidate tag && ((bytes source)[pos + byteLength tag]?).any endsName

/-- The offset of the next closing tag. -/
def closeTagAt? (source : Text) (pos : Nat) : Option Nat :=
  (List.range' pos (byteLength source - pos)).find? (startsTagAt source closeTag)

/-- The offset of the `>` that ends a tag, in the bytes from an offset on. -/
def tagEndIn? (quote : Option UInt8) (pos : Nat) : List UInt8 → Option Nat
  | [] => none
  | b :: rest =>
    match quote with
    | some q => tagEndIn? (if b == q then none else some q) (pos + 1) rest
    | none =>
      if b == '"'.toUInt8 || b == '\''.toUInt8 then tagEndIn? (some b) (pos + 1) rest
      else if b == '>'.toUInt8 then some pos
      else tagEndIn? none (pos + 1) rest

def tagEndAt? (source : Text) (pos : Nat) : Option Nat :=
  tagEndIn? none pos ((bytes source).drop pos)

/-- The offset behind the next end of a comment, or that of the end of the source. -/
def commentEndAt (source : Text) (pos : Nat) : Nat :=
  match (dropBytes? source pos).bind (offset? "-->".toList.isPrefixOf) with
  | some n => pos + n + 3
  | none => byteLength source

/-! ### Blocks -/

/-- A range of offsets, which are kept in 32 bits. There is none that ends before it starts. -/
def range? (start stop : Nat) : Option (Nat × Nat) :=
  if start % 2 ^ 32 ≤ stop % 2 ^ 32 then some (start % 2 ^ 32, stop % 2 ^ 32) else none

/-- What a turn of the scan comes to: its end, or the next offset and the block that was passed,
with the end of its range. -/
inductive Turn
  | done
  | next (block : Option (Script × Nat)) (pos : Nat)

/-- The offset behind the tag that closes an element. -/
def elementEndAt (source : Text) (pos : Nat) : Nat :=
  match tagEndAt? source pos with
  | some close => if pos < byteLength source then close + 1 else byteLength source
  | none => byteLength source

/-- A turn of the scan at a content. -/
def contentTurn? (source : Text) (attrs : List Attribute) (start : Nat) : Option Turn := do
  let stop := (closeTagAt? source start).getD (byteLength source)
  let content ← slice? source start stop
  let range ← range? start stop
  some (.next (some (⟨content, langOf attrs, isModuleOf attrs, range.1⟩, range.2))
    (elementEndAt source stop))

/-- A turn of the scan at an element. -/
def elementTurn? (source : Text) (pos : Nat) : Option Turn :=
  match tagEndAt? source (pos + byteLength openTag) with
  | none => some .done
  | some tagEnd => do
    let tag ← slice? source (pos + byteLength openTag) tagEnd
    let attrs ← attributesFrom? (tag.reverse.dropWhile (· == '/')).reverse
    let last ← (bytes source)[tagEnd - 1]?
    if last == '/'.toUInt8 then some (.next none (tagEnd + 1))
    else contentTurn? source attrs (tagEnd + 1)

/-- A turn of the scan. -/
def turnAt? (source : Text) (pos : Nat) : Option Turn :=
  if byteLength source ≤ pos then some .done
  else if (bytes "<!--".toList).isPrefixOf ((bytes source).drop pos) then
    some (.next none (commentEndAt source (pos + 4)))
  else if startsTagAt source openTag pos then elementTurn? source pos
  else some (.next none (pos + 1))

/-- The blocks from an offset on, with the ends of their ranges. A turn that does not go on within
the source counts as a failure. -/
def blocksFrom? (source : Text) (pos : Nat) : Option (List (Script × Nat)) :=
  match turnAt? source pos with
  | none => none
  | some .done => some []
  | some (.next block next) =>
    if pos < next ∧ next ≤ byteLength source then
      (blocksFrom? source next).map (block.toList ++ ·)
    else none
termination_by byteLength source - pos

/-! ### Reading attributes -/

theorem takeBytes?_takeWhile (p : Char → Bool) (t : Text) :
    takeBytes? t (byteLength (t.takeWhile p)) = some (t.takeWhile p) := by
  have h := takeBytes?_append (t.takeWhile p) (t.dropWhile p)
  rwa [List.takeWhile_append_dropWhile] at h

theorem dropBytes?_takeWhile (p : Char → Bool) (t : Text) (n : Nat) :
    dropBytes? t (byteLength (t.takeWhile p) + n) = dropBytes? (t.dropWhile p) n := by
  have h := dropBytes?_append (t.takeWhile p) (t.dropWhile p) n
  rwa [List.takeWhile_append_dropWhile] at h

theorem getD_offset?_head (p : Char → Bool) (t : Text) :
    (offset? (fun u => u.head?.any p) t).getD (byteLength t) = byteLength (t.takeWhile (!p ·)) := by
  rw [offset?_head]
  split
  · rfl
  · rename_i hnone
    rw [List.takeWhile_eq_self_iff.mpr (by simpa using hnone)]
    rfl

theorem bareValue?_eq (t : Text) :
    bareValue? t = some (t.takeWhile (!isWhite ·), t.dropWhile (!isWhite ·)) := by
  have hrest := dropBytes?_takeWhile (!isWhite ·) t 0
  rw [Nat.add_zero, dropBytes?_zero] at hrest
  simp [bareValue?, getD_offset?_head, takeBytes?_takeWhile, hrest]

theorem quotedValue?_eq {q : Char} (hq : q.utf8Size = 1) (t : Text) :
    quotedValue? q t = some (t.takeWhile (· != q), (t.dropWhile (· != q)).drop 1) := by
  rw [quotedValue?, offset?_head]
  by_cases hany : t.any (· == q) = true
  · obtain ⟨c, hc, hsame⟩ := List.any_eq_true.mp hany
    -- the text from the quote on begins with it
    have hhead : ∃ rest, t.dropWhile (· != q) = q :: rest := by
      cases hdrop : t.dropWhile (· != q) with
      | nil =>
          have hall := List.dropWhile_eq_nil_iff.mp hdrop c hc
          simp [eq_of_beq hsame] at hall
      | cons d rest =>
          have hd := List.head?_dropWhile_not (· != q) t
          rw [hdrop] at hd
          simp only [List.head?_cons, bne_eq_false_iff_eq] at hd
          exact ⟨rest, by rw [hd]⟩
    obtain ⟨rest, hdrop⟩ := hhead
    have hrest := dropBytes?_takeWhile (· != q) t 1
    rw [hdrop] at hrest
    have hnext : dropBytes? (q :: rest) 1 = some rest := by simp [dropBytes?, hq]
    rw [if_pos hany, hdrop]
    show (takeBytes? t (byteLength (t.takeWhile (· != q)))).bind (fun value =>
      (dropBytes? t (byteLength (t.takeWhile (· != q)) + 1)).bind fun rest =>
        some (value, rest)) = _
    rw [takeBytes?_takeWhile, hrest, hnext]
    rfl
  · rw [if_neg hany]
    have hall : ∀ c ∈ t, (c != q) = true := by
      intro c hc
      rw [bne_iff_ne]
      rintro rfl
      exact hany (List.any_eq_true.mpr ⟨c, hc, beq_self_eq_true c⟩)
    rw [List.takeWhile_eq_self_iff.mpr hall, List.dropWhile_eq_nil_iff.mpr hall]
    rfl

theorem splitValue?_eq (t : Text) : splitValue? t = some (splitValue t) := by
  cases t with
  | nil => exact bareValue?_eq []
  | cons q t =>
      rw [splitValue?, splitValue]
      split
      · rename_i hq
        have hsize : q.utf8Size = 1 := by
          rcases Bool.or_eq_true_iff.mp hq with h | h <;> rw [eq_of_beq h] <;> rfl
        have hbody : dropBytes? (q :: t) 1 = some t := by simp [dropBytes?, hsize]
        rw [hbody, Option.bind_some, quotedValue?_eq hsize]
      · exact bareValue?_eq (q :: t)

theorem attributesFrom_sign {c : Char} (h : isNameChar c = false) (t : Text) :
    attributesFrom (c :: t) = attributesFrom t := by
  have hsame : attributeFrom? (c :: t) = attributeFrom? t := by
    rw [attributeFrom?, attributeFrom?, List.dropWhile_cons, h, Bool.not_false, if_pos rfl]
  rw [attributesFrom_eq, hsame, ← attributesFrom_eq]

/-- A turn at a name reads the attribute of that name. -/
theorem attributeTurn?_name {t u : Text} {c : Char} (ht : trimStart t = c :: u)
    (hc : isNameChar c = true) : ∃ p, attributeFrom? (c :: u) = some p ∧
      attributeTurn? t = some (some (some p.1, p.2)) := by
  have hsize := c.utf8Size_pos
  have hname := takeBytes?_takeWhile isNameChar (c :: u)
  have hafter := dropBytes?_takeWhile isNameChar (c :: u) 0
  rw [Nat.add_zero, dropBytes?_zero] at hafter
  rw [List.takeWhile_cons_of_pos hc] at hname hafter
  rw [List.dropWhile_cons_of_pos hc] at hafter
  rw [attributeTurn?, attributeFrom?, List.dropWhile_cons_of_neg (by simp [hc])]
  dsimp only
  rw [getD_offset?_head]
  simp only [Bool.not_not]
  rw [ht, List.takeWhile_cons_of_pos hc, if_neg (by rw [byteLength_cons]; omega), hname, hafter]
  simp only [Option.bind_eq_bind, Option.bind_some, splitValue?_eq]
  generalize trimStart (u.dropWhile isNameChar) = rest
  cases rest with
  | nil => exact ⟨_, rfl, rfl⟩
  | cons d rest =>
      by_cases hd : d = '='
      · subst hd
        exact ⟨_, rfl, rfl⟩
      · simp [hd]

/-- A turn ends the loop, passes a sign or reads the next attribute. -/
theorem attributeTurn?_cases (t : Text) :
    (attributeTurn? t = some none ∧ attributesFrom t = []) ∨
      ∃ attr rest, attributeTurn? t = some (some (attr, rest)) ∧ rest.length < t.length ∧
        attributesFrom t = attr.toList ++ attributesFrom rest := by
  have htrim : (trimStart t).length ≤ t.length := length_dropWhile_le isWhite t
  rw [← attributesFrom_trimStart t]
  cases ht : trimStart t with
  | nil =>
      refine .inl ⟨?_, ?_⟩
      · rw [attributeTurn?, ht]
        rfl
      · rw [attributesFrom_eq]
        rfl
  | cons c u =>
      right
      rw [ht] at htrim
      cases hc : isNameChar c with
      | false =>
          refine ⟨none, u, ?_, Nat.lt_of_succ_le htrim, attributesFrom_sign hc u⟩
          have hnext := dropBytes?_append [c] u 0
          rw [byteLength_cons, byteLength_nil, Nat.add_zero, dropBytes?_zero] at hnext
          rw [attributeTurn?]
          dsimp only
          rw [getD_offset?_head, ht, List.takeWhile_cons_of_neg (by simp [hc]), byteLength_nil,
            if_pos rfl]
          show (dropBytes? ([c] ++ u) c.utf8Size).map (fun rest => some (none, rest)) = _
          rw [hnext]
          rfl
      | true =>
          obtain ⟨⟨attr, rest⟩, hfrom, hturn⟩ := attributeTurn?_name ht hc
          have hshorter := length_attributeFrom?_lt hfrom
          refine ⟨some attr, rest, hturn, Nat.lt_of_lt_of_le hshorter htrim, ?_⟩
          rw [attributesFrom_eq, hfrom]
          rfl

/-- The loop over the attributes goes on to its end and reads them all. -/
theorem attributesFrom?_eq (t : Text) : attributesFrom? t = some (attributesFrom t) := by
  induction hlength : t.length using Nat.strong_induction_on generalizing t with
  | _ n ih =>
      subst hlength
      rw [attributesFrom?]
      obtain ⟨hturn, hattrs⟩ | ⟨attr, rest, hturn, hshorter, hattrs⟩ := attributeTurn?_cases t
      · rw [hturn, hattrs]
      · rw [hturn, hattrs]
        dsimp only
        rw [if_pos hshorter, ih _ hshorter rest rfl, Option.map_some]

/-! ### Finding tags -/

/-- A character that ends the name of a tag. -/
def EndsName (c : Char) : Prop := isMarkupSpace c = true ∨ c = '>' ∨ c = '/'

instance (c : Char) : Decidable (EndsName c) := inferInstanceAs (Decidable (_ ∨ _))

/-- A tag of a name, letter case ignored, at the head of a text. -/
def OpensWith (tag t : Text) : Prop :=
  ∃ name c rest, t = name ++ c :: rest ∧ eqIgnoringCase name tag = true ∧ EndsName c

/-- A text of characters of one byte. -/
def IsAscii (t : Text) : Prop := ∀ c ∈ t, c.val.toNat < 128

instance (t : Text) : Decidable (IsAscii t) :=
  decidable_of_iff (t.all fun c => decide (c.val.toNat < 128)) (by simp [IsAscii])

theorem isAscii_openTag : IsAscii openTag := by decide +kernel

theorem isAscii_closeTag : IsAscii closeTag := by decide +kernel

theorem length_of_eqIgnoringCase {s t : Text} (h : eqIgnoringCase s t = true) :
    s.length = t.length := by
  have hlength := congrArg List.length (eq_of_beq h)
  rwa [List.length_map, List.length_map] at hlength

theorem startsTag_iff {tag t : Text} : startsTag tag t = true ↔ OpensWith tag t := by
  constructor
  · intro h
    obtain ⟨hname, hend⟩ := Bool.and_eq_true_iff.mp h
    obtain ⟨c, hc, hends⟩ := (Option.any_eq_true _ _).mp hend
    obtain ⟨hlt, rfl⟩ := List.getElem?_eq_some_iff.mp hc
    refine ⟨t.take tag.length, t[tag.length], t.drop (tag.length + 1), ?_, hname, ?_⟩
    · rw [← List.drop_eq_getElem_cons hlt, List.take_append_drop]
    · simpa [EndsName, or_assoc] using hends
  · rintro ⟨name, c, rest, rfl, hname, hends⟩
    have hlength := length_of_eqIgnoringCase hname
    rw [startsTag, ← hlength, List.take_left, hname, List.getElem?_append_right (Nat.le_refl _)]
    simpa [EndsName, or_assoc] using hends

theorem lt_of_toLower {c d : Char} (h : c.toLower = d.toLower) (hd : d.val.toNat < 128) :
    c.val.toNat < 128 := by
  have hlow : ∀ e : Char, e.toLower.val.toNat < 128 ↔ e.val.toNat < 128 := by
    intro e
    unfold Char.toLower
    split
    · rename_i hupper
      have hmost : e.val.toNat ≤ 90 := UInt32.le_iff_toNat_le.mp hupper.2
      have hsum : (e.val + ('a'.val - 'A'.val)).toNat = (e.val.toNat + 32) % 2 ^ 32 :=
        UInt32.toNat_add e.val 32
      show (e.val + ('a'.val - 'A'.val)).toNat < 128 ↔ _
      omega
    · rfl
  rw [← hlow, h]
  exact (hlow d).mpr hd

theorem byteLength_of_isAscii {t : Text} (h : IsAscii t) : byteLength t = t.length := by
  induction t with
  | nil => rfl
  | cons c t ih =>
      have hsize : c.utf8Size = 1 := Char.utf8Size_eq_one_iff.mpr
        (UInt32.le_iff_toNat_le.mpr (Nat.le_of_lt_succ (h c List.mem_cons_self)))
      rw [byteLength_cons, List.length_cons, hsize, ih fun d hd => h d (List.mem_cons_of_mem c hd),
        Nat.add_comm]

theorem isAscii_of_eqIgnoringCase {s t : Text} (h : eqIgnoringCase s t = true) (ht : IsAscii t) :
    IsAscii s := by
  intro c hc
  have hlower : c.toLower ∈ t.map Char.toLower := eq_of_beq h ▸ List.mem_map_of_mem hc
  obtain ⟨d, hd, hsame⟩ := List.mem_map.mp hlower
  exact lt_of_toLower hsame.symm (ht d hd)

theorem byteLength_of_eqIgnoringCase {s t : Text} (h : eqIgnoringCase s t = true)
    (ht : IsAscii t) : byteLength s = byteLength t := by
  rw [byteLength_of_isAscii ht, byteLength_of_isAscii (isAscii_of_eqIgnoringCase h ht),
    length_of_eqIgnoringCase h]

theorem isAscii_nameEnds : IsAscii nameEnds := by decide +kernel

theorem endsName_iff {c : Char} : EndsName c ↔ c ∈ nameEnds := by
  simp [EndsName, nameEnds, isMarkupSpace, or_assoc]

/-- A byte that ends the name of a tag is a character that does. -/
theorem any_endsName_iff (t : Text) :
    ((bytes t)[0]?).any endsName = true ↔ ∃ c rest, t = c :: rest ∧ EndsName c := by
  cases t with
  | nil => simp
  | cons c t =>
      have hcons : (∃ d rest, c :: t = d :: rest ∧ EndsName d) ↔ c ∈ nameEnds := by
        simp [endsName_iff]
      rw [hcons]
      by_cases hc : c.val.toNat < 128
      · rw [bytes_ascii hc, List.getElem?_cons_zero, Option.any_some, endsName, List.any_eq_true]
        constructor
        · rintro ⟨d, hd, hsame⟩
          rw [toUInt8_beq hc (isAscii_nameEnds d hd)] at hsame
          rwa [eq_of_beq hsame]
        · intro hmem
          exact ⟨c, hmem, beq_self_eq_true _⟩
      · obtain ⟨b, rest, hencode⟩ :=
          List.exists_cons_of_ne_nil (String.utf8EncodeChar_ne_nil (c := c))
        have hb : 128 ≤ b.toNat :=
          le_of_mem_encode (Nat.le_of_not_lt hc) b (hencode ▸ List.mem_cons_self)
        have hbyte : endsName b = false :=
          List.any_eq_false.mpr fun d hd => by simpa using ne_of_le_toNat hb (isAscii_nameEnds d hd)
        rw [bytes_cons, hencode]
        simpa [hbyte] using fun hmem => hc (isAscii_nameEnds c hmem)

/-- By offsets a tag is found where it stands, which is on a boundary. -/
theorem startsTagAt_iff {source tag : Text} (htag : IsAscii tag) {pos : Nat} :
    startsTagAt source tag pos = true ↔
      ∃ before ahead, source = before ++ ahead ∧ byteLength before = pos ∧ OpensWith tag ahead := by
  unfold startsTagAt
  constructor
  · intro h
    split at h
    · contradiction
    rename_i name hslice
    obtain ⟨before, after, rfl, rfl, hlength⟩ := slice?_eq_some_iff.mp hslice
    obtain ⟨hname, hend⟩ := Bool.and_eq_true_iff.mp h
    have hafter := getElem?_bytes_append (before ++ name) after 0
    rw [byteLength_append, hlength, Nat.add_zero, List.append_assoc] at hafter
    rw [hafter] at hend
    obtain ⟨c, rest, rfl, hends⟩ := (any_endsName_iff after).mp hend
    exact ⟨before, _, rfl, rfl, name, c, rest, rfl, hname, hends⟩
  · rintro ⟨before, ahead, rfl, rfl, name, c, rest, rfl, hname, hends⟩
    have hlength := byteLength_of_eqIgnoringCase hname htag
    rw [← hlength, slice?_eq_some_iff.mpr ⟨before, c :: rest, rfl, rfl, rfl⟩]
    have hafter := getElem?_bytes_append (before ++ name) (c :: rest) 0
    rw [byteLength_append, Nat.add_zero, List.append_assoc] at hafter
    dsimp only
    rw [hafter, hname, (any_endsName_iff (c :: rest)).mpr ⟨c, rest, rfl, hends⟩]
    rfl

theorem startsTagAt_byteOffset {tag : Text} (htag : IsAscii tag) (c : Cursor) :
    startsTagAt c.text tag c.byteOffset = startsTag tag c.ahead := by
  rw [Bool.eq_iff_iff, startsTagAt_iff htag, startsTag_iff]
  constructor
  · rintro ⟨before, ahead, hsource, hlength, hopens⟩
    obtain ⟨-, hahead⟩ := append_inj_byteLength hsource
      ((byteLength_reverse c.behind).trans hlength.symm)
    rwa [hahead]
  · intro hopens
    exact ⟨c.behind.reverse, c.ahead, rfl, byteLength_reverse c.behind, hopens⟩

theorem startsTagAt_within {tag : Text} (htag : IsAscii tag) (behind : Text) {x : Char} (t : Text)
    {n : Nat} (hn : 0 < n) (hsize : n < x.utf8Size) :
    startsTagAt (behind.reverse ++ x :: t) tag (byteLength behind + n) = false := by
  rw [Bool.eq_false_iff]
  intro h
  obtain ⟨before, ahead, hsource, hlength, -⟩ := (startsTagAt_iff htag).mp h
  have hnone := dropBytes?_within behind.reverse t hn hsize
  have hsome := dropBytes?_append before ahead 0
  rw [← hsource, Nat.add_zero, hlength, ← byteLength_reverse behind, hnone,
    dropBytes?_zero] at hsome
  contradiction

/-! ### The end of a content -/

theorem find?_range'_within {tag : Text} (htag : IsAscii tag) (behind : Text) (x : Char)
    (t : Text) :
    (List.range' (byteLength behind + 1) (x.utf8Size - 1)).find?
      (startsTagAt (behind.reverse ++ x :: t) tag) = none := by
  rw [List.find?_eq_none]
  intro pos hpos
  obtain ⟨hle, hlt⟩ := List.mem_range'_1.mp hpos
  obtain ⟨n, rfl⟩ := Nat.exists_eq_add_of_le hle
  rw [Nat.add_assoc, startsTagAt_within htag behind t (by omega) (by omega)]
  exact Bool.false_ne_true

theorem byteLength_text (c : Cursor) : byteLength c.text = c.byteOffset + byteLength c.ahead := by
  rw [Cursor.text, byteLength_append, byteLength_reverse, Cursor.byteOffset]

/-- The offset of the next closing tag is that of the end of the content. -/
theorem getD_closeTagAt? (c : Cursor) : (closeTagAt? c.text c.byteOffset).getD (byteLength c.text) =
    c.byteOffset + byteLength (contentFrom c.behind c.ahead).1 := by
  obtain ⟨behind, ahead⟩ := c
  induction ahead generalizing behind with
  | nil => simp [closeTagAt?, contentFrom, byteLength_text]
  | cons x t ih =>
      have hsize := x.utf8Size_pos
      have hnext := ih (x :: behind)
      rw [closeTagAt?, byteLength_text, Nat.add_sub_cancel_left] at hnext ⊢
      simp only [Cursor.text, Cursor.byteOffset, List.reverse_cons, List.append_assoc,
        List.singleton_append, byteLength_cons] at hnext ⊢
      have hrange : List.range' (byteLength behind) (x.utf8Size + byteLength t) =
          byteLength behind :: (List.range' (byteLength behind + 1) (x.utf8Size - 1) ++
            List.range' (x.utf8Size + byteLength behind) (byteLength t)) := by
        have hlength : x.utf8Size + byteLength t = (x.utf8Size - 1 + byteLength t) + 1 := by omega
        have hstart : x.utf8Size + byteLength behind =
            byteLength behind + 1 + (x.utf8Size - 1) := by omega
        rw [hlength, List.range'_succ, hstart, List.range'_append_1]
      have hhere : startsTagAt (behind.reverse ++ x :: t) closeTag (byteLength behind) =
          startsTag closeTag (x :: t) := startsTagAt_byteOffset isAscii_closeTag ⟨behind, x :: t⟩
      rw [hrange, List.find?_cons, hhere, contentFrom]
      cases startsTag closeTag (x :: t) with
      | true => rfl
      | false =>
          have hlength : byteLength behind + (x.utf8Size + byteLength t) =
              x.utf8Size + byteLength behind + byteLength t := by omega
          dsimp only
          rw [List.find?_append, find?_range'_within isAscii_closeTag, Option.none_or, hlength,
            hnext, if_neg Bool.false_ne_true, byteLength_cons]
          omega

/-! ### The end of a tag -/

/-- The quote that is open in a tag after a character. -/
def nextQuote (quote : Option Char) (c : Char) : Option Char :=
  match quote with
  | some q => if c == q then none else some q
  | none => if c == '"' || c == '\'' then some c else none

theorem tagFrom?_cons (quote : Option Char) (behind : Text) (c : Char) (t : Text) :
    tagFrom? quote behind (c :: t) =
      if quote = none ∧ c = '>' then some ([], ⟨c :: behind, t⟩)
      else (tagFrom? (nextQuote quote c) (c :: behind) t).map fun p => (c :: p.1, p.2) := by
  cases quote with
  | some q =>
      have hgoes : ¬ (some q = none ∧ c = '>') := by simp
      rw [tagFrom?, if_neg hgoes]
      rfl
  | none =>
      rw [tagFrom?, nextQuote]
      by_cases hend : c = '>'
      · subst hend
        rfl
      · cases hquote : c == '"' || c == '\'' <;> simp [hend]

theorem tagEndIn?_ascii {quote : Option Char} (hquote : ∀ q ∈ quote, q.val.toNat < 128) {c : Char}
    (hc : c.val.toNat < 128) (pos : Nat) (rest : List UInt8) :
    tagEndIn? (quote.map Char.toUInt8) pos (c.toUInt8 :: rest) =
      if quote = none ∧ c = '>' then some pos
      else tagEndIn? ((nextQuote quote c).map Char.toUInt8) (pos + 1) rest := by
  cases quote with
  | some q =>
      have hgoes : ¬ (some q = none ∧ c = '>') := by simp
      rw [Option.map_some, tagEndIn?, toUInt8_beq hc (hquote q rfl), if_neg hgoes, nextQuote]
      split <;> rfl
  | none =>
      rw [Option.map_none, tagEndIn?, toUInt8_beq hc (by decide), toUInt8_beq hc (by decide),
        toUInt8_beq hc (by decide), nextQuote]
      by_cases hend : c = '>'
      · subst hend
        rfl
      · cases hsign : c == '"' || c == '\'' <;> simp [hend]

/-- The bytes of a longer character are passed over. -/
theorem tagEndIn?_wide {quote : Option Char} (hquote : ∀ q ∈ quote, q.val.toNat < 128)
    {bs : List UInt8} (hbs : ∀ b ∈ bs, 128 ≤ b.toNat) (pos : Nat) (rest : List UInt8) :
    tagEndIn? (quote.map Char.toUInt8) pos (bs ++ rest) =
      tagEndIn? (quote.map Char.toUInt8) (pos + bs.length) rest := by
  induction bs generalizing pos with
  | nil => rfl
  | cons b bs ih =>
      rw [List.forall_mem_cons] at hbs
      rw [List.length_cons, Nat.add_comm bs.length, ← Nat.add_assoc, ← ih hbs.2 (pos + 1)]
      cases quote with
      | some q =>
          rw [List.cons_append, Option.map_some, tagEndIn?,
            ne_of_le_toNat hbs.1 (hquote q rfl), if_neg Bool.false_ne_true]
      | none =>
          rw [List.cons_append, Option.map_none, tagEndIn?, ne_of_le_toNat hbs.1 (by decide),
            ne_of_le_toNat hbs.1 (by decide), ne_of_le_toNat hbs.1 (by decide)]
          rfl

theorem nextQuote_ascii {quote : Option Char} (hquote : ∀ q ∈ quote, q.val.toNat < 128) {c : Char}
    (hc : c.val.toNat < 128) : ∀ q ∈ nextQuote quote c, q.val.toNat < 128 := by
  intro q hq
  unfold nextQuote at hq
  split at hq
  · split at hq
    · cases hq
    · exact hquote q hq
  · split at hq
    · obtain rfl := Option.mem_some.mp hq
      exact hc
    · cases hq

theorem nextQuote_wide {quote : Option Char} (hquote : ∀ q ∈ quote, q.val.toNat < 128) {c : Char}
    (hc : 128 ≤ c.val.toNat) : nextQuote quote c = quote := by
  have hother : ∀ d : Char, d.val.toNat < 128 → (c == d) = false := by
    intro d hd
    rw [beq_eq_false_iff_ne]
    rintro rfl
    omega
  cases quote with
  | some q => rw [nextQuote, hother q (hquote q rfl), if_neg Bool.false_ne_true]
  | none => rw [nextQuote, hother _ (by decide), hother _ (by decide)]; rfl

/-- By offsets a tag ends where it ends by characters. -/
theorem tagEndIn?_bytes {quote : Option Char} (hquote : ∀ q ∈ quote, q.val.toNat < 128)
    (pos : Nat) (behind t : Text) : tagEndIn? (quote.map Char.toUInt8) pos (bytes t) =
      (tagFrom? quote behind t).map fun p => pos + byteLength p.1 := by
  induction t generalizing quote pos behind with
  | nil => cases quote <;> rfl
  | cons c t ih =>
      rw [tagFrom?_cons]
      by_cases hc : c.val.toNat < 128
      · have hsize : c.utf8Size = 1 := Char.utf8Size_eq_one_iff.mpr
          (UInt32.le_iff_toNat_le.mpr (Nat.le_of_lt_succ hc))
        rw [bytes_ascii hc, tagEndIn?_ascii hquote hc,
          ih (nextQuote_ascii hquote hc) _ (c :: behind)]
        split
        · rfl
        · simp [Function.comp_def, hsize, Nat.add_assoc]
      · have hwide := Nat.le_of_not_lt hc
        have hend : ¬ (quote = none ∧ c = '>') := by
          rintro ⟨-, rfl⟩
          exact hc (by decide)
        rw [bytes_cons, tagEndIn?_wide hquote (le_of_mem_encode hwide), if_neg hend,
          nextQuote_wide hquote hwide, String.length_utf8EncodeChar, ih hquote _ (c :: behind)]
        simp [Function.comp_def, Nat.add_assoc]

theorem tagEndAt?_byteOffset (c : Cursor) : tagEndAt? c.text c.byteOffset =
    (tagFrom? none c.behind c.ahead).map fun p => c.byteOffset + byteLength p.1 := by
  have hdrop := drop_bytes_append c.behind.reverse c.ahead
  rw [byteLength_reverse] at hdrop
  have hnone : ∀ q ∈ (none : Option Char), q.val.toNat < 128 := by simp
  rw [tagEndAt?, Cursor.text, Cursor.byteOffset, hdrop]
  exact tagEndIn?_bytes hnone _ c.behind c.ahead

/-! ### The end of a comment -/

theorem byteOffset_afterCommentFrom (behind ahead : Text) :
    (afterCommentFrom behind ahead).byteOffset =
      byteLength behind + ((offset? "-->".toList.isPrefixOf ahead).map (· + 3)).getD
        (byteLength ahead) := by
  induction ahead generalizing behind with
  | nil => rfl
  | cons c t ih =>
      rw [afterCommentFrom, offset?]
      split
      · rename_i hend
        obtain ⟨rest, hrest⟩ := List.isPrefixOf_iff_prefix.mp hend
        rw [← hrest]
        show byteLength ("-->".toList.reverse ++ behind) = _
        rw [byteLength_append, Nat.add_comm]
        rfl
      · rw [ih, byteLength_cons, byteLength_cons]
        cases offset? "-->".toList.isPrefixOf t with
        | none =>
            refine (Nat.add_comm _ _).trans ?_
            simp only [Option.map_none, Option.getD_none]
            omega
        | some n => simp only [Option.map_some, Option.getD_some]; omega

theorem commentEndAt_byteOffset (c : Cursor) :
    commentEndAt c.text c.byteOffset = (afterCommentFrom c.behind c.ahead).byteOffset := by
  have hdrop := dropBytes?_append c.behind.reverse c.ahead 0
  rw [Nat.add_zero, dropBytes?_zero, byteLength_reverse] at hdrop
  rw [byteOffset_afterCommentFrom, commentEndAt, Cursor.byteOffset, byteLength_text, Cursor.text,
    hdrop, Option.bind_some]
  cases offset? "-->".toList.isPrefixOf c.ahead with
  | none => rfl
  | some n => exact Nat.add_assoc _ _ _

/-! ### Turns -/

/-- The turn that a reading by characters comes to. -/
def Turn.ofReading : Option (Option Script × Cursor) → Turn
  | none => .done
  | some (block, place) => .next (block.map fun b => (b, b.stop)) place.byteOffset

theorem range?_eq {start stop : Nat} (hle : start ≤ stop) (hstop : stop < 2 ^ 32) :
    range? start stop = some (start, stop) := by
  rw [range?, Nat.mod_eq_of_lt (by omega), Nat.mod_eq_of_lt hstop, if_pos hle]

theorem slice?_byteOffset {c : Cursor} {inner after : Text} (h : c.ahead = inner ++ after) :
    slice? c.text c.byteOffset (c.byteOffset + byteLength inner) = some inner := by
  refine slice?_eq_some_iff.mpr ⟨c.behind.reverse, after, ?_, byteLength_reverse _, ?_⟩
  · rw [Cursor.text, h]
  · rw [byteLength_reverse, Cursor.byteOffset]

/-- A tag is passed up to its end. -/
theorem append_of_tagFrom? {quote : Option Char} {behind ahead : Text} {p : Text × Cursor}
    (h : tagFrom? quote behind ahead = some p) :
    ahead = p.1 ++ '>' :: p.2.ahead ∧ p.2.behind = '>' :: (p.1.reverse ++ behind) := by
  induction ahead generalizing quote behind p with
  | nil => cases quote <;> cases h
  | cons c t ih =>
      rw [tagFrom?_cons] at h
      split at h
      · rename_i hend
        obtain rfl := Option.some.inj h
        rw [hend.2]
        exact ⟨rfl, rfl⟩
      · obtain ⟨p, hp, rfl⟩ := Option.map_eq_some_iff.mp h
        obtain ⟨hahead, hbehind⟩ := ih hp
        exact ⟨congrArg (c :: ·) hahead, by simp [hbehind]⟩

/-- A content is passed up to its end. -/
theorem append_of_contentFrom (behind ahead : Text) :
    ahead = (contentFrom behind ahead).1 ++ (contentFrom behind ahead).2.ahead ∧
      (contentFrom behind ahead).2.behind = (contentFrom behind ahead).1.reverse ++ behind := by
  induction ahead generalizing behind with
  | nil => exact ⟨rfl, rfl⟩
  | cons c t ih =>
      rw [contentFrom]
      split
      · exact ⟨rfl, rfl⟩
      · obtain ⟨hahead, hbehind⟩ := ih (c :: behind)
        exact ⟨congrArg (c :: ·) hahead, by simp [hbehind]⟩

/-- The byte before a place is the character before it if that has one byte. -/
theorem exists_last_byte {c : Cursor} (hc : c.behind ≠ []) {d : Char} (hd : d.val.toNat < 128) :
    ∃ b, (bytes c.text)[c.byteOffset - 1]? = some b ∧
      (b == d.toUInt8) = (c.behind.head? == some d) := by
  obtain ⟨behind, ahead⟩ := c
  have hpos : 0 < byteLength behind := by
    obtain ⟨x, more, rfl⟩ := List.exists_cons_of_ne_nil hc
    exact Nat.add_pos_left x.utf8Size_pos _
  have hlength : (bytes behind.reverse).length = byteLength behind := by
    rw [length_bytes, byteLength_reverse]
  have hlast := getLast?_bytes hd behind.reverse
  have hindex : (bytes (behind.reverse ++ ahead))[byteLength behind - 1]? =
      (bytes behind.reverse).getLast? := by
    rw [bytes_append, List.getElem?_append_left (by omega), List.getLast?_eq_getElem?, hlength]
  have hne : bytes behind.reverse ≠ [] := by
    rw [← List.length_pos_iff, hlength]
    exact hpos
  rw [List.getLast?_eq_some_getLast hne] at hlast hindex
  refine ⟨_, hindex, ?_⟩
  rw [List.getLast?_reverse] at hlast
  obtain ⟨x, more, rfl⟩ := List.exists_cons_of_ne_nil hc
  exact hlast

/-- A tag that ends with a slash does so behind its name. -/
theorem head?_behind_tag {name : Text} (h : eqIgnoringCase name openTag = true)
    (tag behind : Text) :
    ((tag.reverse ++ (name.reverse ++ behind)).head? == some '/') = (tag.getLast? == some '/') := by
  rcases tag.eq_nil_or_concat' with rfl | ⟨front, x, rfl⟩
  · have hlast := congrArg List.getLast? (eq_of_beq h)
    rw [List.getLast?_map] at hlast
    obtain ⟨x, hx, hlower⟩ := Option.map_eq_some_iff.mp hlast
    obtain ⟨front, rfl⟩ := List.getLast?_eq_some_iff.mp hx
    have hother : x ≠ '/' := by
      rintro rfl
      exact absurd hlower (by decide)
    simpa using hother
  · simp

theorem byteOffset_of_tagFrom? {c : Cursor} {p : Text × Cursor}
    (h : tagFrom? none c.behind c.ahead = some p) :
    p.2.text = c.text ∧ p.2.byteOffset = c.byteOffset + byteLength p.1 + 1 := by
  obtain ⟨hahead, hbehind⟩ := append_of_tagFrom? h
  constructor
  · simp [Cursor.text, hbehind, hahead]
  · have hsize : '>'.utf8Size = 1 := rfl
    rw [Cursor.byteOffset, hbehind, byteLength_cons, byteLength_append, byteLength_reverse, hsize,
      Cursor.byteOffset]
    omega

theorem elementEndAt_byteOffset (c : Cursor) : elementEndAt c.text c.byteOffset =
    ((tagFrom? none c.behind c.ahead).elim (c.advanceBy c.ahead.length) Prod.snd).byteOffset := by
  rw [elementEndAt, tagEndAt?_byteOffset]
  cases htag : tagFrom? none c.behind c.ahead with
  | none =>
      have hend := byteLength_text (c.advanceBy c.ahead.length)
      rw [Cursor.text_advanceBy] at hend
      simpa [Cursor.advanceBy] using hend
  | some p =>
      obtain ⟨-, hoffset⟩ := byteOffset_of_tagFrom? htag
      have hinside : c.byteOffset < byteLength c.text := by
        rw [byteLength_text, (append_of_tagFrom? htag).1, byteLength_append, byteLength_cons]
        have := '>'.utf8Size_pos
        omega
      rw [Option.map_some, Option.elim_some, hoffset]
      dsimp only
      rw [if_pos hinside]

/-- By offsets the content of an element is passed as by characters. -/
theorem contentTurn?_eq {c : Cursor} (hlength : byteLength c.text < 2 ^ 32)
    (attrs : List Attribute) :
    contentTurn? c.text attrs c.byteOffset = some (.ofReading
      (let (content, place) := contentFrom c.behind c.ahead
       let block : Script := ⟨content, langOf attrs, isModuleOf attrs, c.byteOffset⟩
       match tagFrom? none place.behind place.ahead with
       | none => some (some block, place.advanceBy place.ahead.length)
       | some (_, outside) => some (some block, outside))) := by
  obtain ⟨hahead, hbehind⟩ := append_of_contentFrom c.behind c.ahead
  have hstop := getD_closeTagAt? c
  generalize contentFrom c.behind c.ahead = p at hahead hbehind hstop ⊢
  obtain ⟨content, place⟩ := p
  dsimp only at hahead hbehind hstop ⊢
  have htext : place.text = c.text := by simp [Cursor.text, hbehind, hahead]
  have hoffset : place.byteOffset = c.byteOffset + byteLength content := by
    rw [Cursor.byteOffset, hbehind, byteLength_append, byteLength_reverse, Nat.add_comm]
    rfl
  have hfits := byteLength_text place
  have hend := elementEndAt_byteOffset place
  rw [htext, hoffset] at hfits hend
  rw [contentTurn?, hstop, slice?_byteOffset hahead,
    range?_eq (Nat.le_add_right _ _) (by omega), hend]
  cases tagFrom? none place.behind place.ahead <;> rfl

/-- At a script tag the name is passed as it is written. -/
theorem exists_name {c : Cursor} (h : startsTag openTag c.ahead = true) :
    ∃ name x rest, c.ahead = name ++ x :: rest ∧ eqIgnoringCase name openTag = true ∧ EndsName x ∧
      c.advanceBy openTag.length = ⟨name.reverse ++ c.behind, x :: rest⟩ := by
  obtain ⟨name, x, rest, hahead, hname, hends⟩ := startsTag_iff.mp h
  refine ⟨name, x, rest, hahead, hname, hends, ?_⟩
  rw [Cursor.advanceBy, hahead, ← length_of_eqIgnoringCase hname, List.take_left, List.drop_left]

/-- By offsets an element is passed as by characters. -/
theorem elementTurn?_eq {c : Cursor} (hlength : byteLength c.text < 2 ^ 32)
    (hstarts : startsTag openTag c.ahead = true) :
    elementTurn? c.text c.byteOffset = some (.ofReading (elementAt? c)) := by
  obtain ⟨name, x, rest, -, hname, -, hstart⟩ := exists_name hstarts
  have htext : (c.advanceBy openTag.length).text = c.text := Cursor.text_advanceBy c _
  have hoffset : c.byteOffset + byteLength openTag = (c.advanceBy openTag.length).byteOffset := by
    rw [hstart, Cursor.byteOffset, Cursor.byteOffset, byteLength_append, byteLength_reverse,
      byteLength_of_eqIgnoringCase hname isAscii_openTag, Nat.add_comm]
  rw [elementTurn?, elementAt?, hoffset, ← htext, tagEndAt?_byteOffset]
  rw [← htext] at hlength
  cases htag : tagFrom? none (c.advanceBy openTag.length).behind
      (c.advanceBy openTag.length).ahead with
  | none => rfl
  | some p =>
      obtain ⟨tag, inside⟩ := p
      obtain ⟨hinside, hnext⟩ := byteOffset_of_tagFrom? htag
      obtain ⟨hinner, -⟩ := append_of_tagFrom? htag
      dsimp only at hinside hnext hinner
      -- the place of the `>`, where the byte before it is looked at
      obtain ⟨place, hplace⟩ : ∃ place : Cursor, place =
          ⟨tag.reverse ++ (c.advanceBy openTag.length).behind, '>' :: inside.ahead⟩ := ⟨_, rfl⟩
      have hend : place.text = (c.advanceBy openTag.length).text := by
        simp [Cursor.text, hplace, hinner]
      have hendOffset : place.byteOffset =
          (c.advanceBy openTag.length).byteOffset + byteLength tag := by
        rw [hplace, Cursor.byteOffset, byteLength_append, byteLength_reverse, Nat.add_comm]
        rfl
      have hslash : (place.behind.head? == some '/') = (tag.getLast? == some '/') := by
        rw [hplace, hstart]
        exact head?_behind_tag hname tag c.behind
      have hpassed : place.behind ≠ [] := by
        rw [hplace, hstart]
        intro hnil
        obtain ⟨-, hnil⟩ := List.append_eq_nil_iff.mp hnil
        rw [List.append_eq_nil_iff, List.reverse_eq_nil_iff] at hnil
        rw [hnil.1] at hname
        exact absurd hname (by decide +kernel)
      obtain ⟨b, hb, hlast⟩ := exists_last_byte hpassed (d := '/') (by decide)
      rw [hend, hendOffset] at hb
      rw [hslash] at hlast
      rw [Option.map_some]
      dsimp only
      rw [slice?_byteOffset hinner]
      simp only [Option.bind_eq_bind, Option.bind_some, attributesFrom?_eq, hb, hlast]
      rw [← hnext, ← hinside]
      rw [← hinside] at hlength
      split
      · rfl
      · exact contentTurn?_eq hlength (attributes tag)

/-! ### Moves -/

theorem byteLength_pos {t : Text} (h : t ≠ []) : 0 < byteLength t := by
  obtain ⟨x, rest, rfl⟩ := List.exists_cons_of_ne_nil h
  exact Nat.add_pos_left x.utf8Size_pos _

theorem text_of_moves {c d : Cursor} (h : c.Moves d) : d.text = c.text := by
  obtain ⟨behind, passed, ahead⟩ := h
  simp [Cursor.text]

theorem byteOffset_of_moves {c d : Cursor} (h : c.Moves d) : c.byteOffset ≤ d.byteOffset := by
  obtain ⟨behind, passed, ahead⟩ := h
  simp [Cursor.byteOffset, byteLength_append]

theorem byteOffset_lt_of_moves {c d : Cursor} (h : c.Moves d)
    (hshorter : d.ahead.length < c.ahead.length) : c.byteOffset < d.byteOffset := by
  obtain ⟨behind, passed, ahead⟩ := h
  have hne : passed ≠ [] := by
    rintro rfl
    exact absurd hshorter (Nat.lt_irrefl _)
  have hpos := byteLength_pos hne
  simp only [Cursor.byteOffset, byteLength_append, byteLength_reverse]
  omega

theorem moves_of_passed {c d : Cursor} {passed : Text} (hahead : c.ahead = passed ++ d.ahead)
    (hbehind : d.behind = passed.reverse ++ c.behind) : c.Moves d := by
  obtain ⟨behind, ahead⟩ := c
  obtain ⟨behind', ahead'⟩ := d
  dsimp only at hahead hbehind
  subst hahead hbehind
  exact .mk behind passed ahead'

theorem moves_tagFrom? {c : Cursor} {p : Text × Cursor}
    (h : tagFrom? none c.behind c.ahead = some p) : c.Moves p.2 := by
  obtain ⟨hahead, hbehind⟩ := append_of_tagFrom? h
  have hahead' : c.ahead = (p.1 ++ ['>']) ++ p.2.ahead := by simpa using hahead
  exact moves_of_passed hahead' (by simpa using hbehind)

theorem moves_contentFrom (c : Cursor) : c.Moves (contentFrom c.behind c.ahead).2 :=
  let ⟨hahead, hbehind⟩ := append_of_contentFrom c.behind c.ahead
  moves_of_passed hahead hbehind

theorem moves_afterCommentFrom (behind ahead : Text) :
    Cursor.Moves ⟨behind, ahead⟩ (afterCommentFrom behind ahead) := by
  induction ahead generalizing behind with
  | nil => exact .refl _
  | cons x t ih =>
      rw [afterCommentFrom]
      split
      · exact Cursor.moves_advanceBy _ 3
      · exact (ih (x :: behind)).cons

theorem moves_elementAt? {c : Cursor} {p : Option Script × Cursor} (h : elementAt? c = some p) :
    c.Moves p.2 := by
  have hstart := Cursor.moves_advanceBy c openTag.length
  unfold elementAt? at h
  split at h
  · contradiction
  rename_i tag inside htag
  have hinside := hstart.trans (moves_tagFrom? htag)
  split at h
  · obtain rfl := Option.some.inj h
    exact hinside
  · have hplace := hinside.trans (moves_contentFrom inside)
    dsimp only at h
    split at h
    · obtain rfl := Option.some.inj h
      exact hplace.trans (Cursor.moves_advanceBy _ _)
    · rename_i outside hclose
      obtain rfl := Option.some.inj h
      exact hplace.trans (moves_tagFrom? hclose)

theorem moves_readAt? {c : Cursor} {p : Option Script × Cursor} (h : readAt? c = some p) :
    c.Moves p.2 := by
  unfold readAt? at h
  split at h
  · contradiction
  split at h
  · obtain rfl := Option.some.inj h
    exact (Cursor.moves_advanceBy c 4).trans (moves_afterCommentFrom _ _)
  split at h
  · exact moves_elementAt? h
  · obtain rfl := Option.some.inj h
    exact Cursor.moves_advanceBy c 1

/-! ### The scan -/

/-- A text of characters of one byte is found in a text where its bytes are. -/
theorem isPrefixOf_bytes {s : Text} (hs : IsAscii s) (t : Text) :
    (bytes s).isPrefixOf (bytes t) = s.isPrefixOf t := by
  induction s generalizing t with
  | nil => simp
  | cons d s ih =>
      have hd : d.val.toNat < 128 := hs d List.mem_cons_self
      rw [bytes_ascii hd]
      cases t with
      | nil => rfl
      | cons x t =>
          by_cases hx : x.val.toNat < 128
          · rw [bytes_ascii hx, List.isPrefixOf_cons_cons, List.isPrefixOf_cons_cons,
              toUInt8_beq hd hx, ih fun e he => hs e (List.mem_cons_of_mem d he)]
          · obtain ⟨b, rest, hencode⟩ :=
              List.exists_cons_of_ne_nil (String.utf8EncodeChar_ne_nil (c := x))
            have hb : 128 ≤ b.toNat :=
              le_of_mem_encode (Nat.le_of_not_lt hx) b (hencode ▸ List.mem_cons_self)
            have hother : (d == x) = false := by
              rw [beq_eq_false_iff_ne]
              rintro rfl
              exact hx hd
            rw [bytes_cons, hencode, List.cons_append, List.isPrefixOf_cons_cons,
              List.isPrefixOf_cons_cons, hother, Bool.beq_comm, ne_of_le_toNat hb hd,
              Bool.false_and, Bool.false_and]

theorem turnAt?_within (behind : Text) {x : Char} (t : Text) {n : Nat} (hn : 0 < n)
    (hsize : n < x.utf8Size) :
    turnAt? (behind.reverse ++ x :: t) (byteLength behind + n) =
      some (.next none (byteLength behind + n + 1)) := by
  have hinside : ¬ byteLength (behind.reverse ++ x :: t) ≤ byteLength behind + n := by
    rw [byteLength_append, byteLength_reverse, byteLength_cons]
    omega
  have hcomment : (bytes "<!--".toList).isPrefixOf
      ((bytes (behind.reverse ++ x :: t)).drop (byteLength behind + n)) = false := by
    have hwide : 128 ≤ x.val.toNat := by
      by_contra hx
      have hone : x.utf8Size = 1 := Char.utf8Size_eq_one_iff.mpr
        (UInt32.le_iff_toNat_le.mpr (by simpa using Nat.le_of_lt_succ (Nat.lt_of_not_le hx)))
      omega
    have hlt : n < (String.utf8EncodeChar x).length := by rwa [String.length_utf8EncodeChar]
    have hb := le_of_mem_encode hwide _ (List.getElem_mem hlt)
    have hdrop := drop_bytes_append behind.reverse (x :: t)
    rw [byteLength_reverse] at hdrop
    have hmark : bytes "<!--".toList = '<'.toUInt8 :: bytes "!--".toList :=
      bytes_ascii (by decide) _
    rw [← List.drop_drop, hdrop, bytes_cons, List.drop_append_of_le_length hlt.le,
      List.drop_eq_getElem_cons hlt, hmark, List.cons_append, List.isPrefixOf_cons_cons,
      Bool.beq_comm, ne_of_le_toNat hb (by decide), Bool.false_and]
  rw [turnAt?, if_neg hinside, hcomment, if_neg Bool.false_ne_true,
    startsTagAt_within isAscii_openTag behind t hn hsize, if_neg Bool.false_ne_true]

/-- At a character the scan by offsets does as the reading by characters, but that it goes on by one
byte only where there is nothing to read. -/
theorem turnAt?_eq {c : Cursor} (hlength : byteLength c.text < 2 ^ 32) :
    turnAt? c.text c.byteOffset = some (.ofReading (readAt? c)) ∨
      c.ahead ≠ [] ∧ readAt? c = some (none, c.advanceBy 1) ∧
        turnAt? c.text c.byteOffset = some (.next none (c.byteOffset + 1)) := by
  have hdrop := drop_bytes_append c.behind.reverse c.ahead
  rw [byteLength_reverse] at hdrop
  by_cases hend : c.ahead = []
  · left
    have hle : byteLength c.text ≤ c.byteOffset := by rw [byteLength_text, hend]; rfl
    rw [turnAt?, if_pos hle, readAt?, hend]
    rfl
  have hpos := byteLength_pos hend
  have hgoes : ¬ byteLength c.text ≤ c.byteOffset := by rw [byteLength_text]; omega
  have hsome : c.ahead.isEmpty = false := by simpa using hend
  have hcomments : (bytes "<!--".toList).isPrefixOf ((bytes c.text).drop c.byteOffset) =
      "<!--".toList.isPrefixOf c.ahead := by
    rw [Cursor.text, Cursor.byteOffset, hdrop, isPrefixOf_bytes (by decide +kernel)]
  rw [turnAt?, if_neg hgoes, hcomments, startsTagAt_byteOffset isAscii_openTag, readAt?, hsome,
    if_neg Bool.false_ne_true]
  cases hcomment : "<!--".toList.isPrefixOf c.ahead with
  | true =>
      left
      obtain ⟨rest, hrest⟩ := List.isPrefixOf_iff_prefix.mp hcomment
      have hnext := commentEndAt_byteOffset (c.advanceBy 4)
      have hoffset : (c.advanceBy 4).byteOffset = c.byteOffset + 4 := by
        rw [Cursor.advanceBy, ← hrest]
        show byteLength ("<!--".toList.reverse ++ c.behind) = _
        rw [byteLength_append, Nat.add_comm]
        rfl
      rw [Cursor.text_advanceBy, hoffset] at hnext
      rw [if_pos rfl, if_pos rfl, hnext]
      rfl
  | false =>
      rw [if_neg Bool.false_ne_true, if_neg Bool.false_ne_true]
      cases hstarts : startsTag openTag c.ahead with
      | true => exact .inl (elementTurn?_eq hlength hstarts)
      | false => exact .inr ⟨hend, rfl, rfl⟩

/-- Within a character the scan goes on byte by byte. -/
theorem blocksFrom?_within (behind : Text) (x : Char) (t : Text) {n : Nat} (hn : 0 < n)
    (hsize : n ≤ x.utf8Size) :
    blocksFrom? (behind.reverse ++ x :: t) (byteLength behind + n) =
      blocksFrom? (behind.reverse ++ x :: t) (byteLength behind + x.utf8Size) := by
  induction hleft : x.utf8Size - n generalizing n with
  | zero =>
      obtain rfl : n = x.utf8Size := by omega
      rfl
  | succ k ih =>
      have hlt : n < x.utf8Size := by omega
      have hgoes : byteLength behind + n < byteLength behind + n + 1 ∧
          byteLength behind + n + 1 ≤ byteLength (behind.reverse ++ x :: t) := by
        rw [byteLength_append, byteLength_reverse, byteLength_cons]
        omega
      rw [← ih (n := n + 1) (by omega) (by omega) (by omega), blocksFrom?,
        turnAt?_within behind t hn hlt]
      dsimp only
      rw [if_pos hgoes, Nat.add_assoc]
      exact Option.map_id_apply

/-- The scan by offsets goes on to its end, with every slice in place, and finds the blocks. -/
theorem blocksFrom?_eq {c : Cursor} (hlength : byteLength c.text < 2 ^ 32) :
    blocksFrom? c.text c.byteOffset = some ((blocksFrom c).map fun b => (b, b.stop)) := by
  induction hleft : c.ahead.length using Nat.strong_induction_on generalizing c with
  | _ k ih =>
      subst hleft
      rw [Component.blocksFrom_eq]
      rcases turnAt?_eq hlength with hturn | ⟨hne, hread, hturn⟩
      · rw [blocksFrom?, hturn]
        cases hread : readAt? c with
        | none => rfl
        | some p =>
            obtain ⟨block, place⟩ := p
            have hmoves := moves_readAt? hread
            have hshorter := length_readAt?_lt hread
            have htext := text_of_moves hmoves
            have hlt := byteOffset_lt_of_moves hmoves hshorter
            have hle := byteLength_text place
            dsimp only at htext hlt hle
            rw [htext] at hle
            have hrest := ih _ hshorter (c := place) (by rwa [htext]) rfl
            rw [htext] at hrest
            dsimp only [Turn.ofReading]
            rw [if_pos ⟨hlt, by omega⟩, hrest]
            cases block <;> simp
      · obtain ⟨behind, ahead⟩ := c
        obtain ⟨x, t, rfl⟩ := List.exists_cons_of_ne_nil hne
        have hsize := x.utf8Size_pos
        have hnext := ih t.length (Nat.lt_succ_self _) (c := ⟨x :: behind, t⟩)
          (by simpa [Cursor.text] using hlength) rfl
        have hwithin := blocksFrom?_within behind x t Nat.one_pos hsize
        have hgoes : byteLength behind < byteLength behind + 1 ∧
            byteLength behind + 1 ≤ byteLength (behind.reverse ++ x :: t) := by
          rw [byteLength_append, byteLength_reverse, byteLength_cons]
          omega
        simp only [Cursor.text, Cursor.byteOffset, List.reverse_cons, List.append_assoc,
          List.singleton_append, byteLength_cons, Nat.add_comm x.utf8Size] at hnext hturn ⊢
        rw [blocksFrom?, hturn, hread]
        dsimp only
        rw [if_pos hgoes, hwithin, hnext]
        rfl

/-! ### Written components -/

/-- The script blocks of a written component are its script elements in their order. As long as
offsets fit into 32 bits, the scan by offsets goes on to its end and finds them with their
ranges. -/
theorem blocks_segments (segments : List Segment) :
    blocks (Segment.printAll segments) = Segment.blocksAt 0 segments ∧
      (byteLength (Segment.printAll segments) < 2 ^ 32 →
        blocksFrom? (Segment.printAll segments) 0 =
          some ((Segment.blocksAt 0 segments).map fun b => (b, b.stop))) := by
  have hblocks : blocks (Segment.printAll segments) = Segment.blocksAt 0 segments :=
    blocksFrom_segments segments []
  refine ⟨hblocks, fun hlength => ?_⟩
  rw [← hblocks]
  exact blocksFrom?_eq (c := .ofText (Segment.printAll segments)) hlength

/-- A text that is shorter than a closing tag holds none. -/
theorem closesNoScript_of_length {t : Text} (h : t.length ≤ 8) : ClosesNoScript t := by
  intro tag c hinfix hclose
  have hlength := congrArg List.length (eq_of_beq hclose)
  have hle := hinfix.length_le
  simp only [List.length_map, List.length_append, List.length_singleton] at hlength hle
  have height : "</script".toList.length = 8 := rfl
  omega

theorem hidden_valid : ¬ ['-', '-', '>'] <:+: "<script>é</script>".toList := by decide

theorem letter_valid : '<' ∉ ['é'] := by decide

theorem lang_plain :
    ∀ c ∈ "LANG".toList, isWhite c = false ∧ c ∉ ['=', '/', '>', '"', '\''] := by
  have hletters : "LANG".toList = ['L', 'A', 'N', 'G'] := rfl
  simp only [hletters, List.forall_mem_cons]
  exact ⟨by decide, by decide, by decide, by decide, List.forall_mem_nil _⟩

theorem lang_quoted : ∀ v ∈ some "t>s".toList, '"' ∉ v := by
  intro v hv
  obtain rfl := Option.some.inj hv
  decide

/-- A comment with a script element in it, a letter of two bytes and a script element. -/
def hiddenElement : List Segment :=
  [.comment "<script>é</script>".toList hidden_valid, .filler ['é'] letter_valid,
    .element [⟨"LANG".toList, some "t>s".toList, List.cons_ne_nil _ _, lang_plain, lang_quoted⟩]
      "let é".toList (closesNoScript_of_length (Nat.le_of_ble_eq_true rfl))]

theorem blocks_segments_hidden :
    byteLength (Segment.printAll hiddenElement) < 2 ^ 32 ∧
      blocks (Segment.printAll hiddenElement) = [⟨"let é".toList, some "t>s".toList, false, 47⟩] ∧
      blocksFrom? (Segment.printAll hiddenElement) 0 =
        some [(⟨"let é".toList, some "t>s".toList, false, 47⟩, 53)] := by
  have hlength : byteLength (Segment.printAll hiddenElement) < 2 ^ 32 := by decide +kernel
  obtain ⟨hblocks, hscan⟩ := blocks_segments hiddenElement
  have hwritten : Segment.blocksAt 0 hiddenElement =
      [⟨"let é".toList, some "t>s".toList, false, 47⟩] := by decide +kernel
  refine ⟨hlength, hblocks.trans hwritten, ?_⟩
  rw [hscan hlength, hwritten]
  rfl

end ComponentProps.Script
