import ComponentProps.Proofs.Words

/-!
# The extent of groups and captures

A group ends at the first bracket of its kind that closes more than was opened, with literals and
comments left out and the `>` of an arrow counted as no bracket. What the reader of a group does
with a counter is compared here with the brackets of the text as a list of signs: the text between
two brackets that match has as many signs that open as signs that close, and no first part of it has
more that close. A capture takes the text between the places where it begins and ends.
-/

namespace ComponentProps

open Text

/-! ### The signs of a group -/

/-- What a bracket of the kind that a group is read with does to the group. -/
inductive GroupSign
  | opens
  | closes
  deriving DecidableEq, Repr

namespace GroupSign

/-- The sign that a character behind `behind` is. What is not code is none, and neither is the `>`
of an arrow. -/
def of? (opening close : Char) (role : Role) (behind : Text) (c : Char) : Option GroupSign :=
  if role ≠ .code then none
  else if c = opening then some opens
  else if c = '>' ∧ behind.head? = some '=' then none
  else if c = close then some closes
  else none

/-- The signs of a text in their order, read behind the characters `behind`. -/
def all (opening close : Char) (region : Region) (behind : Text) : Text → List GroupSign
  | [] => []
  | c :: rest =>
    (of? opening close (region.read behind c rest).1 behind c).toList ++
      all opening close (region.read behind c rest).2 (c :: behind) rest

/-- How many groups are open behind some signs when `depth` were open before them. There is no
answer when more are closed than were open. -/
def level? (depth : Nat) : List GroupSign → Option Nat
  | [] => some depth
  | opens :: signs => level? (depth + 1) signs
  | closes :: signs =>
    match depth with
    | 0 => none
    | depth + 1 => level? depth signs

/-- The level is told by the number of signs of either sort, and there is one if no first part
closes more than is open. -/
theorem level?_eq_some_iff {depth final : Nat} {signs : List GroupSign} :
    level? depth signs = some final ↔
      (∀ n, (signs.take n).count closes ≤ depth + (signs.take n).count opens) ∧
        final + signs.count closes = depth + signs.count opens := by
  induction signs generalizing depth with
  | nil => simp [level?, eq_comm]
  | cons sign signs ih =>
      rw [← Nat.and_forall_add_one]
      simp only [List.take_zero, List.take_succ_cons, List.count_nil, List.count_cons]
      cases sign with
      | opens =>
          rw [level?, ih]
          grind
      | closes =>
          cases depth with
          | zero =>
              have hfirst := List.take_zero (l := signs)
              rw [level?]
              grind
          | succ depth =>
              rw [level?, ih]
              grind

variable {opening close : Char} {role : Role} {behind : Text} {c : Char}

theorem code_of_closes (h : of? opening close role behind c = some closes) :
    role = .code ∧ c = close := by
  unfold of? at h
  grind

/-- What stands behind a text counts only for an escape and for an arrow at its start. -/
theorem all_behind {b : Text} (hslash : b.head? ≠ some '\\') (harrow : b.head? ≠ some '=')
    (region : Region) (front t : Text) :
    all opening close region (front ++ b) t = all opening close region front t := by
  have hof : ∀ role front c, of? opening close role (front ++ b) c =
      of? opening close role front c := by
    intro role front c
    cases front with
    | nil => simp [of?, harrow]
    | cons d front => rfl
  induction t generalizing region front with
  | nil => rfl
  | cons c t ih =>
      have hread := Region.read_context hslash endsSlash_nil region front c t
      rw [List.append_nil] at hread
      rw [all, all, hread, hof, ← List.cons_append, ih]

end GroupSign

/-! ### The reader of a group -/

namespace Cursor

/-- Text read in front of what a capture takes. -/
def inFront (t : Text) (p : Text × Cursor) : Text × Cursor := (t ++ p.1, p.2)

theorem inFront_append (s t : Text) (p : Text × Cursor) :
    inFront (s ++ t) p = inFront s (inFront t p) := by
  simp [inFront]

section

variable {opening close : Char} {region : Region} {depth : Nat} {behind rest : Text}

/-- What the reader does with a character depends on the sign that it is. -/
theorem groupFrom_cons (c : Char) :
    groupFrom opening close region depth behind (c :: rest) =
      let (role, region') := region.read behind c rest
      match GroupSign.of? opening close role behind c with
      | some .opens => inFront [c] (groupFrom opening close region' (depth + 1) (c :: behind) rest)
      | some .closes =>
        if depth ≤ 1 then ([], ⟨c :: behind, rest⟩)
        else inFront [c] (groupFrom opening close region' (depth - 1) (c :: behind) rest)
      | none => inFront [c] (groupFrom opening close region' depth (c :: behind) rest) := by
  rw [groupFrom]
  generalize region.read behind c rest = read
  obtain ⟨role, region'⟩ := read
  cases role with
  | literal | comment => rfl
  | code =>
      have hsign : GroupSign.of? opening close .code behind c =
          if c == opening then some .opens
          else if closesGroup close behind c then some .closes
          else none := by
        grind [GroupSign.of?, closesGroup]
      dsimp only
      rw [hsign]
      split
      · rfl
      · split <;> rfl

/-- A text that closes no more than it opens is passed within a group. -/
theorem groupFrom_signs (hrest : EndsSlash rest) {t : Text} {final : Nat}
    (h : GroupSign.level? depth (GroupSign.all opening close region behind t) = some final) :
    groupFrom opening close region (depth + 1) behind (t ++ rest) =
      inFront t (groupFrom opening close (region.after behind t) (final + 1) (t.reverse ++ behind)
        rest) := by
  induction t generalizing region behind depth with
  | nil =>
      obtain rfl : depth = final := Option.some.inj h
      rfl
  | cons c t ih =>
      have hkeep : ∀ {next : Nat},
          GroupSign.level? next (GroupSign.all opening close (region.read behind c t).2
            (c :: behind) t) = some final →
          inFront [c] (groupFrom opening close (region.read behind c t).2 (next + 1) (c :: behind)
            (t ++ rest)) =
            inFront (c :: t) (groupFrom opening close (region.after behind (c :: t)) (final + 1)
              ((c :: t).reverse ++ behind) rest) := by
        intro next hnext
        rw [ih hnext, ← inFront_append, Region.after]
        simp
      rw [GroupSign.all] at h
      rw [List.cons_append, groupFrom_cons, Region.read_before hrest]
      dsimp only
      cases hsign : GroupSign.of? opening close (region.read behind c t).1 behind c with
      | none =>
          rw [hsign] at h
          exact hkeep h
      | some sign =>
          rw [hsign] at h
          cases sign with
          | opens => exact hkeep h
          | closes =>
              cases depth with
              | zero => contradiction
              | succ depth =>
                  have hdeep : ¬ depth + 1 + 1 ≤ 1 := by omega
                  dsimp only
                  rw [if_neg hdeep]
                  exact hkeep h

/-- A text that closes more than is open has a first bracket that does so. -/
theorem exists_closer (hclose : IsSign close) (hfeed : close ≠ '\n') {ahead : Text}
    (h : GroupSign.level? depth (GroupSign.all opening close region behind ahead) = none) :
    ∃ inner rest, ahead = inner ++ close :: rest ∧ region.after behind inner = .code ∧
      GroupSign.level? depth (GroupSign.all opening close region behind inner) = some 0 ∧
      GroupSign.of? opening close .code (inner.reverse ++ behind) close = some .closes := by
  induction ahead generalizing region behind depth with
  | nil => contradiction
  | cons c t ih =>
      -- A bracket that is found further on is found at the level `next` that `c` leads to.
      have hlater : ∀ {next : Nat},
          (∀ signs, GroupSign.level? depth ((GroupSign.of? opening close (region.read behind c t).1
            behind c).toList ++ signs) = GroupSign.level? next signs) →
          ∃ inner rest, c :: t = inner ++ close :: rest ∧ region.after behind inner = .code ∧
            GroupSign.level? depth (GroupSign.all opening close region behind inner) = some 0 ∧
            GroupSign.of? opening close .code (inner.reverse ++ behind) close = some .closes := by
        intro next hlevel
        rw [GroupSign.all, hlevel] at h
        obtain ⟨inner, rest, rfl, hafter, hzero, hsign⟩ := ih h
        have hhere :=
          Region.read_before (signFirst_cons rest hclose).endsSlash region behind c inner
        rw [hhere] at hlevel hafter hzero
        refine ⟨c :: inner, rest, rfl, hafter, ?_, by simpa using hsign⟩
        rw [GroupSign.all, hlevel, hzero]
      cases hsign : GroupSign.of? opening close (region.read behind c t).1 behind c with
      | none => exact hlater fun signs => by rw [hsign]; rfl
      | some sign =>
          cases sign with
          | opens => exact hlater fun signs => by rw [hsign]; rfl
          | closes =>
              cases depth with
              | succ depth => exact hlater fun signs => by rw [hsign]; rfl
              | zero =>
                  obtain ⟨hcode, rfl⟩ := GroupSign.code_of_closes hsign
                  rw [hcode] at hsign
                  have hread : region.read behind c t = (.code, (region.read behind c t).2) :=
                    Prod.ext hcode rfl
                  exact ⟨[], t, rfl, Region.eq_code_of_read hfeed hread, rfl, hsign⟩

theorem readGroup_cons (hopen : IsSign opening) (ahead : Text) :
    readGroup ⟨behind, opening :: ahead⟩ opening close =
      groupFrom opening close .code 1 (opening :: behind) ahead := by
  simp [readGroup, groupFrom, Region.read_plain hopen.1]

end

end Cursor

/-! ### What a group holds -/

/-- The pairs of brackets that groups are read with. -/
def groupPairs : List (Char × Char) := [('(', ')'), ('[', ']'), ('{', '}'), ('<', '>')]

/-- The text between two brackets that match. -/
structure IsInside (opening close : Char) (inner : Text) : Prop where
  /-- Its literals are closed and its comments ended. -/
  closed : Region.code.after [] inner = .code
  /-- It closes as many brackets as it opens. -/
  paired : (GroupSign.all opening close .code [] inner).count .closes =
    (GroupSign.all opening close .code [] inner).count .opens
  /-- None is closed before it is opened. -/
  inOrder : ∀ n, ((GroupSign.all opening close .code [] inner).take n).count .closes ≤
    ((GroupSign.all opening close .code [] inner).take n).count .opens
  /-- The bracket behind it is not that of an arrow. -/
  noArrow : close = '>' → inner.getLast? ≠ some '='

theorem isInside_iff {opening close : Char} {inner : Text} :
    IsInside opening close inner ↔ Region.code.after [] inner = .code ∧
      GroupSign.level? 0 (GroupSign.all opening close .code [] inner) = some 0 ∧
      (close = '>' → inner.getLast? ≠ some '=') := by
  simp only [GroupSign.level?_eq_some_iff, Nat.zero_add]
  exact ⟨fun h => ⟨h.closed, ⟨h.inOrder, h.paired⟩, h.noArrow⟩,
    fun h => ⟨h.1, h.2.1.2, h.2.1.1, h.2.2⟩⟩

namespace Cursor

section

variable {opening close : Char} (h : (opening, close) ∈ groupPairs)

include h

theorem isSign_of_groupPairs :
    IsSign opening ∧ IsSign close ∧ opening ≠ close ∧ opening ≠ '=' ∧ close ≠ '\n' := by
  simp only [groupPairs, List.mem_cons, List.not_mem_nil, or_false, Prod.mk.injEq] at h
  rcases h with ⟨rfl, rfl⟩ | ⟨rfl, rfl⟩ | ⟨rfl, rfl⟩ | ⟨rfl, rfl⟩ <;> decide

/-- Behind its opening bracket a text is read as it is alone. -/
theorem signs_behind_opening (behind t : Text) :
    Region.code.after (opening :: behind) t = Region.code.after [] t ∧
      GroupSign.all opening close .code (opening :: behind) t =
        GroupSign.all opening close .code [] t := by
  obtain ⟨hopen, -, -, harrow, -⟩ := isSign_of_groupPairs h
  have hslash : (opening :: behind).head? ≠ some '\\' := (signFirst_cons behind hopen).not_escape
  exact ⟨Region.after_behind hslash .code [] t,
    GroupSign.all_behind hslash (by simpa using harrow) .code [] t⟩

/-- The bracket behind a text that does not end in the first half of an arrow closes its group. -/
theorem of?_close_iff (behind inner : Text) :
    GroupSign.of? opening close .code (inner.reverse ++ opening :: behind) close = some .closes ↔
      (close = '>' → inner.getLast? ≠ some '=') := by
  obtain ⟨-, -, hne, harrow, -⟩ := isSign_of_groupPairs h
  have hhead : (inner.reverse ++ opening :: behind).head? = some '=' ↔
      inner.getLast? = some '=' := by
    rw [List.head?_append, List.head?_reverse]
    cases inner.getLast? <;> simp [harrow]
  simp only [GroupSign.of?, hhead, Ne.symm hne, ne_eq, not_true_eq_false, if_false, if_true]
  split <;> simp_all

/-- A group is read up to the bracket that matches its first one. -/
theorem readGroup_inside {inner : Text} (hinner : IsInside opening close inner)
    (behind rest : Text) :
    readGroup ⟨behind, opening :: (inner ++ close :: rest)⟩ opening close =
      (inner, ⟨close :: (inner.reverse ++ opening :: behind), rest⟩) := by
  obtain ⟨hopen, hclose, -⟩ := isSign_of_groupPairs h
  obtain ⟨hafter, hsigns⟩ := signs_behind_opening h behind inner
  obtain ⟨hclosed, hlevel, hends⟩ := isInside_iff.mp hinner
  rw [← hsigns] at hlevel
  rw [readGroup_cons hopen, ← Nat.zero_add 1,
    groupFrom_signs (signFirst_cons rest hclose).endsSlash hlevel, hafter, hclosed, groupFrom_cons,
    Region.read_plain hclose.1]
  simp only [(of?_close_iff h behind inner).mpr hends]
  simp [inFront]

/-- A group whose first bracket has no match is read to the end of the text. -/
theorem readGroup_unmatched {ahead : Text}
    (hnone : ¬ ∃ inner rest, ahead = inner ++ close :: rest ∧ IsInside opening close inner)
    (behind : Text) :
    readGroup ⟨behind, opening :: ahead⟩ opening close =
      (ahead, ⟨ahead.reverse ++ opening :: behind, []⟩) := by
  obtain ⟨hopen, hclose, -, -, hfeed⟩ := isSign_of_groupPairs h
  cases hlevel :
      GroupSign.level? 0 (GroupSign.all opening close .code (opening :: behind) ahead) with
  | none =>
      obtain ⟨inner, rest, rfl, hclosed, hzero, hcloses⟩ := exists_closer hclose hfeed hlevel
      obtain ⟨hafter, hsigns⟩ := signs_behind_opening h behind inner
      rw [hafter] at hclosed
      rw [hsigns] at hzero
      have hends := (of?_close_iff h behind inner).mp hcloses
      exact absurd ⟨inner, rest, rfl, isInside_iff.mpr ⟨hclosed, hzero, hends⟩⟩ hnone
  | some final =>
      have hall := groupFrom_signs endsSlash_nil hlevel
      rw [List.append_nil, Nat.zero_add] at hall
      rw [readGroup_cons hopen, hall]
      simp [inFront, groupFrom]

end

/-! ### What a capture takes -/

theorem captureFrom_verbatim (stop : Text → Cursor → Bool) (region : Region) (nesting : Nesting)
    (taken behind ahead : Text) :
    (captureFrom stop region nesting taken behind ahead).1 ++
        (captureFrom stop region nesting taken behind ahead).2.ahead = ahead ∧
      (captureFrom stop region nesting taken behind ahead).2.behind =
        (captureFrom stop region nesting taken behind ahead).1.reverse ++ behind := by
  induction ahead generalizing region nesting taken behind with
  | nil => exact ⟨rfl, rfl⟩
  | cons c rest ih =>
      have hkeep : ∀ p : Text × Cursor, p.1 ++ p.2.ahead = rest ∧
          p.2.behind = p.1.reverse ++ c :: behind →
          (c :: p.1) ++ p.2.ahead = c :: rest ∧ p.2.behind = (c :: p.1).reverse ++ behind := by
        rintro p ⟨hahead, hbehind⟩
        exact ⟨congrArg (c :: ·) hahead, by simpa using hbehind⟩
      rw [captureFrom]
      split
      · split
        · exact ⟨rfl, rfl⟩
        · split
          · exact ⟨rfl, rfl⟩
          · exact hkeep _ (ih _ _ _ _)
      · exact hkeep _ (ih _ _ _ _)

theorem slice_append (behind t rest : Text) :
    slice ⟨behind, t ++ rest⟩ behind.length (behind.length + t.length) = t := by
  have hfront : (behind.reverse ++ t).length = behind.length + t.length := by simp
  rw [slice, text, ← List.append_assoc, List.take_left' hfront,
    List.drop_left' (List.length_reverse)]

/-- A capture is the slice of the text between the places where it begins and ends. -/
theorem capture_eq_slice (c : Cursor) (stop : Text → Cursor → Bool) :
    (c.capture stop).2.text = c.text ∧ c.pos ≤ (c.capture stop).2.pos ∧
      (c.capture stop).1 = c.slice c.pos (c.capture stop).2.pos := by
  obtain ⟨hahead, hbehind⟩ := captureFrom_verbatim stop .code .top [] c.behind c.ahead
  rw [← capture] at hahead hbehind
  refine ⟨?_, ?_, ?_⟩
  · rw [text, text, hbehind, ← hahead]
    simp
  · rw [pos, pos, hbehind, List.length_append]
    exact Nat.le_add_left _ _
  · have hplace : c = ⟨c.behind, (c.capture stop).1 ++ (c.capture stop).2.ahead⟩ := by rw [hahead]
    have hpos : (c.capture stop).2.pos = c.behind.length + (c.capture stop).1.length := by
      simp [pos, hbehind, Nat.add_comm]
    have hslice := slice_append c.behind (c.capture stop).1 (c.capture stop).2.ahead
    rw [← hplace] at hslice
    rw [hpos, pos, hslice]

/-- Groups and captures are read verbatim. A group in brackets of any kind is the text up to the
bracket that matches its first one, or all of the text behind its first one if none matches. A
capture is the text between the places where it begins and ends, wherever it is told to stop. -/
theorem groups_and_captures_verbatim :
    (∀ opening close, (opening, close) ∈ groupPairs → ∀ behind ahead : Text,
      (∀ inner rest, ahead = inner ++ close :: rest → IsInside opening close inner →
        readGroup ⟨behind, opening :: ahead⟩ opening close =
          (inner, ⟨close :: (inner.reverse ++ opening :: behind), rest⟩)) ∧
      ((¬ ∃ inner rest, ahead = inner ++ close :: rest ∧ IsInside opening close inner) →
        readGroup ⟨behind, opening :: ahead⟩ opening close =
          (ahead, ⟨ahead.reverse ++ opening :: behind, []⟩))) ∧
    ∀ (c : Cursor) (stop : Text → Cursor → Bool),
      (c.capture stop).2.text = c.text ∧ c.pos ≤ (c.capture stop).2.pos ∧
        (c.capture stop).1 = c.slice c.pos (c.capture stop).2.pos := by
  refine ⟨fun opening close h behind ahead => ⟨?_, ?_⟩, capture_eq_slice⟩
  · rintro inner rest rfl hinner
    exact readGroup_inside h hinner behind rest
  · intro hnone
    exact readGroup_unmatched h hnone behind

/-- Type arguments with an arrow, with brackets of their kind nested, quoted and commented out, and
a body that is not closed. -/
theorem groups_and_captures_verbatim_angle :
    (('<', '>') ∈ groupPairs ∧ IsInside '<' '>' "(e: E<'>'>) => /* > */ R".toList ∧
      readGroup ⟨[], '<' :: ("(e: E<'>'>) => /* > */ R".toList ++ '>' :: " & Y".toList)⟩ '<' '>' =
        ("(e: E<'>'>) => /* > */ R".toList,
          ⟨'>' :: ("(e: E<'>'>) => /* > */ R".toList.reverse ++ ['<']), " & Y".toList⟩)) ∧
    ('{', '}') ∈ groupPairs ∧
      (¬ ∃ inner rest, " a, b".toList = inner ++ '}' :: rest ∧ IsInside '{' '}' inner) ∧
      readGroup ⟨[], '{' :: " a, b".toList⟩ '{' '}' =
        (" a, b".toList, ⟨" a, b".toList.reverse ++ ['{'], []⟩) := by
  have hangle : ('<', '>') ∈ groupPairs := by decide
  have hcurly : ('{', '}') ∈ groupPairs := by decide
  have hinner : IsInside '<' '>' "(e: E<'>'>) => /* > */ R".toList :=
    isInside_iff.mpr ⟨by decide, by decide, fun _ => by decide⟩
  have hopen : ¬ ∃ inner rest, " a, b".toList = inner ++ '}' :: rest ∧ IsInside '{' '}' inner := by
    rintro ⟨inner, rest, hsplit, -⟩
    have hmem : '}' ∈ " a, b".toList := by simp [hsplit]
    exact absurd hmem (by decide)
  exact ⟨⟨hangle, hinner,
      (groups_and_captures_verbatim.1 '<' '>' hangle [] _).1 _ " & Y".toList rfl hinner⟩,
    hcurly, hopen, (groups_and_captures_verbatim.1 '{' '}' hcurly [] " a, b".toList).2 hopen⟩

end Cursor

end ComponentProps
