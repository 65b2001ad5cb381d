import ComponentProps.Proofs.Comments

/-!
# Links

An expression is a chain of links with one more operand at its end. A link is an operand with the
sign behind it and the white space on both sides of the sign; in a noted link there may be a comment
before the sign. A capture that goes on beside a sign passes over links. A split at the signs leaves
their operands, each with the comment behind it.
-/

namespace ComponentProps

open Text

namespace Text

theorem firstVisible?_visible {c : Char} (h : isWhite c = false) (t : Text) :
    firstVisible? (c :: t) = some c := by
  simp [firstVisible?, h]

theorem firstVisible?_blank {g : Text} (hg : isBlank g = true) (t : Text) :
    firstVisible? (g ++ t) = firstVisible? t := by
  have hnone : g.find? (fun c => !isWhite c) = none := by
    rw [List.find?_eq_none]
    intro c hc
    simpa using List.all_eq_true.mp hg c hc
  rw [firstVisible?, List.find?_append, hnone, Option.none_or, firstVisible?]

theorem isBlank_reverse {g : Text} (hg : isBlank g = true) : isBlank g.reverse = true := by
  rwa [isBlank, List.all_reverse]

theorem isBlank_of_append {s t : Text} (h : isBlank (s ++ t) = true) :
    isBlank s = true ∧ isBlank t = true := by
  rwa [isBlank, List.all_append, Bool.and_eq_true] at h

theorem trimmed?_blank_append {g : Text} (hg : isBlank g = true) (t : Text) :
    trimmed? (g ++ t) = trimmed? t := by
  have hstart : trimStart (g ++ t) = trimStart t := by
    rw [trimStart, List.dropWhile_append_of_pos fun c hc => List.all_eq_true.mp hg c hc, trimStart]
  rw [trimmed?, trim, hstart, ← trim, trimmed?]

theorem trimmed?_of_trim {t : Text} (ht : trim t = t) (hne : t ≠ []) : trimmed? t = some t := by
  rw [trimmed?, ht]
  cases t with
  | nil => exact absurd rfl hne
  | cons c t => rfl

end Text

/-- An operand with the sign behind it. -/
structure Link (separators : List Char) where
  operand : Operand
  before : Gap
  sign : Char
  valid : sign ∈ separators
  after : Gap

namespace Link

variable {separators : List Char}

def print (link : Link separators) : Text :=
  link.operand.print ++ (link.before.text ++ link.sign :: link.after.text)

def printAll (links : List (Link separators)) : Text := links.flatMap print

/-- The operands of some links, each with the sign before it. `sign` stands before the first. -/
def operands (sign : Option Char) : List (Link separators) → List (Option Char × Operand)
  | [] => []
  | link :: links => (sign, link.operand) :: operands (some link.sign) links

/-- The sign before what follows some links. -/
def lastSign (sign : Option Char) (links : List (Link separators)) : Option Char :=
  links.foldl (fun _ link => some link.sign) sign

theorem operands_append (sign : Option Char) (front back : List (Link separators)) :
    operands sign (front ++ back) = operands sign front ++ operands (lastSign sign front) back := by
  induction front generalizing sign with
  | nil => rfl
  | cons link front ih =>
      rw [List.cons_append, operands, ih, operands]
      rfl

theorem exists_of_mem_operands {sign : Option Char} {links : List (Link separators)}
    {x : Option Char × Operand} (hx : x ∈ operands sign links) :
    ∃ link ∈ links, link.operand = x.2 := by
  induction links generalizing sign with
  | nil => simp [operands] at hx
  | cons link links ih =>
      rcases List.mem_cons.mp hx with rfl | hx
      · exact ⟨link, List.mem_cons_self, rfl⟩
      · obtain ⟨found, hfound, hoperand⟩ := ih hx
        exact ⟨found, List.mem_cons_of_mem _ hfound, hoperand⟩

end Link

/-- A link with perhaps a comment before its sign. -/
structure NotedLink (separators : List Char) extends Link separators where
  comment : Option Comment
  /-- The white space behind the comment. -/
  gap : Gap

/-- A link without a comment. -/
def Link.noted {separators : List Char} (link : Link separators) : NotedLink separators :=
  { link with comment := none, gap := ⟨[], rfl⟩ }

namespace NotedLink

variable {separators : List Char}

/-- The text between the operand and the sign. -/
def pad (x : NotedLink separators) : Text :=
  x.before.text ++ (x.comment.elim [] Comment.text ++ x.gap.text)

def print (x : NotedLink separators) : Text :=
  x.operand.print ++ (x.pad ++ x.sign :: x.after.text)

def printAll (links : List (NotedLink separators)) : Text := links.flatMap print

/-- The operand with the comment behind it. -/
def part (x : NotedLink separators) : Text := x.operand.print ++ trimEnd x.pad

theorem pad_noted (link : Link separators) : link.noted.pad = link.before.text := by
  simp [pad, Link.noted]

theorem print_noted (link : Link separators) : link.noted.print = link.print := by
  rw [print, pad_noted]
  rfl

theorem printAll_noted (links : List (Link separators)) :
    printAll (links.map Link.noted) = Link.printAll links := by
  rw [printAll, List.flatMap_map, Link.printAll]
  exact congrArg (links.flatMap ·) (funext print_noted)

theorem map_toLink_noted (links : List (Link separators)) :
    (links.map Link.noted).map (·.toLink) = links := by
  rw [List.map_map]
  exact List.map_id links

theorem isBlank_pad {x : NotedLink separators} (h : x.comment = none) : isBlank x.pad = true := by
  rw [pad, h, isBlank, List.all_append, Bool.and_eq_true]
  exact ⟨x.before.blank, x.gap.blank⟩

theorem part_of_comment_none {x : NotedLink separators} (h : x.comment = none) :
    x.part = x.operand.print := by
  have hend : trimEnd x.pad = [] := trimEnd_append_blank [] (isBlank_pad h)
  rw [part, hend, List.append_nil]

theorem map_part_noted (links : List (Link separators)) :
    (links.map Link.noted).map part = links.map (·.operand.print) := by
  rw [List.map_map]
  exact List.map_congr_left fun link _ => part_of_comment_none rfl

theorem printAll_cons_append (x : NotedLink separators) (links : List (NotedLink separators))
    (t : Text) : printAll (x :: links) ++ t =
      x.operand.print ++ (x.pad ++ x.sign :: (x.after.text ++ (printAll links ++ t))) := by
  simp [printAll, print]

/-- What stands on the left of what follows a link. -/
theorem firstVisible?_reverse_print (x : NotedLink separators)
    (hsep : ∀ c ∈ separators, IsSeparator c) (t : Text) :
    firstVisible? (x.print.reverse ++ t) = some x.sign := by
  have hprint : x.print.reverse ++ t = x.after.text.reverse ++ x.sign ::
      (x.pad.reverse ++ (x.operand.print.reverse ++ t)) := by
    simp [print]
  rw [hprint, firstVisible?_blank (isBlank_reverse x.after.blank),
    firstVisible?_visible (hsep _ x.valid).2.2]

theorem firstVisible?_reverse_printAll (hsep : ∀ c ∈ separators, IsSeparator c)
    (links : List (NotedLink separators)) {t : Text} {sign : Option Char}
    (ht : firstVisible? t = sign) :
    firstVisible? ((printAll links).reverse ++ t) =
      Link.lastSign sign (links.map (·.toLink)) := by
  induction links generalizing sign t with
  | nil => exact ht
  | cons x links ih =>
      have hprint : (printAll (x :: links)).reverse ++ t =
          (printAll links).reverse ++ (x.print.reverse ++ t) := by
        simp [printAll]
      rw [hprint, ih (firstVisible?_reverse_print x hsep t)]
      rfl

/-! ### Captures -/

/-- A capture that goes on at operands, at the given signs and at a line feed beside such a sign. -/
structure IsPassedBy (separators : List Char) (stop : Text → Cursor → Bool) : Prop where
  plain : ∀ taken behind c rest, c ∉ delimiters → stop taken ⟨behind, c :: rest⟩ = false
  line : ∀ taken behind rest, ∀ sign ∈ separators,
    firstVisible? taken = some sign ∨ firstVisible? rest = some sign →
      stop taken ⟨behind, '\n' :: rest⟩ = false

/-- Between the operand and its comment there is no line feed. -/
def IsTied (x : NotedLink separators) : Prop := x.comment ≠ none → '\n' ∉ x.before.text

theorem isTied_noted (links : List (Link separators)) :
    ∀ x ∈ links.map Link.noted, x.IsTied := by
  intro x hx
  obtain ⟨link, -, rfl⟩ := List.mem_map.mp hx
  exact fun hcomment => absurd rfl hcomment

/-- The capture does not stop at a line feed between the operand and its comment. -/
def IsJoined (stop : Text → Cursor → Bool) (x : NotedLink separators) : Prop :=
  x.comment ≠ none → '\n' ∈ x.before.text →
    ∀ taken behind rest, stop taken ⟨behind, '\n' :: rest⟩ = false

theorem IsTied.isJoined {x : NotedLink separators} (h : x.IsTied) (stop : Text → Cursor → Bool) :
    x.IsJoined stop :=
  fun hsome hfeed => absurd hfeed (h hsome)

variable {stop : Text → Cursor → Bool} {taken behind : Text}

open Cursor

theorem capture_before (hstop : IsPassedBy separators stop) {g rest : Text} {sign : Char}
    (hsign : sign ∈ separators) (hg : isBlank g = true) (hrest : firstVisible? rest = some sign) :
    captureFrom stop .code .top taken behind (g ++ rest) =
      inFront g (captureFrom stop .code .top (g.reverse ++ taken) (g.reverse ++ behind) rest) := by
  refine captureFrom_blank hstop.plain hg fun front back hsplit behind => ?_
  refine hstop.line _ _ _ sign hsign (Or.inr ?_)
  rw [hsplit] at hg
  have hback : isBlank back = true := (isBlank_of_append (s := ['\n']) (isBlank_of_append hg).2).2
  rw [firstVisible?_blank hback, hrest]

theorem capture_after (hstop : IsPassedBy separators stop) {g rest : Text} {sign : Char}
    (hsign : sign ∈ separators) (hg : isBlank g = true) (htaken : firstVisible? taken = some sign) :
    captureFrom stop .code .top taken behind (g ++ rest) =
      inFront g (captureFrom stop .code .top (g.reverse ++ taken) (g.reverse ++ behind) rest) := by
  refine captureFrom_blank hstop.plain hg fun front back hsplit behind => ?_
  refine hstop.line _ _ _ sign hsign (Or.inl ?_)
  rw [hsplit] at hg
  rw [firstVisible?_blank (isBlank_reverse (isBlank_of_append hg).1), htaken]

theorem capture_pad (hstop : IsPassedBy separators stop) {x : NotedLink separators}
    (hx : x.IsJoined stop) {rest : Text} (hrest : firstVisible? rest = some x.sign) :
    captureFrom stop .code .top taken behind (x.pad ++ rest) =
      inFront x.pad (captureFrom stop .code .top (x.pad.reverse ++ taken) (x.pad.reverse ++ behind)
        rest) := by
  cases hcomment : x.comment with
  | none => exact capture_before hstop x.valid (isBlank_pad hcomment) hrest
  | some c =>
      have hline : ∀ front back, x.before.text = front ++ '\n' :: back → ∀ behind,
          stop (front.reverse ++ taken) ⟨behind, '\n' :: (back ++ (c.text ++ (x.gap.text ++ rest)))⟩ =
            false := by
        intro front back hsplit behind
        exact hx (by simp [hcomment]) (by simp [hsplit]) _ _ _
      have hfeed : c.feed ≠ [] → ∀ taken behind,
          stop taken ⟨behind, '\n' :: (x.gap.text ++ rest)⟩ = false := by
        intro _ taken behind
        refine hstop.line _ _ _ x.sign x.valid (Or.inr ?_)
        rw [firstVisible?_blank x.gap.blank, hrest]
      have hpad : x.pad = x.before.text ++ (c.text ++ x.gap.text) := by simp [pad, hcomment]
      rw [hpad, List.append_assoc, List.append_assoc,
        captureFrom_blank hstop.plain x.before.blank hline, captureFrom_comment c hfeed,
        capture_before hstop x.valid x.gap.blank hrest]
      simp only [← inFront_append]
      simp

theorem capture_sign (hsep : ∀ c ∈ separators, IsSeparator c ∧ c ∉ delimiters)
    (hstop : IsPassedBy separators stop) {sign : Char} (hsign : sign ∈ separators) {rest : Text} :
    captureFrom stop .code .top taken behind (sign :: rest) =
      inFront [sign] (captureFrom stop .code .top (sign :: taken) (sign :: behind) rest) :=
  captureFrom_flat (hsep sign hsign).1.1 (hstop.plain _ _ _ _ (hsep sign hsign).2)

/-- A capture passes over links, unless it stops at the bracket of a body. -/
theorem capture_printAll (hsep : ∀ c ∈ separators, IsSeparator c ∧ c ∉ delimiters)
    (hstop : IsPassedBy separators stop) {links : List (NotedLink separators)}
    (hjoined : ∀ x ∈ links, x.IsJoined stop) {sign : Option Char}
    (htaken : firstVisible? taken = sign)
    (hbody : ∀ x ∈ Link.operands sign (links.map (·.toLink)), x.2.isBody = true →
      ∀ taken behind rest, firstVisible? taken = x.1 → stop taken ⟨behind, '{' :: rest⟩ = false)
    (rest : Text) :
    captureFrom stop .code .top taken behind (printAll links ++ rest) =
      inFront (printAll links) (captureFrom stop .code .top ((printAll links).reverse ++ taken)
        ((printAll links).reverse ++ behind) rest) := by
  induction links generalizing taken behind sign with
  | nil => rfl
  | cons x links ih =>
      rw [List.map_cons, Link.operands, List.forall_mem_cons] at hbody
      rw [List.forall_mem_cons] at hjoined
      have hvisible : isWhite x.sign = false := (hsep _ x.valid).1.2.2
      have hoperand := hbody.1
      have hnext := firstVisible?_reverse_print x (fun c hc => (hsep c hc).1) taken
      have hsplit : x.print.reverse ++ taken = x.after.text.reverse ++ x.sign ::
          (x.pad.reverse ++ (x.operand.print.reverse ++ taken)) := by
        simp [print]
      rw [printAll_cons_append,
        captureFrom_operand hstop.plain x.operand fun h rest => hoperand h _ _ rest htaken,
        capture_pad hstop hjoined.1 (firstVisible?_visible hvisible _),
        capture_sign hsep hstop x.valid,
        capture_after hstop x.valid x.after.blank (firstVisible?_visible hvisible _),
        ← hsplit, ih hjoined.2 hnext hbody.2]
      simp only [← inFront_append]
      simp [printAll, print]

theorem skipTrivia_pad (x : NotedLink separators) (behind rest : Text) :
    skipTrivia ⟨behind, x.pad ++ rest⟩ = skipTrivia ⟨x.pad.reverse ++ behind, rest⟩ := by
  cases hcomment : x.comment with
  | none => exact skipTrivia_blank (isBlank_pad hcomment) behind rest
  | some c =>
      have hpad : x.pad = x.before.text ++ (c.text ++ x.gap.text) := by simp [pad, hcomment]
      rw [hpad, List.append_assoc, List.append_assoc, skipTrivia_blank x.before.blank,
        skipTrivia_comment, skipTrivia_blank x.gap.blank]
      simp

/-! ### Parts -/

theorem isUncut_pad (hsep : ∀ c ∈ separators, IsSeparator c) (x : NotedLink separators) :
    IsUncut separators x.pad := by
  have hcomment : IsUncut separators (x.comment.elim [] Comment.text) := by
    cases x.comment with
    | none => exact fun _ _ => rfl
    | some c => exact isUncut_comment hsep c
  exact (isUncut_blank hsep x.before.blank).append
    (hcomment.append (isUncut_blank hsep x.gap.blank))

theorem trimmed?_part (x : NotedLink separators) :
    trimmed? (x.operand.print ++ x.pad) = some x.part := by
  obtain ⟨c, more, hprint, -, hvisible, -⟩ := x.operand.exists_first
  have htrim : trim (x.operand.print ++ x.pad) = x.part := by
    have hstart : trimStart (x.operand.print ++ x.pad) = x.operand.print ++ x.pad := by
      simp [hprint, trimStart, hvisible]
    have hself : trimEnd x.operand.print = x.operand.print := by
      rw [← x.operand.trim_print, trimEnd_trim]
    rw [trim, hstart, trimEnd_append, hself, part]
    split
    · rename_i hend
      rw [hend, List.append_nil]
    · rfl
  have hcons : x.part = c :: (more ++ trimEnd x.pad) := by rw [part, hprint, List.cons_append]
  rw [trimmed?, htrim, hcons]

/-- A split at the signs leaves the parts of links. Behind the last sign there may be white space. -/
theorem partsFrom_printAll (hsep : ∀ c ∈ separators, IsSeparator c)
    (links : List (NotedLink separators)) {g : Text} (hg : isBlank g = true) (behind : Text) :
    ∃ behind' g', isBlank g' = true ∧ ∀ t,
      partsFrom separators behind (g ++ (printAll links ++ t)) =
        links.map part ++ partsFrom separators behind' (g' ++ t) := by
  induction links generalizing g behind with
  | nil => exact ⟨behind, g, hg, fun t => rfl⟩
  | cons x links ih =>
      have huncut : IsUncut separators (g ++ (x.operand.print ++ x.pad)) :=
        (isUncut_blank hsep hg).append ((isUncut_operand hsep x.operand).append (isUncut_pad hsep x))
      have htrimmed : trimmed? (g ++ (x.operand.print ++ x.pad)) = some x.part := by
        rw [trimmed?_blank_append hg, trimmed?_part]
      obtain ⟨behind', g', hg', hparts⟩ := ih x.after.blank
        (x.sign :: ((g ++ (x.operand.print ++ x.pad)).reverse ++ behind))
      refine ⟨behind', g', hg', fun t => ?_⟩
      have hsplit : g ++ (printAll (x :: links) ++ t) =
          (g ++ (x.operand.print ++ x.pad)) ++ x.sign ::
            (x.after.text ++ (printAll links ++ t)) := by
        rw [printAll_cons_append]
        simp
      rw [hsplit, partsFrom_separator hsep huncut x.valid, htrimmed, hparts]
      rfl

/-- The parts of a whole expression. -/
theorem topLevelParts_printAll (hsep : ∀ c ∈ separators, IsSeparator c)
    (links : List (NotedLink separators)) {g : Text} (hg : isBlank g = true) {t : Text}
    (ht : IsUncut separators t) :
    topLevelParts separators (g ++ (printAll links ++ t)) =
      links.map part ++ (trimmed? t).toList := by
  obtain ⟨behind, g', hg', hparts⟩ := partsFrom_printAll hsep links hg []
  rw [topLevelParts_eq, hparts, partsFrom_uncut ((isUncut_blank hsep hg').append ht),
    trimmed?_blank_append hg']

end NotedLink

end ComponentProps
