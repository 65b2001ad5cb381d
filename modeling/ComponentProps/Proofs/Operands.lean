import ComponentProps.Proofs.Layout
import ComponentProps.Proofs.Surroundings

/-!
# Operands

An annotation, the right side of an alias and an `extends` clause consist of operands with signs
between them. An operand is a name, a name with type arguments or a body; what stands in its
brackets keeps to itself. A capture that does not stop at a sign passes over operands, and a split
at the signs gives them back, however the signs are spaced.
-/

namespace ComponentProps

open Text

/-! ### Enclosed text -/

namespace Nesting

/-- The nesting after a bracket, or nothing if the bracket closes one that is not open. -/
def track? (n : Nesting) : Bracket → Option Nesting
  | .closing => if n.depth = 0 then none else some (n.track .closing)
  | .angleClosing => if n.angle = 0 then none else some (n.track .angleClosing)
  | b => some (n.track b)

/-- The nesting after a text read behind the characters `behind`, or nothing if it closes a bracket
that is not open. -/
def after? (n : Nesting) (region : Region) (behind : Text) : Text → Option Nesting
  | [] => some n
  | c :: rest =>
    match region.read behind c rest with
    | (.code, region') =>
      match Bracket.of? behind c with
      | some b => (n.track? b).bind fun m => after? m region' (c :: behind) rest
      | none => after? n region' (c :: behind) rest
    | (_, region') => after? n region' (c :: behind) rest

/-- The nesting `n` within the nesting `base`. -/
def within (n base : Nesting) : Nesting := ⟨n.depth + base.depth, n.angle + base.angle⟩

theorem top_within (base : Nesting) : top.within base = base := by
  simp [within, top]

theorem isTop_within {base : Nesting} (h : base.isTop = false) (n : Nesting) :
    (n.within base).isTop = false := by
  simp only [isTop, within, Bool.and_eq_false_iff, beq_eq_false_iff_ne] at h ⊢
  omega

theorem track_within {n m : Nesting} {b : Bracket} (h : n.track? b = some m) (base : Nesting) :
    (n.within base).track b = m.within base := by
  obtain ⟨depth, angle⟩ := n
  cases b with
  | opening | angleOpening =>
      obtain rfl := Option.some.inj h
      simp only [track, within, mk.injEq, true_and, and_true]
      omega
  | closing | angleClosing =>
      simp only [track?] at h
      split at h
      · contradiction
      · obtain rfl := Option.some.inj h
        simp only [track, within, mk.injEq, true_and, and_true]
        omega

/-- A bracket that closes an open one is no stop for a capture. -/
theorem depth_within_of_closing {n m : Nesting} (h : n.track? .closing = some m) (base : Nesting) :
    (n.within base).depth ≠ 0 := by
  simp only [track?] at h
  split at h
  · contradiction
  · simp only [within]
    omega

theorem after?_alike {b b' : Text} (h : LooksAlike b b') (n : Nesting) (region : Region)
    (front t : Text) : n.after? region (front ++ b) t = n.after? region (front ++ b') t := by
  induction t generalizing n region front with
  | nil => rfl
  | cons c t ih =>
      have hnext : ∀ n region, after? n region (c :: (front ++ b)) t =
          after? n region (c :: (front ++ b')) t := fun n region => ih n region (c :: front)
      simp only [after?, h.read, h.bracket, hnext]

end Nesting

/-- A text that keeps to the brackets it stands in: its literals and comments end in it, and it
closes exactly the brackets that it opens. -/
structure IsEnclosed (t : Text) : Prop where
  closed : Region.code.after [] t = .code
  nested : Nesting.top.after? .code [] t = some .top
  curly : depthAfter? '{' '}' 0 (Region.code.roles [] t) = some 0

/-- Behind its opening bracket an enclosed text is read as it is read alone. -/
theorem IsEnclosed.behind {t : Text} (ht : IsEnclosed t) {opening : Char} (hopen : IsSign opening)
    (hne : opening ≠ '=') (b : Text) :
    Region.code.after (opening :: b) t = .code ∧
      Nesting.top.after? .code (opening :: b) t = some .top := by
  constructor
  · exact (Region.after_behind (signFirst_cons b hopen).not_escape .code [] t).trans ht.closed
  · exact (Nesting.after?_alike (looksAlike_sign hopen hne b) .top .code [] t).trans ht.nested

/-- The bracket behind type arguments closes them, unless it is that of an arrow. -/
theorem bracket_of_close_angle {t : Text} (h : t.getLast? ≠ some '=') (front : Text) :
    Bracket.of? (('<' :: t).reverse ++ front) '>' = some .angleClosing := by
  have hhead : (('<' :: t).reverse ++ front).head? ≠ some '=' := by
    rw [List.reverse_cons, List.append_assoc]
    exact head?_reverse_append_ne h (by simp)
  generalize ('<' :: t).reverse ++ front = behind at hhead ⊢
  simp [Bracket.of?, hhead]

/-! ### Captures and pieces, character by character -/

namespace Cursor

variable {stop : Text → Cursor → Bool} {region : Region} {nesting : Nesting}
  {taken behind rest t : Text} {c : Char}

theorem captureFrom_code {region' : Region} (hread : region.read behind c rest = (.code, region'))
    (hstop : nesting.isTop = true → stop taken ⟨behind, c :: rest⟩ = false)
    (hclose : Bracket.of? behind c = some .closing → nesting.depth ≠ 0) :
    captureFrom stop region nesting taken behind (c :: rest) =
      inFront [c] (captureFrom stop region' (nesting.trackChar behind c) (c :: taken) (c :: behind)
        rest) := by
  have hgo : ¬ (nesting.isTop && stop taken ⟨behind, c :: rest⟩) = true := by
    rw [Bool.and_eq_true]
    rintro ⟨htop, hstops⟩
    rw [hstop htop] at hstops
    contradiction
  have hinside : ¬ (nesting.depth == 0 && Bracket.of? behind c == some .closing) = true := by
    rw [Bool.and_eq_true, beq_iff_eq, beq_iff_eq]
    rintro ⟨hdepth, hclosing⟩
    exact hclose hclosing hdepth
  rw [captureFrom, hread]
  dsimp only
  rw [if_neg hgo, if_neg hinside]
  rfl

theorem captureFrom_inert {role : Role} {region' : Region}
    (hread : region.read behind c rest = (role, region')) (hrole : role ≠ .code) :
    captureFrom stop region nesting taken behind (c :: rest) =
      inFront [c] (captureFrom stop region' nesting (c :: taken) (c :: behind) rest) := by
  rw [captureFrom, hread]
  cases role with
  | code => exact absurd rfl hrole
  | literal => rfl
  | comment => rfl

/-- Within brackets a capture passes over an enclosed text. -/
theorem captureFrom_inside {base : Nesting} (hbase : base.isTop = false) (hr : EndsSlash rest)
    {n m : Nesting} (h : n.after? region behind t = some m) :
    captureFrom stop region (n.within base) taken behind (t ++ rest) =
      inFront t (captureFrom stop (region.after behind t) (m.within base) (t.reverse ++ taken)
        (t.reverse ++ behind) rest) := by
  induction t generalizing n region taken behind with
  | nil =>
      obtain rfl := Option.some.inj h
      rfl
  | cons c t ih =>
      obtain ⟨role, region', hread⟩ : ∃ role region', region.read behind c t = (role, region') :=
        ⟨_, _, rfl⟩
      have hcontext : region.read behind c (t ++ rest) = (role, region') := by
        rw [Region.read_before hr, hread]
      have hpass : ∀ {n' : Nesting}, n'.after? region' (c :: behind) t = some m →
          inFront [c] (captureFrom stop region' (n'.within base) (c :: taken) (c :: behind)
            (t ++ rest)) =
          inFront (c :: t) (captureFrom stop (region.after behind (c :: t)) (m.within base)
            ((c :: t).reverse ++ taken) ((c :: t).reverse ++ behind) rest) := by
        intro n' hafter
        rw [ih hafter, ← inFront_append]
        simp [Region.after, hread]
      simp only [Nesting.after?, hread] at h
      rw [List.cons_append]
      by_cases hrole : role = .code
      · subst hrole
        dsimp only at h
        have htop : (n.within base).isTop = true → stop taken ⟨behind, c :: (t ++ rest)⟩ = false := by
          rw [Nesting.isTop_within hbase]
          exact fun hno => absurd hno (by decide)
        cases hbracket : Bracket.of? behind c with
        | none =>
            rw [hbracket] at h
            rw [captureFrom_code hcontext htop (by simp [hbracket]), Nesting.trackChar, hbracket]
            exact hpass h
        | some b =>
            rw [hbracket] at h
            obtain ⟨n', htrack, hafter⟩ := Option.bind_eq_some_iff.mp h
            have hopen : Bracket.of? behind c = some .closing → (n.within base).depth ≠ 0 := by
              intro hclosing
              rw [hbracket, Option.some.injEq] at hclosing
              subst hclosing
              exact Nesting.depth_within_of_closing htrack base
            rw [captureFrom_code hcontext htop hopen, Nesting.trackChar, hbracket]
            dsimp only
            rw [Nesting.track_within htrack]
            exact hpass hafter
      · have hafter : n.after? region' (c :: behind) t = some m := by
          cases role with
          | code => exact absurd rfl hrole
          | literal => exact h
          | comment => exact h
        rw [captureFrom_inert hcontext hrole]
        exact hpass hafter

/-- Outside brackets a capture passes over a character that it does not stop at. -/
theorem captureFrom_flat (hc : IsFlat c) (hgo : stop taken ⟨behind, c :: rest⟩ = false) :
    captureFrom stop .code .top taken behind (c :: rest) =
      inFront [c] (captureFrom stop .code .top (c :: taken) (c :: behind) rest) := by
  have hbracket := bracket_of_not_mem hc.2 behind
  rw [captureFrom_code (Region.read_plain hc.1 behind rest) (fun _ => hgo) (by simp [hbracket]),
    Nesting.trackChar, hbracket]

theorem captureFrom_stop (hc : IsPlain c) (hstop : stop taken ⟨behind, c :: rest⟩ = true) :
    captureFrom stop .code .top taken behind (c :: rest) = ([], ⟨behind, c :: rest⟩) := by
  have htop : Nesting.top.isTop = true := rfl
  simp only [captureFrom, Region.read_plain hc, htop, hstop, Bool.and_self, if_true]

/-- A capture passes over a group if it does not stop at its opening bracket. -/
theorem captureFrom_group {opening close : Char} (hopen : IsSign opening) (hne : opening ≠ '=')
    (hclose : IsSign close) {b b' : Bracket} (hb : Bracket.of? behind opening = some b)
    (hb' : ∀ front, Bracket.of? ((opening :: t).reverse ++ front) close = some b')
    (htrack : (Nesting.top.track b).isTop = false ∧ (Nesting.top.track b).track b' = .top)
    (hopening : b ≠ .closing) (hclosing : b' = .closing → (Nesting.top.track b).depth ≠ 0)
    (ht : IsEnclosed t) (hgo : stop taken ⟨behind, opening :: (t ++ close :: rest)⟩ = false) :
    captureFrom stop .code .top taken behind (opening :: (t ++ close :: rest)) =
      inFront (opening :: (t ++ [close])) (captureFrom stop .code .top
        (close :: (t.reverse ++ opening :: taken)) (close :: (t.reverse ++ opening :: behind))
          rest) := by
  obtain ⟨hafter, hnested⟩ := ht.behind hopen hne behind
  have hend : Bracket.of? (t.reverse ++ opening :: behind) close = some b' := by
    simpa using hb' behind
  have hfirst : captureFrom stop .code .top taken behind (opening :: (t ++ close :: rest)) =
      inFront [opening] (captureFrom stop .code (Nesting.top.track b) (opening :: taken)
        (opening :: behind) (t ++ close :: rest)) := by
    rw [captureFrom_code (Region.read_plain hopen.1 _ _) (fun _ => hgo), Nesting.trackChar, hb]
    intro hno
    rw [hb, Option.some.injEq] at hno
    exact absurd hno hopening
  have hbase := Nesting.top_within (Nesting.top.track b)
  rw [hfirst, ← hbase,
    captureFrom_inside htrack.1 (signFirst_cons rest hclose).endsSlash hnested, hbase, hafter,
    captureFrom_code (Region.read_plain hclose.1 _ _), Nesting.trackChar, hend]
  · dsimp only
    rw [htrack.2, ← inFront_append, ← inFront_append]
    simp
  · rw [htrack.1]
    exact fun hno => absurd hno (by decide)
  · rw [hend, Option.some.injEq]
    exact hclosing

theorem captureFrom_curly (ht : IsEnclosed t)
    (hgo : stop taken ⟨behind, '{' :: (t ++ '}' :: rest)⟩ = false) :
    captureFrom stop .code .top taken behind ('{' :: (t ++ '}' :: rest)) =
      inFront ('{' :: (t ++ ['}'])) (captureFrom stop .code .top ('}' :: (t.reverse ++ '{' :: taken))
        ('}' :: (t.reverse ++ '{' :: behind)) rest) :=
  captureFrom_group (by decide) (by decide) (by decide) rfl (fun _ => rfl) (by decide) (by decide)
    (by decide) ht hgo

theorem captureFrom_angles (ht : IsEnclosed t) (hlast : t.getLast? ≠ some '=')
    (hgo : stop taken ⟨behind, '<' :: (t ++ '>' :: rest)⟩ = false) :
    captureFrom stop .code .top taken behind ('<' :: (t ++ '>' :: rest)) =
      inFront ('<' :: (t ++ ['>'])) (captureFrom stop .code .top ('>' :: (t.reverse ++ '<' :: taken))
        ('>' :: (t.reverse ++ '<' :: behind)) rest) :=
  captureFrom_group (by decide) (by decide) (by decide) rfl (bracket_of_close_angle hlast)
    (by decide) (by decide) (by decide) ht hgo

end Cursor

namespace Text

/-- Text put in front of the first part. -/
def inFirst (t : Text) (parts : List Text) : List Text := t.foldr consFirst parts

theorem inFirst_append (s t : Text) (parts : List Text) :
    inFirst (s ++ t) parts = inFirst s (inFirst t parts) := by
  simp [inFirst]

theorem inFirst_cons (t part : Text) (parts : List Text) :
    inFirst t (part :: parts) = (t ++ part) :: parts := by
  induction t with
  | nil => rfl
  | cons c t ih =>
      rw [inFirst, List.foldr_cons, ← inFirst, ih]
      rfl

variable {separators : List Char} {region : Region} {behind rest t : Text} {c : Char}

/-- Within brackets a text is not cut. -/
theorem piecesFrom_inside {base : Nesting} (hbase : base.isTop = false) (hr : EndsSlash rest)
    {n m : Nesting} (h : n.after? region behind t = some m) :
    piecesFrom separators region (n.within base) behind (t ++ rest) =
      inFirst t (piecesFrom separators (region.after behind t) (m.within base)
        (t.reverse ++ behind) rest) := by
  induction t generalizing n region behind with
  | nil =>
      obtain rfl := Option.some.inj h
      rfl
  | cons c t ih =>
      obtain ⟨role, region', hread⟩ : ∃ role region', region.read behind c t = (role, region') :=
        ⟨_, _, rfl⟩
      have hcontext : region.read behind c (t ++ rest) = (role, region') := by
        rw [Region.read_before hr, hread]
      have hpass : ∀ {n' : Nesting}, n'.after? region' (c :: behind) t = some m →
          consFirst c (piecesFrom separators region' (n'.within base) (c :: behind) (t ++ rest)) =
          inFirst (c :: t) (piecesFrom separators (region.after behind (c :: t)) (m.within base)
            ((c :: t).reverse ++ behind) rest) := by
        intro n' hafter
        rw [ih hafter, inFirst, inFirst, List.foldr_cons]
        simp [Region.after, hread]
      simp only [Nesting.after?, hread] at h
      rw [List.cons_append, piecesFrom, hcontext]
      cases role with
      | literal => exact hpass h
      | comment => exact hpass h
      | code =>
          dsimp only at h ⊢
          cases hbracket : Bracket.of? behind c with
          | none =>
              rw [hbracket] at h
              simp only [Nesting.isTop_within hbase, Bool.false_and, Bool.false_eq_true, if_false]
              exact hpass h
          | some b =>
              rw [hbracket] at h
              obtain ⟨n', htrack, hafter⟩ := Option.bind_eq_some_iff.mp h
              dsimp only
              rw [Nesting.track_within htrack]
              exact hpass hafter

theorem piecesFrom_flat_cons (hc : IsFlat c) (hno : separators.contains c = false) :
    piecesFrom separators .code .top behind (c :: rest) =
      inFirst [c] (piecesFrom separators .code .top (c :: behind) rest) := by
  rw [piecesFrom, Region.read_plain hc.1, bracket_of_not_mem hc.2]
  simp only [hno, Bool.and_false, Bool.false_eq_true, if_false]
  rfl

theorem piecesFrom_separator (hc : IsFlat c) (hsep : separators.contains c = true) :
    piecesFrom separators .code .top behind (c :: rest) =
      [] :: piecesFrom separators .code .top (c :: behind) rest := by
  have htop : Nesting.top.isTop = true := rfl
  rw [piecesFrom, Region.read_plain hc.1, bracket_of_not_mem hc.2]
  simp only [hsep, htop, Bool.and_self, if_true]

/-- A group is not cut. -/
theorem piecesFrom_group {opening close : Char} (hopen : IsSign opening) (hne : opening ≠ '=')
    (hclose : IsSign close) {b b' : Bracket} (hb : Bracket.of? behind opening = some b)
    (hb' : ∀ front, Bracket.of? ((opening :: t).reverse ++ front) close = some b')
    (htrack : (Nesting.top.track b).isTop = false ∧ (Nesting.top.track b).track b' = .top)
    (ht : IsEnclosed t) :
    piecesFrom separators .code .top behind (opening :: (t ++ close :: rest)) =
      inFirst (opening :: (t ++ [close])) (piecesFrom separators .code .top
        (close :: (t.reverse ++ opening :: behind)) rest) := by
  obtain ⟨hafter, hnested⟩ := ht.behind hopen hne behind
  have hend : Bracket.of? (t.reverse ++ opening :: behind) close = some b' := by
    simpa using hb' behind
  have hbase := Nesting.top_within (Nesting.top.track b)
  rw [piecesFrom, Region.read_plain hopen.1, hb]
  dsimp only
  rw [← hbase, piecesFrom_inside htrack.1 (signFirst_cons rest hclose).endsSlash hnested, hbase,
    hafter, piecesFrom, Region.read_plain hclose.1, hend]
  dsimp only
  rw [htrack.2]
  simp [inFirst]

theorem piecesFrom_curly (ht : IsEnclosed t) :
    piecesFrom separators .code .top behind ('{' :: (t ++ '}' :: rest)) =
      inFirst ('{' :: (t ++ ['}'])) (piecesFrom separators .code .top
        ('}' :: (t.reverse ++ '{' :: behind)) rest) :=
  piecesFrom_group (by decide) (by decide) (by decide) rfl (fun _ => rfl) (by decide) ht

theorem piecesFrom_angles (ht : IsEnclosed t) (hlast : t.getLast? ≠ some '=') :
    piecesFrom separators .code .top behind ('<' :: (t ++ '>' :: rest)) =
      inFirst ('<' :: (t ++ ['>'])) (piecesFrom separators .code .top
        ('>' :: (t.reverse ++ '<' :: behind)) rest) :=
  piecesFrom_group (by decide) (by decide) (by decide) rfl (bracket_of_close_angle hlast)
    (by decide) ht

end Text

/-! ### Operands and gaps -/

/-- White space between the tokens of an expression. -/
structure Gap where
  text : Text
  blank : isBlank text = true

/-- A type that an expression is composed of, as it is written. -/
inductive Operand
  | name (n : Identifier)
  /-- A name with its type arguments. The bracket behind them is not that of an arrow. -/
  | applied (n : Identifier) (arguments : Text) (valid : IsEnclosed arguments)
      (last : arguments.getLast? ≠ some '=')
  /-- A body, given without its curly brackets. -/
  | body (inner : Text) (valid : IsEnclosed inner)

namespace Operand

def print : Operand → Text
  | .name n => n.text
  | .applied n arguments _ _ => n.text ++ '<' :: (arguments ++ ['>'])
  | .body inner _ => '{' :: (inner ++ ['}'])

def isBody : Operand → Bool
  | .body .. => true
  | _ => false

theorem exists_first (p : Operand) :
    ∃ c rest, p.print = c :: rest ∧ IsPlain c ∧ isWhite c = false ∧
      (p.isBody = true ∧ c = '{' ∨ isIdentChar c = true) := by
  have hname : ∀ n : Identifier, ∃ c rest, n.text = c :: rest ∧ isIdentChar c = true := by
    intro n
    obtain ⟨c, rest, htext, hstart, -⟩ := n.exists_cons
    exact ⟨c, rest, htext, isIdentChar_of_isIdentStart hstart⟩
  cases p with
  | body inner valid => exact ⟨'{', inner ++ ['}'], rfl, by decide, by decide, Or.inl ⟨rfl, rfl⟩⟩
  | name n =>
      obtain ⟨c, rest, htext, hc⟩ := hname n
      exact ⟨c, rest, htext, isPlain_of_isIdentChar hc, not_isWhite_of_isIdentChar hc, Or.inr hc⟩
  | applied n arguments valid last =>
      obtain ⟨c, rest, htext, hc⟩ := hname n
      exact ⟨c, rest ++ '<' :: (arguments ++ ['>']), by simp [print, htext],
        isPlain_of_isIdentChar hc, not_isWhite_of_isIdentChar hc, Or.inr hc⟩

/-- An operand ends in a character that ends the expression. -/
theorem exists_last (p : Operand) :
    ∃ front c, p.print = front ++ [c] ∧ isWhite c = false ∧
      (isIdentChar c = true ∨ c = '}' ∨ c = '>' ∧ ∃ d, front.getLast? = some d ∧ d ≠ '=') := by
  cases p with
  | body inner valid => exact ⟨'{' :: inner, '}', by simp [print], by decide, Or.inr (Or.inl rfl)⟩
  | name n =>
      obtain ⟨front, c, htext⟩ := List.eq_nil_or_concat n.text |>.resolve_left n.ne_nil
      have hc : isIdentChar c = true := n.isIdentChar_of_mem (by simp [htext])
      exact ⟨front, c, by simp [print, htext], not_isWhite_of_isIdentChar hc, Or.inl hc⟩
  | applied n arguments valid last =>
      refine ⟨n.text ++ '<' :: arguments, '>', by simp [print], by decide,
        Or.inr (Or.inr ⟨rfl, arguments.getLast?.getD '<', ?_, ?_⟩)⟩
      · simp [List.getLast?_append, List.getLast?_cons]
      · cases hlast : arguments.getLast? with
        | none => decide
        | some d => simpa [hlast] using last

theorem print_ne_nil (p : Operand) : p.print ≠ [] := by
  obtain ⟨c, rest, hprint, -⟩ := p.exists_first
  simp [hprint]

theorem trim_print (p : Operand) : trim p.print = p.print := by
  obtain ⟨c, rest, hfirst, -, hc, -⟩ := p.exists_first
  obtain ⟨front, d, hlast, hd, -⟩ := p.exists_last
  exact trim_of_ends hfirst hc hlast hd

end Operand

theorem isFlat_of_isWhite {c : Char} (h : isWhite c = true) : IsFlat c := by
  have hquotes : c ∉ ['"', '\'', '\x60'] := not_mem_of_kind h (by decide)
  refine ⟨⟨?_, ne_of_kind h (by decide)⟩, not_mem_of_kind h (by decide)⟩
  simpa [isQuote, and_assoc] using hquotes

/-! ### Captures pass over operands -/

/-- The characters that a capture of an expression may stop at. -/
def delimiters : List Char := [';', '=', '{', '\n']

namespace Cursor

variable {stop : Text → Cursor → Bool} {taken behind rest : Text}

/-- A capture passes over flat text without delimiters. -/
theorem captureFrom_flats
    (hstop : ∀ taken behind c rest, c ∉ delimiters → stop taken ⟨behind, c :: rest⟩ = false)
    {t : Text} (ht : ∀ c ∈ t, IsFlat c ∧ c ∉ delimiters) :
    captureFrom stop .code .top taken behind (t ++ rest) =
      inFront t (captureFrom stop .code .top (t.reverse ++ taken) (t.reverse ++ behind) rest) := by
  induction t generalizing taken behind with
  | nil => rfl
  | cons c t ih =>
      obtain ⟨hflat, hgo⟩ := ht c List.mem_cons_self
      rw [List.cons_append, captureFrom_flat hflat (hstop _ _ _ _ hgo),
        ih fun d hd => ht d (List.mem_cons_of_mem _ hd), ← inFront_append]
      simp

theorem captureFrom_identifier
    (hstop : ∀ taken behind c rest, c ∉ delimiters → stop taken ⟨behind, c :: rest⟩ = false)
    (n : Identifier) :
    captureFrom stop .code .top taken behind (n.text ++ rest) =
      inFront n.text (captureFrom stop .code .top (n.text.reverse ++ taken)
        (n.text.reverse ++ behind) rest) := by
  refine captureFrom_flats hstop fun c hc => ?_
  have hident := n.isIdentChar_of_mem hc
  exact ⟨isFlat_of_isIdentChar hident, not_mem_of_kind hident rfl⟩

/-- A capture passes over an operand, unless it stops at the bracket of a body. -/
theorem captureFrom_operand
    (hstop : ∀ taken behind c rest, c ∉ delimiters → stop taken ⟨behind, c :: rest⟩ = false)
    (p : Operand) (hbody : p.isBody = true → ∀ rest, stop taken ⟨behind, '{' :: rest⟩ = false) :
    captureFrom stop .code .top taken behind (p.print ++ rest) =
      inFront p.print (captureFrom stop .code .top (p.print.reverse ++ taken)
        (p.print.reverse ++ behind) rest) := by
  cases p with
  | name n => exact captureFrom_identifier hstop n
  | applied n arguments valid last =>
      rw [Operand.print, List.append_assoc, captureFrom_identifier hstop, List.cons_append,
        List.append_assoc, List.singleton_append,
        captureFrom_angles valid last (hstop _ _ _ _ (by decide)), ← inFront_append]
      simp
  | body inner valid =>
      rw [Operand.print, List.cons_append, List.append_assoc, List.singleton_append,
        captureFrom_curly valid (hbody rfl _)]
      simp

/-- A capture passes over white space if it does not stop at a line feed in it. -/
theorem captureFrom_blank
    (hstop : ∀ taken behind c rest, c ∉ delimiters → stop taken ⟨behind, c :: rest⟩ = false)
    {t : Text} (ht : isBlank t = true)
    (hline : ∀ front back, t = front ++ '\n' :: back → ∀ behind,
      stop (front.reverse ++ taken) ⟨behind, '\n' :: (back ++ rest)⟩ = false) :
    captureFrom stop .code .top taken behind (t ++ rest) =
      inFront t (captureFrom stop .code .top (t.reverse ++ taken) (t.reverse ++ behind) rest) := by
  induction t generalizing taken behind with
  | nil => rfl
  | cons c t ih =>
      have hwhite : isWhite c = true := List.all_eq_true.mp ht c List.mem_cons_self
      have hblank : isBlank t = true :=
        List.all_eq_true.mpr fun d hd => List.all_eq_true.mp ht d (List.mem_cons_of_mem _ hd)
      have hgo : stop taken ⟨behind, c :: (t ++ rest)⟩ = false := by
        by_cases hfeed : c = '\n'
        · subst hfeed
          exact hline [] t rfl behind
        · refine hstop _ _ _ _ ?_
          have hothers : c ∉ [';', '=', '{'] := not_mem_of_kind hwhite (by decide)
          simp only [delimiters, List.mem_cons, List.not_mem_nil, or_false, not_or] at hothers ⊢
          exact ⟨hothers.1, hothers.2.1, hothers.2.2, hfeed⟩
      have hlater : ∀ front back, t = front ++ '\n' :: back → ∀ behind,
          stop (front.reverse ++ c :: taken) ⟨behind, '\n' :: (back ++ rest)⟩ = false := by
        intro front back hsplit behind
        have hnow := hline (c :: front) back (by rw [hsplit, List.cons_append]) behind
        rwa [List.reverse_cons, List.append_assoc, List.singleton_append] at hnow
      rw [List.cons_append, captureFrom_flat (isFlat_of_isWhite hwhite) hgo, ih hblank hlater,
        ← inFront_append]
      simp

end Cursor

/-! ### Parts -/

namespace Text

/-- A text that a split at the separators leaves whole, wherever it stands outside brackets. -/
def IsUncut (separators : List Char) (t : Text) : Prop :=
  ∀ behind rest, piecesFrom separators .code .top behind (t ++ rest) =
    inFirst t (piecesFrom separators .code .top (t.reverse ++ behind) rest)

/-- A sign that separates operands. -/
def IsSeparator (c : Char) : Prop := IsFlat c ∧ isIdentChar c = false ∧ isWhite c = false

instance (c : Char) : Decidable (IsSeparator c) := inferInstanceAs (Decidable (_ ∧ _))

variable {separators : List Char}

theorem IsUncut.append {s t : Text} (hs : IsUncut separators s) (ht : IsUncut separators t) :
    IsUncut separators (s ++ t) := by
  intro behind rest
  rw [List.append_assoc, hs, ht, inFirst_append, List.reverse_append, List.append_assoc]

theorem isUncut_flat {t : Text} (h : ∀ c ∈ t, IsFlat c ∧ separators.contains c = false) :
    IsUncut separators t := by
  induction t with
  | nil => exact fun _ _ => rfl
  | cons c t ih =>
      intro behind rest
      obtain ⟨hflat, hno⟩ := h c List.mem_cons_self
      rw [List.cons_append, piecesFrom_flat_cons hflat hno,
        ih fun d hd => h d (List.mem_cons_of_mem _ hd), ← inFirst_append, List.reverse_cons,
        List.append_assoc, List.singleton_append, List.singleton_append]

variable (hsep : ∀ c ∈ separators, IsSeparator c)

include hsep

theorem isUncut_blank {t : Text} (ht : isBlank t = true) : IsUncut separators t := by
  refine isUncut_flat fun c hc => ?_
  have hwhite := List.all_eq_true.mp ht c hc
  refine ⟨isFlat_of_isWhite hwhite, ?_⟩
  rw [List.contains_eq_mem, decide_eq_false_iff_not]
  intro hmem
  exact ne_of_kind hwhite (hsep c hmem).2.2 rfl

theorem isUncut_identifier (n : Identifier) : IsUncut separators n.text := by
  refine isUncut_flat fun c hc => ?_
  have hident := n.isIdentChar_of_mem hc
  refine ⟨isFlat_of_isIdentChar hident, ?_⟩
  rw [List.contains_eq_mem, decide_eq_false_iff_not]
  intro hmem
  exact ne_of_kind hident (hsep c hmem).2.1 rfl

theorem isUncut_operand (p : Operand) : IsUncut separators p.print := by
  cases p with
  | name n => exact isUncut_identifier hsep n
  | applied n arguments valid last =>
      refine (isUncut_identifier hsep n).append fun behind rest => ?_
      rw [List.cons_append, List.append_assoc, List.singleton_append,
        piecesFrom_angles valid last]
      simp
  | body inner valid =>
      intro behind rest
      rw [Operand.print, List.cons_append, List.append_assoc, List.singleton_append,
        piecesFrom_curly valid]
      simp

omit hsep

/-- The parts of a text behind the characters `behind`, outside all brackets. -/
def partsFrom (separators : List Char) (behind t : Text) : List Text :=
  (piecesFrom separators .code .top behind t).filterMap trimmed?

theorem topLevelParts_eq (t : Text) : topLevelParts separators t = partsFrom separators [] t := rfl

theorem partsFrom_uncut {t : Text} (ht : IsUncut separators t) (behind : Text) :
    partsFrom separators behind t = (trimmed? t).toList := by
  have hpieces := ht behind []
  rw [List.append_nil, piecesFrom, inFirst_cons, List.append_nil] at hpieces
  rw [partsFrom, hpieces, List.filterMap_cons]
  cases trimmed? t <;> rfl

include hsep

/-- Before a separator stands a part. -/
theorem partsFrom_separator {t : Text} (ht : IsUncut separators t) {c : Char} (hc : c ∈ separators)
    (behind rest : Text) :
    partsFrom separators behind (t ++ c :: rest) =
      (trimmed? t).toList ++ partsFrom separators (c :: (t.reverse ++ behind)) rest := by
  have hcontains : separators.contains c = true := by simpa using hc
  rw [partsFrom, ht, piecesFrom_separator (hsep c hc).1 hcontains, inFirst_cons, List.append_nil,
    List.filterMap_cons, partsFrom]
  cases trimmed? t <;> rfl

end Text

end ComponentProps
