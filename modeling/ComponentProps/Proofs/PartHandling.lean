import ComponentProps.Proofs.BracketMatching
import ComponentProps.Proofs.CommentedScripts
import ComponentProps.Proofs.Overriding

/-!
# How the parts of an annotation are handled

A part of an annotation is told by its ends: a curly bracket begins an inline body, a pair of round
brackets holds another annotation, and the text before the first angle bracket is the name of a
type. In an annotation whose brackets match, the ends of a part tell the truth unless its first
round bracket or its type arguments end early. Main statement: all other parts are handled by their
form.
-/

namespace ComponentProps

open Text

/-! ### Forms of a part -/

/-- The part is a name, alone or with type arguments up to its end. -/
inductive Names (name : Text) : Text → Prop
  | bare : Names name name
  | applied {gap arguments : Text} (hgap : isBlank gap = true) (matched : IsMatched arguments)
      (hlast : arguments.getLast? ≠ some '=') :
      Names name (name ++ (gap ++ '<' :: (arguments ++ ['>'])))

/-- The first bracket of the part is closed before the end, though the part ends in a round bracket
too or begins with the name of a local type. -/
inductive EndsEarly (table : TypeTable) : Text → Prop
  | group {inner : Text} (tail : Text) (matched : IsMatched inner) :
      EndsEarly table ('(' :: (inner ++ ')' :: (tail ++ [')'])))
  | applied {name gap arguments tail : Text} (hname : name ∈ table.keys) (hgap : isBlank gap = true)
      (matched : IsMatched arguments) (hlast : arguments.getLast? ≠ some '=') (htail : tail ≠ []) :
      EndsEarly table (name ++ (gap ++ '<' :: (arguments ++ '>' :: tail)))

section

variable {p rest : Text}

theorem isReference_of_head? (hbody : p.head? ≠ some '{') (hgroup : p.head? ≠ some '(') :
    IsReference p := by
  refine ⟨hbody, fun inner heq => hgroup ?_⟩
  rw [heq]
  rfl

/-- An opening bracket of a matched text has its match in it. -/
theorem exists_match_cons {opening close : Char} (hopen : IsSign opening ∧ opening ≠ '=')
    (hclose : IsSign close ∧ close ≠ '\n') (hcloser : Bracket.closer? opening = some close)
    {front : Text} (hfront : awaited? [] .code [] front = some ([], .code))
    (h : IsMatched (front ++ opening :: rest)) :
    ∃ inner tail, rest = inner ++ close :: tail ∧ IsMatched inner ∧
      (Bracket.of? (inner.reverse ++ opening :: front.reverse) close).isSome = true := by
  rw [IsMatched, awaited?_append (signFirst_cons rest hopen.1).endsSlash, hfront, Option.bind_some,
    List.append_nil] at h
  have hopened : awaited? ([] ++ close :: []) .code (opening :: front.reverse) rest =
      some ([], .code) := by
    rw [← h]
    exact (awaited?_cons_of_read (Region.read_plain hopen.1.1 front.reverse rest)
      (Bracket.await?_opening hcloser)).symm
  obtain ⟨inner, tail, hsplit, hinner, hbracket, -⟩ := exists_match hclose hopened (by simp)
  exact ⟨inner, tail, hsplit, (isMatched_behind hopen _ inner).mp hinner, hbracket⟩

theorem isReference_of_not_endsEarly {table : TypeTable} (h : IsMatched p)
    (hbody : p.head? ≠ some '{') (hgroup : ∀ inner, IsMatched inner → p ≠ '(' :: (inner ++ [')']))
    (hearly : ¬ EndsEarly table p) : IsReference p := by
  refine ⟨hbody, ?_⟩
  rintro inner rfl
  have hfront : awaited? [] .code [] [] = some ([], .code) := rfl
  obtain ⟨g, tail, hsplit, hg, -⟩ := exists_match_cons (by decide) (by decide) rfl hfront h
  rcases List.eq_nil_or_concat tail with rfl | ⟨tail, last, rfl⟩
  · exact hgroup g hg (by rw [hsplit])
  · rw [List.concat_eq_append] at hsplit
    obtain rfl : last = ')' := by
      have hassoc : g ++ ')' :: (tail ++ [last]) = (g ++ ')' :: tail) ++ [last] := by simp
      have hlast := congrArg List.getLast? (hsplit.trans hassoc)
      rw [List.getLast?_concat, List.getLast?_concat] at hlast
      exact (Option.some.inj hlast).symm
    rw [hsplit] at hearly
    exact hearly (.group tail hg)

/-- The bracket behind type arguments is no arrow. -/
theorem getLast?_ne_of_bracket {arguments behind : Text}
    (h : (Bracket.of? (arguments.reverse ++ '<' :: behind) '>').isSome = true) :
    arguments.getLast? ≠ some '=' := by
  intro hlast
  obtain ⟨front, rfl⟩ := List.getLast?_eq_some_iff.mp hlast
  simp [Bracket.of?] at h

/-- The text before the first angle bracket, and what follows it. -/
theorem exists_withoutArguments {p : Text} (h : '<' ∈ p) :
    ∃ gap rest, isBlank gap = true ∧ p = withoutArguments p ++ (gap ++ '<' :: rest) := by
  obtain ⟨front, rest, rfl, hfront⟩ := List.eq_append_cons_of_mem h
  have hname : withoutArguments (front ++ '<' :: rest) = trimEnd front := by
    have hall : ∀ c ∈ front, (c != '<') = true := fun c hc =>
      bne_iff_ne.mpr fun heq => hfront (heq ▸ hc)
    rw [withoutArguments, if_pos (by simp), List.takeWhile_append_of_pos hall]
    simp
  obtain ⟨gap, hgap, hsplit⟩ := exists_blank_after_trimEnd front
  refine ⟨gap, rest, hgap, ?_⟩
  rw [hname, ← List.append_assoc, ← hsplit]

/-- In a matched text a local type is named by the whole of a part or by a part that ends early. -/
theorem names_or_endsEarly {table : TypeTable}
    (hnames : ∀ name ∈ table.keys, ∀ c ∈ name, isIdentChar c = true) (h : IsMatched p)
    (htrim : trim p = p) (hkey : withoutArguments p ∈ table.keys) :
    Names (withoutArguments p) p ∨ EndsEarly table p := by
  by_cases hangle : '<' ∈ p
  · obtain ⟨gap, rest, hgap, hsplit⟩ := exists_withoutArguments hangle
    generalize hname : withoutArguments p = name at hkey hsplit ⊢
    have hflat : ∀ c ∈ name ++ gap, IsFlat c := fun c hc => by
      rcases List.mem_append.mp hc with hc | hc
      · exact isFlat_of_isIdentChar (hnames name hkey c hc)
      · exact isFlat_of_isWhite (List.all_eq_true.mp hgap c hc)
    have hfront := awaited?_flat hflat [] []
    obtain rfl := hsplit
    rw [← List.append_assoc] at h
    obtain ⟨arguments, tail, rfl, hmatched, hbracket⟩ :=
      exists_match_cons (by decide) (by decide) rfl hfront h
    have hlast := getLast?_ne_of_bracket hbracket
    cases tail with
    | nil => exact .inl (.applied hgap hmatched hlast)
    | cons c tail => exact .inr (.applied hkey hgap hmatched hlast (by simp))
  · have hname : withoutArguments p = p := by
      rw [withoutArguments, if_neg (by simpa using hangle), htrim]
    rw [hname]
    exact .inl .bare

theorem trimEnd_of_visible {t : Text} (h : ∀ c ∈ t, isWhite c = false) : trimEnd t = t := by
  induction t with
  | nil => rfl
  | cons c t ih =>
      rw [trimEnd_cons (h c List.mem_cons_self), ih fun d hd => h d (List.mem_cons_of_mem _ hd)]

/-- A part that names a local type is a reference and is looked up by this name. -/
theorem withoutArguments_of_names {name : Text} (hident : ∀ c ∈ name, isIdentChar c = true)
    (h : Names name p) : withoutArguments p = name ∧ IsReference p := by
  have hangle : ∀ c ∈ name, c ≠ '<' := fun c hc => ne_of_kind (hident c hc) rfl
  have hend : trimEnd name = name :=
    trimEnd_of_visible fun c hc => not_isWhite_of_isIdentChar (hident c hc)
  cases h with
  | bare =>
      have hstart : trimStart p = p := by
        cases p with
        | nil => rfl
        | cons c t =>
            simp [trimStart, not_isWhite_of_isIdentChar (hident c List.mem_cons_self)]
      refine ⟨?_, isReference_of_head? ?_ ?_⟩
      · rw [withoutArguments, if_neg (by simpa using fun hmem => hangle _ hmem rfl), trim, hstart,
          hend]
      · exact fun hhead => absurd (hident _ (List.mem_of_mem_head? hhead)) (by decide)
      · exact fun hhead => absurd (hident _ (List.mem_of_mem_head? hhead)) (by decide)
  | @applied gap arguments hgap matched hlast =>
      have hblank := List.all_eq_true.mp hgap
      -- The first character belongs to the name, to the gap or is the angle bracket.
      have hfirst : ∀ d, (name ++ (gap ++ '<' :: (arguments ++ ['>']))).head? = some d →
          isIdentChar d = true ∨ isWhite d = true ∨ d = '<' := by
        intro d hd
        cases name with
        | cons c t => exact .inl (hident d (by simp_all))
        | nil =>
            cases gap with
            | cons c t => exact .inr (.inl (hblank d (by simp_all)))
            | nil => exact .inr (.inr (by simpa using hd.symm))
      have hname : (name ++ gap ++ '<' :: (arguments ++ ['>'])).takeWhile (· != '<') =
          name ++ gap := by
        rw [List.takeWhile_append_of_pos fun c hc => ?_]
        · simp
        · rcases List.mem_append.mp hc with hc | hc
          · exact bne_iff_ne.mpr (hangle c hc)
          · exact bne_iff_ne.mpr (ne_of_kind (hblank c hc) (by decide))
      refine ⟨?_, isReference_of_head? ?_ ?_⟩
      · rw [← List.append_assoc, withoutArguments, if_pos (by simp), hname,
          trimEnd_append_blank name hgap, hend]
      · exact fun hhead => absurd (hfirst _ hhead) (by decide)
      · exact fun hhead => absurd (hfirst _ hhead) (by decide)

end

namespace Resolution

variable (style : Member.Style) (table : TypeTable)

/-- The tasks in front of an agenda are worked off before it. -/
theorem exists_iterate_agenda {r : Resolution} {front agenda : List Task}
    (h : r.agenda = front ++ agenda) :
    ∃ n, ((step style table)^[n] r).agenda = agenda ∧
      ((step style table)^[n] r).run style table = r.run style table := by
  induction r using Resolution.run.induct style table generalizing front with
  | case1 r hdone =>
      rw [hdone] at h
      obtain ⟨-, rfl⟩ := List.append_eq_nil_iff.mp h.symm
      exact ⟨0, hdone, rfl⟩
  | case2 r hmore ih =>
      cases front with
      | nil => exact ⟨0, h, rfl⟩
      | cons task front =>
          obtain ⟨new, hnew, -⟩ := agenda_stepTask style table r task (front ++ agenda)
          have hstep : (r.step style table).agenda = new ++ front ++ agenda := by
            rw [step, h]
            dsimp only [List.cons_append]
            rw [hnew, List.append_assoc]
          obtain ⟨n, hagenda, hrun⟩ := ih hstep
          refine ⟨n + 1, hagenda, ?_⟩
          rw [Function.iterate_succ_apply, hrun]
          conv_rhs => rw [run, dif_neg hmore]

/-- What the step that takes up a part does, by the form of the part. -/
structure Handles (r : Resolution) (p : Text) (agenda : List Task) : Prop where
  body : ∀ text, p = '{' :: (text ++ ['}']) ∨ p = '{' :: text ∧ text.getLast? ≠ some '}' →
    r.step style table =
      { r with agenda := agenda, members := r.members.extend (Member.scan style text) }
  group : ∀ inner, IsMatched inner → p = '(' :: (inner ++ [')']) →
    r.step style table =
      { r with agenda := (topLevelParts typeOperators inner).map .part ++ agenda }
  named : ∀ name definition, Names name p → table.get? name = some definition →
    r.step style table =
      if name ∈ r.visited then { r with agenda := agenda }
      else
        { r with
          agenda := definition.parents.map .part ++ .members name :: agenda
          visited := name :: r.visited }
  outside : p.head? ≠ some '{' → (∀ inner, IsMatched inner → p ≠ '(' :: (inner ++ [')'])) →
    (∀ name ∈ table.keys, ¬ Names name p) → ¬ EndsEarly table p →
    r.step style table =
      { r with
        agenda := agenda
        inherits := if p ∈ r.inherits then r.inherits else r.inherits ++ [p] }

theorem handles_of_matched {r : Resolution} {p : Text} {agenda : List Task}
    (hnames : ∀ name ∈ table.keys, ∀ c ∈ name, isIdentChar c = true) (hmatched : IsMatched p)
    (htrim : trim p = p) (hagenda : r.agenda = .part p :: agenda) :
    Handles style table r p agenda := by
  have hstep : r.step style table = r.stepTask style table (.part p) agenda := by
    rw [step, hagenda]
  constructor
  · rintro text (rfl | ⟨rfl, hlast⟩)
    · rw [hstep, stepTask_body (TypePart.of_body text)]
    · rw [hstep, stepTask_body (TypePart.of_openBody hlast)]
  · rintro inner - rfl
    rw [hstep, stepTask_group (TypePart.of_group inner)]
  · intro name definition hname hget
    obtain ⟨rfl, href⟩ := withoutArguments_of_names
      (hnames name (OrderedMap.mem_keys_of_get? hget)) hname
    rw [hstep]
    split
    · rename_i hvisited
      exact stepTask_known (TypePart.of_reference href) hget hvisited
    · rename_i hvisited
      exact stepTask_fresh (TypePart.of_reference href) hget hvisited
  · intro hbody hgroup hname hearly
    have href := isReference_of_not_endsEarly hmatched hbody hgroup hearly
    have hkey : withoutArguments p ∉ table.keys := fun hkey =>
      (names_or_endsEarly hnames hmatched htrim hkey).elim (hname _ hkey) hearly
    rw [hstep, stepTask_outside (TypePart.of_reference href) hkey, addNew_eq]

/-- Every part of an annotation with matching brackets has its turn in the resolution, and it is
handled by its form. -/
theorem each_part_handled (style tableStyle : Member.Style) (scripts : List Text)
    {ascription p : Text} {before after : List Text} (h : IsMatched ascription)
    (hparts : topLevelParts typeOperators ascription = before ++ p :: after) :
    ∃ n r, r = (step style (.ofScripts tableStyle scripts))^[n] (start ascription) ∧
      r.agenda = .part p :: after.map .part ∧
      r.run style (.ofScripts tableStyle scripts) =
        resolve style (.ofScripts tableStyle scripts) ascription ∧
      Handles style (.ofScripts tableStyle scripts) r p (after.map .part) := by
  have hagenda : (start ascription).agenda = before.map .part ++ .part p :: after.map .part := by
    simp [start, hparts]
  obtain ⟨n, hturn, hrun⟩ :=
    exists_iterate_agenda style (.ofScripts tableStyle scripts) hagenda
  have hmem : p ∈ topLevelParts typeOperators ascription := by
    rw [hparts]
    simp
  refine ⟨n, _, rfl, hturn, hrun, handles_of_matched _ _ ?_ ?_ ?_ hturn⟩
  · exact fun name hname => TypeTable.isIdentChar_of_mem_keys hname
  · refine h.of_mem_topLevelParts (fun s hs => ?_) hmem
    rcases List.mem_pair.mp hs with rfl | rfl <;> decide
  · obtain ⟨q, -, hq⟩ := List.mem_filterMap.mp hmem
    rw [eq_trim_of_trimmed? hq, trim_trim]

/-- Arguments that hold an arrow and a bracket in a literal, between a body and a group. -/
def mixedAscription : Text := "\x7b a: b[] \x7d & Foo <(c: '>') => d> | (E | 'f)') & g['h']".toList

theorem each_part_handled_mixed :
    IsMatched mixedAscription ∧
      topLevelParts typeOperators mixedAscription =
        ["\x7b a: b[] \x7d".toList] ++
          "Foo <(c: '>') => d>".toList :: ["(E | 'f)')".toList, "g['h']".toList] ∧
      ∃ n r, r = (step {} (.ofScripts {} ["type Foo = Bar".toList]))^[n] (start mixedAscription) ∧
        r.agenda = .part "Foo <(c: '>') => d>".toList ::
          ["(E | 'f)')".toList, "g['h']".toList].map .part ∧
        r.run {} (.ofScripts {} ["type Foo = Bar".toList]) =
          resolve {} (.ofScripts {} ["type Foo = Bar".toList]) mixedAscription ∧
        Handles {} (.ofScripts {} ["type Foo = Bar".toList]) r "Foo <(c: '>') => d>".toList
          (["(E | 'f)')".toList, "g['h']".toList].map .part) := by
  have hmatched : IsMatched mixedAscription := by decide +kernel
  have hparts : topLevelParts typeOperators mixedAscription =
      ["\x7b a: b[] \x7d".toList] ++
        "Foo <(c: '>') => d>".toList :: ["(E | 'f)')".toList, "g['h']".toList] := by
    decide +kernel
  exact ⟨hmatched, hparts, each_part_handled {} {} _ hmatched hparts⟩

/-- A member of an object type, by its name. -/
def indexedBody : Text := "\x7b a: string \x7d['a']".toList

/-- A part that begins with a curly bracket is scanned as a body even where its last character does
not match this bracket. -/
theorem resolve_indexedBody :
    (IsMatched indexedBody ∧ topLevelParts typeOperators indexedBody = [indexedBody] ∧
        ∀ inner, IsMatched inner → indexedBody ≠ '{' :: (inner ++ ['}'])) ∧
      (resolve {} (.ofScripts {} []) indexedBody).members.keys = [['a']] ∧
      (resolve {} (.ofScripts {} []) indexedBody).inherits = [] := by
  have hlast : ∀ inner, IsMatched inner → indexedBody ≠ '{' :: (inner ++ ['}']) := by
    intro inner _ heq
    have hend := congrArg List.getLast? heq
    rw [← List.cons_append, List.getLast?_concat] at hend
    exact absurd hend (by decide)
  have hparts : topLevelParts typeOperators indexedBody = [indexedBody] := by decide +kernel
  have hbody : TypePart.of indexedBody = .body " a: string \x7d['a']".toList := by decide
  have hscan : Member.scan {} " a: string \x7d['a']".toList =
      .ofList [(['a'], ⟨['a'], "string".toList, false, none⟩)] := by
    rw [Member.scan, ← Member.Scan.run_iterate {} 30, Member.Scan.run_end (by decide +kernel)]
    decide +kernel
  have hresolve : resolve {} (.ofScripts {} []) indexedBody =
      ⟨[], [], .ofList [(['a'], ⟨['a'], "string".toList, false, none⟩)], []⟩ := by
    rw [resolve, start, hparts, run, dif_neg (by simp)]
    simp only [step, List.map_cons, List.map_nil]
    rw [stepTask_body hbody, hscan, run, dif_pos rfl]
    rfl
  rw [hresolve]
  exact ⟨⟨by decide +kernel, hparts, hlast⟩, rfl, rfl⟩

end Resolution

end ComponentProps
