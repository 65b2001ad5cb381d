import ComponentProps.Proofs.Maps
import ComponentProps.Proofs.PatternSyntax

/-!
# Scanning a printed pattern

The scanner gives back the items that were printed. Three counters of open brackets that never go
below zero agree with the balance of brackets as long as no bracket is closed early; within a value
or a nested pattern nothing can then end the item, whatever its literals and comments hold.
-/

namespace ComponentProps.Binding

open Text

namespace Depths

/-- Reading some characters leads from the open brackets `d` to the open brackets `d'`, and none is
closed that was not open. -/
structure Reads (d : Depths) (read : List (Char × Role)) (d' : Depths) : Prop where
  round : depthAfter? '(' ')' d.round read = some d'.round
  square : depthAfter? '[' ']' d.square read = some d'.square
  curly : depthAfter? '{' '}' d.curly read = some d'.curly

theorem atTop_iff (read : List (Char × Role)) : AtTop read ↔ Reads {} read {} := by
  constructor
  · intro h
    exact ⟨h ('(', ')') (by decide), h ('[', ']') (by decide), h ('{', '}') (by decide)⟩
  · rintro ⟨h1, h2, h3⟩ kind hkind
    simp only [bracketKinds, List.mem_cons, List.not_mem_nil, or_false] at hkind
    rcases hkind with rfl | rfl | rfl
    · exact h1
    · exact h2
    · exact h3

theorem reads_nil {d d' : Depths} (h : Reads d [] d') : d = d' := by
  obtain ⟨r, s, c⟩ := d
  obtain ⟨r', s', c'⟩ := d'
  have h1 : r = r' := Option.some.inj h.round
  have h2 : s = s' := Option.some.inj h.square
  have h3 : c = c' := Option.some.inj h.curly
  rw [h1, h2, h3]

theorem isTop_iff (d : Depths) : d.isTop = true ↔ d = {} := by
  obtain ⟨r, s, c⟩ := d
  simp [isTop, and_assoc]

theorem isTop_eq_false_iff (d : Depths) : d.isTop = false ↔ d ≠ {} := by
  rw [ne_eq, ← isTop_iff, Bool.not_eq_true]

theorem reads_inert_cons {c : Char} {role : Role} (hrole : role ≠ .code) {d d' : Depths}
    {read : List (Char × Role)} : Reads d ((c, role) :: read) d' ↔ Reads d read d' := by
  constructor
  · rintro ⟨h1, h2, h3⟩
    simp only [depthAfter?, if_pos hrole] at h1 h2 h3
    exact ⟨h1, h2, h3⟩
  · rintro ⟨h1, h2, h3⟩
    refine ⟨?_, ?_, ?_⟩
    · simpa only [depthAfter?, if_pos hrole] using h1
    · simpa only [depthAfter?, if_pos hrole] using h2
    · simpa only [depthAfter?, if_pos hrole] using h3

/-- The characters that some bracket is written with. -/
def isBracket (c : Char) : Bool :=
  c == '(' || c == ')' || c == '[' || c == ']' || c == '{' || c == '}'

theorem track_of_not_isBracket {c : Char} (h : isBracket c = false) (d : Depths) :
    d.track c = d := by
  simp only [isBracket, Bool.or_eq_false_iff] at h
  simp [track, h]

theorem reads_congr {d d' e : Depths} {read read' : List (Char × Role)}
    (hround : depthAfter? '(' ')' d.round read = depthAfter? '(' ')' d'.round read')
    (hsquare : depthAfter? '[' ']' d.square read = depthAfter? '[' ']' d'.square read')
    (hcurly : depthAfter? '{' '}' d.curly read = depthAfter? '{' '}' d'.curly read') :
    Reads d read e ↔ Reads d' read' e := by
  constructor
  · intro h
    exact ⟨hround ▸ h.round, hsquare ▸ h.square, hcurly ▸ h.curly⟩
  · intro h
    exact ⟨hround ▸ h.round, hsquare ▸ h.square, hcurly ▸ h.curly⟩

/-- Where nothing is closed early the counters follow the balance. -/
theorem reads_code_cons {c : Char} {d e : Depths} {read : List (Char × Role)}
    (h : Reads d ((c, .code) :: read) e) (read' : List (Char × Role)) (e' : Depths) :
    Reads d ((c, .code) :: read') e' ↔ Reads (d.track c) read' e' := by
  obtain ⟨r, s, k⟩ := d
  by_cases hb : isBracket c = false
  · rw [track_of_not_isBracket hb]
    simp only [isBracket, Bool.or_eq_false_iff, beq_eq_false_iff_ne] at hb
    apply reads_congr <;> simp only [depthAfter?, hb, if_false, ne_eq, not_true_eq_false]
  · simp only [isBracket, Bool.not_eq_false, Bool.or_eq_true, beq_iff_eq] at hb
    rcases hb with ((((rfl | rfl) | rfl) | rfl) | rfl) | rfl
    · exact reads_congr rfl rfl rfl
    · cases r with
      | zero => exact absurd h.round (by simp [depthAfter?])
      | succ r => exact reads_congr rfl rfl rfl
    · exact reads_congr rfl rfl rfl
    · cases s with
      | zero => exact absurd h.square (by simp [depthAfter?])
      | succ s => exact reads_congr rfl rfl rfl
    · exact reads_congr rfl rfl rfl
    · cases k with
      | zero => exact absurd h.curly (by simp [depthAfter?])
      | succ k => exact reads_congr rfl rfl rfl

/-- No character that `P` picks out stands outside all brackets when the brackets `d` are open
before the first. -/
def Covers (P : Char × Role → Prop) (d : Depths) (read : List (Char × Role)) : Prop :=
  ∀ front ∈ read.inits, ∀ x, front.getLast? = some x → P x → ¬ Reads d front {}

theorem Covers.head {P : Char × Role → Prop} {d : Depths} {x : Char × Role}
    {read : List (Char × Role)} (h : Covers P d (x :: read)) (hx : P x) : ¬ Reads d [x] {} :=
  h [x] (by simp) x rfl hx

theorem Covers.tail {P : Char × Role → Prop} {d d' : Depths} {x : Char × Role}
    {read : List (Char × Role)} (h : Covers P d (x :: read))
    (hstep : ∀ front, Reads d' front {} → Reads d (x :: front) {}) : Covers P d' read := by
  intro front hfront y hy hP hreads
  refine h (x :: front) ?_ y ?_ hP (hstep front hreads)
  · rw [List.inits_cons]
    exact List.mem_cons_of_mem _ (List.mem_map_of_mem hfront)
  · cases front with
    | nil => simp at hy
    | cons z front => simpa using hy

theorem Covers.not_isTop_of_comma {P : Char × Role → Prop} {d : Depths}
    {read : List (Char × Role)} (h : Covers P d ((',', .code) :: read)) (hP : P (',', .code)) :
    d.isTop = false := by
  rw [isTop_eq_false_iff]
  rintro rfl
  exact h.head hP ⟨rfl, rfl, rfl⟩

theorem Covers.not_isTop_of_inert {P : Char × Role → Prop} {d : Depths} {c : Char} {role : Role}
    {read : List (Char × Role)} (h : Covers P d ((c, role) :: read)) (hP : P (c, role))
    (hrole : role ≠ .code) : d.isTop = false := by
  rw [isTop_eq_false_iff]
  rintro rfl
  exact h.head hP ((reads_inert_cons hrole).mpr ⟨rfl, rfl, rfl⟩)

end Depths

namespace Scan

open Depths

variable (normalize : Bool) {name : Text} {m : OrderedMap Text (Option Text)}
variable {behind rest : Text}

/-! ### The parts of an item -/

theorem run_name {word : Text} (h : ∀ c ∈ word, isIdentChar c = true) (name behind rest : Text) :
    run normalize ⟨.name, .code, {}, name, [], m⟩ behind (word ++ rest) =
      run normalize ⟨.name, .code, {}, word.reverse ++ name, [], m⟩ (word.reverse ++ behind)
        rest := by
  induction word generalizing name behind with
  | nil => rfl
  | cons c word ih =>
      have hc := h c List.mem_cons_self
      have hplain := isPlain_of_isIdentChar hc
      have hdot : c ≠ '.' := ne_of_kind hc rfl
      have hstep : step normalize ⟨.name, .code, {}, name, [], m⟩ behind c (word ++ rest) =
          ⟨.name, .code, {}, c :: name, [], m⟩ := by
        simp [step, stepName, stepNameCode, Region.comment?, hplain.1, hplain.2, hdot, hc]
      rw [List.cons_append, run, hstep, ih fun d hd => h d (List.mem_cons_of_mem _ hd)]
      simp

/-- A value is taken up as it stands. The induction is on what is left of it: `front` is what has
been read, nearest first, and the brackets `d` are open there. -/
theorem run_value_within (hb : behind.head? ≠ some '\\') (hr : EndsSlash rest) {t : Text}
    {region : Region} {front : Text} (value : Text) {d : Depths}
    (hclosed : region.after front t = .code) (hreads : Reads d (region.roles front t) {})
    (hcovers : Covers (fun x => x = (',', .code) ∨ x.2 = .comment) d (region.roles front t)) :
    run normalize ⟨.value, region, d, name, value, m⟩ (front ++ behind) (t ++ rest) =
      run normalize ⟨.value, .code, {}, name, t.reverse ++ value, m⟩
        (t.reverse ++ (front ++ behind)) rest := by
  induction t generalizing region front value d with
  | nil =>
      obtain rfl : region = .code := hclosed
      obtain rfl : d = {} := reads_nil hreads
      rfl
  | cons c t ih =>
      have hcontext := Region.read_context hb hr region front c t
      obtain ⟨role, region', hread⟩ : ∃ role region', region.read front c t = (role, region') :=
        ⟨_, _, rfl⟩
      simp only [Region.roles, Region.after, hread] at hclosed hreads hcovers
      rw [hread] at hcontext
      rw [List.cons_append, run]
      simp only [step, stepValue, hcontext]
      cases role with
      | code =>
          have hstep := reads_code_cons hreads
          have hcomma : (c == ',' && d.isTop) = false := by
            by_cases hc : c = ','
            · subst hc
              simp [hcovers.not_isTop_of_comma (Or.inl rfl)]
            · simp [hc]
          have hnext := ih (c :: value) hclosed ((hstep _ _).mp hreads)
            (hcovers.tail fun front hf => (hstep front {}).mpr hf)
          simpa [hcomma] using hnext
      | literal =>
          have hinert : Role.literal ≠ .code := by decide
          have hnext := ih (c :: value) hclosed ((reads_inert_cons hinert).mp hreads)
            (hcovers.tail fun front hf => (reads_inert_cons hinert).mpr hf)
          simpa using hnext
      | comment =>
          have hinert : Role.comment ≠ .code := by decide
          have htop := hcovers.not_isTop_of_inert (Or.inr rfl) hinert
          have hnext := ih (c :: value) hclosed ((reads_inert_cons hinert).mp hreads)
            (hcovers.tail fun front hf => (reads_inert_cons hinert).mpr hf)
          simpa [htop] using hnext

/-- A nested pattern is passed over: none of its characters stands outside all brackets. -/
theorem run_target_within (hb : behind.head? ≠ some '\\') (hr : EndsSlash rest) {t : Text}
    {region : Region} {front : Text} {d e : Depths} (hclosed : region.after front t = .code)
    (hreads : Reads d (region.roles front t) e) (hcovers : ∀ front' ∈ (region.roles front t).inits,
      ¬ Reads d front' {}) :
    run normalize ⟨.alias, region, d, name, [], m⟩ (front ++ behind) (t ++ rest) =
      run normalize ⟨.alias, .code, e, name, [], m⟩ (t.reverse ++ (front ++ behind)) rest := by
  induction t generalizing region front d with
  | nil =>
      obtain rfl : region = .code := hclosed
      obtain rfl : d = e := reads_nil hreads
      rfl
  | cons c t ih =>
      have hcontext := Region.read_context hb hr region front c t
      obtain ⟨role, region', hread⟩ : ∃ role region', region.read front c t = (role, region') :=
        ⟨_, _, rfl⟩
      have htop : d.isTop = false := by
        rw [isTop_eq_false_iff]
        rintro rfl
        exact hcovers [] (by simp) ⟨rfl, rfl, rfl⟩
      simp only [Region.roles, Region.after, hread] at hclosed hreads hcovers
      have hinner : ∀ front' ∈ (region'.roles (c :: front) t).inits,
          (c, role) :: front' ∈ ((c, role) :: region'.roles (c :: front) t).inits := by
        intro front' hfront'
        rw [List.inits_cons]
        exact List.mem_cons_of_mem _ (List.mem_map_of_mem hfront')
      rw [hread] at hcontext
      rw [List.cons_append, run]
      simp only [step, stepAlias, hcontext]
      by_cases hrole : role = .code
      · subst hrole
        have hstep := reads_code_cons hreads
        have hnext := ih hclosed ((hstep _ _).mp hreads) fun front' hf hreads' =>
          hcovers _ (hinner front' hf) ((hstep front' {}).mpr hreads')
        simpa [htop] using hnext
      · have hnext := ih hclosed ((reads_inert_cons hrole).mp hreads) fun front' hf hreads' =>
          hcovers _ (hinner front' hf) ((reads_inert_cons hrole).mpr hreads')
        cases role with
        | code => exact absurd rfl hrole
        | literal => simpa using hnext
        | comment => simpa using hnext

/-- A character that means nothing in a target or in a rest item. -/
def IsIdle (c : Char) : Prop := IsPlain c ∧ c ≠ '=' ∧ c ≠ ',' ∧ isBracket c = false

instance (c : Char) : Decidable (IsIdle c) := inferInstanceAs (Decidable (_ ∧ _))

theorem isIdle_of_isIdentChar {c : Char} (h : isIdentChar c = true) : IsIdle c := by
  have hbrackets : c ∉ ['(', ')', '[', ']', '{', '}'] := not_mem_of_kind h rfl
  refine ⟨isPlain_of_isIdentChar h, ne_of_kind h rfl, ne_of_kind h rfl, ?_⟩
  simpa [isBracket, and_assoc] using hbrackets

theorem step_target_idle {c : Char} (h : IsIdle c) (d : Depths) (behind rest : Text) :
    step normalize ⟨.alias, .code, d, name, [], m⟩ behind c rest =
      ⟨.alias, .code, d, name, [], m⟩ := by
  obtain ⟨hplain, heq, hcomma, hbracket⟩ := h
  simp [step, stepAlias, Region.read_plain hplain, heq, hcomma, track_of_not_isBracket hbracket]

theorem step_rest_idle {c : Char} (h : IsIdle c) (behind rest : Text) :
    step normalize ⟨.rest, .code, {}, [], [], m⟩ behind c rest = ⟨.rest, .code, {}, [], [], m⟩ := by
  obtain ⟨hplain, -, hcomma, hbracket⟩ := h
  simp [step, stepRest, Region.read_plain hplain, hcomma, track_of_not_isBracket hbracket]

theorem run_target_idle {t : Text} (h : ∀ c ∈ t, IsIdle c) (d : Depths) (behind rest : Text) :
    run normalize ⟨.alias, .code, d, name, [], m⟩ behind (t ++ rest) =
      run normalize ⟨.alias, .code, d, name, [], m⟩ (t.reverse ++ behind) rest := by
  induction t generalizing behind with
  | nil => rfl
  | cons c t ih =>
      rw [List.cons_append, run, step_target_idle normalize (h c List.mem_cons_self),
        ih fun d hd => h d (List.mem_cons_of_mem _ hd)]
      simp

theorem run_rest_idle {t : Text} (h : ∀ c ∈ t, IsIdle c) (behind rest : Text) :
    run normalize ⟨.rest, .code, {}, [], [], m⟩ behind (t ++ rest) =
      run normalize ⟨.rest, .code, {}, [], [], m⟩ (t.reverse ++ behind) rest := by
  induction t generalizing behind with
  | nil => rfl
  | cons c t ih =>
      rw [List.cons_append, run, step_rest_idle normalize (h c List.mem_cons_self),
        ih fun d hd => h d (List.mem_cons_of_mem _ hd)]
      simp

/-- With a bracket open before it, a balanced text never gets outside all brackets. -/
theorem not_reads_top_of_balanced {opening close : Char} {read front : List (Char × Role)}
    (h : depthAfter? opening close 0 read = some 0) (hfront : front ∈ read.inits) :
    depthAfter? opening close 1 front ≠ some 0 := by
  obtain ⟨more, rfl⟩ := (List.mem_inits _ _).mp hfront
  rw [depthAfter?_append] at h
  obtain ⟨depth, hdepth, -⟩ := Option.bind_eq_some_iff.mp h
  rw [show (1 : Nat) = 0 + 1 from rfl, depthAfter?_add hdepth]
  simp

/-- A pattern in brackets is passed over. The bracket that opens it leads to the open brackets `d`,
and the one that closes it leads back. -/
theorem run_nested {inner : Text} (h : IsBalanced inner) (opening close : Char) (d : Depths)
    (hopen : ∀ rest, step normalize ⟨.alias, .code, {}, name, [], m⟩ behind opening rest =
      ⟨.alias, .code, d, name, [], m⟩)
    (hclose : ∀ behind, step normalize ⟨.alias, .code, d, name, [], m⟩ behind close rest =
      ⟨.alias, .code, {}, name, [], m⟩)
    (hsigns : opening ≠ '\\' ∧ close ≠ '/' ∧ close ≠ '*')
    (hreads : Reads d (Region.code.roles [] inner) d)
    (hcovers : ∀ front ∈ (Region.code.roles [] inner).inits, ¬ Reads d front {}) :
    run normalize ⟨.alias, .code, {}, name, [], m⟩ behind (opening :: (inner ++ close :: rest)) =
      run normalize ⟨.alias, .code, {}, name, [], m⟩
        (close :: (inner.reverse ++ opening :: behind)) rest := by
  have hb : (opening :: behind).head? ≠ some '\\' := by simpa using hsigns.1
  rw [run, hopen]
  refine (run_target_within normalize hb (endsSlash_cons hsigns.2 rest) h.closed hreads
    hcovers).trans ?_
  rw [List.nil_append, run, hclose]

/-- A target adds nothing to a binding. -/
theorem run_target (target : Target) (behind rest : Text) :
    run normalize ⟨.alias, .code, {}, name, [], m⟩ behind (target.print ++ rest) =
      run normalize ⟨.alias, .code, {}, name, [], m⟩ (target.print.reverse ++ behind) rest := by
  cases target with
  | name n =>
      exact run_target_idle normalize
        (fun c hc => isIdle_of_isIdentChar (n.isIdentChar_of_mem hc)) {} behind rest
  | object inner valid =>
      have htop := (atTop_iff _).mp valid.balanced
      simp only [Target.print, List.cons_append, List.append_assoc, List.nil_append,
        List.reverse_cons, List.reverse_append, List.reverse_nil]
      exact run_nested normalize valid '{' '}' { curly := 1 } (fun _ => rfl) (fun _ => rfl)
        (by decide) ⟨htop.round, htop.square, depthAfter?_add htop.curly 1⟩
        fun front hfront hreads => not_reads_top_of_balanced htop.curly hfront hreads.curly
  | array inner valid =>
      have htop := (atTop_iff _).mp valid.balanced
      simp only [Target.print, List.cons_append, List.append_assoc, List.nil_append,
        List.reverse_cons, List.reverse_append, List.reverse_nil]
      exact run_nested normalize valid '[' ']' { square := 1 } (fun _ => rfl) (fun _ => rfl)
        (by decide) ⟨htop.round, depthAfter?_add htop.square 1, htop.curly⟩
        fun front hfront hreads => not_reads_top_of_balanced htop.square hfront hreads.square

/-- A value is taken up with the space before it. -/
theorem run_value (value : Value) (behind : Text) (hr : EndsSlash rest) :
    run normalize ⟨.value, .code, {}, name, [], m⟩ behind (' ' :: (value.text ++ rest)) =
      run normalize ⟨.value, .code, {}, name, value.text.reverse ++ [' '], m⟩
        (value.text.reverse ++ ' ' :: behind) rest := by
  obtain ⟨t, hbalanced, -, -, hcommas, hcomments⟩ := value
  have hspace : step normalize ⟨.value, .code, {}, name, [], m⟩ behind ' ' (t ++ rest) =
      ⟨.value, .code, {}, name, [' '], m⟩ := rfl
  have hb : (' ' :: behind).head? ≠ some '\\' := by simp
  have hcovers : Covers (fun x => x = (',', .code) ∨ x.2 = .comment) {}
      (Region.code.roles [] t) := by
    rintro front hfront x hx (rfl | hcomment) hreads
    · exact hcommas front hfront hx ((atTop_iff front).mpr hreads)
    · exact hcomments front hfront (by rw [hx, Option.map_some, hcomment])
        ((atTop_iff front).mpr hreads)
  rw [run, hspace]
  exact run_value_within normalize hb hr [' '] hbalanced.closed
    ((atTop_iff _).mp hbalanced.balanced) hcovers

/-! ### Items -/

theorem default?_nil (normalize : Bool) : default? normalize [] = none := by
  cases normalize <;> rfl

theorem default?_value (value : Value) :
    default? false (' ' :: value.text) = some (dedent value.text) := by
  have hne := dedent_ne_nil value.valid.nonempty value.valid.trimmed
  unfold default?
  rw [dedent_space_cons]
  cases hd : dedent value.text with
  | nil => exact absurd hd hne
  | cons c t => rfl

theorem default?_value_space (value : Value) :
    default? false (' ' :: (value.text ++ [' '])) = some (dedent value.text) := by
  have htrim := trim_append_blank value.valid.trimmed value.valid.nonempty
    (show isBlank [' '] = true by decide)
  have hdedent : dedent (' ' :: (value.text ++ [' '])) = dedent (' ' :: value.text) := by
    simp only [dedent, trim_space_cons, htrim, value.valid.trimmed]
  rw [← default?_value, default?, default?, hdedent]

/-- The item being read can end here, also with a space behind it, and then the bindings are `m`. -/
structure Ends (s : Scan) (m : OrderedMap Text (Option Text)) : Prop where
  complete : s.complete false = { bindings := m }
  comma : ∀ behind rest, s.step false behind ',' rest = s.complete false
  space : ∀ behind rest, (s.step false behind ' ' rest).complete false = { bindings := m }

theorem ends_rest (m : OrderedMap Text (Option Text)) : Ends ⟨.rest, .code, {}, [], [], m⟩ m :=
  ⟨rfl, fun _ _ => rfl, fun _ _ => rfl⟩

/-- A space before or behind a name means nothing. -/
theorem step_name_space (name : Text) (m : OrderedMap Text (Option Text)) (behind rest : Text) :
    step false ⟨.name, .code, {}, name, [], m⟩ behind ' ' rest =
      ⟨.name, .code, {}, name, [], m⟩ := by
  simp [step, stepName, stepNameCode, Region.comment?, isQuote,
    show isIdentChar ' ' = false by decide]

theorem ends_name (n : Identifier) (m : OrderedMap Text (Option Text)) :
    Ends ⟨.name, .code, {}, n.text.reverse, [], m⟩ (m.insert n.text none) := by
  have hcomplete : complete false ⟨.name, .code, {}, n.text.reverse, [], m⟩ =
      { bindings := m.insert n.text none } := by simp [Scan.complete, n.ne_nil, default?_nil]
  refine ⟨hcomplete, fun _ _ => rfl, fun _ _ => ?_⟩
  rw [step_name_space, hcomplete]

theorem ends_target (n : Identifier) (m : OrderedMap Text (Option Text)) :
    Ends ⟨.alias, .code, {}, n.text.reverse, [], m⟩ (m.insert n.text none) := by
  have hcomplete : complete false ⟨.alias, .code, {}, n.text.reverse, [], m⟩ =
      { bindings := m.insert n.text none } := by simp [Scan.complete, n.ne_nil, default?_nil]
  exact ⟨hcomplete, fun _ _ => rfl, fun _ _ => hcomplete⟩

theorem ends_value (n : Identifier) (value : Value) (m : OrderedMap Text (Option Text)) :
    Ends ⟨.value, .code, {}, n.text.reverse, value.text.reverse ++ [' '], m⟩
      (m.insert n.text (some (dedent value.text))) := by
  refine ⟨?_, fun _ _ => rfl, fun _ _ => ?_⟩
  · simp [Scan.complete, n.ne_nil, default?_value]
  · change complete false ⟨.value, .code, {}, n.text.reverse,
      ' ' :: (value.text.reverse ++ [' ']), m⟩ = _
    simp [Scan.complete, n.ne_nil, default?_value_space]

theorem run_rest_item (n : Identifier) (m : OrderedMap Text (Option Text)) (behind rest : Text) :
    run false { bindings := m } behind ((Item.rest n).print ++ rest) =
      run false ⟨.rest, .code, {}, [], [], m⟩ ((Item.rest n).print.reverse ++ behind) rest := by
  have hdot : step false { bindings := m } behind '.' ('.' :: '.' :: (n.text ++ rest)) =
      ⟨.rest, .code, {}, [], [], m⟩ := by
    simp [step, stepName, stepNameCode, Region.comment?, isQuote]
  have hidle : ∀ c ∈ '.' :: '.' :: n.text, IsIdle c := by
    intro c hc
    rcases List.mem_cons.mp hc with rfl | hc
    · decide
    rcases List.mem_cons.mp hc with rfl | hc
    · decide
    · exact isIdle_of_isIdentChar (n.isIdentChar_of_mem hc)
  have htail := run_rest_idle false (m := m) hidle ('.' :: behind) rest
  simp only [Item.print, List.cons_append] at htail ⊢
  rw [run, hdot, htail]
  simp

theorem run_bound_name (n : Identifier) (m : OrderedMap Text (Option Text)) (behind rest : Text) :
    run false { bindings := m } behind (n.text ++ rest) =
      run false ⟨.name, .code, {}, n.text.reverse, [], m⟩ (n.text.reverse ++ behind) rest := by
  have hrun := run_name false (m := m) (fun c hc => n.isIdentChar_of_mem hc) [] behind rest
  rwa [List.append_nil] at hrun

/-- A colon after the name leads to the target. -/
theorem run_printed_target (n : Identifier) (target : Target) (m : OrderedMap Text (Option Text))
    (behind rest : Text) :
    run false ⟨.name, .code, {}, n.text.reverse, [], m⟩ behind
        (Item.printTarget (some target) ++ rest) =
      run false ⟨.alias, .code, {}, n.text.reverse, [], m⟩
        ((Item.printTarget (some target)).reverse ++ behind) rest := by
  have hcolon : step false ⟨.name, .code, {}, n.text.reverse, [], m⟩ behind ':'
      (' ' :: (target.print ++ rest)) = ⟨.alias, .code, {}, n.text.reverse, [], m⟩ := by
    simp [step, stepName, stepNameCode, Region.comment?, isQuote, n.ne_nil,
      show isIdentChar ':' = false by decide]
  have hspace : IsIdle ' ' := by decide
  simp only [Item.printTarget, List.cons_append]
  rw [run, hcolon, run, step_target_idle false hspace, run_target]
  simp

/-- An equals sign after the name or its target leads to the value. -/
theorem run_printed_default {mode : Mode} (n : Identifier) (value : Value)
    (m : OrderedMap Text (Option Text)) (hmode : mode = .name ∨ mode = .alias) (behind : Text)
    {rest : Text} (hr : EndsSlash rest) :
    run false ⟨mode, .code, {}, n.text.reverse, [], m⟩ behind
        (Item.printDefault (some value) ++ rest) =
      run false ⟨.value, .code, {}, n.text.reverse, value.text.reverse ++ [' '], m⟩
        ((Item.printDefault (some value)).reverse ++ behind) rest := by
  have hspace : ∀ rest, step false ⟨mode, .code, {}, n.text.reverse, [], m⟩ behind ' ' rest =
      ⟨mode, .code, {}, n.text.reverse, [], m⟩ := by
    intro rest
    rcases hmode with rfl | rfl
    · exact step_name_space _ _ _ _
    · exact step_target_idle false (by decide) {} behind rest
  have hequals : ∀ behind rest, step false ⟨mode, .code, {}, n.text.reverse, [], m⟩ behind '='
      rest = ⟨.value, .code, {}, n.text.reverse, [], m⟩ := by
    intro behind rest
    rcases hmode with rfl | rfl
    · simp [step, stepName, stepNameCode, Region.comment?, isQuote, n.ne_nil,
        show isIdentChar '=' = false by decide]
    · rfl
  simp only [Item.printDefault, List.cons_append]
  rw [run, hspace, run, hequals, run_value false value _ hr]
  simp

/-- The bindings after one more item. -/
def enter (m : OrderedMap Text (Option Text)) (item : Item) : OrderedMap Text (Option Text) :=
  match item.entry? with
  | none => m
  | some e => m.insert e.1 e.2

/-- Reading an item ends where the item ends. -/
theorem run_item (item : Item) (m : OrderedMap Text (Option Text)) (behind : Text) {rest : Text}
    (hr : EndsSlash rest) :
    ∃ s, run false { bindings := m } behind (item.print ++ rest) =
        run false s (item.print.reverse ++ behind) rest ∧ Ends s (enter m item) := by
  cases item with
  | rest n => exact ⟨_, run_rest_item n m behind rest, ends_rest m⟩
  | bind n target default =>
      cases target with
      | none =>
          cases default with
          | none =>
              refine ⟨_, ?_, ends_name n m⟩
              simp only [Item.print, Item.printTarget, Item.printDefault, List.append_nil]
              rw [run_bound_name]
          | some value =>
              refine ⟨_, ?_, ends_value n value m⟩
              simp only [Item.print, Item.printTarget, List.nil_append, List.reverse_append,
                List.append_assoc]
              rw [run_bound_name, run_printed_default n value m (Or.inl rfl) _ hr]
      | some target =>
          cases default with
          | none =>
              refine ⟨_, ?_, ends_target n m⟩
              simp only [Item.print, Item.printDefault, List.append_nil, List.reverse_append,
                List.append_assoc]
              rw [run_bound_name, run_printed_target]
          | some value =>
              refine ⟨_, ?_, ends_value n value m⟩
              simp only [Item.print, List.reverse_append, List.append_assoc]
              rw [run_bound_name, run_printed_target,
                run_printed_default n value m (Or.inr rfl) _ hr]

theorem printAll_cons_cons (item next : Item) (items : List Item) :
    Item.printAll (item :: next :: items) =
      item.print ++ (',' :: ' ' :: Item.printAll (next :: items)) := by
  simp [Item.printAll, List.intercalate_cons_cons]

/-- Reading a list of items takes them up one after another. A space may stand behind the last. -/
theorem run_printAll (items : List Item) (m : OrderedMap Text (Option Text)) (behind : Text)
    {trail : Text} (htrail : trail = [] ∨ trail = [' ']) :
    ((run false { bindings := m } behind (Item.printAll items ++ trail)).complete false).bindings =
      items.foldl enter m := by
  have hends : EndsSlash trail := by rcases htrail with rfl | rfl <;> decide
  induction items generalizing m behind with
  | nil =>
      rcases htrail with rfl | rfl
      · rfl
      · change (complete false (step false { bindings := m } behind ' ' [])).bindings = m
        rw [step_name_space]
        rfl
  | cons item items ih =>
      cases items with
      | nil =>
          obtain ⟨s, hrun, hitem⟩ := run_item item m behind hends
          have hprint : Item.printAll [item] = item.print := by simp [Item.printAll]
          rw [hprint, hrun]
          rcases htrail with rfl | rfl
          · rw [run, hitem.complete]
            rfl
          · rw [run, run, hitem.space]
            rfl
      | cons next items =>
          have hcomma : EndsSlash (',' :: ' ' :: (Item.printAll (next :: items) ++ trail)) :=
            endsSlash_cons (by decide) _
          obtain ⟨s, hrun, hitem⟩ := run_item item m behind hcomma
          have hprint : Item.printAll (item :: next :: items) ++ trail =
              item.print ++ ',' :: ' ' :: (Item.printAll (next :: items) ++ trail) := by
            simp [printAll_cons_cons]
          rw [hprint, hrun, run, hitem.comma, hitem.complete, run, step_name_space, ih]
          rfl

theorem foldl_enter (items : List Item) (m : OrderedMap Text (Option Text)) :
    items.foldl enter m = m.insertAll (items.filterMap Item.entry?) := by
  induction items generalizing m with
  | nil => rfl
  | cons item items ih =>
      rw [List.foldl_cons, ih]
      cases he : item.entry? with
      | none => simp [enter, he]
      | some e => simp [enter, he, OrderedMap.insertAll]

end Scan

theorem scan_printAll (items : List Item) :
    scan false (Item.printAll items) = OrderedMap.ofList (items.filterMap Item.entry?) := by
  have hrun := Scan.run_printAll items .empty [] (Or.inl rfl)
  rw [List.append_nil] at hrun
  rw [scan, hrun, Scan.foldl_enter]
  rfl

/-- The spaces within the curly brackets of a pattern mean nothing. -/
theorem scan_padded (items : List Item) :
    scan false (' ' :: (Item.printAll items ++ [' '])) =
      OrderedMap.ofList (items.filterMap Item.entry?) := by
  rw [scan, Scan.run, Scan.step_name_space, Scan.run_printAll items _ _ (Or.inr rfl),
    Scan.foldl_enter]
  rfl

/-- The scanner undoes printing: it finds each name that an item binds once, in the order of first
occurrence and with the default value of its last occurrence, and it finds nothing else. -/
theorem ofPattern_printAll (items : List Item) :
    ofPattern false (Item.printAll items) =
      (Item.names items).eraseDups.map fun name => ⟨name, Item.lastDefault items name⟩ := by
  have hlist := OrderedMap.entries_eq_map_keys (OrderedMap.ofList (items.filterMap Item.entry?))
  have hkeys := OrderedMap.keys_ofList (items.filterMap Item.entry?)
  have hbindings := congrArg (List.map fun p => (⟨p.1, p.2.join⟩ : Binding)) hlist
  rw [hkeys, List.map_map, List.map_map] at hbindings
  rw [ofPattern, scan_printAll]
  refine hbindings.trans (List.map_congr_left fun name _ => ?_)
  simp only [Function.comp_apply, OrderedMap.get?_ofList, Item.lastDefault, Binding.mk.injEq,
    true_and]
  cases (items.filterMap Item.entry?).reverse.find? fun e => decide (e.1 = name) <;> rfl

end ComponentProps.Binding
