import ComponentProps.Proofs.CommentedAliases
import ComponentProps.Proofs.ScriptReading
import ComponentProps.Proofs.Uniting

/-!
# Comments in scripts

A comment behind an operand of a type expression makes no difference to the props of a component if
the operand is told by its beginning alone: a local type with type arguments, or a body. The comment
becomes part of the text of the operand, so what is declared changes, but nothing that is resolved.
Behind a plain name the text with the comment is taken for a type that is not declared.
-/

namespace ComponentProps

open Text Cursor

/-! ### Scripts that agree -/

/-- Two tables against which every annotation is resolved to the same. -/
def TypeTable.ResolvesAlike (style : Member.Style) (table other : TypeTable) : Prop :=
  ∀ ascription, (resolve style table ascription).members = (resolve style other ascription).members ∧
    (resolve style table ascription).inherits = (resolve style other ascription).inherits

/-- Two intake statements say the same, up to parts of their annotations that are resolved alike. -/
def ContentsAlike (style : Member.Style) (table : TypeTable) :
    Option (Text × Option Text) → Option (Text × Option Text) → Prop :=
  Option.Rel fun x y => x.1 = y.1 ∧ AnnotationsAlike style table x.2 y.2

theorem contentsAlike_refl (style : Member.Style) (table : TypeTable)
    (content : Option (Text × Option Text)) : ContentsAlike style table content content := by
  cases content with
  | none => exact .none
  | some x => exact .some ⟨rfl, annotationsAlike_refl style table x.2⟩

theorem rel_of_map {α β : Type} {R : β → β → Prop} {f : α → β} {x y : Option α}
    (h : Option.Rel R (x.map f) (y.map f)) : Option.Rel (fun a b => R (f a) (f b)) x y := by
  cases x <;> cases y <;> cases h
  · exact .none
  · rename_i hrel
    exact .some hrel

/-- What is found first in lists that differ in one element is related if what is found in that
element is. -/
theorem rel_findSome? {α β : Type} {R : β → β → Prop} (hrefl : ∀ b, R b b) {f : α → Option β}
    {x y : α} (h : Option.Rel R (f x) (f y)) (front back : List α) :
    Option.Rel R ((front ++ x :: back).findSome? f) ((front ++ y :: back).findSome? f) := by
  have hsame : ∀ found : Option β, Option.Rel R found found := by
    intro found
    cases found with
    | none => exact .none
    | some b => exact .some (hrefl b)
  rw [List.findSome?_append, List.findSome?_append, List.findSome?_cons, List.findSome?_cons]
  cases front.findSome? f with
  | some b => exact .some (hrefl b)
  | none =>
      generalize f x = found at h ⊢
      generalize f y = found' at h ⊢
      cases h with
      | none => exact hsame _
      | some hrel => exact .some hrel

/-- Two intake statements with the same pattern whose annotations are resolved to the same. -/
structure Intake.Agrees (settings : Settings) (scripts scripts' : List Text) (i i' : Intake) :
    Prop where
  pattern : i.pattern = i'.pattern
  members : (i.resolved settings scripts).members = (i'.resolved settings scripts').members
  inherits : (i.resolved settings scripts).inherits = (i'.resolved settings scripts').inherits

section

variable {settings : Settings} {front back : List Text} {script script' : Text}
  (htable : TypeTable.ResolvesAlike settings.memberStyle
    (TypeTable.ofScripts settings.memberStyle (front ++ script :: back))
    (TypeTable.ofScripts settings.memberStyle (front ++ script' :: back)))

include htable

theorem Intake.agrees_of_alike {i i' : Intake} (hpattern : i.pattern = i'.pattern)
    (h : AnnotationsAlike settings.memberStyle
      (TypeTable.ofScripts settings.memberStyle (front ++ script' :: back)) i.ascription
        i'.ascription) :
    i.Agrees settings (front ++ script :: back) (front ++ script' :: back) i' := by
  have hresolved : (i.resolved settings (front ++ script :: back)).members =
        (i'.resolved settings (front ++ script' :: back)).members ∧
      (i.resolved settings (front ++ script :: back)).inherits =
        (i'.resolved settings (front ++ script' :: back)).inherits := by
    unfold resolved
    generalize i.ascription = a at h ⊢
    generalize i'.ascription = a' at h ⊢
    cases h with
    | none => exact ⟨rfl, rfl⟩
    | @some a a' hparts =>
        have halike := resolve_of_alike hparts
        exact ⟨(htable a).1.trans halike.1, (htable a).2.trans halike.2⟩
  exact ⟨hpattern, hresolved.1, hresolved.2⟩

/-- Components with scripts that declare and say alike have the same props. -/
theorem PropSheet.ofScripts_of_alike (hcontent : ContentsAlike settings.memberStyle
      (TypeTable.ofScripts settings.memberStyle (front ++ script' :: back))
      (Intake.contentFrom? settings.intakeCall (ofText script))
      (Intake.contentFrom? settings.intakeCall (ofText script'))) :
    ofScripts settings (front ++ script :: back) = ofScripts settings (front ++ script' :: back) := by
  have hfound : Option.Rel (Intake.Agrees settings (front ++ script :: back)
      (front ++ script' :: back)) (Intake.find? settings.intakeCall script)
        (Intake.find? settings.intakeCall script') := by
    have hrel := rel_of_map hcontent
    change Option.Rel _ (Intake.find? settings.intakeCall script)
      (Intake.find? settings.intakeCall script') at hrel
    generalize Intake.find? settings.intakeCall script = found at hrel ⊢
    generalize Intake.find? settings.intakeCall script' = found' at hrel ⊢
    cases hrel with
    | none => exact .none
    | some hsame => exact .some (Intake.agrees_of_alike htable hsame.1 hsame.2)
  have hfirst := rel_findSome? (fun i => Intake.agrees_of_alike (i := i) htable rfl
    (annotationsAlike_refl _ _ _)) hfound front back
  unfold ofScripts
  generalize (front ++ script :: back).findSome? (Intake.find? settings.intakeCall) = found
    at hfirst ⊢
  generalize (front ++ script' :: back).findSome? (Intake.find? settings.intakeCall) = found'
    at hfirst ⊢
  cases hfirst with
  | none => rfl
  | some hagrees =>
      dsimp only
      rw [ofIntake_eq_unite, ofIntake_eq_unite, hagrees.pattern, hagrees.members, hagrees.inherits]

end

/-! ### Tables that agree -/

theorem Operand.IsKept.of_keys {style : Member.Style} {table other : TypeTable} {p : Operand}
    (h : p.IsKept style table) (hkeys : other.keys = table.keys) : p.IsKept style other := by
  cases h with
  | applied hmem => exact .applied (hkeys ▸ hmem)
  | body hclosed => exact .body hclosed

namespace NotedLink

variable {style : Member.Style} {separators : List Char} {x : NotedLink separators}
  {ds es : List TypeDeclaration}

/-- Declarations that are the same once an operand with its comment is replaced by the operand are
resolved alike. A body must not be a parent of one type both with the comment and without it. -/
theorem resolvesAlike (hkept : x.operand.IsKept style (es.foldl TypeTable.declare .empty))
    (hsame : ds.map (·.replaceParent x.part x.operand.print) =
      es.map (·.replaceParent x.part x.operand.print))
    (hapart : x.operand.isBody = true →
      (ds.foldl TypeTable.declare .empty).IsApart x.part x.operand.print ∧
        (es.foldl TypeTable.declare .empty).IsApart x.part x.operand.print) :
    TypeTable.ResolvesAlike style (ds.foldl TypeTable.declare .empty)
      (es.foldl TypeTable.declare .empty) := by
  have hnames : ∀ cs : List TypeDeclaration,
      (cs.map (·.replaceParent x.part x.operand.print)).map TypeDeclaration.name =
        cs.map TypeDeclaration.name := by
    intro cs
    rw [List.map_map]
    rfl
  have hkeys : (ds.foldl TypeTable.declare .empty).keys =
      (es.foldl TypeTable.declare .empty).keys := by
    rw [TypeTable.keys_foldl_declare, TypeTable.keys_foldl_declare, ← hnames ds, hsame, hnames]
  have hreplace : ∀ cs : List TypeDeclaration,
      x.operand.IsKept style (cs.foldl TypeTable.declare .empty) →
      (x.operand.isBody = true →
        (cs.foldl TypeTable.declare .empty).IsApart x.part x.operand.print) →
      TypeTable.ResolvesAlike style (cs.foldl TypeTable.declare .empty)
        ((cs.map (·.replaceParent x.part x.operand.print)).foldl TypeTable.declare .empty) := by
    intro cs hkept hapart
    refine TypeTable.resolve_replaceParent hkept.alike ?_
    rw [hkept.alike.localName?]
    generalize x.operand = p at hkept hapart
    cases hkept with
    | applied hmem =>
        refine Or.inl ?_
        rw [Operand.print, localName?_applied hmem]
        simp
    | body => exact Or.inr (hapart rfl)
  -- Both tables are compared with the one in which the operand stands without its comment.
  have hbefore := hreplace ds (hkept.of_keys hkeys) fun hbody => (hapart hbody).1
  have hafter := hreplace es hkept fun hbody => (hapart hbody).2
  rw [hsame] at hbefore
  exact fun ascription => ⟨(hbefore ascription).1.trans (hafter ascription).1.symm,
    (hbefore ascription).2.trans (hafter ascription).2.symm⟩

end NotedLink

/-! ### Statements with a comment -/

/-- A text that begins with a word. -/
def Text.StartsWord (t : Text) : Prop := ∃ n : Identifier, ∃ rest, t = n.text ++ rest

/-- The beginning of a script before a statement. What is found there does not depend on the statement
and what follows it. -/
structure IsPrelude (settings : Settings) (before : Text) : Prop where
  alone : standsAlone before.reverse = true
  declarations : ∃ ds, ∀ t, StartsWord t → TypeDeclaration.all settings.memberStyle (before ++ t) =
    ds ++ TypeDeclaration.allFrom settings.memberStyle ⟨before.reverse, t⟩
  intake : ∃ found : Option (Text × Option Text), ∀ t, StartsWord t →
    Intake.contentFrom? settings.intakeCall (ofText (before ++ t)) =
      found.or (Intake.contentFrom? settings.intakeCall ⟨before.reverse, t⟩)

/-- What is found in a text, be it declarations or intake statements, does not reach beyond it. -/
def KeepsToItself (settings : Settings) (t : Text) : Prop :=
  IsSealed (TypeDeclaration.allFrom settings.memberStyle) t ∧
    IsSealed (Intake.contentFrom? settings.intakeCall) t

/-- The texts between the brackets of an operand. -/
def Operand.enclosed : Operand → List Text
  | .name _ => []
  | .applied _ arguments _ _ => [arguments]
  | .body inner _ => [inner]

theorem Operand.isSealed_of_enclosed {α : Type} {search : Cursor → α} {p : Operand}
    (h : ∀ t ∈ p.enclosed, ComponentProps.IsSealed search t) : p.IsSealed search := by
  cases p with
  | name n => trivial
  | applied n arguments valid last => exact h _ (by simp [enclosed])
  | body inner valid => exact h _ (by simp [enclosed])

/-- A statement up to an operator of its type expression, with a comment before the operator: a
destructuring assignment with an annotation, an interface with an `extends` clause of references, or
an alias. -/
inductive Statement
  | assignment (head : AnnotationHead) (spot : Spot typeOperators)
  | clause (head : ClauseHead) (spot : Spot [',']) (apart : spot.lead.text ≠ [])
      (references : ∀ x ∈ spot.links, x.operand.isBody = false)
  | aliasSide (head : AliasHead) (spot : Spot aliasSigns)

namespace Statement

def text : Statement → Text
  | .assignment head spot => head.text ++ spot.print
  | .clause head spot _ _ => head.text ++ spot.print
  | .aliasSide head spot => head.text ++ spot.print

/-- The statement without the comment. -/
def plain : Statement → Statement
  | .assignment head spot => .assignment head spot.plain
  | .clause head spot apart references =>
    .clause head spot.plain apart (spot.isBody_plain references)
  | .aliasSide head spot => .aliasSide head spot.plain

/-- The operand before the comment. -/
def operand : Statement → Operand
  | .assignment _ spot => spot.link.operand
  | .clause _ spot _ _ => spot.link.operand
  | .aliasSide _ spot => spot.link.operand

/-- The operand with the comment. -/
def part : Statement → Text
  | .assignment _ spot => spot.link.part
  | .clause _ spot _ _ => spot.link.part
  | .aliasSide _ spot => spot.link.part

/-- The texts between brackets: the pattern, type arguments and bodies. -/
def enclosed : Statement → List Text
  | .assignment head spot => head.pattern :: spot.links.flatMap (·.operand.enclosed)
  | .clause _ spot _ _ => spot.links.flatMap (·.operand.enclosed)
  | .aliasSide _ spot => spot.links.flatMap (·.operand.enclosed)

/-- In an alias no line feed stands between an operand and a comment. -/
def IsTied : Statement → Prop
  | .aliasSide _ spot => ∀ x ∈ spot.links, x.IsTied
  | _ => True

/-- An alias may list the body before the comment among its parents, by its text. -/
def ListsBody : Statement → Prop
  | .aliasSide _ spot => spot.link.operand.isBody = true
  | _ => False

theorem startsWord_text (st : Statement) (rest : Text) : StartsWord (st.text ++ rest) := by
  cases st with
  | assignment head spot =>
      exact ⟨head.keyword, head.afterKeyword ++ (spot.print ++ rest), by
        simp [text, AnnotationHead.text]⟩
  | clause head spot =>
      exact ⟨Component.interfaceWord, head.afterKeyword ++ (spot.print ++ rest), by
        simp [text, ClauseHead.text]⟩
  | aliasSide head spot =>
      exact ⟨Component.typeWord, head.afterKeyword ++ (spot.print ++ rest), by
        simp [text, AliasHead.text]⟩

theorem isSealed_of_keeps {α : Type} {separators : List Char} {links : List (NotedLink separators)}
    {search : Cursor → α}
    (h : ∀ t ∈ links.flatMap (·.operand.enclosed), ComponentProps.IsSealed search t) :
    ∀ x ∈ links, x.operand.IsSealed search :=
  fun x hx => Operand.isSealed_of_enclosed fun t ht => h t (List.mem_flatMap.mpr ⟨x, hx, ht⟩)

variable {settings : Settings} {before : Text} (hbefore : IsPrelude settings before) {st : Statement}
  (hsealed : ∀ t ∈ st.enclosed, KeepsToItself settings t)

include hbefore hsealed

/-- The intake statement says the same with the comment and without it, up to parts of its annotation
that are resolved alike. -/
theorem contentsAlike {table : TypeTable}
    (halike : Alike settings.memberStyle table st.part st.operand.print) (rest : Text) :
    ContentsAlike settings.memberStyle table
      (Intake.contentFrom? settings.intakeCall (ofText (before ++ (st.text ++ rest))))
      (Intake.contentFrom? settings.intakeCall (ofText (before ++ (st.plain.text ++ rest)))) := by
  obtain ⟨found, hfound⟩ := hbefore.intake
  rw [hfound _ (st.startsWord_text rest), hfound _ (st.plain.startsWord_text rest)]
  cases found with
  | some content =>
      -- The first intake statement comes before this statement.
      exact contentsAlike_refl _ _ _
  | none =>
      rw [Option.none_or, Option.none_or]
      cases st with
      | assignment head spot =>
          rw [enclosed, List.forall_mem_cons] at hsealed
          simp only [plain, text, List.append_assoc]
          exact Intake.contentFrom?_assignment head hsealed.1.2
            (isSealed_of_keeps fun t ht => (hsealed.2 t ht).2) halike hbefore.alone rest
      | clause head spot apart references =>
          simp only [plain, text, List.append_assoc]
          rw [Intake.contentFrom?_clause head apart references
              (isSealed_of_keeps fun t ht => (hsealed t ht).2) hbefore.alone rest]
          exact contentsAlike_refl _ _ _
      | aliasSide head spot =>
          simp only [plain, text, List.append_assoc]
          rw [Intake.contentFrom?_alias head
              (isSealed_of_keeps fun t ht => (hsealed t ht).2) hbefore.alone rest]
          exact contentsAlike_refl _ _ _

omit hsealed

theorem all_assignment {head : AnnotationHead} {spot : Spot typeOperators}
    (hsealed : ∀ t ∈ (assignment head spot).enclosed, KeepsToItself settings t) (rest : Text) :
    TypeDeclaration.all settings.memberStyle (before ++ ((assignment head spot).text ++ rest)) =
      TypeDeclaration.all settings.memberStyle
        (before ++ ((assignment head spot).plain.text ++ rest)) := by
  obtain ⟨ds, hds⟩ := hbefore.declarations
  rw [hds _ (startsWord_text _ rest), hds _ (startsWord_text _ rest)]
  rw [enclosed, List.forall_mem_cons] at hsealed
  simp only [plain, text, List.append_assoc]
  rw [TypeDeclaration.allFrom_assignment head hsealed.1.1
    (isSealed_of_keeps fun t ht => (hsealed.2 t ht).1) hbefore.alone rest]

include hsealed

/-- The scripts declare the same with the comment and without it, up to the parent with the
comment. -/
theorem map_replaceParent_all (htied : st.IsTied) (rest : Text) :
    (TypeDeclaration.all settings.memberStyle (before ++ (st.text ++ rest))).map
        (·.replaceParent st.part st.operand.print) =
      (TypeDeclaration.all settings.memberStyle (before ++ (st.plain.text ++ rest))).map
        (·.replaceParent st.part st.operand.print) := by
  obtain ⟨ds, hds⟩ := hbefore.declarations
  cases st with
  | assignment head spot => rw [all_assignment hbefore hsealed]
  | clause head spot apart references =>
      rw [hds _ (startsWord_text _ rest), hds _ (startsWord_text _ rest), List.map_append,
        List.map_append]
      simp only [plain, text, List.append_assoc]
      exact congrArg _ (TypeDeclaration.allFrom_clause head apart references
        (isSealed_of_keeps fun t ht => (hsealed t ht).1) hbefore.alone rest)
  | aliasSide head spot =>
      rw [hds _ (startsWord_text _ rest), hds _ (startsWord_text _ rest), List.map_append,
        List.map_append]
      simp only [plain, text, List.append_assoc]
      exact congrArg _ (TypeDeclaration.allFrom_alias _ head htied hbefore.alone rest)

/-- Every annotation is resolved alike with the comment and without it. -/
theorem resolvesAlike (htied : st.IsTied) (rest : Text) (front back : List Text)
    (hkept : st.operand.IsKept settings.memberStyle (TypeTable.ofScripts settings.memberStyle
      (front ++ (before ++ (st.plain.text ++ rest)) :: back)))
    (hapart : st.ListsBody → ∀ t ∈ [st.text, st.plain.text],
      (TypeTable.ofScripts settings.memberStyle (front ++ (before ++ (t ++ rest)) :: back)).IsApart
        st.part st.operand.print) :
    TypeTable.ResolvesAlike settings.memberStyle
      (TypeTable.ofScripts settings.memberStyle (front ++ (before ++ (st.text ++ rest)) :: back))
      (TypeTable.ofScripts settings.memberStyle
        (front ++ (before ++ (st.plain.text ++ rest)) :: back)) := by
  have hscript := map_replaceParent_all hbefore hsealed htied rest
  have hsame : ((front ++ (before ++ (st.text ++ rest)) :: back).flatMap
      (TypeDeclaration.all settings.memberStyle)).map (·.replaceParent st.part st.operand.print) =
        ((front ++ (before ++ (st.plain.text ++ rest)) :: back).flatMap
          (TypeDeclaration.all settings.memberStyle)).map
            (·.replaceParent st.part st.operand.print) := by
    simp only [List.flatMap_append, List.flatMap_cons, List.map_append, hscript]
  cases st with
  | assignment head spot =>
      -- An assignment declares nothing, so the tables are the same.
      have hall := all_assignment hbefore hsealed rest
      have htable : ∀ t t', TypeDeclaration.all settings.memberStyle t =
          TypeDeclaration.all settings.memberStyle t' →
          TypeTable.ofScripts settings.memberStyle (front ++ t :: back) =
            TypeTable.ofScripts settings.memberStyle (front ++ t' :: back) := by
        intro t t' h
        simp only [TypeTable.ofScripts, List.flatMap_append, List.flatMap_cons, h]
      rw [htable _ _ hall]
      exact fun _ => ⟨rfl, rfl⟩
  | clause head spot apart references =>
      refine NotedLink.resolvesAlike hkept hsame fun hbody => absurd hbody ?_
      rw [references spot.link (by simp [Spot.links])]
      decide
  | aliasSide head spot =>
      refine NotedLink.resolvesAlike hkept hsame fun hbody => ?_
      have hboth := hapart hbody
      rw [List.forall_mem_cons, List.forall_mem_singleton] at hboth
      exact hboth

end Statement

/-- A comment behind an operand and before the operator that follows it makes no difference to the
props, if the operand is a local type with type arguments or a body that leaves nothing open. -/
theorem PropSheet.ofScripts_comment {settings : Settings} {before : Text}
    (hbefore : IsPrelude settings before) (st : Statement)
    (hsealed : ∀ t ∈ st.enclosed, KeepsToItself settings t) (htied : st.IsTied) (rest : Text)
    (front back : List Text)
    (hkept : st.operand.IsKept settings.memberStyle (TypeTable.ofScripts settings.memberStyle
      (front ++ (before ++ (st.plain.text ++ rest)) :: back)))
    (hapart : st.ListsBody → ∀ t ∈ [st.text, st.plain.text],
      (TypeTable.ofScripts settings.memberStyle (front ++ (before ++ (t ++ rest)) :: back)).IsApart
        st.part st.operand.print) :
    ofScripts settings (front ++ (before ++ (st.text ++ rest)) :: back) =
      ofScripts settings (front ++ (before ++ (st.plain.text ++ rest)) :: back) := by
  have halike : Alike settings.memberStyle (TypeTable.ofScripts settings.memberStyle
      (front ++ (before ++ (st.plain.text ++ rest)) :: back)) st.part st.operand.print := by
    cases st <;> exact hkept.alike
  exact ofScripts_of_alike (Statement.resolvesAlike hbefore hsealed htied rest front back hkept hapart)
    (Statement.contentsAlike hbefore hsealed halike rest)

/-- The search for the intake statement goes on at the next keyword. -/
theorem Intake.contentFrom?_congr (call : Text) {c c' : Cursor}
    (h : nextAmong? keywords .code c.behind c.ahead = nextAmong? keywords .code c'.behind c'.ahead) :
    contentFrom? call c = contentFrom? call c' := by
  rw [contentFrom?, findFrom?_eq, h, ← findFrom?_eq, contentFrom?]

/-- A text without keywords keeps to itself. -/
theorem keepsToItself_of_isPassage {settings : Settings} {t : Text}
    (hdeclarations : IsPassage declarationWords t) (hintake : IsPassage Intake.keywords t) :
    KeepsToItself settings t := by
  refine ⟨fun behind rest rest' hb hr hr' h => ?_, fun behind rest rest' hb hr hr' h => ?_⟩
  · rwa [TypeDeclaration.allFrom_passage hdeclarations hb hr,
      TypeDeclaration.allFrom_passage hdeclarations hb hr']
  · have hpass : ∀ rest, SignFirst rest → Intake.contentFrom? settings.intakeCall ⟨behind, t ++ rest⟩ =
        Intake.contentFrom? settings.intakeCall ⟨t.reverse ++ behind, rest⟩ :=
      fun rest hr => Intake.contentFrom?_congr _ (nextAmong?_passage hintake hb hr)
    rwa [hpass rest hr, hpass rest' hr']

/-- Printed declarations, each on a line, may come before a statement. -/
theorem isPrelude_lines (ds : List Component.Declaration) :
    IsPrelude {} (Component.printLines (ds.map Component.Declaration.print)) where
  alone := by
    have hsign := Component.signFirst_lines (ds.map Component.Declaration.print) signFirst_nil
    rw [List.append_nil] at hsign
    exact hsign.standsAlone
  declarations := by
    refine ⟨ds.map Component.Declaration.toTypeDeclaration, fun t _ => ?_⟩
    rw [← List.append_nil (Component.printLines _).reverse]
    exact Component.allFrom_lines ds signFirst_nil
  intake := by
    refine ⟨none, fun t _ => ?_⟩
    have hpass : ∀ u ∈ ds.map Component.Declaration.print, IsPassage Intake.keywords u := by
      intro u hu
      obtain ⟨d, -, rfl⟩ := List.mem_map.mp hu
      exact d.isPassage
    rw [Option.none_or, ← List.append_nil (Component.printLines _).reverse]
    exact Intake.contentFrom?_congr _ (Component.nextAmong?_lines hpass signFirst_nil)

/-- Steps that leave an empty agenda are a whole run. -/
theorem Resolution.run_of_iterate {style : Member.Style} {table : TypeTable} {r : Resolution} {n : Nat}
    (h : ((step style table)^[n] r).agenda = []) :
    r.run style table = (step style table)^[n] r := by
  induction n generalizing r with
  | zero =>
      have hdone : r.agenda = [] := h
      rw [run, dif_pos hdone]
      rfl
  | succ n ih =>
      rw [Function.iterate_succ_apply] at h ⊢
      by_cases hdone : r.agenda = []
      · have hstep : step style table r = r := by simp only [step, hdone]
        rw [hstep] at h ⊢
        exact ih h
      · rw [run, dif_neg hdone, ih h]

theorem isBlank_space : isBlank [' '] = true := by decide

/-- One space. -/
def Gap.space : Gap := ⟨[' '], isBlank_space⟩

theorem ampersand_mem_aliasSigns : '&' ∈ aliasSigns := by decide

/-- An interface on a line of its own. -/
def boxPrelude : Text :=
  Component.printLines ([.interface ⟨⟨"Box".toList, by decide⟩, by decide⟩ []
    [⟨⟨⟨"width".toList, by decide⟩, by decide⟩, false, .name ⟨"bigint".toList, by decide⟩,
      by decide⟩]].map Component.Declaration.print)

/-- A body with a line comment behind it. -/
def notedBody : NotedLink aliasSigns where
  operand := .body " size: 1 ".toList ⟨by decide, by decide, by decide⟩
  before := .space
  comment := some (.line " own".toList (by decide))
  gap := .space
  sign := '&'
  valid := ampersand_mem_aliasSigns
  after := .space

/-- A name with type arguments and a block comment behind it. -/
def notedBox : NotedLink aliasSigns where
  operand := .applied ⟨"Box".toList, by decide⟩ "T".toList ⟨by decide, by decide, by decide⟩
    (by decide)
  before := .space
  comment := some (.block " | \x7b\x7d ".toList (by decide))
  gap := .space
  sign := '&'
  valid := ampersand_mem_aliasSigns
  after := .space

/-- An alias with a comment behind its own body and another one behind a local type. -/
def notedAlias : Statement :=
  .aliasSide ⟨⟨[], .space⟩, ⟨"Panel".toList, by decide⟩, ⟨[], .space⟩, by decide⟩
    ⟨.space, [notedBody], notedBox⟩

/-- The last operand of the alias and the statement that hands over the props. -/
def notedRest : Text := "Outside\nlet \x7b width \x7d: Panel = $props()".toList

/-- The comment behind the local type makes no difference. -/
theorem PropSheet.ofScripts_comment_alias :
    boxPrelude ++ (notedAlias.text ++ notedRest) =
        ("interface Box \x7b width: bigint; \x7d\ntype Panel = \x7b size: 1 \x7d // own\n & Box<T>" ++
          " /* | \x7b\x7d */ & Outside\nlet \x7b width \x7d: Panel = $props()").toList ∧
      ofScripts {} [boxPrelude ++ (notedAlias.text ++ notedRest)] =
        ofScripts {} [boxPrelude ++ (notedAlias.plain.text ++ notedRest)] := by
  refine ⟨by decide +kernel, ofScripts_comment (isPrelude_lines _) notedAlias ?_ ?_ notedRest [] []
    (.applied (by decide +kernel)) nofun⟩
  · have henclosed : notedAlias.enclosed = [" size: 1 ".toList, "T".toList] := rfl
    rw [henclosed, List.forall_mem_cons, List.forall_mem_singleton]
    exact ⟨keepsToItself_of_isPassage ⟨by decide, by decide, by decide⟩ ⟨by decide, by decide, by decide⟩,
      keepsToItself_of_isPassage ⟨by decide, by decide, by decide⟩ ⟨by decide, by decide, by decide⟩⟩
  · have htied : ∀ x ∈ [notedBody, notedBox], x.IsTied := by
      rw [List.forall_mem_cons, List.forall_mem_singleton]
      exact ⟨fun _ => by decide, fun _ => by decide⟩
    exact htied

/-! ### Names with a comment -/

namespace TypeDeclaration

variable {style : Member.Style}

theorem isIdentChar_of_readName? {c : Cursor} {p : Text × Cursor} (h : readName? c = some p) :
    ∀ x ∈ p.1, isIdentChar x = true := by
  have hident : ∀ {c : Cursor} {q : Text × Cursor}, c.readIdent? = some q →
      ∀ x ∈ q.1, isIdentChar x = true := by
    intro c q hq
    unfold readIdent? at hq
    split at hq
    · contradiction
    · split at hq
      · cases hq
        exact fun x hx => List.mem_takeWhile_imp hx
      · contradiction
  unfold readName? at h
  split at h
  · contradiction
  · rename_i name place hread
    have hname := hident hread
    dsimp only at h
    split at h <;> cases h <;> exact hname

/-- The names declared are identifiers. -/
theorem isIdentChar_of_mem_allFrom {c : Cursor} {d : TypeDeclaration} (h : d ∈ allFrom style c) :
    ∀ x ∈ d.name, isIdentChar x = true := by
  have hread : ∀ {w : Word} {p : TypeDeclaration × Cursor}, read? style w = some p →
      ∀ x ∈ p.1.name, isIdentChar x = true := by
    intro w p hp
    unfold read? at hp
    split at hp
    · unfold readInterface? at hp
      obtain ⟨q, hname, hp⟩ := Option.bind_eq_some_iff.mp hp
      dsimp only at hp
      split at hp
      · cases hp
        exact isIdentChar_of_readName? hname
      · contradiction
    · split at hp
      · unfold readAlias? at hp
        obtain ⟨q, hname, hp⟩ := Option.bind_eq_some_iff.mp hp
        dsimp only at hp
        split at hp
        · cases hp
          exact isIdentChar_of_readName? hname
        · contradiction
      · contradiction
  induction c using allFrom.induct style with
  | case1 c hnone =>
      rw [allFrom_nextWord, hnone] at h
      contradiction
  | case2 c word hword declaration place hfound ih =>
      rw [allFrom_nextWord, hword] at h
      dsimp only at h
      rw [hfound] at h
      rcases List.mem_cons.mp h with rfl | h
      · exact hread hfound
      · exact ih h
  | case3 c word hword hnone ih =>
      rw [allFrom_nextWord, hword] at h
      dsimp only at h
      rw [hnone] at h
      exact ih h

end TypeDeclaration

theorem TypeTable.isIdentChar_of_mem_keys {style : Member.Style} {scripts : List Text} {name : Text}
    (h : name ∈ (ofScripts style scripts).keys) : ∀ x ∈ name, isIdentChar x = true := by
  rw [ofScripts, keys_foldl_declare, List.mem_eraseDups] at h
  obtain ⟨d, hd, rfl⟩ := List.mem_map.mp h
  obtain ⟨script, -, hd⟩ := List.mem_flatMap.mp hd
  exact TypeDeclaration.isIdentChar_of_mem_allFrom hd

/-- White space is all that is trimmed. -/
theorem Text.mem_dropWhile_isWhite {t : Text} {c : Char} (hc : isWhite c = false) (h : c ∈ t) :
    c ∈ t.dropWhile isWhite := by
  rw [← List.takeWhile_append_dropWhile (p := isWhite) (l := t), List.mem_append] at h
  refine h.resolve_left fun hwhite => ?_
  rw [List.mem_takeWhile_imp hwhite] at hc
  contradiction

theorem Text.mem_trimEnd {t : Text} {c : Char} (hc : isWhite c = false) (h : c ∈ t) :
    c ∈ trimEnd t :=
  List.mem_reverse.mpr (mem_dropWhile_isWhite hc (List.mem_reverse.mpr h))

namespace NotedLink

variable {separators : List Char} {x : NotedLink separators} {n : Identifier} {c : Comment}

theorem exists_part (hname : x.operand = .name n) (hcomment : x.comment = some c) :
    ∃ more, x.part = (n.text ++ x.before.text) ++ '/' :: more := by
  have hkept : ∃ more, c.kept = '/' :: more := by cases c <;> exact ⟨_, rfl⟩
  obtain ⟨more, hmore⟩ := hkept
  refine ⟨more, ?_⟩
  rw [part, trimEnd_pad hcomment, hname, hmore, Operand.print, List.append_assoc]

/-- The comment behind a plain name is not cut off as type arguments are. -/
theorem slash_mem_withoutArguments (hname : x.operand = .name n) (hcomment : x.comment = some c) :
    '/' ∈ withoutArguments x.part := by
  obtain ⟨more, hpart⟩ := exists_part hname hcomment
  have hvisible : isWhite '/' = false := by decide
  have hfront : ∀ d ∈ n.text ++ x.before.text, (d != '<') = true := by
    intro d hd
    rcases List.mem_append.mp hd with hd | hd
    · exact bne_iff_ne.mpr (ne_of_kind (n.isIdentChar_of_mem hd) rfl)
    · exact bne_iff_ne.mpr (ne_of_kind (List.all_eq_true.mp x.before.blank d hd) (by decide))
  rw [withoutArguments, hpart]
  split
  · refine mem_trimEnd hvisible ?_
    rw [List.takeWhile_append_of_pos hfront, List.takeWhile_cons_of_pos (by decide)]
    simp
  · exact mem_trimEnd hvisible (mem_dropWhile_isWhite hvisible (by simp))

end NotedLink

/-- Behind a plain name in an annotation, declared or not, the text with the comment is taken for an
outside type. -/
theorem Spot.part_mem_inherits {s : Spot typeOperators} {n : Identifier} {c : Comment}
    (hname : s.link.operand = .name n) (hcomment : s.link.comment = some c) (style : Member.Style)
    (scripts : List Text) (t : Text) :
    s.link.part ∈ (resolve style (TypeTable.ofScripts style scripts) (s.print ++ t)).inherits := by
  have hsign : s.link.sign ≠ '\\' := (isOperator_typeOperators _ s.link.valid).ne_escape
  obtain ⟨more, hpart⟩ := NotedLink.exists_part hname hcomment
  refine (mem_inherits_resolve_iff _ _ _ _).mpr ⟨.part ?_, ?_, fun hkey => ?_⟩
  · rw [topLevelParts_print (fun c hc => (Intake.isSeparator_typeOperators c hc).1) s hsign]
    simp
  · rw [hpart, List.append_assoc]
    exact n.isReference _
  · have hident := TypeTable.isIdentChar_of_mem_keys hkey '/'
      (NotedLink.slash_mem_withoutArguments hname hcomment)
    exact absurd hident (by decide)

theorem PropSheet.inherits_ofScripts {settings : Settings} {scripts : List Text} {a : Text}
    (h : (scripts.findSome? (Intake.find? settings.intakeCall)).bind Intake.ascription = some a) :
    (ofScripts settings scripts).inherits = (resolve settings.memberStyle
      (TypeTable.ofScripts settings.memberStyle scripts) a).inherits := by
  obtain ⟨intake, hintake, hascription⟩ := Option.bind_eq_some_iff.mp h
  rw [ofScripts, hintake]
  dsimp only
  rw [ofIntake_eq_unite, Intake.resolved, hascription]
  rfl

/-- A local type with a comment behind it. -/
def notedSpot : Spot typeOperators where
  lead := .space
  front := []
  link :=
    { operand := .name ⟨"Box".toList, by decide⟩
      before := .space
      comment := some (.block " c ".toList (by decide))
      gap := .space
      sign := '&'
      valid := by decide
      after := .space }

/-- An assignment with a comment behind a local type. -/
def notedAssignment : Statement :=
  .assignment ⟨Component.letWord, by decide, ⟨[], .space⟩, " width ".toList,
    ⟨by decide, by decide, by decide⟩, ⟨[], .none⟩⟩ notedSpot

/-- A comment behind the name of a local type makes an outside type of it. -/
theorem PropSheet.comment_hides_local_type :
    ¬ ∀ (settings : Settings) (before : Text) (st : Statement) (rest : Text),
      IsPrelude settings before → (∀ t ∈ st.enclosed, KeepsToItself settings t) → st.IsTied →
        ofScripts settings [before ++ (st.text ++ rest)] =
          ofScripts settings [before ++ (st.plain.text ++ rest)] := by
  intro hclaim
  have henclosed : ∀ t ∈ notedAssignment.enclosed, KeepsToItself {} t := by
    have hpattern : notedAssignment.enclosed = [" width ".toList] := rfl
    rw [hpattern, List.forall_mem_singleton]
    exact keepsToItself_of_isPassage ⟨by decide, by decide, by decide⟩ ⟨by decide, by decide, by decide⟩
  have hlisted : notedSpot.link.part ∈ (ofScripts {} [boxPrelude ++ (notedAssignment.text ++
      "Outside = $props()".toList)]).inherits := by
    rw [inherits_ofScripts (a := notedSpot.flush.print ++ "Outside".toList)
      (by decide +kernel)]
    exact notedSpot.flush.part_mem_inherits rfl rfl _ _ _
  have hplain : (ofScripts {} [boxPrelude ++ (notedAssignment.plain.text ++
      "Outside = $props()".toList)]).inherits = ["Outside".toList] := by
    rw [inherits_ofScripts (a := "Box  & Outside".toList) (by decide +kernel), resolve,
      Resolution.run_of_iterate (n := 3) (by decide +kernel)]
    decide +kernel
  rw [hclaim {} boxPrelude notedAssignment _ (isPrelude_lines _) henclosed trivial, hplain] at hlisted
  revert hlisted
  decide

end ComponentProps
