import ComponentProps.Proofs.CodePlaces
import ComponentProps.Proofs.KeywordSearch
import ComponentProps.Proofs.Reachability

/-!
# The type bodies of a component

Members come from two kinds of text: the bodies of the declarations that the scripts make, and the
bodies within the annotation of the intake statement. Whatever holds of the members of all these
bodies holds of every member that an annotation resolves to. If no literal of a script has a line
feed, none of these bodies has one either.
-/

namespace ComponentProps

open Text

/-! ### Declarations -/

theorem mem_foldl_addNew {xs acc : List Text} {x : Text} (h : x ∈ xs.foldl addNew acc) :
    x ∈ acc ∨ x ∈ xs := by
  induction xs generalizing acc with
  | nil => exact .inl h
  | cons y xs ih =>
      rcases ih h with hacc | hxs
      · rcases mem_addNew.mp hacc with hacc | rfl
        · exact .inl hacc
        · exact .inr List.mem_cons_self
      · exact .inr (List.mem_cons_of_mem y hxs)

namespace TypeDeclaration

/-- The text of the body of an interface, without its curly brackets, after the keyword. -/
def interfaceBody? (c : Cursor) : Option Text := do
  let (_, c) ← readName? c
  let c := (readExtends c).2
  if c.current? = some '{' then some (c.readGroup '{' '}').1 else none

/-- The text of the own body of a type alias, without its curly brackets, after the keyword. -/
def aliasBody? (c : Cursor) : Option Text := do
  let (_, c) ← readName? c
  if c.current? = some '=' && c.peek? 1 ≠ some '=' then
    let c := (c.advance.skipTrivia.capture endsAliasHead).2
    if c.current? = some '{' then some (c.readGroup '{' '}').1 else none
  else none

/-- The text of the body of the declaration that a word begins. -/
def body? (word : Cursor.Word) : Option Text :=
  if word.text = "interface".toList then interfaceBody? word.stop
  else if word.text = "type".toList then aliasBody? word.stop
  else none

/-- The word at which the search for declarations goes on: behind the declaration that a word
begins, or behind the word if it begins none. -/
def nextMet? (style : Member.Style) (word : Cursor.Word) : Option Cursor.Word :=
  ((read? style word).elim word.stop Prod.snd).nextWord?

/-- The words of a script at which a declaration is looked for, by their number. -/
def met? (style : Member.Style) (script : Text) : Nat → Option Cursor.Word
  | 0 => (Cursor.ofText script).nextWord?
  | n + 1 => (met? style script n).bind (nextMet? style)

/-- Behind the last word that is met no word is met. -/
theorem lt_of_met? {style : Member.Style} {script : Text} {n last : Nat} {word : Cursor.Word}
    (hlast : met? style script last = none) (h : met? style script n = some word) : n < last := by
  have hnone : ∀ k, met? style script (last + k) = none := by
    intro k
    induction k with
    | zero => exact hlast
    | succ k ih => exact congrArg (·.bind (nextMet? style)) ih
  by_contra hle
  obtain ⟨k, rfl⟩ := Nat.exists_eq_add_of_le (Nat.le_of_not_lt hle)
  rw [hnone k] at h
  contradiction

/-- Every declaration of a script begins with a word that is met. -/
theorem exists_met?_of_mem_all {style : Member.Style} {script : Text} {d : TypeDeclaration}
    (h : d ∈ all style script) :
    ∃ n word place, met? style script n = some word ∧ read? style word = some (d, place) := by
  have hfrom : ∀ c : Cursor,
      (∀ word, c.nextWord? = some word → ∃ n, met? style script n = some word) →
      d ∈ allFrom style c →
      ∃ n word place, met? style script n = some word ∧ read? style word = some (d, place) := by
    intro c hmet hmem
    induction c using allFrom.induct style with
    | case1 c hnone =>
        rw [allFrom_nextWord, hnone] at hmem
        contradiction
    | case2 c word hword declaration place hread ih =>
        obtain ⟨n, hn⟩ := hmet word hword
        rw [allFrom_nextWord, hword] at hmem
        dsimp only at hmem
        rw [hread, List.mem_cons] at hmem
        rcases hmem with rfl | hmem
        · exact ⟨n, word, place, hn, hread⟩
        · refine ih (fun next hnext => ⟨n + 1, ?_⟩) hmem
          rw [met?, hn, Option.bind_some, nextMet?, hread]
          exact hnext
    | case3 c word hword hread ih =>
        obtain ⟨n, hn⟩ := hmet word hword
        rw [allFrom_nextWord, hword] at hmem
        dsimp only at hmem
        rw [hread] at hmem
        refine ih (fun next hnext => ⟨n + 1, ?_⟩) hmem
        rw [met?, hn, Option.bind_some, nextMet?, hread]
        exact hnext
  exact hfrom _ (fun word hword => ⟨0, hword⟩) h

/-! ### Reading a declaration stays in code -/

theorem isPlain_extends {d : Char} (h : d ∈ "extends".toList) : IsPlain d := by
  have hall : "extends".toList.all isIdentChar = true := by decide +kernel
  exact isPlain_of_isIdentChar (List.all_eq_true.mp hall d h)

theorem exists_aliasSign {c : Cursor}
    (h : (c.current? = some '&' || c.current? = some '|') = true) :
    ∃ x, c.current? = some x ∧ IsSign x := by
  rcases (by simpa using h : c.current? = some '&' ∨ c.current? = some '|') with hsign | hsign
  · exact ⟨_, hsign, by decide⟩
  · exact ⟨_, hsign, by decide⟩

end TypeDeclaration

namespace Cursor.IsCourse

open TypeDeclaration (isPlain_extends exists_aliasSign endsAliasHead)

variable {r : Cursor → Cursor → Prop} (hr : IsCourse r)

include hr

theorem readName? {c : Cursor} {p : Text × Cursor}
    (h : TypeDeclaration.readName? c = some p) : r c p.2 := by
  unfold TypeDeclaration.readName? at h
  split at h
  · contradiction
  · rename_i name place hident
    have hplace : r c place.skipTrivia :=
      hr.trans (hr.trans (hr.skipTrivia c) (hr.readIdent? hident)) (hr.skipTrivia place)
    dsimp only at h
    split at h
    · obtain rfl := Option.some.inj h
      exact hr.trans (hr.trans hplace (hr.readGroup _ '<' '>')) (hr.skipTrivia _)
    · obtain rfl := Option.some.inj h
      exact hplace

theorem readExtends (c : Cursor) : r c (TypeDeclaration.readExtends c).2 := by
  unfold TypeDeclaration.readExtends
  split
  · rename_i hword
    exact hr.trans (hr.atWord hword fun d hd => isPlain_extends hd) (hr.capture _ _)
  · exact hr.refl c

theorem readAliasTail (c : Cursor) : r c (TypeDeclaration.readAliasTail c).2 := by
  unfold TypeDeclaration.readAliasTail
  dsimp only
  split
  · rename_i hsign
    obtain ⟨x, hx, hplain⟩ := exists_aliasSign hsign
    exact hr.trans (hr.trans (hr.skipTrivia c) (hr.advance hx hplain.1)) (hr.capture _ _)
  · exact hr.skipTrivia c

theorem readAliasSide (style : Member.Style) (c : Cursor) :
    r c (TypeDeclaration.readAliasSide style c).2 := by
  have hhead := hr.trans (hr.skipTrivia c) (hr.capture c.skipTrivia endsAliasHead)
  unfold TypeDeclaration.readAliasSide
  dsimp only
  split
  · exact hr.trans (hr.trans hhead (hr.readGroup _ '{' '}')) (hr.readAliasTail _)
  · exact hhead

end Cursor.IsCourse

namespace TypeDeclaration

open Cursor

/-- The parents of an interface have no line feed in a literal. -/
theorem isUnbroken_readExtends {c : Cursor} (h : c.IsUnbroken) {p : Text}
    (hp : p ∈ (readExtends c).1) : p.IsUnbroken := by
  unfold readExtends at hp
  split at hp
  · rename_i hword
    have hplace := h.of_leads (leads_atWord hword fun d hd => isPlain_extends hd)
    have hbehind : (c.advanceBy "extends".toList.length).behind.head? ≠ some '\\' := by
      rw [head?_behind_atWord hword (by decide)]
      decide
    have hcomma : ∀ d ∈ [','], d ∈ typeSeparators := by simp [typeSeparators]
    rcases mem_foldl_addNew hp with hnil | hpart
    · exact absurd hnil List.not_mem_nil
    · exact (hplace.capture hbehind _).of_mem_topLevelParts hcomma hpart
  · contradiction

/-- The signs between the parts of an alias. -/
theorem typeSeparator_of_aliasSign {d : Char} (h : d ∈ ['&', '|']) : d ∈ typeSeparators := by
  simp only [List.mem_cons, List.not_mem_nil, or_false] at h
  rcases h with rfl | rfl <;> decide

theorem isUnbroken_readAliasTail {c : Cursor} (h : c.IsUnbroken) {p : Text}
    (hp : p ∈ (readAliasTail c).1) : p.IsUnbroken := by
  unfold readAliasTail at hp
  dsimp only at hp
  split at hp
  · rename_i hsign
    obtain ⟨x, hx, hplain⟩ := exists_aliasSign hsign
    obtain ⟨hplace, hbehind⟩ := (h.of_leads (leads_skipTrivia c)).advance hplain hx
    exact (hplace.capture hbehind _).of_mem_topLevelParts (fun _ => typeSeparator_of_aliasSign) hp
  · contradiction

/-- The parts of an alias other than its body have no line feed in a literal. -/
theorem isUnbroken_readAliasSide {c : Cursor} (h : c.IsUnbroken)
    (hbehind : c.behind.head? ≠ some '\\') (style : Member.Style) {p : Text}
    (hp : p ∈ (readAliasSide style c).1.parents) : p.IsUnbroken := by
  have hhead := (leads_skipTrivia c).trans (leads_capture c.skipTrivia endsAliasHead)
  have hparts : ∀ q ∈ topLevelParts ['&', '|'] (c.skipTrivia.capture endsAliasHead).1,
      q.IsUnbroken := fun q hq =>
    (h.captureTrivia hbehind endsAliasHead).of_mem_topLevelParts
      (fun _ => typeSeparator_of_aliasSign) hq
  unfold readAliasSide at hp
  dsimp only at hp
  split at hp
  · rcases mem_foldl_addNew hp with hnil | hpart
    · contradiction
    · rcases List.mem_append.mp hpart with hpart | hpart
      · exact hparts p hpart
      · exact isUnbroken_readAliasTail (h.of_leads (hhead.trans (leads_readGroup _ '{' '}'))) hpart
  · rcases mem_foldl_addNew hp with hnil | hpart
    · contradiction
    · exact hparts p hpart

/-- What reading a declaration gives: a place in code, the members of its body, and parents that
have no line feed in a literal if the text behind the keyword has none. -/
structure IsReadFrom (style : Member.Style) (word : Cursor.Word) (p : TypeDeclaration × Cursor) :
    Prop where
  leads : Leads word.stop p.2
  members : p.1.definition.members = .empty ∨
    ∃ body, body? word = some body ∧ p.1.definition.members = Member.scan style body
  parents : word.stop.IsUnbroken → ∀ q ∈ p.1.definition.parents, q.IsUnbroken

theorem isReadFrom_interface {style : Member.Style} {word : Cursor.Word}
    {p : TypeDeclaration × Cursor} (hword : word.text = "interface".toList)
    (h : readInterface? style word.stop = some p) : IsReadFrom style word p := by
  unfold readInterface? at h
  obtain ⟨⟨name, c⟩, hname, h⟩ := Option.bind_eq_some_iff.mp h
  have hplace := (isCourse_leads.readName? hname).trans (isCourse_leads.readExtends c)
  dsimp only at h
  split at h
  · rename_i hbody
    obtain rfl := Option.some.inj h
    refine ⟨hplace.trans (leads_readGroup _ '{' '}'), .inr ⟨_, ?_, rfl⟩, fun hunbroken q hq => ?_⟩
    · rw [body?, if_pos hword, interfaceBody?, hname]
      exact if_pos hbody
    · exact isUnbroken_readExtends (hunbroken.of_leads (isCourse_leads.readName? hname)) hq
  · contradiction

theorem isReadFrom_alias {style : Member.Style} {word : Cursor.Word}
    {p : TypeDeclaration × Cursor} (hword : word.text = "type".toList)
    (h : readAlias? style word.stop = some p) : IsReadFrom style word p := by
  have hother : word.text ≠ "interface".toList := by
    rw [hword]
    decide
  unfold readAlias? at h
  obtain ⟨⟨name, c⟩, hname, h⟩ := Option.bind_eq_some_iff.mp h
  dsimp only at h
  split at h
  · rename_i hassign
    obtain rfl := Option.some.inj h
    have hcurrent : c.current? = some '=' := by simp_all
    have hplace := (isCourse_leads.readName? hname).trans (leads_advance hcurrent (by decide))
    refine ⟨hplace.trans (isCourse_leads.readAliasSide style _), ?_, fun hunbroken q hq => ?_⟩
    · dsimp only
      unfold readAliasSide
      dsimp only
      split
      · rename_i hbody
        refine .inr ⟨_, ?_, rfl⟩
        rw [body?, if_neg hother, if_pos hword, aliasBody?, hname]
        exact (if_pos hassign).trans (if_pos hbody)
      · exact .inl rfl
    · obtain ⟨hside, hbehind⟩ :=
        (hunbroken.of_leads (isCourse_leads.readName? hname)).advance (by decide) hcurrent
      exact isUnbroken_readAliasSide hside hbehind style hq
  · contradiction

theorem isReadFrom_read? {style : Member.Style} {word : Cursor.Word}
    {p : TypeDeclaration × Cursor} (h : read? style word = some p) : IsReadFrom style word p := by
  unfold read? at h
  split_ifs at h with hinterface htype
  · exact isReadFrom_interface hinterface h
  · exact isReadFrom_alias htype h

/-- The words that are met in a script stand in its code. -/
theorem isUnbroken_of_met? {style : Member.Style} {script : Text} (h : script.IsUnbroken) {n : Nat}
    {word : Cursor.Word} (hmet : met? style script n = some word) : word.stop.IsUnbroken := by
  induction n generalizing word with
  | zero =>
      have hstart : (Cursor.ofText script).IsUnbroken := h
      exact hstart.of_leads (leads_nextWord? hmet)
  | succ n ih =>
      obtain ⟨before, hbefore, hnext⟩ := Option.bind_eq_some_iff.mp hmet
      have hplace : Leads before.stop ((read? style before).elim before.stop Prod.snd) := by
        cases hread : read? style before with
        | none => exact .refl _
        | some p => exact (isReadFrom_read? hread).leads
      exact (ih hbefore).of_leads (hplace.trans (leads_nextWord? hnext))

/-- The body of a declaration has no line feed in a literal if the text behind the keyword has
none. -/
theorem isUnbroken_body? {word : Cursor.Word} (h : word.stop.IsUnbroken) {body : Text}
    (hbody : body? word = some body) : body.IsUnbroken := by
  unfold body? at hbody
  split_ifs at hbody
  · unfold interfaceBody? at hbody
    obtain ⟨⟨name, c⟩, hname, hbody⟩ := Option.bind_eq_some_iff.mp hbody
    have hplace :=
      h.of_leads ((isCourse_leads.readName? hname).trans (isCourse_leads.readExtends c))
    dsimp only at hbody
    split at hbody
    · rename_i hcurrent
      obtain rfl := Option.some.inj hbody
      exact hplace.readGroup (by decide) hcurrent '}'
    · contradiction
  · unfold aliasBody? at hbody
    obtain ⟨⟨name, c⟩, hname, hbody⟩ := Option.bind_eq_some_iff.mp hbody
    dsimp only at hbody
    split at hbody
    · rename_i hassign
      have hcurrent : c.current? = some '=' := by simp_all
      have hplace := (isCourse_leads.readName? hname).trans
        ((leads_advance hcurrent (by decide)).trans
          ((leads_skipTrivia _).trans (leads_capture _ endsAliasHead)))
      split at hbody
      · rename_i hopen
        obtain rfl := Option.some.inj hbody
        exact (h.of_leads hplace).readGroup (by decide) hopen '}'
      · contradiction
    · contradiction

end TypeDeclaration

/-! ### Local types and annotations -/

namespace TypeTable

/-- What holds of every declaration, and is kept when declarations are merged, holds of every local
type. -/
theorem every_ofScripts {p : Text → TypeDefinition → Prop} (hempty : ∀ name, p name {})
    (hmerge : ∀ name d other, p name d → p name other → p name (d.merge other))
    {style : Member.Style} {scripts : List Text}
    (h : ∀ script ∈ scripts, ∀ d ∈ TypeDeclaration.all style script, p d.name d.definition) :
    (ofScripts style scripts).Every p := by
  have hfold : ∀ (ds : List TypeDeclaration) (table : TypeTable),
      (∀ d ∈ ds, p d.name d.definition) → table.Every p → (ds.foldl declare table).Every p := by
    intro ds
    induction ds with
    | nil => exact fun table _ htable => htable
    | cons d ds ih =>
        intro table hds htable
        rw [List.forall_mem_cons] at hds
        have hbefore : p d.name ((table.get? d.name).getD {}) := by
          cases hget : table.get? d.name with
          | none => exact hempty d.name
          | some definition => exact htable.get? hget
        exact ih (table.declare d) hds.2 (htable.insert (hmerge _ _ _ hbefore hds.1))
  refine hfold _ .empty (fun d hd => ?_) OrderedMap.every_empty
  obtain ⟨script, hscript, hd⟩ := List.mem_flatMap.mp hd
  exact h script hscript d hd

end TypeTable

namespace Resolution

variable {style : Member.Style} {table : TypeTable} {ascription : Text}
  {p : Text → Member → Prop}

theorem every_step
    (htable : table.Every fun name d => ReachesLocal table ascription name → d.members.Every p)
    (hbodies : ∀ body, ReachesBody table ascription body → (Member.scan style body).Every p)
    {r : Resolution} (hsound : Sound style table ascription r) (h : r.members.Every p) :
    (r.step style table).members.Every p := by
  unfold Resolution.step
  split
  · exact h
  rename_i task agenda hagenda
  cases task with
  | members name =>
      have hlocal := hsound.pending name (by rw [hagenda]; exact List.mem_cons_self)
      refine h.extend ?_
      cases hget : table.get? name with
      | none => exact OrderedMap.every_empty
      | some definition => exact htable.get? hget hlocal
  | part part =>
      have hpart := hsound.parts part (by rw [hagenda]; exact List.mem_cons_self)
      have hstep := partStep style table r part agenda
      generalize r.stepTask style table (.part part) agenda = r' at hstep ⊢
      cases hstep with
      | @body _ body _ written =>
          refine h.extend (hbodies body ?_)
          rcases written with rfl | ⟨rfl, hlast⟩
          · exact .inl hpart
          · exact .inr ⟨hpart, hlast⟩
      | group _ => exact h
      | outside _ _ => exact h
      | known _ _ _ => exact h
      | fresh _ _ _ => exact h

/-- What holds of the members of every local type and every body that an annotation reaches holds of
every member that the annotation resolves to. -/
theorem every_resolve
    (htable : table.Every fun name d => ReachesLocal table ascription name → d.members.Every p)
    (hbodies : ∀ body, ReachesBody table ascription body → (Member.scan style body).Every p) :
    (resolve style table ascription).members.Every p := by
  have hstart : Sound style table ascription (start ascription) ∧
      (start ascription).members.Every p :=
    ⟨sound_start style table ascription, OrderedMap.every_empty⟩
  refine (run_preserves style table (P := fun r => Sound style table ascription r ∧
    r.members.Every p) ?_ hstart).2
  rintro r hne ⟨hsound, h⟩
  exact ⟨hsound.step style table hne, every_step htable hbodies hsound h⟩

end Resolution

/-- The parts that an annotation reaches have no line feed in a literal if neither the annotation
nor the parents of local types have one. -/
theorem isUnbroken_of_reachable {table : TypeTable} {ascription part : Text}
    (hascription : ascription.IsUnbroken)
    (hparents : table.Every fun _ d => ∀ parent ∈ d.parents, parent.IsUnbroken)
    (h : Reachable table ascription part) : part.IsUnbroken := by
  have hsep : ∀ c ∈ typeOperators, c ∈ typeSeparators := by simp [typeOperators, typeSeparators]
  induction h with
  | part hpart => exact hascription.of_mem_topLevelParts hsep hpart
  | group _ hpart ih =>
      exact (TypePart.isUnbroken_inside (by decide) ih).of_mem_topLevelParts hsep hpart
  | parent _ _ hdeclared hpart _ => exact hparents.get? hdeclared _ hpart

/-! ### The annotation of the intake statement -/

namespace Intake

open Cursor

theorem isUnbroken_readAscription {c : Cursor} (h : c.IsUnbroken) {t : Text}
    (ht : (readAscription c).1 = some t) : t.IsUnbroken := by
  unfold readAscription at ht
  dsimp only at ht
  split at ht
  · rename_i hcolon
    obtain ⟨hplace, hbehind⟩ := (h.of_leads (leads_skipTrivia c)).advance (by decide) hcolon
    rw [eq_trim_of_trimmed? ht]
    exact (hplace.capture hbehind _).trim
  · contradiction

theorem isUnbroken_readArgument {c : Cursor} (h : c.IsUnbroken) {t : Text}
    (ht : (readArgument c).1 = some t) : t.IsUnbroken := by
  unfold readArgument at ht
  split at ht
  · rename_i hangle
    rw [eq_trim_of_trimmed? ht]
    exact (h.readGroup (by decide) hangle '>').trim
  · contradiction

theorem isUnbroken_read? {call : Text} (hcall : ∀ d ∈ call, IsPlain d) {c : Cursor}
    (h : c.IsUnbroken) {p : Text × Option Text × Cursor} (hread : read? call c = some p) {t : Text}
    (ht : p.2.1 = some t) : t.IsUnbroken := by
  obtain ⟨c₁, c₂, hpattern, hname, -, hascription⟩ := read?_cases hread
  rw [hascription] at ht
  have hcolon := h.of_leads (isCourse_leads.readPattern? hpattern)
  rcases Option.or_eq_some_iff.mp ht with hascription | ⟨-, hargument⟩
  · exact isUnbroken_readAscription hcolon hascription
  · exact isUnbroken_readArgument ((hcolon.of_leads (isCourse_leads.readAscription c₁)).of_leads
      (isCourse_leads.passCallName? (fun _ hword => leads_atWord hword hcall) hname)) hargument

/-- An intake statement is read from a place in code. -/
theorem exists_leads_of_findFrom? {call : Text} {c : Cursor} {intake : Intake}
    (h : findFrom? call c = some intake) :
    ∃ d p, Leads c d ∧ read? call d = some p ∧ p.2.1 = intake.ascription := by
  induction hn : c.ahead.length using Nat.strong_induction_on generalizing c with
  | _ n ih =>
      rw [findFrom?_nextWord] at h
      cases hword : c.nextWord? with
      | none => simp [hword] at h
      | some w =>
          have hstop := leads_nextWord? hword
          have hlater : findFrom? call w.stop = some intake →
              ∃ d p, Leads c d ∧ read? call d = some p ∧ p.2.1 = intake.ascription := by
            intro hfound
            obtain ⟨d, p, hd, hread⟩ :=
              ih w.stop.ahead.length (hn ▸ length_stop_nextWord? hword) hfound rfl
            exact ⟨d, p, hstop.trans hd, hread⟩
          simp only [hword] at h
          split at h
          · split at h
            · rename_i pattern ascription stop hread
              obtain rfl := Option.some.inj h
              exact ⟨w.stop, _, hstop, hread, rfl⟩
            · exact hlater h
          · exact hlater h

/-- The annotation of an intake statement has no line feed in a literal if the script has none. -/
theorem isUnbroken_ascription {call script : Text} (hcall : ∀ d ∈ call, IsPlain d)
    (h : script.IsUnbroken) {intake : Intake} (hintake : find? call script = some intake)
    {ascription : Text} (hascription : intake.ascription = some ascription) :
    ascription.IsUnbroken := by
  obtain ⟨d, p, hd, hread, hp⟩ := exists_leads_of_findFrom? hintake
  have hstart : (Cursor.ofText script).IsUnbroken := h
  exact isUnbroken_read? hcall (hstart.of_leads hd) hread (hp.trans hascription)

end Intake

end ComponentProps
