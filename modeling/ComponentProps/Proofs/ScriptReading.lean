import ComponentProps.Proofs.ReceiverReading

/-!
# Reading a printed component

The script of a printed component is found in its element, and in the script the declarations and
the statement that receives the props are found, whatever stands around them.
-/

namespace ComponentProps.Component

open Text

/-! ### Statements -/

/-- Statements, each on a line. -/
def printLines (statements : List Text) : Text := statements.flatMap fun t => t ++ ['\n']

theorem printLines_cons (t : Text) (statements : List Text) :
    printLines (t :: statements) = t ++ '\n' :: printLines statements := by
  simp [printLines]

theorem script_eq (c : Component) :
    c.script = '\n' :: (printLines (c.before.map Declaration.print) ++
      (c.receiver.print ++ '\n' :: printLines (c.behind.map Declaration.print))) := by
  simp [script, statements, printLines]

variable {behind rest : Text}

/-- A line begins behind a sign. -/
theorem signFirst_lines (statements : List Text) (hb : SignFirst behind) :
    SignFirst ((printLines statements).reverse ++ behind) := by
  induction statements generalizing behind with
  | nil => exact hb
  | cons t statements ih =>
      have hline : SignFirst ('\n' :: (t.reverse ++ behind)) := signFirst_cons _ (by decide)
      rw [printLines_cons]
      simpa using ih hline

/-- A search for keywords passes over statements without them. -/
theorem nextAmong?_lines {keys : List Text} {statements : List Text}
    (h : ∀ t ∈ statements, IsPassage keys t) (hb : SignFirst behind) :
    Cursor.nextAmong? keys .code behind (printLines statements ++ rest) =
      Cursor.nextAmong? keys .code ((printLines statements).reverse ++ behind) rest := by
  induction statements generalizing behind with
  | nil => rfl
  | cons t statements ih =>
      have hline : SignFirst ('\n' :: (printLines statements ++ rest)) :=
        signFirst_cons _ (by decide)
      rw [printLines_cons, List.append_assoc, List.cons_append,
        Cursor.nextAmong?_passage (h t List.mem_cons_self) hb hline,
        Cursor.nextAmong?_sign (by decide),
        ih (fun u hu => h u (List.mem_cons_of_mem _ hu)) (signFirst_cons _ (by decide))]
      simp

/-- The search for declarations finds the declarations on a list of lines. -/
theorem allFrom_lines (ds : List Declaration) (hb : SignFirst behind) :
    TypeDeclaration.allFrom {} ⟨behind, printLines (ds.map Declaration.print) ++ rest⟩ =
      ds.map Declaration.toTypeDeclaration ++ TypeDeclaration.allFrom {}
        ⟨(printLines (ds.map Declaration.print)).reverse ++ behind, rest⟩ := by
  induction ds generalizing behind with
  | nil => rfl
  | cons d ds ih =>
      rw [List.map_cons, printLines_cons, List.append_assoc, List.cons_append,
        allFrom_declaration d hb, TypeDeclaration.allFrom_sign (by decide),
        ih (signFirst_cons _ (by decide))]
      simp

/-- The declarations of a component are found. -/
theorem all_script (c : Component) :
    TypeDeclaration.all {} c.script = c.declarations.map Declaration.toTypeDeclaration := by
  have hend : ∀ b, TypeDeclaration.allFrom {} ⟨b, []⟩ = [] := by
    intro b
    rw [TypeDeclaration.allFrom_eq]
    rfl
  have hbehind : ∀ b, SignFirst b → TypeDeclaration.allFrom {}
      ⟨b, printLines (c.behind.map Declaration.print)⟩ =
        c.behind.map Declaration.toTypeDeclaration := by
    intro b hb
    have hlines : TypeDeclaration.allFrom {}
        ⟨b, printLines (c.behind.map Declaration.print) ++ []⟩ = _ := allFrom_lines c.behind hb
    rwa [List.append_nil, hend, List.append_nil] at hlines
  have hstart : SignFirst ['\n'] := signFirst_cons [] (by decide)
  rw [TypeDeclaration.all, Cursor.ofText, script_eq, TypeDeclaration.allFrom_sign (by decide),
    allFrom_lines c.before hstart, TypeDeclaration.allFrom_passage c.receiver.isPassage
      (signFirst_lines _ hstart) (signFirst_cons _ (by decide)),
    TypeDeclaration.allFrom_sign (by decide), hbehind _ (signFirst_cons _ (by decide)),
    declarations, List.map_append]

/-- The statement that receives the props is found. -/
theorem find?_script (c : Component) :
    ∃ intake, Intake.find? propsCall.text c.script = some intake ∧
      intake.pattern = c.receiver.pattern ∧ intake.ascription = some c.receiver.annotation := by
  have hstart : SignFirst ['\n'] := signFirst_cons [] (by decide)
  have hbefore : ∀ t ∈ c.before.map Declaration.print, IsPassage Intake.keywords t := by
    intro t ht
    obtain ⟨d, -, rfl⟩ := List.mem_map.mp ht
    exact d.isPassage
  obtain ⟨after, hprint⟩ : ∃ after, c.receiver.print ++
      '\n' :: printLines (c.behind.map Declaration.print) = letWord.text ++ ' ' :: '{' ::
        (c.receiver.pattern ++ '}' :: ':' :: ' ' :: (c.receiver.annotation ++
          ' ' :: '=' :: ' ' :: (propsCall.text ++ '(' :: ')' :: after))) :=
    ⟨';' :: '\n' :: printLines (c.behind.map Declaration.print), by simp [Receiver.print]⟩
  obtain ⟨stop, hread⟩ := read?_print c.receiver (letWord.text.reverse ++
    ((printLines (c.before.map Declaration.print)).reverse ++ ['\n'])) after
  rw [Intake.find?, Cursor.ofText, script_eq, Intake.findFrom?_eq]
  dsimp only
  rw [Cursor.nextAmong?_sign (by decide), nextAmong?_lines hbefore hstart, hprint,
    Cursor.nextAmong?_keyword letWord (by decide) (signFirst_lines _ hstart)
      (signFirst_cons _ (by decide))]
  dsimp only
  rw [hread]
  exact ⟨_, rfl, rfl, rfl⟩

/-! ### The script element -/

/-- A line end keeps the closing tag apart from what stands before it. -/
theorem startsTag_append {t : Text} (hlast : t.getLast? = some '\n')
    (h : Script.startsTag Script.closeTag t = false) (rest : Text) :
    Script.startsTag Script.closeTag (t ++ rest) = false := by
  have hfeed : ∀ u, '\n' ∈ u → eqIgnoringCase u Script.closeTag = false := by
    intro u hu
    rw [eqIgnoringCase, beq_eq_false_iff_ne]
    intro heq
    have hmem := List.mem_map_of_mem (f := Char.toLower) hu
    rw [heq] at hmem
    exact absurd hmem (by decide)
  by_cases hlength : t.length ≤ Script.closeTag.length
  · have htake : '\n' ∈ (t ++ rest).take Script.closeTag.length := by
      rw [List.take_append, List.take_of_length_le hlength]
      exact List.mem_append_left _ (List.mem_of_getLast? hlast)
    rw [Script.startsTag, hfeed _ htake, Bool.false_and]
  · have hlong : Script.closeTag.length < t.length := Nat.lt_of_not_le hlength
    rw [Script.startsTag, List.take_append_of_le_length hlong.le, List.getElem?_append_left hlong]
    exact h

/-- The content of the element goes up to its closing tag. -/
theorem contentFrom_append {t : Text} (hlast : t ≠ [] → t.getLast? = some '\n')
    (h : ∀ u ∈ t.tails, Script.startsTag Script.closeTag u = false) (behind : Text) :
    Script.contentFrom behind (t ++ endTag) = (t, ⟨t.reverse ++ behind, endTag⟩) := by
  induction t generalizing behind with
  | nil => rfl
  | cons c t ih =>
      rw [List.tails, List.forall_mem_cons] at h
      have hnext : t ≠ [] → t.getLast? = some '\n' := by
        intro hne
        obtain ⟨d, u, rfl⟩ := List.exists_cons_of_ne_nil hne
        simpa [List.getLast?_cons_cons] using hlast
      have hhere := startsTag_append (hlast (List.cons_ne_nil c t)) h.1 endTag
      rw [List.cons_append] at hhere ⊢
      rw [Script.contentFrom, hhere, ih hnext h.2]
      simp

theorem getLast?_script (c : Component) : c.script.getLast? = some '\n' := by
  have hlines : ∀ (s : Text) (ts : List Text),
      (s ++ '\n' :: printLines ts).getLast? = some '\n' := by
    intro s ts
    induction ts generalizing s with
    | nil => simp [printLines]
    | cons t ts ih => simpa [printLines_cons] using ih (s ++ '\n' :: t)
  have hscript := hlines ('\n' :: (printLines (c.before.map Declaration.print) ++ c.receiver.print))
    (c.behind.map Declaration.print)
  rw [script_eq]
  simpa using hscript

/-- The element is read as a whole. -/
theorem readAt?_print (c : Component) (h : c.IsEnclosed) :
    ∃ block behind, Script.readAt? ⟨[], c.print⟩ = some (some block, ⟨behind, []⟩) ∧
      block.content = c.script := by
  have hcontent := contentFrom_append (fun _ => getLast?_script c) h startTag.reverse
  have hopen : Script.readAt? ⟨[], c.print⟩ = Script.elementAt? ⟨[], c.print⟩ := rfl
  have htag : Script.tagFrom? none (Cursor.advanceBy ⟨[], c.print⟩ Script.openTag.length).behind
      (Cursor.advanceBy ⟨[], c.print⟩ Script.openTag.length).ahead =
        some (" lang=\"ts\"".toList, ⟨startTag.reverse, c.script ++ endTag⟩) := rfl
  have hclose : ∀ b, Script.tagFrom? none b endTag =
      some (Script.closeTag, ⟨endTag.reverse ++ b, []⟩) := fun b => rfl
  have hplain : (" lang=\"ts\"".toList.getLast? == some '/') = false := by decide
  rw [hopen, Script.elementAt?, htag]
  simp only [hplain, hcontent, hclose, Bool.false_eq_true, if_false]
  exact ⟨_, _, rfl, rfl⟩

theorem blocksFrom_eq (c : Cursor) :
    Script.blocksFrom c =
      match Script.readAt? c with
      | none => []
      | some (block, place) => block.toList ++ Script.blocksFrom place := by
  rw [Script.blocksFrom]
  split
  · rename_i hread
    rw [hread]
  · rename_i hread
    rw [hread]

/-- Where neither a comment nor a script element begins, there are no blocks. -/
theorem blocksFrom_eq_nil {t : Text} (h : ∀ u ∈ t.tails,
    "<!--".toList.isPrefixOf u = false ∧ Script.startsTag Script.openTag u = false)
    (behind : Text) : Script.blocksFrom ⟨behind, t⟩ = [] := by
  induction t generalizing behind with
  | nil =>
      rw [blocksFrom_eq]
      rfl
  | cons c t ih =>
      rw [List.tails, List.forall_mem_cons] at h
      obtain ⟨⟨hcomment, htag⟩, hrest⟩ := h
      have hread : Script.readAt? ⟨behind, c :: t⟩ = some (none, ⟨c :: behind, t⟩) := by
        rw [Script.readAt?, hcomment, htag]
        rfl
      rw [blocksFrom_eq, hread]
      exact ih hrest (c :: behind)

/-- The script is the content of the only script element. -/
theorem blocks_print (c : Component) (h : c.IsEnclosed) :
    (Script.blocks c.print).map Script.content = [c.script] := by
  obtain ⟨block, behind, hread, hblock⟩ := readAt?_print c h
  have hend : Script.blocksFrom ⟨behind, []⟩ = [] := blocksFrom_eq_nil (by decide) behind
  rw [Script.blocks, Cursor.ofText, blocksFrom_eq, hread]
  simp [hend, hblock]

end ComponentProps.Component
