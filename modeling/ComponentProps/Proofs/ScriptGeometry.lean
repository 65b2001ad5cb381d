import ComponentProps.Proofs.OffsetScan
import Mathlib.Logic.Relation

/-!
# Where script blocks lie

The scan for script blocks goes from place to place. A block lies between the `>` of an open tag and
the next closing tag or the end of the source, and the tag begins outside of every comment that the
scan skips. The ranges of the blocks are slices of the source and follow each other.
-/

namespace ComponentProps.Script

open Text Relation

/-! ### The places of the scan -/

/-- The scan goes from one place to the next. -/
def Steps (c d : Cursor) : Prop := ∃ block, readAt? c = some (block, d)

/-- A comment that the scan skips, from the place before it to the place behind it. -/
def SkipsComment (source : Text) (c d : Cursor) : Prop :=
  ReflTransGen Steps (.ofText source) c ∧ "<!--".toList <+: c.ahead ∧ Steps c d

theorem steps_rightUnique : Relator.RightUnique Steps := by
  rintro c d d' ⟨block, h⟩ ⟨block', h'⟩
  rw [h] at h'
  exact (Prod.mk.inj (Option.some.inj h')).2

theorem moves_of_steps {c d : Cursor} (h : ReflTransGen Steps c d) : c.Moves d := by
  induction h with
  | refl => exact .refl c
  | tail _ hstep ih =>
      obtain ⟨block, hread⟩ := hstep
      exact ih.trans (moves_readAt? hread)

theorem byteOffset_lt_of_step {c d : Cursor} (h : Steps c d) : c.byteOffset < d.byteOffset := by
  obtain ⟨block, hread⟩ := h
  exact byteOffset_lt_of_moves (moves_readAt? hread) (length_readAt?_lt hread)

/-- The blocks at or after a place are those that are read at the places of the scan from there. -/
theorem mem_blocksFrom {c : Cursor} {b : Script} : b ∈ blocksFrom c ↔
    ∃ place next, ReflTransGen Steps c place ∧ readAt? place = some (some b, next) := by
  induction hleft : c.ahead.length using Nat.strong_induction_on generalizing c with
  | _ k ih =>
      subst hleft
      rw [Component.blocksFrom_eq]
      cases hread : readAt? c with
      | none =>
          refine ⟨fun h => absurd h List.not_mem_nil, ?_⟩
          rintro ⟨place, next, hreach, hblock⟩
          rcases hreach.cases_head with rfl | ⟨d, ⟨block, hstep⟩, -⟩
          · rw [hread] at hblock
            contradiction
          · rw [hread] at hstep
            contradiction
      | some p =>
          obtain ⟨block, d⟩ := p
          have hnext := ih _ (length_readAt?_lt hread) (c := d) rfl
          dsimp only
          rw [List.mem_append, Option.mem_toList, hnext]
          constructor
          · rintro (hblock | ⟨place, next, hreach, hblock⟩)
            · exact ⟨c, d, .refl, by rw [hread, hblock]⟩
            · exact ⟨place, next, .head ⟨block, hread⟩ hreach, hblock⟩
          · rintro ⟨place, next, hreach, hblock⟩
            rcases hreach.cases_head with rfl | ⟨d', hstep, hreach⟩
            · rw [hread] at hblock
              exact .inl (Prod.mk.inj (Option.some.inj hblock)).1
            · obtain rfl := steps_rightUnique ⟨block, hread⟩ hstep
              exact .inr ⟨place, next, hreach, hblock⟩

/-- A place of the scan lies outside of the comments that the scan skips. -/
theorem outside_of_reach {source : Text} {c d place : Cursor} (hskips : SkipsComment source c d)
    (hreach : ReflTransGen Steps (.ofText source) place)
    (hplace : ¬ "<!--".toList <+: place.ahead) :
    ¬ (c.byteOffset ≤ place.byteOffset ∧ place.byteOffset < d.byteOffset) := by
  obtain ⟨hcomment, hmark, hstep⟩ := hskips
  rintro ⟨hle, hlt⟩
  rcases hcomment.total_of_right_unique steps_rightUnique hreach with hafter | hbefore
  · rcases hafter.cases_head with rfl | ⟨d', hstep', hafter⟩
    · exact hplace hmark
    · obtain rfl := steps_rightUnique hstep hstep'
      have := byteOffset_of_moves (moves_of_steps hafter)
      omega
  · rcases hbefore.cases_head with rfl | ⟨next, hstep', hbefore⟩
    · exact hplace hmark
    · have := byteOffset_lt_of_step hstep'
      have := byteOffset_of_moves (moves_of_steps hbefore)
      omega

/-! ### Tags and contents -/

/-- The text of a tag up to the first `>` outside of quotes. -/
def IsTag (tag : Text) : Prop :=
  tag.foldl nextQuote none = none ∧
    ∀ front back, tag = front ++ '>' :: back → front.foldl nextQuote none ≠ none

theorem isTag_of_tagFrom? {quote : Option Char} {behind ahead : Text} {p : Text × Cursor}
    (h : tagFrom? quote behind ahead = some p) : p.1.foldl nextQuote quote = none ∧
      ∀ front back, p.1 = front ++ '>' :: back → front.foldl nextQuote quote ≠ none := by
  induction ahead generalizing quote behind p with
  | nil => cases quote <;> cases h
  | cons c t ih =>
      rw [tagFrom?_cons] at h
      split at h
      · rename_i hend
        obtain rfl := Option.some.inj h
        refine ⟨hend.1, fun front back hfront => ?_⟩
        simp at hfront
      · rename_i hgoes
        obtain ⟨p, hp, rfl⟩ := Option.map_eq_some_iff.mp h
        obtain ⟨hclosed, hquoted⟩ := ih hp
        refine ⟨hclosed, fun front back hfront => ?_⟩
        cases front with
        | nil =>
            obtain ⟨rfl, -⟩ := List.cons.inj hfront
            exact fun hnone => hgoes ⟨hnone, rfl⟩
        | cons x front =>
            obtain ⟨rfl, htail⟩ := List.cons.inj hfront
            exact hquoted front back htail

/-- A content goes on to the first closing tag or to the end. -/
theorem contentFrom_closes (behind ahead : Text) :
    (∀ front back, (contentFrom behind ahead).1 = front ++ back → back ≠ [] →
      ¬ OpensWith closeTag (back ++ (contentFrom behind ahead).2.ahead)) ∧
      ((contentFrom behind ahead).2.ahead = [] ∨
        OpensWith closeTag (contentFrom behind ahead).2.ahead) := by
  induction ahead generalizing behind with
  | nil =>
      refine ⟨fun front back hback hne => ?_, .inl rfl⟩
      exact absurd (List.append_eq_nil_iff.mp hback.symm).2 hne
  | cons c t ih =>
      rw [contentFrom]
      split
      · rename_i hstarts
        refine ⟨fun front back hback hne => ?_, .inr (startsTag_iff.mp hstarts)⟩
        exact absurd (List.append_eq_nil_iff.mp hback.symm).2 hne
      · rename_i hstarts
        obtain ⟨hinner, hend⟩ := ih (c :: behind)
        refine ⟨fun front back hback hne => ?_, hend⟩
        cases front with
        | nil =>
            rw [List.nil_append] at hback
            rw [← hback, List.cons_append, ← (append_of_contentFrom (c :: behind) t).1,
              ← startsTag_iff]
            exact hstarts
        | cons x front =>
            exact hinner front back (List.cons.inj hback).2 hne

/-! ### Blocks in their source -/

/-- A block behind the `>` that ends a script tag, up to the next closing tag or the end. -/
structure Encloses (ahead : Text) (b : Script) (name tag after : Text) : Prop where
  ahead_eq : ahead = name ++ (tag ++ '>' :: (b.content ++ after))
  named : eqIgnoringCase name "<script".toList = true
  ended : ∀ c ∈ (tag ++ ['>']).head?, EndsName c
  isTag : IsTag tag
  unclosed : ∀ front back, b.content = front ++ back → back ≠ [] →
    ¬ OpensWith "</script".toList (back ++ after)
  closed : after = [] ∨ OpensWith "</script".toList after

theorem encloses_of_elementAt? {c d : Cursor} {b : Script}
    (hstarts : startsTag openTag c.ahead = true) (h : elementAt? c = some (some b, d)) :
    ∃ name tag after, Encloses c.ahead b name tag after ∧
      b.start = c.byteOffset + byteLength (name ++ (tag ++ ['>'])) ∧ b.stop ≤ d.byteOffset := by
  obtain ⟨name, x, rest, hahead, hname, hends, hstart⟩ := exists_name hstarts
  rw [elementAt?, hstart] at h
  split at h
  · contradiction
  rename_i tag inside htag
  split at h
  · cases h
  obtain ⟨hrest, hbehind⟩ := append_of_tagFrom? htag
  obtain ⟨hcontent, hpassed⟩ := append_of_contentFrom inside.behind inside.ahead
  obtain ⟨hunclosed, hclosed⟩ := contentFrom_closes inside.behind inside.ahead
  dsimp only at hrest hbehind h
  generalize contentFrom inside.behind inside.ahead = p at hcontent hpassed hunclosed hclosed h
  obtain ⟨content, place⟩ := p
  dsimp only at hcontent hpassed hunclosed hclosed h
  have hplace : place.byteOffset = inside.byteOffset + byteLength content := by
    rw [Cursor.byteOffset, hpassed, byteLength_append, byteLength_reverse, Nat.add_comm]
    rfl
  -- whatever ends the element, the block is the same and its end is not behind the element
  obtain ⟨hb, hd⟩ : b = ⟨content, langOf (attributes tag), isModuleOf (attributes tag),
      inside.byteOffset⟩ ∧ place.Moves d := by
    split at h
    · cases h
      exact ⟨rfl, Cursor.moves_advanceBy _ _⟩
    · rename_i hclose
      cases h
      exact ⟨rfl, moves_tagFrom? hclose⟩
  subst hb
  refine ⟨name, tag, place.ahead,
    ⟨?_, hname, ?_, isTag_of_tagFrom? htag, hunclosed, hclosed⟩, ?_, ?_⟩
  · rw [hahead, hrest, hcontent]
  · intro y hy
    have hhead : (x :: rest).head? = (tag ++ ['>']).head? := by
      rw [hrest]
      cases tag <;> rfl
    rw [← hhead] at hy
    obtain rfl := Option.mem_some.mp hy
    exact hends
  · simp only [Cursor.byteOffset, hbehind, byteLength_append, byteLength_cons, byteLength_nil,
      byteLength_reverse]
    omega
  · exact (Nat.le_of_eq hplace.symm).trans (byteOffset_of_moves hd)

/-- A block is read at a script tag and not at a comment. -/
theorem readAt?_block {c d : Cursor} {b : Script} (h : readAt? c = some (some b, d)) :
    ¬ "<!--".toList <+: c.ahead ∧ startsTag openTag c.ahead = true ∧
      elementAt? c = some (some b, d) := by
  unfold readAt? at h
  split at h
  · contradiction
  split at h
  · cases h
  rename_i hcomment
  split at h
  · rename_i hstarts
    exact ⟨fun hmark => hcomment (List.isPrefixOf_iff_prefix.mpr hmark), hstarts, h⟩
  · cases h

theorem lt_start_of_mem {c : Cursor} {b : Script} (h : b ∈ blocksFrom c) :
    c.byteOffset < b.start := by
  obtain ⟨place, next, hreach, hread⟩ := mem_blocksFrom.mp h
  obtain ⟨-, hstarts, helement⟩ := readAt?_block hread
  obtain ⟨name, tag, after, -, hstart, -⟩ := encloses_of_elementAt? hstarts helement
  have hle := byteOffset_of_moves (moves_of_steps hreach)
  have hpos : 0 < byteLength (name ++ (tag ++ ['>'])) := byteLength_pos (by simp)
  omega

/-- The ranges of the blocks follow each other. -/
theorem pairwise_blocksFrom (c : Cursor) : (blocksFrom c).Pairwise fun a b => a.stop < b.start := by
  induction hleft : c.ahead.length using Nat.strong_induction_on generalizing c with
  | _ k ih =>
      subst hleft
      rw [Component.blocksFrom_eq]
      cases hread : readAt? c with
      | none => exact .nil
      | some p =>
          obtain ⟨block, d⟩ := p
          have hrest := ih _ (length_readAt?_lt hread) d rfl
          cases block with
          | none => exact hrest
          | some a =>
              refine List.pairwise_cons.mpr ⟨fun b hb => ?_, hrest⟩
              obtain ⟨-, hstarts, helement⟩ := readAt?_block hread
              obtain ⟨-, -, -, -, -, hstop⟩ := encloses_of_elementAt? hstarts helement
              exact Nat.lt_of_le_of_lt hstop (lt_start_of_mem hb)

/-- The scan of a source that is not too long never takes a slice out of range or within a
character, and it comes to its end. The ranges of the blocks are slices of the source with their
contents and follow each other. Each lies behind the `>` of a script tag that begins outside of the
skipped comments, and goes on to the first closing tag or the end. -/
theorem blocks_geometry {source : Text} (hlength : byteLength source < 2 ^ 32) :
    blocksFrom? source 0 = some ((blocks source).map fun b => (b, b.stop)) ∧
      (blocks source).Pairwise (fun a b => a.stop < b.start) ∧
      ∀ b ∈ blocks source,
        slice? source b.start b.stop = some b.content ∧
        ∃ before ahead name tag after, source = before ++ ahead ∧ Encloses ahead b name tag after ∧
          b.start = byteLength (before ++ (name ++ (tag ++ ['>']))) ∧
          ∀ c d, SkipsComment source c d →
            ¬ (c.byteOffset ≤ byteLength before ∧ byteLength before < d.byteOffset) := by
  refine ⟨?_, pairwise_blocksFrom _, fun b hb => ?_⟩
  · exact blocksFrom?_eq (c := .ofText source) hlength
  obtain ⟨place, next, hreach, hread⟩ := mem_blocksFrom.mp hb
  obtain ⟨hcomment, hstarts, helement⟩ := readAt?_block hread
  obtain ⟨name, tag, after, hencloses, hstart, -⟩ := encloses_of_elementAt? hstarts helement
  have htext : place.text = source := text_of_moves (moves_of_steps hreach)
  have hbefore : byteLength place.behind.reverse = place.byteOffset := byteLength_reverse _
  have hsource : source = place.behind.reverse ++ place.ahead := htext.symm
  have hrange : b.start = byteLength (place.behind.reverse ++ (name ++ (tag ++ ['>']))) := by
    rw [byteLength_append, hbefore, hstart]
  refine ⟨?_, place.behind.reverse, place.ahead, name, tag, after, hsource, hencloses, hrange, ?_⟩
  · refine slice?_eq_some_iff.mpr
      ⟨place.behind.reverse ++ (name ++ (tag ++ ['>'])), after, ?_, hrange.symm, ?_⟩
    · rw [hsource, hencloses.ahead_eq]
      simp
    · rw [← hrange]
      rfl
  · intro c d hskips
    rw [hbefore]
    exact outside_of_reach hskips hreach hcomment

/-- Markup with a comment, letters of two bytes and a block that is not closed. -/
def openMarkup : Text := "é<!--<script>a</script>--><Script x='>é'>é</scripts>".toList

theorem blocks_geometry_open :
    byteLength openMarkup < 2 ^ 32 ∧
      blocksFrom? openMarkup 0 = some ((blocks openMarkup).map fun b => (b, b.stop)) ∧
      ∃ b ∈ blocks openMarkup, b.content = "é</scripts>".toList ∧ b.start = 43 ∧
        slice? openMarkup b.start b.stop = some b.content := by
  have hlength : byteLength openMarkup < 2 ^ 32 := by decide +kernel
  obtain ⟨hscan, -, hblocks⟩ := blocks_geometry hlength
  have hletter : Steps (.ofText openMarkup) ((Cursor.ofText openMarkup).advanceBy 1) :=
    ⟨none, by decide +kernel⟩
  have hcomment : Steps ((Cursor.ofText openMarkup).advanceBy 1)
      ((Cursor.ofText openMarkup).advanceBy 26) := ⟨none, by decide +kernel⟩
  have hread : readAt? ((Cursor.ofText openMarkup).advanceBy 26) =
      some (some ⟨"é</scripts>".toList, langOf (attributes " x='>é'".toList),
        isModuleOf (attributes " x='>é'".toList), 43⟩,
        (Cursor.ofText openMarkup).advanceBy openMarkup.length) := rfl
  have hmem := mem_blocksFrom.mpr ⟨_, _, .tail (.single hletter) hcomment, hread⟩
  exact ⟨hlength, hscan, _, hmem, rfl, rfl, (hblocks _ hmem).1⟩

end ComponentProps.Script
