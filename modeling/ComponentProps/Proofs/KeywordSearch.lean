import ComponentProps.Intake
import ComponentProps.TypeTable
import ComponentProps.Proofs.Walks

/-!
# Searching for keywords

The searches for declarations and for the intake statement stop at every word of code. Only their
keywords matter: a search goes to the next keyword, and it passes over every passage on its way.
-/

namespace ComponentProps

open Text

namespace Cursor

/-- The next word of code that stands alone and is one of `keys`. -/
def nextAmong? (keys : List Text) (region : Region) (behind : Text) : Text → Option Word
  | [] => none
  | c :: rest =>
    match region.read behind c rest with
    | (.code, region') =>
      if isIdentStart c && standsAlone behind && keys.contains (leadingWord (c :: rest)) then
        let here : Cursor := ⟨behind, c :: rest⟩
        let word := leadingWord (c :: rest)
        some ⟨word, here, here.advanceBy word.length⟩
      else nextAmong? keys region' (c :: behind) rest
    | (_, region') => nextAmong? keys region' (c :: behind) rest

variable {keys : List Text}

theorem nextAmong?_word_tail (keys : List Text) {t : Text}
    (ht : ∀ c ∈ t, isIdentChar c = true) {c : Char} (hc : isIdentChar c = true)
    (behind rest : Text) :
    nextAmong? keys .code (c :: behind) (t ++ rest) =
      nextAmong? keys .code (t.reverse ++ c :: behind) rest := by
  induction t generalizing c behind with
  | nil => rfl
  | cons d t ih =>
      have hd := ht d List.mem_cons_self
      have hinside : standsAlone (c :: behind) = false := by simp [standsAlone, hc]
      rw [List.cons_append, nextAmong?, Region.read_plain (isPlain_of_isIdentChar hd)]
      simp only [hinside, Bool.and_false, Bool.false_and, Bool.false_eq_true, if_false]
      rw [ih (fun e he => ht e (List.mem_cons_of_mem _ he)) hd]
      simp

/-- The next keyword is the next word, or it is the next keyword behind that word. -/
theorem nextAmong?_eq (region : Region) (behind ahead : Text) :
    nextAmong? keys region behind ahead =
      match nextWordFrom? region behind ahead with
      | none => none
      | some w =>
        if w.text ∈ keys then some w else nextAmong? keys .code w.stop.behind w.stop.ahead := by
  induction ahead generalizing region behind with
  | nil => rfl
  | cons c rest ih =>
      obtain ⟨role, region', hread⟩ : ∃ role region', region.read behind c rest = (role, region') :=
        ⟨_, _, rfl⟩
      cases role with
      | literal =>
          simp only [nextAmong?, nextWordFrom?, hread]
          exact ih region' (c :: behind)
      | comment =>
          simp only [nextAmong?, nextWordFrom?, hread]
          exact ih region' (c :: behind)
      | code =>
          obtain rfl : region' = .code := Region.read_code hread
          simp only [nextAmong?, nextWordFrom?, hread]
          by_cases hword : (isIdentStart c && standsAlone behind) = true
          · have hident : isIdentChar c = true := by
              rw [Bool.and_eq_true] at hword
              exact isIdentChar_of_isIdentStart hword.1
            have hall : ∀ d ∈ leadingWord rest, isIdentChar d = true :=
              fun d hd => List.mem_takeWhile_imp hd
            have hstop : advanceBy ⟨behind, c :: rest⟩ (leadingWord (c :: rest)).length =
                ⟨(leadingWord rest).reverse ++ c :: behind, rest.dropWhile isIdentChar⟩ := by
              rw [advanceBy_leadingWord, leadingWord_cons hident, List.dropWhile_cons_of_pos hident]
              simp
            have htail := nextAmong?_word_tail keys hall hident behind
              (rest.dropWhile isIdentChar)
            rw [leadingWord_append_dropWhile] at htail
            by_cases hkey : leadingWord (c :: rest) ∈ keys
            · simp [hword, hkey]
            · simp only [hword, List.contains_eq_mem, hkey, hstop, htail, decide_false,
                Bool.and_false, Bool.false_eq_true, if_false, if_true]
          · have hno : (isIdentStart c && standsAlone behind) = false := by simpa using hword
            simp only [hno, Bool.false_and, Bool.false_eq_true, if_false]
            exact ih .code (c :: behind)

theorem nextAmong?_nextWord (keys : List Text) (c : Cursor) :
    nextAmong? keys .code c.behind c.ahead =
      match c.nextWord? with
      | none => none
      | some w =>
        if w.text ∈ keys then some w else nextAmong? keys .code w.stop.behind w.stop.ahead :=
  nextAmong?_eq .code c.behind c.ahead

/-- A search passes over a text without keywords. -/
theorem nextAmong?_append {rest : Text} (hr : SignFirst rest) {region : Region} {behind t : Text}
    (h : ∀ w ∈ region.words behind t, w ∉ keys) :
    nextAmong? keys region behind (t ++ rest) =
      nextAmong? keys (region.after behind t) (t.reverse ++ behind) rest := by
  induction t generalizing region behind with
  | nil => rfl
  | cons c t ih =>
      have hlead : leadingWord (c :: (t ++ rest)) = leadingWord (c :: t) :=
        leadingWord_append (t := c :: t) hr
      obtain ⟨role, region', hread⟩ : ∃ role region', region.read behind c t = (role, region') :=
        ⟨_, _, rfl⟩
      simp only [Region.words, hread] at h
      simp only [List.cons_append, nextAmong?, Region.read_before hr.endsSlash, hread, hlead,
        Region.after, List.reverse_cons, List.append_assoc, List.nil_append]
      cases role with
      | literal => exact ih h
      | comment => exact ih h
      | code =>
          by_cases hword : (isIdentStart c && standsAlone behind) = true
          · simp only [hword, if_true, List.forall_mem_cons] at h
            simp only [List.contains_eq_mem, h.1, decide_false, Bool.and_false,
              Bool.false_eq_true, if_false]
            exact ih h.2
          · have hno : (isIdentStart c && standsAlone behind) = false := by simpa using hword
            simp only [hno, Bool.false_eq_true, if_false] at h
            simp only [hno, Bool.false_and, Bool.false_eq_true, if_false]
            exact ih h

theorem nextAmong?_sign {c : Char} (hc : IsSign c) (behind rest : Text) :
    nextAmong? keys .code behind (c :: rest) = nextAmong? keys .code (c :: behind) rest := by
  simp [nextAmong?, Region.read_plain hc.1, hc.not_isIdentStart]

/-- A search passes over a passage behind a sign. -/
theorem nextAmong?_passage {t rest : Text} (ht : IsPassage keys t) {behind : Text}
    (hb : SignFirst behind) (hr : SignFirst rest) :
    nextAmong? keys .code behind (t ++ rest) =
      nextAmong? keys .code (t.reverse ++ behind) rest := by
  have hwords : Region.code.words behind t = Region.code.words [] t :=
    Region.words_behind hb .code [] t
  have hafter : Region.code.after behind t = .code :=
    (Region.after_behind hb.not_escape .code [] t).trans ht.closed
  have hquiet : ∀ w ∈ Region.code.words behind t, w ∉ keys := by
    rw [hwords]
    exact ht.words
  rw [nextAmong?_append hr hquiet, hafter]

/-- A keyword behind a sign is found. -/
theorem nextAmong?_keyword (n : Identifier) (hn : n.text ∈ keys) {behind rest : Text}
    (hb : SignFirst behind) (hr : SignFirst rest) :
    nextAmong? keys .code behind (n.text ++ rest) =
      some ⟨n.text, ⟨behind, n.text ++ rest⟩, ⟨n.text.reverse ++ behind, rest⟩⟩ := by
  obtain ⟨c, more, htext, hstart, hall⟩ := n.exists_cons
  have hplain := n.isPlain_of_mem (c := c) (by simp [htext])
  have hlead := leadingWord_identifier n hr
  have hadvance := advanceBy_length behind n.text rest
  rw [htext, List.cons_append] at hlead hadvance ⊢
  simp only [nextAmong?, Region.read_plain hplain, hstart, hb.standsAlone, hlead, ← htext,
    List.contains_iff_mem.mpr hn, Bool.and_self, if_true]
  rw [htext, hadvance]

end Cursor

/-- The words that begin a declaration of a type. -/
def declarationWords : List Text := ["interface".toList, "type".toList]

namespace TypeDeclaration

theorem read?_of_not_mem {style : Member.Style} {word : Cursor.Word}
    (h : word.text ∉ declarationWords) : read? style word = none := by
  simp only [declarationWords, List.mem_cons, List.not_mem_nil, or_false, not_or] at h
  simp only [read?, h, if_false]

theorem allFrom_nextWord (style : Member.Style) (c : Cursor) :
    allFrom style c =
      match c.nextWord? with
      | none => []
      | some w =>
        match read? style w with
        | some (d, place) => d :: allFrom style place
        | none => allFrom style w.stop := by
  rw [allFrom]
  split
  · rename_i hword
    rw [hword]
  · rename_i w hword
    rw [hword]
    dsimp only
    split
    · rename_i d place hread
      rw [hread]
    · rename_i hread
      rw [hread]

/-- The search for declarations goes from keyword to keyword. -/
theorem allFrom_eq (style : Member.Style) (c : Cursor) :
    allFrom style c =
      match Cursor.nextAmong? declarationWords .code c.behind c.ahead with
      | none => []
      | some w =>
        match read? style w with
        | some (d, place) => d :: allFrom style place
        | none => allFrom style w.stop := by
  induction c using allFrom.induct style with
  | case1 c hword => rw [allFrom_nextWord, Cursor.nextAmong?_nextWord, hword]
  | case2 c w hword d place hread _ =>
      have hkey : w.text ∈ declarationWords := by
        by_contra hkey
        rw [read?_of_not_mem hkey] at hread
        contradiction
      rw [allFrom_nextWord, Cursor.nextAmong?_nextWord, hword]
      simp only [hkey, if_true]
  | case3 c w hword hread ih =>
      rw [allFrom_nextWord, Cursor.nextAmong?_nextWord, hword]
      by_cases hkey : w.text ∈ declarationWords
      · simp only [hkey, if_true]
      · simp only [hkey, if_false, hread]
        exact ih

variable {style : Member.Style} {behind rest : Text}

/-- The search passes over a sign. -/
theorem allFrom_sign {c : Char} (hc : IsSign c) :
    allFrom style ⟨behind, c :: rest⟩ = allFrom style ⟨c :: behind, rest⟩ := by
  rw [allFrom_eq, Cursor.nextAmong?_sign hc, ← allFrom_eq style ⟨c :: behind, rest⟩]

/-- The search passes over a passage. -/
theorem allFrom_passage {t : Text} (ht : IsPassage declarationWords t) (hb : SignFirst behind)
    (hr : SignFirst rest) :
    allFrom style ⟨behind, t ++ rest⟩ = allFrom style ⟨t.reverse ++ behind, rest⟩ := by
  rw [allFrom_eq, Cursor.nextAmong?_passage ht hb hr,
    ← allFrom_eq style ⟨t.reverse ++ behind, rest⟩]

theorem read?_interface (start stop : Cursor) :
    read? style ⟨"interface".toList, start, stop⟩ = readInterface? style stop := by
  rw [read?, if_pos]
  rfl

theorem read?_type (start stop : Cursor) :
    read? style ⟨"type".toList, start, stop⟩ = readAlias? style stop := by
  have hne : "type".toList ≠ "interface".toList := by decide
  simp only [read?, hne, if_false, if_true]

/-- The search stops at a keyword and goes on behind the declaration that it begins. -/
theorem allFrom_keyword (w : Identifier) (hw : w.text ∈ declarationWords) (hb : SignFirst behind)
    (hr : SignFirst rest) {d : TypeDeclaration} {place : Cursor}
    (hread : read? style ⟨w.text, ⟨behind, w.text ++ rest⟩, ⟨w.text.reverse ++ behind, rest⟩⟩ =
      some (d, place)) :
    allFrom style ⟨behind, w.text ++ rest⟩ = d :: allFrom style place := by
  rw [allFrom_eq, Cursor.nextAmong?_keyword w hw hb hr]
  dsimp only
  rw [hread]

end TypeDeclaration

namespace Intake

theorem findFrom?_nextWord (call : Text) (c : Cursor) :
    findFrom? call c =
      match c.nextWord? with
      | none => none
      | some w =>
        if w.text ∈ keywords then
          match read? call w.stop with
          | some (pattern, ascription, stop) =>
            some ⟨pattern, ascription, w.start.byteOffset, stop.byteOffset⟩
          | none => findFrom? call w.stop
        else findFrom? call w.stop := by
  rw [findFrom?]
  split
  · rename_i hword
    rw [hword]
  · rename_i w hword
    rw [hword]
    dsimp only
    by_cases hkey : w.text ∈ keywords
    · simp only [hkey, if_true]
      cases read? call w.stop <;> rfl
    · simp only [hkey, if_false]

/-- The search for the intake statement goes from keyword to keyword. -/
theorem findFrom?_eq (call : Text) (c : Cursor) :
    findFrom? call c =
      match Cursor.nextAmong? keywords .code c.behind c.ahead with
      | none => none
      | some w =>
        match read? call w.stop with
        | some (pattern, ascription, stop) =>
          some ⟨pattern, ascription, w.start.byteOffset, stop.byteOffset⟩
        | none => findFrom? call w.stop := by
  induction c using findFrom?.induct call with
  | case1 c hword => rw [findFrom?_nextWord, Cursor.nextAmong?_nextWord, hword]
  | case2 c w hword intake? intake hread =>
      have hkey : w.text ∈ keywords := by
        by_contra hkey
        simp [intake?, hkey] at hread
      rw [findFrom?_nextWord, Cursor.nextAmong?_nextWord, hword]
      simp only [hkey, if_true]
  | case3 c w hword intake? hread ih =>
      rw [findFrom?_nextWord, Cursor.nextAmong?_nextWord, hword]
      by_cases hkey : w.text ∈ keywords
      · simp only [hkey, if_true]
      · simp only [hkey, if_false]
        exact ih

end Intake

end ComponentProps
