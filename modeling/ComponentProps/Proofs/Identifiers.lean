import ComponentProps.Text.Identifier
import ComponentProps.Proofs.Reading

/-!
# Identifiers

The characters of identifiers are neither white space nor signs of the script language, so that no
scanner takes one for anything else.
-/

namespace ComponentProps

open Text

namespace Text

/-- The code points of white space. -/
def whitePoints : List Nat :=
  [0x9, 0xA, 0xB, 0xC, 0xD, 0x20, 0x85, 0xA0, 0x1680, 0x2000, 0x2001, 0x2002, 0x2003, 0x2004,
    0x2005, 0x2006, 0x2007, 0x2008, 0x2009, 0x200A, 0x2028, 0x2029, 0x202F, 0x205F, 0x3000]

theorem toNat_mem_whitePoints {c : Char} (h : isWhite c = true) : c.toNat ∈ whitePoints := by
  simp only [isWhite, Bool.or_eq_true, Bool.and_eq_true, decide_eq_true_eq, beq_iff_eq] at h
  simp only [whitePoints, List.mem_cons, List.not_mem_nil, or_false]
  omega

theorem isIdentChar_whitePoints :
    ∀ n ∈ whitePoints, isIdentChar (Char.ofNat n) = false := by
  decide +kernel

theorem not_isWhite_of_isIdentChar {c : Char} (h : isIdentChar c = true) : isWhite c = false := by
  rw [Bool.eq_false_iff]
  intro hw
  have hno := isIdentChar_whitePoints c.toNat (toNat_mem_whitePoints hw)
  rw [Char.ofNat_toNat, h] at hno
  contradiction

theorem not_isIdentChar_of_isWhite {c : Char} (h : isWhite c = true) : isIdentChar c = false := by
  rw [Bool.eq_false_iff]
  intro hident
  rw [not_isWhite_of_isIdentChar hident] at h
  contradiction

theorem isPlain_of_isIdentChar {c : Char} (h : isIdentChar c = true) : IsPlain c := by
  have hquotes : c ∉ ['"', '\'', '\x60'] := not_mem_of_kind h rfl
  refine ⟨?_, ne_of_kind h rfl⟩
  simpa [isQuote, and_assoc] using hquotes

/-- Whether a text is an identifier. -/
def isIdentifier : Text → Bool
  | [] => false
  | c :: rest => isIdentStart c && rest.all isIdentChar

end Text

/-- An identifier. -/
structure Identifier where
  text : Text
  valid : isIdentifier text = true
  deriving DecidableEq, Repr

namespace Identifier

theorem exists_cons (n : Identifier) :
    ∃ c rest, n.text = c :: rest ∧ isIdentStart c = true ∧ ∀ d ∈ n.text, isIdentChar d = true := by
  obtain ⟨t, h⟩ := n
  cases t with
  | nil => contradiction
  | cons c rest =>
      simp only [isIdentifier, Bool.and_eq_true, List.all_eq_true] at h
      refine ⟨c, rest, rfl, h.1, ?_⟩
      intro d hd
      rcases List.mem_cons.mp hd with rfl | hd
      · exact isIdentChar_of_isIdentStart h.1
      · exact h.2 d hd

theorem ne_nil (n : Identifier) : n.text ≠ [] := by
  obtain ⟨c, rest, h, -⟩ := n.exists_cons
  simp [h]

theorem isIdentChar_of_mem (n : Identifier) {c : Char} (h : c ∈ n.text) : isIdentChar c = true := by
  obtain ⟨-, -, -, -, hall⟩ := n.exists_cons
  exact hall c h

theorem isPlain_of_mem (n : Identifier) {c : Char} (h : c ∈ n.text) : IsPlain c :=
  isPlain_of_isIdentChar (n.isIdentChar_of_mem h)

end Identifier

end ComponentProps
