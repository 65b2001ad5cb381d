import ComponentProps.Text.Basic
import Mathlib.Algebra.Group.Nat.Defs
import Mathlib.Data.List.Lex
import Mathlib.Order.Monotone.Basic

/-!
# Texts as bytes

The bytes of a text are those of its characters in UTF-8. Comparing texts byte by byte is comparing
them character by character. A byte below 128 is a character of its own, and all bytes of the other
characters are above.
-/

namespace ComponentProps.Text

/-- The bytes of a text in UTF-8. -/
def bytes (t : Text) : List UInt8 := t.flatMap String.utf8EncodeChar

@[simp] theorem bytes_nil : bytes [] = [] := rfl

theorem bytes_cons (c : Char) (t : Text) :
    bytes (c :: t) = String.utf8EncodeChar c ++ bytes t := rfl

theorem bytes_append (s t : Text) : bytes (s ++ t) = bytes s ++ bytes t := by
  simp [bytes]

theorem length_bytes (t : Text) : (bytes t).length = byteLength t := by
  induction t with
  | nil => rfl
  | cons c t ih => rw [bytes_cons, List.length_append, String.length_utf8EncodeChar, ih, byteLength]

/-! ### The bytes of a character -/

/-- A number written as a leading byte and `k` bytes with six bits each. -/
def spread (lead : Nat) : Nat → Nat → List UInt8
  | 0, v => [UInt8.ofNat (v + lead)]
  | k + 1, v => spread lead k (v / 64) ++ [UInt8.ofNat (v % 64 + 128)]

/-- The least number whose form has `k` bytes behind the leading one. -/
def leastSpread : Nat → Nat
  | 0 => 0
  | 1 => 0x80
  | 2 => 0x800
  | 3 => 0x10000
  | _ => 0x110000

/-- What marks the leading byte of a form with `k` bytes behind it. -/
def leadMark : Nat → Nat
  | 0 => 0
  | 1 => 0xC0
  | 2 => 0xE0
  | 3 => 0xF0
  | _ => 0xF8

theorem leastSpread_mono : Monotone leastSpread := by
  refine monotone_nat_of_le_succ fun k => ?_
  rcases k with _ | _ | _ | _ | k <;> simp [leastSpread]

theorem leadMark_mono : Monotone leadMark := by
  refine monotone_nat_of_le_succ fun k => ?_
  rcases k with _ | _ | _ | _ | k <;> simp [leadMark]

/-- The leading bytes of one form are below those of the next. -/
theorem lead_lt {k v : Nat} (hk : k < 4) (hv : v < leastSpread (k + 1)) :
    v / 64 ^ k + leadMark k < leadMark (k + 1) := by
  rcases k with _ | _ | _ | _ | k <;> simp only [leastSpread, leadMark] at hv ⊢ <;> omega

/-- A character is written in the form that its number calls for. -/
theorem exists_encode (c : Char) : ∃ k < 4, leastSpread k ≤ c.val.toNat ∧
    c.val.toNat < leastSpread (k + 1) ∧
      String.utf8EncodeChar c = spread (leadMark k) k c.val.toNat := by
  have hvalid : c.val.toNat < 0x110000 := by
    have hvalid := c.valid
    simp only [UInt32.isValidChar, Nat.isValidChar] at hvalid
    omega
  simp only [String.utf8EncodeChar]
  generalize c.val.toNat = v at hvalid ⊢
  split_ifs with h1 h2 h3
  · exact ⟨0, by omega, Nat.zero_le v, Nat.lt_succ_of_le h1, rfl⟩
  · have hlead : v / 64 % 32 = v / 64 := by omega
    exact ⟨1, by omega, Nat.lt_of_not_le h1, Nat.lt_succ_of_le h2, by rw [hlead]; rfl⟩
  · have hlead : v / 4096 % 16 = v / 64 / 64 := by omega
    exact ⟨2, by omega, Nat.lt_of_not_le h2, Nat.lt_succ_of_le h3, by rw [hlead]; rfl⟩
  · have hlead : v / 262144 % 8 = v / 64 / 64 / 64 := by omega
    have hnext : v / 4096 % 64 = v / 64 / 64 % 64 := by omega
    exact ⟨3, by omega, Nat.lt_of_not_le h3, hvalid, by rw [hlead, hnext]; rfl⟩

theorem head_spread (lead k v : Nat) :
    ∃ rest, spread lead k v = UInt8.ofNat (v / 64 ^ k + lead) :: rest := by
  induction k generalizing v with
  | zero => exact ⟨[], by simp [spread]⟩
  | succ k ih =>
      obtain ⟨rest, hrest⟩ := ih (v / 64)
      refine ⟨rest ++ [UInt8.ofNat (v % 64 + 128)], ?_⟩
      rw [spread, hrest, Nat.div_div_eq_div_mul, ← Nat.pow_succ']
      rfl

/-! ### Order -/

theorem ofNat_cons_lt {m n : Nat} (h : m < n) (hn : n < 256) (s t : List UInt8) :
    UInt8.ofNat m :: s < UInt8.ofNat n :: t := by
  refine List.Lex.rel ?_
  rw [UInt8.lt_iff_toNat_lt, UInt8.toNat_ofNat', UInt8.toNat_ofNat']
  omega

theorem spread_lt {lead k m n : Nat} (h : m < n) (hn : n / 64 ^ k + lead < 256) (s t : List UInt8) :
    spread lead k m ++ s < spread lead k n ++ t := by
  induction k generalizing m n s t with
  | zero =>
      simp only [spread, Nat.pow_zero, Nat.div_one, List.singleton_append] at hn ⊢
      exact ofNat_cons_lt (by omega) hn s t
  | succ k ih =>
      rw [spread, spread, List.append_assoc, List.append_assoc]
      rcases Nat.lt_or_ge (m / 64) (n / 64) with hlead | hlead
      · refine ih hlead ?_ _ _
        rwa [Nat.div_div_eq_div_mul, ← Nat.pow_succ']
      · have hsame : m / 64 = n / 64 := by omega
        rw [hsame]
        exact List.Lex.append_left _ (ofNat_cons_lt (by omega) (by omega) s t) _

/-- Characters are told apart by the first bytes that differ. -/
theorem encode_lt {c d : Char} (h : c < d) (s t : List UInt8) :
    String.utf8EncodeChar c ++ s < String.utf8EncodeChar d ++ t := by
  have hlt : c.val.toNat < d.val.toNat := h
  obtain ⟨k, hk, hleast, hmost, hc⟩ := exists_encode c
  obtain ⟨k', hk', hleast', hmost', hd⟩ := exists_encode d
  have hsmall : d.val.toNat / 64 ^ k' + leadMark k' < 256 :=
    Nat.lt_of_lt_of_le (lead_lt hk' hmost') ((leadMark_mono hk').trans (by decide))
  rw [hc, hd]
  rcases Nat.lt_trichotomy k k' with hless | rfl | hgreater
  · -- The shorter form has the smaller leading byte.
    obtain ⟨rest, hrest⟩ := head_spread (leadMark k) k c.val.toNat
    obtain ⟨rest', hrest'⟩ := head_spread (leadMark k') k' d.val.toNat
    have hmarks : leadMark (k + 1) ≤ leadMark k' := leadMark_mono hless
    have hlead := (lead_lt hk hmost).trans_le hmarks
    rw [hrest, hrest']
    exact ofNat_cons_lt (hlead.trans_le (Nat.le_add_left _ _)) hsmall _ _
  · exact spread_lt hlt hsmall s t
  · have hleasts : leastSpread (k' + 1) ≤ leastSpread k := leastSpread_mono hgreater
    omega

/-- Texts stand in the order of their bytes. -/
theorem bytes_lt_bytes {s t : Text} (h : s < t) : bytes s < bytes t := by
  induction h with
  | @nil d t =>
      obtain ⟨b, rest, hencode⟩ :=
        List.exists_cons_of_ne_nil (String.utf8EncodeChar_ne_nil (c := d))
      rw [bytes_nil, bytes_cons, hencode]
      exact List.Lex.nil
  | rel h => exact encode_lt h _ _
  | cons _ ih => exact List.Lex.append_left _ ih _

end ComponentProps.Text
