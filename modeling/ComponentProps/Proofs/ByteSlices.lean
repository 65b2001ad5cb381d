import ComponentProps.Proofs.Encoding

/-!
# Slices by bytes

A slice of a text between two byte offsets is there if both lie in the text and on boundaries of
characters. A byte below 128 is a character of its own, so a search for such a byte ends on a
boundary.
-/

namespace ComponentProps.Text

/-! ### Slices -/

/-- The text from a byte offset on. There is none within a character or beyond the end. -/
def dropBytes? : Text → Nat → Option Text
  | [], n => if n = 0 then some [] else none
  | c :: t, n =>
    if n = 0 then some (c :: t)
    else if c.utf8Size ≤ n then dropBytes? t (n - c.utf8Size)
    else none

/-- The text up to a byte offset. There is none within a character or beyond the end. -/
def takeBytes? : Text → Nat → Option Text
  | [], n => if n = 0 then some [] else none
  | c :: t, n =>
    if n = 0 then some []
    else if c.utf8Size ≤ n then (takeBytes? t (n - c.utf8Size)).map (c :: ·)
    else none

/-- The text between two byte offsets. -/
def slice? (t : Text) (start stop : Nat) : Option Text :=
  if start ≤ stop then (dropBytes? t start).bind (takeBytes? · (stop - start)) else none

@[simp] theorem dropBytes?_zero (t : Text) : dropBytes? t 0 = some t := by
  cases t <;> simp [dropBytes?]

@[simp] theorem takeBytes?_zero (t : Text) : takeBytes? t 0 = some [] := by
  cases t <;> simp [takeBytes?]

theorem dropBytes?_append (front t : Text) (n : Nat) :
    dropBytes? (front ++ t) (byteLength front + n) = dropBytes? t n := by
  induction front with
  | nil => simp
  | cons c front ih =>
      have hsize := c.utf8Size_pos
      rw [List.cons_append, dropBytes?, byteLength_cons, if_neg (by omega), if_pos (by omega), ← ih]
      congr 1
      omega

theorem takeBytes?_append (front t : Text) :
    takeBytes? (front ++ t) (byteLength front) = some front := by
  induction front with
  | nil => simp
  | cons c front ih =>
      have hsize := c.utf8Size_pos
      rw [List.cons_append, takeBytes?, byteLength_cons, if_neg (by omega), if_pos (by omega),
        Nat.add_sub_cancel_left, ih, Option.map_some]

theorem append_of_dropBytes? {t rest : Text} {n : Nat} (h : dropBytes? t n = some rest) :
    ∃ front, t = front ++ rest ∧ byteLength front = n := by
  induction t generalizing n with
  | nil =>
      rw [dropBytes?] at h
      split at h
      · rename_i hn
        exact ⟨[], by simpa using h, hn.symm⟩
      · contradiction
  | cons c t ih =>
      rw [dropBytes?] at h
      split at h
      · rename_i hn
        exact ⟨[], by simpa using h, hn.symm⟩
      split at h
      · rename_i hsize
        obtain ⟨front, rfl, hfront⟩ := ih h
        exact ⟨c :: front, rfl, by rw [byteLength_cons]; omega⟩
      · contradiction

theorem append_of_takeBytes? {t front : Text} {n : Nat} (h : takeBytes? t n = some front) :
    ∃ rest, t = front ++ rest ∧ byteLength front = n := by
  induction t generalizing n front with
  | nil =>
      rw [takeBytes?] at h
      split at h
      · rename_i hn
        obtain rfl := Option.some.inj h
        exact ⟨[], rfl, hn.symm⟩
      · contradiction
  | cons c t ih =>
      rw [takeBytes?] at h
      split at h
      · rename_i hn
        obtain rfl := Option.some.inj h
        exact ⟨c :: t, rfl, hn.symm⟩
      split at h
      · rename_i hsize
        obtain ⟨front, hfront, rfl⟩ := Option.map_eq_some_iff.mp h
        obtain ⟨rest, rfl, hlength⟩ := ih hfront
        exact ⟨rest, rfl, by rw [byteLength_cons]; omega⟩
      · contradiction

/-- A slice is there exactly if both offsets are boundaries of the text, in order. -/
theorem slice?_eq_some_iff {t inner : Text} {start stop : Nat} : slice? t start stop = some inner ↔
    ∃ before after, t = before ++ (inner ++ after) ∧ byteLength before = start ∧
      byteLength before + byteLength inner = stop := by
  unfold slice?
  constructor
  · intro h
    split at h
    · rename_i hle
      obtain ⟨rest, hdrop, htake⟩ := Option.bind_eq_some_iff.mp h
      obtain ⟨before, rfl, hbefore⟩ := append_of_dropBytes? hdrop
      obtain ⟨after, rfl, hinner⟩ := append_of_takeBytes? htake
      exact ⟨before, after, rfl, hbefore, by omega⟩
    · contradiction
  · rintro ⟨before, after, rfl, rfl, rfl⟩
    rw [if_pos (Nat.le_add_right _ _), ← Nat.add_zero (byteLength before), dropBytes?_append,
      dropBytes?_zero, Option.bind_some, Nat.add_zero, Nat.add_sub_cancel_left, takeBytes?_append]

/-- No text begins within a character. -/
theorem dropBytes?_within (front : Text) {c : Char} (t : Text) {n : Nat} (hn : 0 < n)
    (hsize : n < c.utf8Size) : dropBytes? (front ++ c :: t) (byteLength front + n) = none := by
  rw [dropBytes?_append, dropBytes?, if_neg (by omega), if_neg (by omega)]

/-! ### Searches -/

/-- The byte offset of the first character from which on a text is as `p` says. -/
def offset? (p : Text → Bool) : Text → Option Nat
  | [] => none
  | c :: t => if p (c :: t) then some 0 else (offset? p t).map (c.utf8Size + ·)

/-- The first character of a kind stands behind those that are not of it. -/
theorem offset?_head (p : Char → Bool) (t : Text) : offset? (fun u => u.head?.any p) t =
    if t.any p then some (byteLength (t.takeWhile (!p ·))) else none := by
  induction t with
  | nil => rfl
  | cons c t ih =>
      rw [offset?, ih]
      cases hc : p c with
      | true => simp [hc]
      | false =>
          simp only [List.head?_cons, Option.any_some, hc, List.any_cons, Bool.false_or,
            List.takeWhile_cons, Bool.not_false, if_true, byteLength_cons, Bool.false_eq_true,
            if_false]
          split <;> rfl

/-! ### Bytes of characters -/

theorem bytes_ascii {c : Char} (h : c.val.toNat < 128) (t : Text) :
    bytes (c :: t) = c.toUInt8 :: bytes t := by
  obtain ⟨k, -, hleast, -, hencode⟩ := exists_encode c
  obtain rfl : k = 0 := by
    by_contra hk
    have hleasts : leastSpread 1 ≤ leastSpread k := leastSpread_mono (Nat.pos_of_ne_zero hk)
    exact absurd (hleasts.trans hleast) (Nat.not_le_of_lt h)
  rw [bytes_cons, hencode]
  rfl

theorem le_of_mem_spread {lead k v : Nat} (hlead : 128 ≤ lead) (hv : v / 64 ^ k + lead < 256) :
    ∀ b ∈ spread lead k v, 128 ≤ b.toNat := by
  induction k generalizing v with
  | zero =>
      intro b hb
      rw [List.mem_singleton.mp hb, UInt8.toNat_ofNat']
      rw [Nat.pow_zero, Nat.div_one] at hv
      omega
  | succ k ih =>
      rw [spread, List.forall_mem_append, List.forall_mem_singleton]
      refine ⟨ih ?_, ?_⟩
      · rwa [Nat.div_div_eq_div_mul, ← Nat.pow_succ']
      · rw [UInt8.toNat_ofNat']
        omega

/-- A byte below 128 is no byte of another character. -/
theorem le_of_mem_encode {c : Char} (h : 128 ≤ c.val.toNat) :
    ∀ b ∈ String.utf8EncodeChar c, 128 ≤ b.toNat := by
  obtain ⟨k, hk, -, hmost, hencode⟩ := exists_encode c
  have hpos : 1 ≤ k := by
    by_contra hzero
    have hmosts : leastSpread (k + 1) ≤ leastSpread 1 := leastSpread_mono (by omega)
    exact absurd (hmost.trans_le hmosts) (Nat.not_lt_of_le h)
  have hlead : leadMark 1 ≤ leadMark k := leadMark_mono hpos
  have hmark : leadMark (k + 1) ≤ leadMark 4 := leadMark_mono hk
  rw [hencode]
  exact le_of_mem_spread (le_trans (by decide) hlead)
    ((lead_lt hk hmost).trans_le (hmark.trans (by decide)))

theorem toUInt8_beq {c d : Char} (hc : c.val.toNat < 128) (hd : d.val.toNat < 128) :
    (c.toUInt8 == d.toUInt8) = (c == d) := by
  rw [Bool.eq_iff_iff, beq_iff_eq, beq_iff_eq]
  constructor
  · intro h
    have hbytes := congrArg UInt8.toNat h
    simp only [Char.toUInt8, UInt32.toNat_toUInt8] at hbytes
    exact Char.toNat_inj.mp (by rw [← Char.toNat_val, ← Char.toNat_val]; omega)
  · rintro rfl
    rfl

theorem ne_of_le_toNat {b : UInt8} {c : Char} (hb : 128 ≤ b.toNat) (hc : c.val.toNat < 128) :
    (b == c.toUInt8) = false := by
  rw [beq_eq_false_iff_ne]
  rintro rfl
  simp only [Char.toUInt8, UInt32.toNat_toUInt8] at hb
  omega

/-- A text ends with the byte of a character of one byte if it ends with that character. -/
theorem getLast?_bytes {d : Char} (hd : d.val.toNat < 128) (t : Text) :
    (bytes t).getLast?.any (· == d.toUInt8) = t.getLast?.any (· == d) := by
  rcases t.eq_nil_or_concat' with rfl | ⟨front, c, rfl⟩
  · rfl
  rw [bytes_append, List.getLast?_append, List.getLast?_concat]
  by_cases hc : c.val.toNat < 128
  · rw [bytes_ascii hc]
    exact toUInt8_beq hc hd
  · have hne : String.utf8EncodeChar c ≠ [] := String.utf8EncodeChar_ne_nil
    rw [bytes_cons, bytes_nil, List.append_nil, List.getLast?_eq_some_getLast hne]
    have hlast := le_of_mem_encode (Nat.le_of_not_lt hc) _ (List.getLast_mem hne)
    have hother : (c == d) = false := by
      rw [beq_eq_false_iff_ne]
      rintro rfl
      exact hc hd
    simpa [hother] using ne_of_le_toNat hlast hd

theorem getElem?_bytes_append (front t : Text) (n : Nat) :
    (bytes (front ++ t))[byteLength front + n]? = (bytes t)[n]? := by
  rw [bytes_append, ← length_bytes, List.getElem?_append_right (Nat.le_add_right _ _),
    Nat.add_sub_cancel_left]

theorem drop_bytes_append (front t : Text) :
    (bytes (front ++ t)).drop (byteLength front) = bytes t := by
  rw [bytes_append, ← length_bytes, List.drop_left]

/-- A boundary cuts a text in one way. -/
theorem append_inj_byteLength {s t s' t' : Text} (h : s ++ t = s' ++ t')
    (hlength : byteLength s = byteLength s') : s = s' ∧ t = t' := by
  have htake := takeBytes?_append s t
  rw [h, hlength, takeBytes?_append] at htake
  obtain rfl := Option.some.inj htake
  exact ⟨rfl, List.append_cancel_left h⟩

end ComponentProps.Text
