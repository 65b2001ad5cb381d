import ComponentProps.Code.Nesting
import ComponentProps.Code.Region
import Mathlib.Data.List.Basic

/-!
# Reading in context

A reader of script text looks back for backslashes before a quote and ahead for the second character
of a comment sign. Where neither look leaves a text, the text is read in any surroundings as it is
read alone. This module gives the characters of a text with their roles and says how texts are read
one after another.
-/

namespace ComponentProps

open Text

namespace Text

/-- Backslashes are counted only up to the next other character. -/
theorem isEscaped_append {behind : Text} (h : behind.head? ≠ some '\\') (front : Text) :
    isEscaped (front ++ behind) = isEscaped front := by
  have hstop : behind.takeWhile (· == '\\') = [] := by
    cases behind with
    | nil => rfl
    | cons c behind =>
        have hc : c ≠ '\\' := by simpa using h
        simp [hc]
  unfold isEscaped
  rw [List.takeWhile_append]
  split
  · rename_i hall
    rw [hstop, List.append_nil, ← hall]
  · rfl

theorem isEscaped_of_head?_ne {behind : Text} (h : behind.head? ≠ some '\\') :
    isEscaped behind = false := by
  exact isEscaped_append h []

/-- The last character of a text is the nearest one behind it. -/
theorem head?_reverse_append_ne {t behind : Text} {c : Char} (ht : t.getLast? ≠ some c)
    (hb : behind.head? ≠ some c) : (t.reverse ++ behind).head? ≠ some c := by
  rw [List.head?_append, List.head?_reverse]
  cases hlast : t.getLast? with
  | none => exact hb
  | some d => simpa [hlast] using ht

theorem getLast?_append_ne {s t : Text} {c : Char} (hs : s.getLast? ≠ some c)
    (ht : t.getLast? ≠ some c) : (s ++ t).getLast? ≠ some c := by
  have hboth := head?_reverse_append_ne ht (by rwa [List.head?_reverse] : s.reverse.head? ≠ some c)
  rwa [← List.reverse_append, List.head?_reverse] at hboth

theorem isEscaped_cons (c : Char) (behind : Text) :
    isEscaped (c :: behind) = if c = '\\' then !isEscaped behind else false := by
  by_cases hc : c = '\\'
  · subst hc
    simp only [isEscaped, List.takeWhile_cons, beq_self_eq_true, if_true, List.length_cons]
    have hmod := Nat.mod_two_eq_zero_or_one (behind.takeWhile (· == '\\')).length
    rcases hmod with h | h <;> simp [Nat.add_mod, h]
  · simp [isEscaped, hc]

/-- Whether a text does not go on with the second character of a comment sign. -/
def EndsSlash (rest : Text) : Prop := rest.head? ≠ some '/' ∧ rest.head? ≠ some '*'

instance (rest : Text) : Decidable (EndsSlash rest) :=
  inferInstanceAs (Decidable (_ ∧ _))

theorem endsSlash_nil : EndsSlash [] := by simp [EndsSlash]

theorem endsSlash_cons {c : Char} (h : c ≠ '/' ∧ c ≠ '*') (t : Text) : EndsSlash (c :: t) := by
  simpa [EndsSlash] using h

/-- A character of some kind is none that is not of this kind. -/
theorem ne_of_kind {kind : Char → Bool} {c d : Char} (hc : kind c = true)
    (hd : kind d = false) : c ≠ d := by
  rintro rfl
  rw [hc] at hd
  contradiction

theorem not_mem_of_kind {kind : Char → Bool} {c : Char} (hc : kind c = true) {signs : List Char}
    (h : signs.all (fun d => !kind d) = true) : c ∉ signs := by
  intro hmem
  have hno := List.all_eq_true.mp h c hmem
  rw [hc] at hno
  contradiction

/-- A character that opens neither a literal nor a comment. -/
def IsPlain (c : Char) : Prop := isQuote c = false ∧ c ≠ '/'

instance (c : Char) : Decidable (IsPlain c) := inferInstanceAs (Decidable (_ ∧ _))

/-- The characters that nesting depends on. -/
def bracketSigns : List Char := ['(', ')', '[', ']', '{', '}', '<', '>']

theorem bracket_of_not_mem {c : Char} (h : c ∉ bracketSigns) (behind : Text) :
    Bracket.of? behind c = none := by
  simp only [bracketSigns, List.mem_cons, List.not_mem_nil, or_false, not_or] at h
  simp [Bracket.of?, h]

end Text

namespace Region

theorem comment?_append {rest : Text} (h : EndsSlash rest) (c : Char) (t : Text) :
    comment? c (t ++ rest) = comment? c t := by
  cases t with
  | cons d t => rfl
  | nil =>
      unfold comment?
      split
      · cases rest with
        | nil => rfl
        | cons d rest =>
            have h1 : d ≠ '/' := by simpa using h.1
            have h2 : d ≠ '*' := by simpa using h.2
            simp [h1, h2]
      · rfl

/-- A character of a text has the same role in all surroundings that its text does not reach
into. -/
theorem read_context {behind rest : Text} (hb : behind.head? ≠ some '\\') (hr : EndsSlash rest)
    (region : Region) (front : Text) (c : Char) (t : Text) :
    region.read (front ++ behind) c (t ++ rest) = region.read front c t := by
  have hstar : ((t ++ rest).head? == some '/') = (t.head? == some '/') := by
    cases t with
    | cons d t => rfl
    | nil => simpa using hr.1
  cases region <;> simp only [read, isEscaped_append hb, comment?_append hr, hstar]

theorem read_plain {c : Char} (h : IsPlain c) (behind rest : Text) :
    code.read behind c rest = (.code, code) := by
  simp [read, comment?, h.1, h.2]

/-- Only code is read as code, but for the line feed behind a comment. -/
theorem eq_code_of_read {region next : Region} {behind rest : Text} {c : Char} (hc : c ≠ '\n')
    (h : region.read behind c rest = (.code, next)) : region = .code := by
  cases region with
  | code => rfl
  | lineComment => simp [read, hc] at h
  | literal quote | blockOpening | blockComment | blockClosing => simp [read] at h

/-- The characters of a text with their roles, read behind the characters `behind`. -/
def roles (region : Region) (behind : Text) : Text → List (Char × Role)
  | [] => []
  | c :: rest =>
    (c, (region.read behind c rest).1) :: roles (region.read behind c rest).2 (c :: behind) rest

@[simp] theorem roles_nil (region : Region) (behind : Text) : region.roles behind [] = [] := rfl

@[simp] theorem after_nil (region : Region) (behind : Text) : region.after behind [] = region := rfl

theorem roles_behind {behind : Text} (hb : behind.head? ≠ some '\\') (region : Region)
    (front t : Text) : region.roles (front ++ behind) t = region.roles front t := by
  induction t generalizing region front with
  | nil => rfl
  | cons c t ih =>
      have hread := read_context hb endsSlash_nil region front c t
      rw [List.append_nil] at hread
      simp only [roles, hread]
      exact congrArg _ (ih _ (c :: front))

theorem after_behind {behind : Text} (hb : behind.head? ≠ some '\\') (region : Region)
    (front t : Text) : region.after (front ++ behind) t = region.after front t := by
  induction t generalizing region front with
  | nil => rfl
  | cons c t ih =>
      have hread := read_context hb endsSlash_nil region front c t
      rw [List.append_nil] at hread
      simp only [after, hread]
      exact ih _ (c :: front)

theorem read_before {rest : Text} (hr : EndsSlash rest) (region : Region) (behind : Text) (c : Char)
    (t : Text) : region.read behind c (t ++ rest) = region.read behind c t := by
  have hnone : ([] : Text).head? ≠ some '\\' := by simp
  simpa using read_context hnone hr region behind c t

theorem roles_append {t : Text} (ht : EndsSlash t) (region : Region) (behind s : Text) :
    region.roles behind (s ++ t) =
      region.roles behind s ++ (region.after behind s).roles (s.reverse ++ behind) t := by
  induction s generalizing region behind with
  | nil => simp
  | cons c s ih =>
      simp only [List.cons_append, roles, after, read_before ht, ih, List.reverse_cons,
        List.append_assoc, List.nil_append]

theorem after_append {t : Text} (ht : EndsSlash t) (region : Region) (behind s : Text) :
    region.after behind (s ++ t) =
      (region.after behind s).after (s.reverse ++ behind) t := by
  induction s generalizing region behind with
  | nil => simp
  | cons c s ih =>
      simp only [List.cons_append, after, read_before ht, ih, List.reverse_cons,
        List.append_assoc, List.nil_append]

theorem roles_plain_cons {c : Char} (h : IsPlain c) (behind t : Text) :
    code.roles behind (c :: t) = (c, .code) :: code.roles (c :: behind) t := by
  simp only [roles, read_plain h]

theorem after_plain_cons {c : Char} (h : IsPlain c) (behind t : Text) :
    code.after behind (c :: t) = code.after (c :: behind) t := by
  simp only [after, read_plain h]

theorem roles_plain {t : Text} (h : ∀ c ∈ t, IsPlain c) (behind : Text) :
    code.roles behind t = t.map fun c => (c, .code) := by
  induction t generalizing behind with
  | nil => rfl
  | cons c t ih =>
      rw [roles_plain_cons (h c List.mem_cons_self), List.map_cons,
        ih fun d hd => h d (List.mem_cons_of_mem _ hd)]

theorem after_plain {t : Text} (h : ∀ c ∈ t, IsPlain c) (behind : Text) :
    code.after behind t = code := by
  induction t generalizing behind with
  | nil => rfl
  | cons c t ih =>
      rw [after_plain_cons (h c List.mem_cons_self)]
      exact ih (fun d hd => h d (List.mem_cons_of_mem _ hd)) _

end Region

/-! ### Brackets -/

/-- How many brackets of one kind are open behind some characters when `depth` were open before
them. There is no answer when a bracket is closed that was not open. -/
def depthAfter? (opening close : Char) (depth : Nat) : List (Char × Role) → Option Nat
  | [] => some depth
  | (c, role) :: rest =>
    if role ≠ .code then depthAfter? opening close depth rest
    else if c = opening then depthAfter? opening close (depth + 1) rest
    else if c = close then
      match depth with
      | 0 => none
      | depth + 1 => depthAfter? opening close depth rest
    else depthAfter? opening close depth rest

theorem depthAfter?_append (opening close : Char) (depth : Nat) (xs ys : List (Char × Role)) :
    depthAfter? opening close depth (xs ++ ys) =
      (depthAfter? opening close depth xs).bind (depthAfter? opening close · ys) := by
  induction xs generalizing depth with
  | nil => rfl
  | cons x xs ih =>
      obtain ⟨c, role⟩ := x
      simp only [List.cons_append, depthAfter?, ih]
      split
      · rfl
      split
      · rfl
      split
      · cases depth <;> rfl
      · rfl

/-- Characters that are no such brackets or not code change nothing. -/
theorem depthAfter?_of_ne {opening close : Char} {depth : Nat} {read : List (Char × Role)}
    (h : ∀ p ∈ read, p.2 ≠ .code ∨ p.1 ≠ opening ∧ p.1 ≠ close) :
    depthAfter? opening close depth read = some depth := by
  induction read with
  | nil => rfl
  | cons p read ih =>
      obtain ⟨c, role⟩ := p
      have hnext := ih fun q hq => h q (List.mem_cons_of_mem _ hq)
      rcases h (c, role) List.mem_cons_self with hrole | ⟨hopen, hclose⟩
      · simp only [depthAfter?, if_pos hrole, hnext]
      · simp only [depthAfter?, if_neg hopen, if_neg hclose, hnext, ite_self]

/-- More brackets open at the start are as many more open at the end. -/
theorem depthAfter?_add {opening close : Char} {depth final : Nat} {xs : List (Char × Role)}
    (h : depthAfter? opening close depth xs = some final) (more : Nat) :
    depthAfter? opening close (depth + more) xs = some (final + more) := by
  induction xs generalizing depth with
  | nil =>
      simp only [depthAfter?, Option.some.injEq] at h ⊢
      rw [h]
  | cons x xs ih =>
      obtain ⟨c, role⟩ := x
      simp only [depthAfter?] at h ⊢
      split
      · rename_i hrole
        rw [if_pos hrole] at h
        exact ih h
      rename_i hrole
      rw [if_neg hrole] at h
      split
      · rename_i hc
        rw [if_pos hc] at h
        rw [Nat.add_right_comm]
        exact ih h
      rename_i hc
      rw [if_neg hc] at h
      split
      · rename_i hclose
        rw [if_pos hclose] at h
        cases depth with
        | zero => contradiction
        | succ depth =>
            rw [Nat.add_right_comm]
            exact ih h
      · rename_i hclose
        rw [if_neg hclose] at h
        exact ih h

end ComponentProps
