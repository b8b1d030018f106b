import Mathlib.Data.Nat.Digits.Defs
import PpuCodec.Proofs.Numeral.Written

/-!
Which texts are numbers, and which number each of them is: a row of digits of the base that its mark
stands for, read by position. Nothing else is a number, and a number is never negative.
-/

namespace PpuCodec.Numeral

/-- The text is a row of digits behind a mark, with white space around, and `n` is their positional
value. -/
def Spells (text : List Char) (n : Nat) : Prop :=
  ∃ (front : List Char) (mark : Mark) (digits : List Char) (back : List Char) (values : List Nat),
    text = front ++ (mark.chars ++ digits) ++ back ∧
    (∀ c ∈ front, Text.isBlank c = true) ∧
    (∀ c ∈ back, Text.isBlank c = true) ∧
    digits ≠ [] ∧
    List.Forall₂ (IsDigit mark.base) digits values ∧
    n = Nat.ofDigits mark.base values.reverse

variable {base : Nat} {digits text front back : List Char}

theorem foldlM_eq_some_iff (h : base ≤ 16) {n m : Nat}
    : digits.foldlM (fun n c => (digitValue? base c).map (base * n + ·)) n = some m
        ↔
      ∃ values,
        List.Forall₂ (IsDigit base) digits values ∧
        m = values.foldl (fun n d => base * n + d) n := by
  induction digits generalizing n with
  | nil =>
    constructor
    . rintro ⟨⟩
      exact ⟨[], .nil, rfl⟩
    . rintro ⟨_, hvalues, rfl⟩
      cases hvalues
      rfl
  | cons c digits ih =>
    simp only [List.foldlM_cons, Option.bind_eq_bind, Option.bind_eq_some_iff,
      Option.map_eq_some_iff, ih]
    constructor
    . rintro ⟨_, ⟨d, hd, rfl⟩, values, hvalues, rfl⟩
      exact ⟨d :: values, .cons ((digitValue?_eq_some_iff h).mp hd) hvalues, rfl⟩
    . rintro ⟨_, hvalues, rfl⟩
      cases hvalues with
      | cons hd hrest =>
        exact ⟨_, ⟨_, (digitValue?_eq_some_iff h).mpr hd, rfl⟩, _, hrest, rfl⟩

theorem foldl_eq_ofDigits (base : Nat) (values : List Nat)
    : values.foldl (fun n d => base * n + d) 0 = Nat.ofDigits base values.reverse := by
  rw [Nat.ofDigits_eq_foldr, List.foldr_reverse]
  simp only [Nat.cast_id, Nat.add_comm]

theorem positional?_eq_some_iff (h : base ≤ 16) {n : Nat}
    : positional? base digits = some n
        ↔
      digits ≠ [] ∧
        ∃ values,
          List.Forall₂ (IsDigit base) digits values ∧
          n = Nat.ofDigits base values.reverse := by
  simp only [← foldl_eq_ofDigits, ← foldlM_eq_some_iff h]
  unfold positional?
  split
  . next hempty => simp [List.isEmpty_iff.mp hempty]
  . next hfull =>
    rw [List.isEmpty_iff] at hfull
    exact (and_iff_right hfull).symm

/-- White space around a text does not matter. -/
theorem parseChars?_append (hfront : ∀ c ∈ front, Text.isBlank c = true)
    (hback : ∀ c ∈ back, Text.isBlank c = true)
    : parseChars? (front ++ text ++ back) = parseChars? text := by
  rw [← parseChars?_strip, Text.strip_append hfront hback, parseChars?_strip]

theorem parseChars?_eq_some_iff {n : Nat} : parseChars? text = some n ↔ Spells text n := by
  constructor
  . intro h
    obtain ⟨mark, digits, hstrip, hread⟩ := exists_mark_of_parseChars? h
    obtain ⟨front, back, htext, hfront, hback⟩ := Text.exists_eq_append_strip text
    rw [hstrip] at htext
    obtain ⟨hne, values, hvalues, hn⟩ := (positional?_eq_some_iff mark.base_le_sixteen).mp hread
    exact ⟨front, mark, digits, back, values, htext, hfront, hback, hne, hvalues, hn⟩
  . rintro ⟨front, mark, digits, back, values, rfl, hfront, hback, hne, hvalues, hn⟩
    have hread : positional? mark.base digits = some n := by
      rw [positional?_eq_some_iff mark.base_le_sixteen]
      exact ⟨hne, values, hvalues, hn⟩
    rw [parseChars?_append hfront hback, parseChars?_chars_append]
    . exact hread
    . exact isSome_digitValue?_of_positional? hread

theorem parse_eq_ok_iff {text : String} {n : Nat}
    : parse text = .ok n ↔ parseChars? text.toList = some n := by
  unfold parse parse?
  cases parseChars? text.toList with
  | none => simp
  | some m => simp

theorem parse_eq_error_iff {text : String} {error : Error}
    : parse text = .error error
        ↔
      error = .invalid text ∧ ∀ n, parseChars? text.toList ≠ some n := by
  unfold parse parse?
  cases parseChars? text.toList with
  | none => simp [eq_comm]
  | some m => simp

end PpuCodec.Numeral
