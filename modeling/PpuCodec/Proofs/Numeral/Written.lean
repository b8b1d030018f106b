import PpuCodec.Numeral
import PpuCodec.Proofs.Text.Cut

/-!
What a text that is read as a number is made of, and the three ways in which a number is written: in
decimal digits, or in base sixteen behind `0x` or `$`. Whatever the way, the number is read back.
-/

namespace PpuCodec

theorem Text.isBlank_eq_false {c : Char} (hlow : 0x20 < c.toNat) (hhigh : c.toNat < 0x85)
    : isBlank c = false := by
  simp [isBlank, inRanges, blankRanges]
  omega

namespace Numeral

/-- What stands in front of the digits of a number. -/
inductive Mark where
  | plain
  | zeroX
  | dollar
deriving Repr, DecidableEq

namespace Mark

def chars : Mark → List Char
  | plain => []
  | zeroX => ['0', 'x']
  | dollar => ['$']

def base : Mark → Nat
  | plain => 10
  | zeroX => 16
  | dollar => 16

theorem one_lt_base (mark : Mark) : 1 < mark.base := by
  cases mark with
  | plain => decide
  | zeroX => decide
  | dollar => decide

theorem base_le_sixteen (mark : Mark) : mark.base ≤ 16 := by
  cases mark with
  | plain => decide
  | zeroX => decide
  | dollar => decide

end Mark

/-- How a number is written: behind its mark and any count of zeros, with small or capital letters. -/
structure Style where
  mark : Mark := .plain
  zeros : Nat := 0
  capital : Bool := false

namespace Style

def letter (style : Style) (c : Char) : Char :=
  if style.capital then c.toUpper else c

def digits (style : Style) (n : Nat) : List Char :=
  List.replicate style.zeros '0' ++ (Nat.toDigits style.mark.base n).map style.letter

def write (style : Style) (n : Nat) : String :=
  String.ofList (style.mark.chars ++ style.digits n)

end Style

/-- The character is the digit of value `d`; letters may be small or capital. -/
def IsDigit (base : Nat) (c : Char) (d : Nat) : Prop :=
  d < base ∧ (c = d.digitChar ∨ c = d.digitChar.toUpper)

instance {base : Nat} {c : Char} {d : Nat} : Decidable (IsDigit base c d) :=
  inferInstanceAs (Decidable (_ ∧ _))

variable {base d : Nat} {digits : List Char} {mark : Mark} {c : Char}

theorem isBlank_eq_false_of_isDigit (h : c.isDigit = true) : Text.isBlank c = false := by
  simp only [Char.isDigit, Bool.and_eq_true, decide_eq_true_eq] at h
  have hlow : 0x30 ≤ c.toNat := h.1
  have hhigh : c.toNat ≤ 0x39 := h.2
  apply Text.isBlank_eq_false
  . omega
  . omega

theorem le_of_digitValue? (h : (digitValue? base c).isSome = true) : '0' ≤ c ∧ c ≤ 'f' := by
  have hrange : ('0' ≤ c ∧ c ≤ '9') ∨ ('a' ≤ c ∧ c ≤ 'f') ∨ ('A' ≤ c ∧ c ≤ 'F') := by
    apply Classical.byContradiction
    intro hnone
    rw [not_or, not_or] at hnone
    simp [digitValue?, hnone.1, hnone.2.1, hnone.2.2] at h
  rcases hrange with ⟨hlow, hhigh⟩ | ⟨hlow, hhigh⟩ | ⟨hlow, hhigh⟩
  . exact ⟨hlow, Char.le_trans hhigh (by decide)⟩
  . exact ⟨Char.le_trans (by decide) hlow, hhigh⟩
  . exact ⟨Char.le_trans (by decide) hlow, Char.le_trans hhigh (by decide)⟩

theorem digitValue?_sixteen_eq_some_iff : digitValue? 16 c = some d ↔ IsDigit 16 c d := by
  constructor
  . intro h
    -- No character behind the last letter is a digit, so there are few to look at.
    have hall : ∀ code < 0x67, ∀ d ∈ digitValue? 16 (Char.ofNat code),
        IsDigit 16 (Char.ofNat code) d := by
      decide +kernel
    have hlast : c ≤ 'f' := (le_of_digitValue? (by rw [h]; rfl)).2
    have hcode := hall c.toNat (Nat.lt_succ_of_le hlast)
    rw [Char.ofNat_toNat] at hcode
    exact hcode d h
  . rintro ⟨hlt, hchar⟩
    have hall : ∀ d < 16, digitValue? 16 d.digitChar = some d ∧
        digitValue? 16 d.digitChar.toUpper = some d := by
      decide
    rcases hchar with rfl | rfl
    . exact (hall d hlt).1
    . exact (hall d hlt).2

theorem digitValue?_eq_some_iff (h : base ≤ 16) : digitValue? base c = some d ↔ IsDigit base c d := by
  have hsixteen : digitValue? base c = some d ↔ digitValue? 16 c = some d ∧ d < base := by
    simp only [digitValue?, Option.filter_eq_some_iff, decide_eq_true_iff]
    constructor
    . rintro ⟨hvalue, hlt⟩
      exact ⟨⟨hvalue, Nat.lt_of_lt_of_le hlt h⟩, hlt⟩
    . rintro ⟨⟨hvalue, _⟩, hlt⟩
      exact ⟨hvalue, hlt⟩
  rw [hsixteen, digitValue?_sixteen_eq_some_iff]
  constructor
  . rintro ⟨⟨_, hchar⟩, hlt⟩
    exact ⟨hlt, hchar⟩
  . rintro ⟨hlt, hchar⟩
    exact ⟨⟨Nat.lt_of_lt_of_le hlt h, hchar⟩, hlt⟩

theorem isBlank_eq_false_of_digitValue? (h : (digitValue? base c).isSome = true)
    : Text.isBlank c = false := by
  have hlow : 0x30 ≤ c.toNat := (le_of_digitValue? h).1
  have hhigh : c.toNat ≤ 0x66 := (le_of_digitValue? h).2
  apply Text.isBlank_eq_false
  . omega
  . omega

theorem parseChars?_strip (text : List Char) : parseChars? (Text.strip text) = parseChars? text := by
  unfold parseChars?
  rw [Text.strip_strip]

/-- The characters that numbers are written in, with the white space that may stand around them. -/
def isNumeralChar (c : Char) : Bool :=
  Text.isBlank c || c == 'x' || c == '$' || (digitValue? 16 c).isSome

theorem isSome_digitValue?_sixteen (hle : base ≤ 16) (h : (digitValue? base c).isSome = true)
    : (digitValue? 16 c).isSome = true := by
  obtain ⟨d, hd⟩ := Option.isSome_iff_exists.mp h
  obtain ⟨hlt, hchar⟩ := (digitValue?_eq_some_iff hle).mp hd
  have hsixteen : digitValue? 16 c = some d :=
    digitValue?_sixteen_eq_some_iff.mpr ⟨Nat.lt_of_lt_of_le hlt hle, hchar⟩
  rw [hsixteen]
  rfl

theorem isSome_digitValue?_of_foldlM {n m : Nat}
    (h : digits.foldlM (fun n c => (digitValue? base c).map (base * n + ·)) n = some m)
    : ∀ c ∈ digits, (digitValue? base c).isSome = true := by
  induction digits generalizing n with
  | nil => simp
  | cons d digits ih =>
    rw [List.foldlM_cons] at h
    obtain ⟨next, hnext, hrest⟩ := Option.bind_eq_some_iff.mp h
    intro c hc
    cases List.mem_cons.mp hc with
    | inl heq =>
      rw [heq, ← Option.isSome_map, hnext]
      rfl
    | inr hmem => exact ih hrest c hmem

theorem isSome_digitValue?_of_positional? {n : Nat}
    (h : positional? base digits = some n)
    : ∀ c ∈ digits, (digitValue? base c).isSome = true := by
  unfold positional? at h
  split at h
  . simp at h
  . exact isSome_digitValue?_of_foldlM h

/-- What is read as a number is digits behind a mark, once the white space is stripped off. -/
theorem exists_mark_of_parseChars? {text : List Char} {n : Nat} (h : parseChars? text = some n)
    : ∃ (mark : Mark) (digits : List Char),
        Text.strip text = mark.chars ++ digits ∧ positional? mark.base digits = some n := by
  unfold parseChars? at h
  split at h
  . next digits heq => exact ⟨.zeroX, digits, heq, h⟩
  . next digits heq => exact ⟨.dollar, digits, heq, h⟩
  . exact ⟨.plain, _, rfl, h⟩

theorem isNumeralChar_of_parseChars? {text : List Char} {n : Nat} (h : parseChars? text = some n)
    : ∀ c ∈ text, isNumeralChar c = true := by
  obtain ⟨mark, digits, hstrip, hread⟩ := exists_mark_of_parseChars? h
  obtain ⟨front, back, htext, hfront, hback⟩ := Text.exists_eq_append_strip text
  have hblank : ∀ c, Text.isBlank c = true → isNumeralChar c = true := by
    intro c hc
    simp [isNumeralChar, hc]
  have hmark : mark.chars.all isNumeralChar = true := by
    cases mark with
    | plain => rfl
    | zeroX => rfl
    | dollar => rfl
  have hdigit : ∀ c ∈ digits, isNumeralChar c = true := by
    intro c hc
    have hvalue := isSome_digitValue?_of_positional? hread c hc
    simp [isNumeralChar, isSome_digitValue?_sixteen mark.base_le_sixteen hvalue]
  intro c hc
  rw [htext, hstrip] at hc
  simp only [List.mem_append] at hc
  rcases hc with (hmem | hmem | hmem) | hmem
  . exact hblank c (hfront c hmem)
  . exact List.all_eq_true.mp hmark c hmem
  . exact hdigit c hmem
  . exact hblank c (hback c hmem)

theorem foldlM_replicate_zero (hbase : 0 < base) (count : Nat)
    : (List.replicate count '0').foldlM (fun n c => (digitValue? base c).map (base * n + ·)) 0
        =
      some 0 := by
  have hzero : digitValue? base '0' = some 0 := by
    simp [digitValue?, hbase]
  induction count with
  | zero => rfl
  | succ count ih =>
    rw [List.replicate_succ, List.foldlM_cons, hzero]
    exact ih

/-- The digits of a number are read as that number, if each of them is read as what it stands for. -/
theorem foldlM_toDigits (hbase : 1 < base) {letter : Char → Char}
    (hletter : ∀ d < base, digitValue? base (letter d.digitChar) = some d) (n : Nat)
    : ((Nat.toDigits base n).map letter).foldlM
        (fun n c => (digitValue? base c).map (base * n + ·)) 0
        =
      some n := by
  induction n using Nat.strongRecOn with
  | ind n ih =>
    cases Nat.lt_or_ge n base with
    | inl hlt =>
      rw [Nat.toDigits_of_lt_base hlt, List.map_singleton, List.foldlM_cons, hletter n hlt]
      simp
    | inr hge =>
      -- The last digit is what is left when the number is divided by the base.
      have hless : n / base < n := Nat.div_lt_self (by omega) hbase
      have hlast := hletter (n % base) (Nat.mod_lt n (by omega))
      rw [Nat.toDigits_of_base_le hbase hge, List.map_append, List.map_singleton]
      rw [List.foldlM_append, ih _ hless]
      simp [hlast, Nat.div_add_mod]

theorem digitValue?_letter (style : Style)
    : ∀ d < style.mark.base, digitValue? style.mark.base (style.letter d.digitChar) = some d := by
  intro d hlt
  rw [digitValue?_eq_some_iff style.mark.base_le_sixteen]
  constructor
  . exact hlt
  . unfold Style.letter
    split
    . exact .inr rfl
    . exact .inl rfl

theorem digits_ne_nil (style : Style) (n : Nat) : style.digits n ≠ [] := by
  simp [Style.digits, Nat.toDigits_ne_nil]

theorem positional?_digits (style : Style) (n : Nat)
    : positional? style.mark.base (style.digits n) = some n := by
  have hbase := style.mark.one_lt_base
  rw [positional?, if_neg (by simp [digits_ne_nil]), Style.digits, List.foldlM_append]
  rw [foldlM_replicate_zero (by omega)]
  exact foldlM_toDigits hbase (digitValue?_letter style) n

theorem strip_chars_append (h : ∀ c ∈ digits, (digitValue? mark.base c).isSome = true)
    : Text.strip (mark.chars ++ digits) = mark.chars ++ digits := by
  have hmark : mark.chars.all (!Text.isBlank ·) = true := by
    cases mark with
    | plain => rfl
    | zeroX => rfl
    | dollar => rfl
  apply Text.strip_eq_self
  intro c hc
  cases List.mem_append.mp hc with
  | inl hmem => simpa using List.all_eq_true.mp hmark c hmem
  | inr hmem => exact isBlank_eq_false_of_digitValue? (h c hmem)

/-- What stands behind a mark is read in the base of that mark. -/
theorem parseChars?_chars_append (h : ∀ c ∈ digits, (digitValue? mark.base c).isSome = true)
    : parseChars? (mark.chars ++ digits) = positional? mark.base digits := by
  unfold parseChars?
  rw [strip_chars_append h]
  cases mark with
  | plain =>
    -- No digit is an `x` or a dollar sign, so the digits begin like no other mark.
    have hx : 'x' ∉ digits := by
      intro hmem
      have := h 'x' hmem
      contradiction
    have hdollar : '$' ∉ digits := by
      intro hmem
      have := h '$' hmem
      contradiction
    rw [Mark.chars, List.nil_append]
    split
    . simp at hx
    . simp at hdollar
    . rfl
  | zeroX => rfl
  | dollar => rfl

/-- A number is read back, in whatever way it was written. -/
theorem parse?_write (style : Style) (n : Nat) : parse? (style.write n) = some n := by
  have hpositional := positional?_digits style n
  rw [parse?, Style.write, String.toList_ofList, parseChars?_chars_append]
  . exact hpositional
  . exact isSome_digitValue?_of_positional? hpositional

/-- A number written in decimal digits is read as that number. -/
theorem parseChars?_toDigits (n : Nat) : parseChars? (Nat.toDigits 10 n) = some n := by
  have hletter : Style.letter {} = id := by
    funext c
    rfl
  have hwritten := parse?_write {} n
  rw [parse?, Style.write, String.toList_ofList, Style.digits, hletter, List.map_id] at hwritten
  exact hwritten

end Numeral

end PpuCodec
