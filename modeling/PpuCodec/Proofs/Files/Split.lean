import Mathlib.Data.List.DropRight
import Mathlib.Order.Bounds.Basic
import PpuCodec.Files.FileSpec
import PpuCodec.Proofs.Numeral.Written

/-!
How the name of a file is told from the numbers behind it. Of the pieces between the colons as many
as possible are taken for numbers, from the last one on, but two at most and never all of them.
-/

namespace PpuCodec

theorem Text.join_cons (c : Char) (piece : List Char) (rest : List (List Char))
    : join c (piece :: rest) = piece ++ rest.flatMap (c :: ·) := by
  induction rest generalizing piece with
  | nil => simp [join]
  | cons next rest ih =>
    rw [join, ih, List.flatMap_cons, List.cons_append]
    simp

theorem Text.join_append (c : Char) {front : List (List Char)} (hne : front ≠ [])
    (back : List (List Char))
    : join c (front ++ back) = join c front ++ back.flatMap (c :: ·) := by
  obtain ⟨piece, rest, rfl⟩ := List.exists_cons_of_ne_nil hne
  rw [List.cons_append, join_cons, join_cons, List.flatMap_append, List.append_assoc]

/-- No number has a colon in it. -/
theorem Numeral.colon_not_mem {text : List Char} {n : Nat} (h : parseChars? text = some n)
    : ':' ∉ text := by
  intro hmem
  have hchar := isNumeralChar_of_parseChars? h ':' hmem
  revert hchar
  decide

namespace FileSpec

/-- The pieces of a text between its colons. -/
def components (text : String) : List (List Char) :=
  Text.pieces (· == ':') text.toList

/-- The last `count` components of a text are numbers, and there is one in front of them. -/
def EndsInNumbers (text : String) (count : Nat) : Prop :=
  count + 1 ≤ (components text).length ∧
  ∀ piece ∈ (components text).rtake count, (Numeral.parseChars? piece).isSome = true

variable {path number : String} {pieces : List (List Char)} {numbers : List Nat} {limit : Nat}

theorem components_ne_nil (text : String) : components text ≠ [] := by
  simp [components, Text.pieces]

theorem join_components (text : String) : Text.join ':' (components text) = text.toList := by
  apply Text.join_pieces

theorem components_append {n : Nat} (hnumber : Numeral.parse? number = some n)
    : components (path ++ ":" ++ number) = components path ++ [number.toList] := by
  have hcolon := Numeral.colon_not_mem hnumber
  unfold components
  rw [String.toList_append, String.toList_append, List.append_assoc]
  apply (Text.pieces_append (by rfl) number.toList).trans
  rw [Text.pieces_eq_of_not_mem hcolon]

/-- The first `count` pieces are numbers that may be taken: no more than the limit, and not all of
the pieces. -/
def StartsInNumbers (limit : Nat) (pieces : List (List Char)) (count : Nat) : Prop :=
  count ≤ limit ∧ count + 1 ≤ pieces.length ∧
  ∀ piece ∈ pieces.take count, (Numeral.parseChars? piece).isSome = true

theorem startsInNumbers_succ_iff {piece : List Char} {count : Nat}
    : StartsInNumbers (limit + 1) (piece :: pieces) (count + 1)
        ↔
      (Numeral.parseChars? piece).isSome = true ∧ StartsInNumbers limit pieces count := by
  simp only [StartsInNumbers, List.length_cons, List.take_succ_cons, List.forall_mem_cons,
    Nat.add_le_add_iff_right]
  tauto

theorem isGreatest_zero (hne : pieces ≠ []) (h : ∀ k, ¬StartsInNumbers limit pieces (k + 1))
    : IsGreatest {k | StartsInNumbers limit pieces k} 0 := by
  constructor
  . refine ⟨Nat.zero_le limit, List.length_pos_of_ne_nil hne, ?_⟩
    simp
  . intro k hk
    cases k with
    | zero => rfl
    | succ k => exact absurd hk (h k)

theorem isGreatest_succ {piece : List Char} {count : Nat}
    (hpiece : (Numeral.parseChars? piece).isSome = true)
    (h : IsGreatest {k | StartsInNumbers limit pieces k} count)
    : IsGreatest {k | StartsInNumbers (limit + 1) (piece :: pieces) k} (count + 1) := by
  constructor
  . exact startsInNumbers_succ_iff.mpr ⟨hpiece, h.1⟩
  . intro k hk
    cases k with
    | zero => apply Nat.zero_le
    | succ k => exact Nat.succ_le_succ (h.2 (startsInNumbers_succ_iff.mp hk).2)

/-- As many numbers are taken as may be. -/
theorem exists_takeNumbers_eq (limit : Nat) (numbers : List Nat) (hne : pieces ≠ [])
    : ∃ (count : Nat) (values : List Nat),
        IsGreatest {k | StartsInNumbers limit pieces k} count ∧
        (pieces.take count).map Numeral.parseChars? = values.map some ∧
        takeNumbers limit pieces numbers = (pieces.drop count, values.reverse ++ numbers) := by
  fun_induction takeNumbers limit pieces numbers with
  | case1 numbers limit last piece rest n hn ih =>
    obtain ⟨count, values, hgreatest, hvalues, htaken⟩ := ih (by simp)
    refine ⟨count + 1, n :: values, isGreatest_succ (by simp [hn]) hgreatest, ?_, ?_⟩
    . rw [List.take_succ_cons, List.map_cons, hn, hvalues, List.map_cons]
    . rw [htaken, List.drop_succ_cons, List.reverse_cons, List.append_assoc, List.singleton_append]
  | case2 numbers limit last piece rest hlast =>
    refine ⟨0, [], isGreatest_zero hne ?_, rfl, rfl⟩
    intro k hk
    have := (startsInNumbers_succ_iff.mp hk).1
    rw [hlast] at this
    contradiction
  | case3 limit pieces numbers hstop =>
    -- The limit is reached, or there is but one piece.
    refine ⟨0, [], isGreatest_zero hne ?_, rfl, rfl⟩
    rintro k ⟨hle, hlength, _⟩
    match limit, pieces with
    | 0, _ => contradiction
    | limit + 1, [piece] => simp at hlength
    | limit + 1, last :: piece :: rest => exact hstop limit last piece rest rfl rfl

theorem takeNumbers_zero (pieces : List (List Char)) (numbers : List Nat)
    : takeNumbers 0 pieces numbers = (pieces, numbers) := by
  unfold takeNumbers
  rfl

theorem takeNumbers_cons {last : List Char} {n : Nat} (hlast : Numeral.parseChars? last = some n)
    (hne : pieces ≠ [])
    : takeNumbers (limit + 1) (last :: pieces) numbers = takeNumbers limit pieces (n :: numbers) := by
  obtain ⟨piece, rest, rfl⟩ := List.exists_cons_of_ne_nil hne
  rw [takeNumbers, hlast]

theorem takeNumbers_eq_self (h : pieces.tail = [] ∨
      ∀ last ∈ pieces.head?, Numeral.parseChars? last = none)
    : takeNumbers limit pieces numbers = (pieces, numbers) := by
  unfold takeNumbers
  split
  . next limit last piece rest =>
    have hlast : Numeral.parseChars? last = none := by simpa using h
    rw [hlast]
  . rfl

/-- From the end of a text the same numbers are taken as from the front of its pieces reversed. -/
theorem startsInNumbers_reverse_iff {text : String} {count : Nat}
    : StartsInNumbers limit (components text).reverse count
        ↔
      count ≤ limit ∧ EndsInNumbers text count := by
  simp only [StartsInNumbers, EndsInNumbers, List.rtake_eq_reverse_take_reverse,
    List.length_reverse, List.mem_reverse]

theorem toList_eq_rdrop_append {text : String} {count : Nat}
    (h : count + 1 ≤ (components text).length)
    : text.toList = Text.join ':' ((components text).rdrop count)
        ++ ((components text).rtake count).flatMap (':' :: ·) := by
  have hne : (components text).rdrop count ≠ [] := by
    rw [← List.length_pos_iff, List.rdrop, List.length_take]
    omega
  rw [← Text.join_append ':' hne, List.rdrop, List.rtake, List.take_append_drop]
  exact (join_components text).symm

theorem parse_of_takeNumbers {text : String} {front : List (List Char)}
    (h : takeNumbers 2 (components text).reverse [] = (front.reverse, numbers))
    : parse text = if Text.join ':' front = [] then .error (.missingName text)
        else .ok ⟨String.ofList (Text.join ':' front), numbers[0]?.getD 0, numbers[1]?.getD 0⟩ := by
  rw [components] at h
  unfold parse
  rw [h]
  dsimp only
  rw [List.reverse_reverse]
  simp only [String.isEmpty_iff, ← String.toList_eq_nil_iff, String.toList_ofList]

/-- A text splits into a name and the numbers behind it. -/
theorem exists_parse_eq (text : String)
    : ∃ (count : Nat) (name : List Char) (numbers : List Nat),
        IsGreatest {k | k ≤ 2 ∧ EndsInNumbers text k} count ∧
        text.toList = name ++ ((components text).rtake count).flatMap (':' :: ·) ∧
        ((components text).rtake count).map Numeral.parseChars? = numbers.map some ∧
        parse text = if name = [] then .error (.missingName text)
          else .ok ⟨String.ofList name, numbers[0]?.getD 0, numbers[1]?.getD 0⟩ := by
  have hne : (components text).reverse ≠ [] := by simp [components_ne_nil]
  obtain ⟨count, values, hgreatest, hvalues, htaken⟩ := exists_takeNumbers_eq 2 [] hne
  simp only [startsInNumbers_reverse_iff] at hgreatest
  refine ⟨count, Text.join ':' ((components text).rdrop count), values.reverse, hgreatest, ?_, ?_, ?_⟩
  . exact toList_eq_rdrop_append hgreatest.1.2.1
  . rw [List.rtake_eq_reverse_take_reverse, List.map_reverse, hvalues, List.map_reverse]
  . apply parse_of_takeNumbers
    rw [htaken, List.rdrop_eq_reverse_drop_reverse, List.reverse_reverse, List.append_nil]

section

variable {first second : String} {m n : Nat}

theorem parse_two_numbers (hne : path ≠ "") (hfirst : Numeral.parse? first = some m)
    (hsecond : Numeral.parse? second = some n)
    : parse (path ++ ":" ++ first ++ ":" ++ second) = .ok ⟨path, m, n⟩ := by
  have htaken : takeNumbers 2 (components (path ++ ":" ++ first ++ ":" ++ second)).reverse []
      = ((components path).reverse, [m, n]) := by
    rw [components_append hsecond, components_append hfirst]
    rw [List.reverse_append, List.reverse_append, List.reverse_singleton, List.reverse_singleton]
    rw [List.singleton_append, takeNumbers_cons hsecond (by simp)]
    rw [List.singleton_append, takeNumbers_cons hfirst (by simp [components_ne_nil])]
    apply takeNumbers_zero
  rw [parse_of_takeNumbers htaken, join_components, if_neg (by simpa using hne)]
  rw [String.ofList_toList]
  rfl

theorem parse_one_number (hne : path ≠ "") (hfirst : Numeral.parse? first = some m)
    (hlast : ':' ∉ path.toList ∨
      ∀ last ∈ (components path).getLast?, Numeral.parseChars? last = none)
    : parse (path ++ ":" ++ first) = .ok ⟨path, m, 0⟩ := by
  have htaken : takeNumbers 2 (components (path ++ ":" ++ first)).reverse []
      = ((components path).reverse, [m]) := by
    rw [components_append hfirst, List.reverse_append, List.reverse_singleton]
    rw [List.singleton_append, takeNumbers_cons hfirst (by simp [components_ne_nil])]
    apply takeNumbers_eq_self
    rw [List.head?_reverse]
    refine hlast.imp_left ?_
    intro hcolon
    rw [components, Text.pieces_eq_of_not_mem hcolon]
    rfl
  rw [parse_of_takeNumbers htaken, join_components, if_neg (by simpa using hne)]
  rw [String.ofList_toList]
  rfl

end

end FileSpec

end PpuCodec
