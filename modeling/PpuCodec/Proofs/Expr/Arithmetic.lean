import Mathlib.Algebra.BigOperators.Group.List.Basic
import Mathlib.Algebra.Ring.Int.Defs
import PpuCodec.Proofs.Expr.Grammar

/-!
What a text of numbers and operators is worth. It is a sum of differences of products of quotients.
The differences nest to the right, so that their terms are added and subtracted by turns, and a
number in a row of quotients is divided by what stands behind it.
-/

namespace PpuCodec.Expr

/-- The parts of a text that one of the operators separates. -/
def parts (op : Operator) (text : List Char) : List (List Char) :=
  Text.pieces (· == op.symbol) text

def IsNumber (segment : List Char) : Prop :=
  (Numeral.parseChars? segment).isSome

instance (segment : List Char) : Decidable (IsNumber segment) :=
  inferInstanceAs (Decidable (_ = true))

def numberOf (segment : List Char) : Int :=
  (Numeral.parseChars? segment).getD 0

/-- The first number, divided by the quotient of those behind it. -/
def quotient : List Int → Int
  | [] => 1
  | [n] => n
  | n :: m :: rest => n.tdiv (quotient (m :: rest))

/-- The divisors in a row of numbers are the quotients of all that stands behind one of them. -/
def DividesByZero (numbers : List Int) : Prop :=
  ∃ divisor ∈ numbers.tail.tails, divisor ≠ [] ∧ quotient divisor = 0

instance (numbers : List Int) : Decidable (DividesByZero numbers) :=
  inferInstanceAs (Decidable (∃ divisor ∈ numbers.tail.tails, _))

def quotientOf (text : List Char) : Int :=
  quotient ((parts .div text).map numberOf)

def productOf (text : List Char) : Int :=
  ((parts .mul text).map quotientOf).prod

def differenceOf (text : List Char) : Int :=
  ((parts .sub text).map productOf).alternatingSum

def sumOf (text : List Char) : Int :=
  ((parts .add text).map differenceOf).sum

/-- One of the quotients that the text is made of divides by zero. -/
def HasZeroDivisor (text : List Char) : Prop :=
  ∃ term ∈ parts .add text, ∃ product ∈ parts .sub term, ∃ factor ∈ parts .mul product,
    DividesByZero ((parts .div factor).map numberOf)

instance (text : List Char) : Decidable (HasZeroDivisor text) :=
  inferInstanceAs (Decidable (∃ term ∈ parts .add text, _))

theorem dividesByZero_cons_cons {n m : Int} {rest : List Int}
    : DividesByZero (n :: m :: rest)
        ↔
      DividesByZero (m :: rest) ∨ quotient (m :: rest) = 0 := by
  simp only [DividesByZero, List.tail_cons, List.tails, List.exists_mem_cons_iff]
  rw [or_comm, and_iff_right (List.cons_ne_nil m rest)]

theorem not_dividesByZero_singleton (n : Int) : ¬ DividesByZero [n] := by
  rintro ⟨divisor, hmem, hne, -⟩
  exact hne (List.mem_singleton.mp hmem)

section

variable {op : Operator} {piece rest : List Char}

theorem parts_eq_singleton (h : ∀ c ∈ piece, (c == op.symbol) = false)
    : parts op piece = [piece] :=
  Text.pieces_eq_singleton h

theorem parts_append_cons (h : ∀ c ∈ piece, (c == op.symbol) = false) (rest : List Char)
    : parts op (piece ++ op.symbol :: rest) = piece :: parts op rest := by
  rw [parts, Text.pieces_append (p := (· == op.symbol)) (beq_self_eq_true _)]
  rw [Text.pieces_eq_singleton h]
  rfl

end

/-- Numbers, joined by operators that bind at least so strongly. -/
structure Numeric (strength : Nat) (text : List Char) : Prop where
  binds : BindsFrom strength text
  numbers : ∀ segment ∈ segments text, IsNumber segment

section

variable {op : Operator} {strength : Nat} {piece rest : List Char}

theorem Numeric.of_append_cons (h : Numeric strength (piece ++ op.symbol :: rest))
    : Numeric strength piece ∧ Numeric strength rest := by
  obtain ⟨hpiece, -, hrest⟩ := bindsFrom_append_cons.mp h.binds
  have hnumbers := h.numbers
  rw [segments_append_cons] at hnumbers
  obtain ⟨hfront, hback⟩ := List.forall_mem_append.mp hnumbers
  exact ⟨⟨hpiece, hfront⟩, hrest, hback⟩

theorem Numeric.succ (h : Numeric op.strength piece)
    (hpiece : ∀ c ∈ piece, (c == op.symbol) = false)
    : Numeric (op.strength + 1) piece :=
  ⟨h.binds.succ hpiece, h.numbers⟩

end

/-- The expression has the value, unless `fails` holds: then it divides by zero. -/
structure Computes (e : Expr) (fails : Prop) (value : Int) : Prop where
  error : fails → e.eval [] = .error .divisionByZero
  ok : ¬ fails → e.eval [] = .ok value

section

variable {op : Operator} {e left right : Expr} {fails fails' : Prop} {a b : Int}

theorem Computes.congr (h : e.Computes fails a) (hfails : fails ↔ fails') : e.Computes fails' a :=
  propext hfails ▸ h

/-- An operator fails where one of its operands does, or where it has no value for theirs. -/
theorem Computes.binary (hleft : left.Computes fails a) (hright : right.Computes fails' b)
    {zero : Prop} {c : Int} (herror : zero → op.apply a b = .error .divisionByZero)
    (hok : ¬ zero → op.apply a b = .ok c)
    : (Expr.binary op left right).Computes (fails ∨ fails' ∨ zero) c := by
  have heval : (Expr.binary op left right).eval []
      = (left.eval []).bind fun x => (right.eval []).bind fun y => op.apply x y := rfl
  constructor
  . intro h
    by_cases hfirst : fails
    . rw [heval, hleft.error hfirst]
      rfl
    . rw [heval, hleft.ok hfirst]
      by_cases hsecond : fails'
      . rw [hright.error hsecond]
        rfl
      . rw [hright.ok hsecond]
        exact herror ((h.resolve_left hfirst).resolve_left hsecond)
  . intro h
    simp only [not_or] at h
    rw [heval, hleft.ok h.1, hright.ok h.2.1]
    exact hok h.2.2

theorem Computes.div (hleft : left.Computes fails a) (hright : right.Computes fails' b)
    : (Expr.binary .div left right).Computes (fails ∨ fails' ∨ b = 0) (a.tdiv b) :=
  hleft.binary hright (fun hzero => if_pos hzero) (fun hne => if_neg hne)

/-- The other operators have a value for every two. -/
theorem Computes.total (hleft : left.Computes fails a) (hright : right.Computes fails' b) {c : Int}
    (happly : op.apply a b = .ok c)
    : (Expr.binary op left right).Computes (fails ∨ fails') c :=
  (hleft.binary hright False.elim fun _ => happly).congr (by simp)

end

/-- What was read computes the value. -/
def Means (result : Except Error Expr) (fails : Prop) (value : Int) : Prop :=
  ∃ e, result = .ok e ∧ e.Computes fails value

/-- A number is a leaf, and worth what it says. -/
theorem means_atom {text : List Char} (h : Numeric 4 text)
    : Means (atom text) False (numberOf text) := by
  have hsegments := segments_eq_singleton (operatorsIn_eq_nil h.binds)
  have hnumber : IsNumber text := h.numbers text (by simp [hsegments])
  obtain ⟨n, hn⟩ := Option.isSome_iff_exists.mp hnumber
  refine ⟨.literal n, ?_, nofun, ?_⟩
  . rw [atom_eq_ok_iff, Denotes, Numeral.parseChars?_strip, hn]
  . intro _
    rw [numberOf, hn]
    rfl

section

variable {op : Operator} {operand : List Char → Except Error Expr} {fails : List Char → Prop}
  {value : List Char → Int} {text : List Char}

/-- A level of the reading means what is made of its parts: of a single part, what that part means,
and of more, what the operator makes of the first of them and of the others. -/
theorem means_level (op : Operator) (failsOf : List (List Char) → Prop)
    (valueOf : List (List Char) → Int)
    (hoperand : ∀ {piece}, Numeric (op.strength + 1) piece →
      Means (operand piece) (fails piece) (value piece))
    (hone : ∀ {e : Expr} {piece}, e.Computes (fails piece) (value piece) →
      e.Computes (failsOf [piece]) (valueOf [piece]))
    (hmore : ∀ {left right : Expr} {piece next others}, left.Computes (fails piece) (value piece) →
      right.Computes (failsOf (next :: others)) (valueOf (next :: others)) →
      (Expr.binary op left right).Computes (failsOf (piece :: next :: others))
        (valueOf (piece :: next :: others)))
    (h : Numeric op.strength text)
    : Means (level op operand text) (failsOf (parts op text)) (valueOf (parts op text)) := by
  induction text using Text.cut_induction (p := (· == op.symbol)) with
  | whole piece hpiece =>
    obtain ⟨e, hread, hcomputes⟩ := hoperand (h.succ hpiece)
    rw [level_eq_operand hpiece, parts_eq_singleton hpiece]
    exact ⟨e, hread, hone hcomputes⟩
  | split piece c rest hpiece hc ih =>
    rw [beq_iff_eq.mp hc] at h ⊢
    obtain ⟨hfront, hback⟩ := h.of_append_cons
    obtain ⟨left, hleft, hfirst⟩ := hoperand (hfront.succ hpiece)
    obtain ⟨right, hright, hothers⟩ := ih hback
    rw [level_append_cons hpiece, parts_append_cons hpiece, hleft, hright]
    exact ⟨.binary op left right, rfl, hmore hfirst hothers⟩

/-- The level of an operator that has a value for every two numbers: it fails where one of its parts
does, and folds their values. -/
theorem means_level_of_total (op : Operator) {f : Int → Int → Int} {fold : List Int → Int}
    (happly : ∀ a b, op.apply a b = .ok (f a b))
    (hfold_one : ∀ n, fold [n] = n)
    (hfold_cons : ∀ n rest, fold (n :: rest) = f n (fold rest))
    (hoperand : ∀ {piece}, Numeric (op.strength + 1) piece →
      Means (operand piece) (fails piece) (value piece))
    (h : Numeric op.strength text)
    : Means (level op operand text) (∃ piece ∈ parts op text, fails piece)
        (fold ((parts op text).map value)) := by
  apply means_level op (fun pieces => ∃ piece ∈ pieces, fails piece)
    (fun pieces => fold (pieces.map value)) hoperand
  . intro e piece hcomputes
    simp only [List.map_singleton, hfold_one, List.mem_singleton, exists_eq_left]
    exact hcomputes
  . intro left right piece next others hleft hright
    simp only [List.exists_mem_cons_iff] at hright ⊢
    rw [List.map_cons, hfold_cons]
    exact hleft.total hright (happly _ _)
  . exact h

/-- The level of quotients, whose parts are numbers. -/
theorem means_level_div (h : Numeric 3 text)
    : Means (level .div atom text) (DividesByZero ((parts .div text).map numberOf))
        (quotientOf text) := by
  apply means_level .div (fun pieces => DividesByZero (pieces.map numberOf))
    (fun pieces => quotient (pieces.map numberOf)) means_atom
  . intro e piece hcomputes
    exact hcomputes.congr (iff_of_false not_false (not_dividesByZero_singleton _))
  . intro left right piece next others hleft hright
    refine (hleft.div hright).congr ?_
    rw [false_or]
    exact dividesByZero_cons_cons.symm
  . exact h

end

theorem means_parseChars {text : List Char} (h : ∀ segment ∈ segments text, IsNumber segment)
    : Means (parseChars text) (HasZeroDivisor text) (sumOf text) := by
  have hproduct : ∀ {piece}, Numeric 2 piece → Means _ _ (productOf piece) :=
    means_level_of_total .mul (fun _ _ => rfl) (fun _ => List.prod_singleton)
      (fun _ _ => List.prod_cons) means_level_div
  have hdifference : ∀ {piece}, Numeric 1 piece → Means _ _ (differenceOf piece) :=
    means_level_of_total .sub (fun _ _ => rfl) List.alternatingSum_singleton
      List.alternatingSum_cons hproduct
  exact means_level_of_total .add (fun _ _ => rfl) (fun _ => List.sum_singleton)
    (fun _ _ => List.sum_cons) hdifference ⟨fun _ _ => Nat.zero_le _, h⟩

/-- A text of numbers and operators has the value of its sum. The only error is that one of its
quotients divides by zero. -/
theorem evaluate_sumOf {text : String}
    (h : ∀ segment ∈ segments text.toList, IsNumber segment)
    : (∀ value, evaluate text = .ok value
          ↔ ¬ HasZeroDivisor text.toList ∧ value = sumOf text.toList) ∧
      ∀ error, evaluate text = .error error
          ↔ HasZeroDivisor text.toList ∧ error = .divisionByZero := by
  obtain ⟨e, hread, hcomputes⟩ := means_parseChars h
  have heval : evaluate text = e.eval [] := by
    rw [evaluate, parse, hread]
    rfl
  by_cases hzero : HasZeroDivisor text.toList
  . rw [heval, hcomputes.error hzero]
    simp [hzero, eq_comm]
  . rw [heval, hcomputes.ok hzero]
    simp [hzero, eq_comm]

/-- The last of three numbers that are subtracted is added again. Of three that are divided, the
last two may leave nothing to divide the first by. -/
theorem evaluate_sumOf_chained
    : evaluate "10 - 3 - 2 + $7/2*2" = .ok 15 ∧ evaluate "1/3/4" = .error .divisionByZero := by
  have hdifference : ∀ segment ∈ segments "10 - 3 - 2 + $7/2*2".toList, IsNumber segment := by
    decide +kernel
  have hquotient : ∀ segment ∈ segments "1/3/4".toList, IsNumber segment := by
    decide +kernel
  constructor
  . exact ((evaluate_sumOf hdifference).1 15).mpr (by decide +kernel)
  . exact ((evaluate_sumOf hquotient).2 .divisionByZero).mpr (by decide +kernel)

end PpuCodec.Expr
