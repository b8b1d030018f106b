import Mathlib.Data.List.Forall2
import PpuCodec.Expr.Parser
import PpuCodec.Proofs.Numeral.Written

/-!
The segments of an expression's text, which the operators separate, and the leaves that they denote.
-/

namespace PpuCodec.Expr

section

variable {α β ε : Type} {f : α → Except ε β}

theorem mapM_eq_ok_iff {as : List α} {bs : List β}
    : as.mapM f = .ok bs ↔ List.Forall₂ (fun a b => f a = .ok b) as bs := by
  induction as generalizing bs with
  | nil => simp [pure, Except.pure, eq_comm]
  | cons a as ih =>
    rw [List.mapM_cons, List.forall₂_cons_left_iff]
    simp only [← ih]
    cases hfirst : f a with
    | error error => simp [bind, Except.bind]
    | ok b =>
      cases hothers : as.mapM f with
      | error error => simp [bind, Except.bind]
      | ok others => simp [bind, Except.bind, pure, Except.pure, eq_comm]

/-- The error is the one at the first element that fails. -/
theorem mapM_eq_error_iff {as : List α} {error : ε}
    : as.mapM f = .error error
        ↔
      ∃ before bad after, as = before ++ bad :: after ∧ (∀ a ∈ before, ∃ b, f a = .ok b) ∧
        f bad = .error error := by
  induction as with
  | nil => simp [pure, Except.pure]
  | cons a as ih =>
    rw [List.mapM_cons]
    constructor
    . intro h
      cases hfirst : f a with
      | error other =>
        have heq : other = error := by simpa [hfirst, bind, Except.bind] using h
        exact ⟨[], a, as, rfl, by simp, by rw [hfirst, heq]⟩
      | ok b =>
        cases hothers : as.mapM f with
        | ok others => simp [hfirst, hothers, bind, Except.bind, pure, Except.pure] at h
        | error other =>
          have heq : other = error := by simpa [hfirst, hothers, bind, Except.bind] using h
          obtain ⟨before, bad, after, rfl, hbefore, hbad⟩ := ih.mp (by rw [hothers, heq])
          refine ⟨a :: before, bad, after, rfl, ?_, hbad⟩
          simp only [List.mem_cons, forall_eq_or_imp]
          exact ⟨⟨b, hfirst⟩, hbefore⟩
    . rintro ⟨before, bad, after, heq, hbefore, hbad⟩
      cases before with
      | nil =>
        obtain ⟨rfl, rfl⟩ := List.cons.inj heq
        rw [hbad]
        rfl
      | cons first before =>
        obtain ⟨rfl, rfl⟩ := List.cons.inj heq
        simp only [List.mem_cons, forall_eq_or_imp] at hbefore
        obtain ⟨⟨b, hfirst⟩, hbefore⟩ := hbefore
        rw [hfirst, ih.mpr ⟨before, bad, after, rfl, hbefore, hbad⟩]
        rfl

theorem exists_mapM_eq_ok_iff {as : List α}
    : (∃ bs, as.mapM f = .ok bs) ↔ ∀ a ∈ as, ∃ b, f a = .ok b := by
  constructor
  . rintro ⟨bs, h⟩
    rw [mapM_eq_ok_iff] at h
    induction h with
    | nil => simp
    | cons hfirst hothers ih =>
      simp only [List.mem_cons, forall_eq_or_imp]
      exact ⟨⟨_, hfirst⟩, ih⟩
  . intro h
    cases hread : as.mapM f with
    | ok bs => exact ⟨bs, rfl⟩
    | error error =>
      obtain ⟨before, bad, after, rfl, -, hbad⟩ := mapM_eq_error_iff.mp hread
      obtain ⟨b, hb⟩ := h bad (by simp)
      rw [hb] at hbad
      simp at hbad

end

def Operator.ofSymbol? (c : Char) : Option Operator :=
  [add, sub, mul, div].find? (·.symbol == c)

def isOperator (c : Char) : Bool :=
  (Operator.ofSymbol? c).isSome

theorem Operator.ofSymbol?_symbol (op : Operator) : ofSymbol? op.symbol = some op := by
  cases op <;> rfl

theorem Operator.symbol_of_ofSymbol? {c : Char} {op : Operator} (h : ofSymbol? c = some op)
    : op.symbol = c := by
  have := List.find?_some h
  simpa using this

def operatorsIn (text : List Char) : List Operator :=
  text.filterMap Operator.ofSymbol?

/-- What stands between the operators of a text, and at its ends. -/
def segments (text : List Char) : List (List Char) :=
  Text.pieces isOperator text

/-- The leaf that a segment stands for, apart from white space around it. -/
def Denotes (segment : List Char) : Expr → Prop
  | .byte i => Text.strip segment = (byte i).print
  | .literal n => Numeral.parseChars? (Text.strip segment) = some n
  | .binary _ _ _ => False

theorem denotes_congr {segment segment' : List Char} (h : Text.strip segment = Text.strip segment')
    (leaf : Expr)
    : Denotes segment leaf ↔ Denotes segment' leaf := by
  cases leaf <;> simp [Denotes, h]

theorem operatorsIn_append_cons (piece : List Char) (op : Operator) (rest : List Char)
    : operatorsIn (piece ++ op.symbol :: rest) = operatorsIn piece ++ op :: operatorsIn rest := by
  rw [operatorsIn, List.filterMap_append]
  rw [List.filterMap_cons_some op.ofSymbol?_symbol]
  rfl

theorem segments_append_cons (piece : List Char) (op : Operator) (rest : List Char)
    : segments (piece ++ op.symbol :: rest) = segments piece ++ segments rest := by
  apply Text.pieces_append
  rw [isOperator, op.ofSymbol?_symbol]
  rfl

theorem parseChars?_print_byte (i : Fin 3) : Numeral.parseChars? (byte i).print = none := by
  match i with
  | 0 => rfl
  | 1 => rfl
  | 2 => rfl

section

variable {segment : List Char} {e : Expr} {error : Error}

theorem atom_of_forall_ne (h : ∀ i, Text.strip segment ≠ (byte i).print)
    : atom segment = match Numeral.parseChars? (Text.strip segment) with
        | some n => .ok (.literal n)
        | none => .error (.invalidToken (String.ofList (Text.strip segment))) := by
  have hnone : ((List.finRange 3).find? fun i => Text.strip segment == (byte i).print) = none := by
    rw [List.find?_eq_none]
    intro i _
    simpa using h i
  cases hparse : Numeral.parseChars? (Text.strip segment) with
  | none => simp only [atom, hnone, hparse]
  | some n => simp only [atom, hnone, hparse]

theorem atom_of_strip_eq {i : Fin 3} (h : Text.strip segment = (byte i).print)
    : atom segment = .ok (.byte i) := by
  unfold atom
  rw [h]
  match i with
  | 0 => rfl
  | 1 => rfl
  | 2 => rfl

theorem print_byte_injective
    : ∀ i j : Fin 3, (byte i).print = (byte j).print → byte i = byte j := by
  decide

theorem atom_eq_ok_iff : atom segment = .ok e ↔ Denotes segment e := by
  by_cases hbyte : ∃ i, Text.strip segment = (byte i).print
  . obtain ⟨i, hi⟩ := hbyte
    rw [atom_of_strip_eq hi]
    cases e with
    | literal n => simp [Denotes, hi, parseChars?_print_byte]
    | byte j =>
      simp only [Denotes, hi, Except.ok.injEq]
      exact ⟨fun heq => by rw [heq], print_byte_injective i j⟩
    | binary op left right => simp [Denotes]
  . have hne : ∀ i, Text.strip segment ≠ (byte i).print := by simpa using hbyte
    rw [atom_of_forall_ne hne]
    cases e with
    | literal n => cases hn : Numeral.parseChars? (Text.strip segment) <;> simp [Denotes, hn]
    | byte j => cases hn : Numeral.parseChars? (Text.strip segment) <;> simp [Denotes, hne]
    | binary op left right =>
      cases hn : Numeral.parseChars? (Text.strip segment) <;> simp [Denotes]

theorem atom_eq_error_iff
    : atom segment = .error error
        ↔
      (¬ ∃ leaf, Denotes segment leaf) ∧
        error = .invalidToken (String.ofList (Text.strip segment)) := by
  simp only [← atom_eq_ok_iff]
  by_cases hbyte : ∃ i, Text.strip segment = (byte i).print
  . obtain ⟨i, hi⟩ := hbyte
    simp [atom_of_strip_eq hi]
  . have hne : ∀ i, Text.strip segment ≠ (byte i).print := by simpa using hbyte
    rw [atom_of_forall_ne hne]
    cases hn : Numeral.parseChars? (Text.strip segment) with
    | some n => simp
    | none => simp [eq_comm]

theorem mapM_atom_eq_ok_iff {pieces : List (List Char)} {es : List Expr}
    : pieces.mapM atom = .ok es ↔ List.Forall₂ Denotes pieces es := by
  rw [mapM_eq_ok_iff]
  simp only [atom_eq_ok_iff]

end

end PpuCodec.Expr
