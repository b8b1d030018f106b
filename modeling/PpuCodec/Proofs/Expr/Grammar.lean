import PpuCodec.Proofs.Expr.Canonical
import PpuCodec.Proofs.Expr.Level
import PpuCodec.Proofs.Expr.Segments

/-!
The language of expressions. A text is read if every segment of it denotes a leaf, and it is read as
the one canonical tree that has these leaves and the operators of the text. A canonical tree is read
back from what is printed of it.
-/

namespace PpuCodec.Expr

/-- The operators of the text bind at least so strongly. -/
def BindsFrom (strength : Nat) (text : List Char) : Prop :=
  ∀ op ∈ operatorsIn text, strength ≤ op.strength

/-- What was read is what the text says: leaf by leaf, with the error of the first segment that
denotes none, and as a canonical tree. -/
structure Faithful (text : List Char) (result : Except Error Expr) : Prop where
  leaves : result.map leaves = (segments text).mapM atom
  operators : ∀ e, result = .ok e → e.operators = operatorsIn text
  canonical : ∀ e, result = .ok e → e.Canonical

theorem operatorsIn_eq_nil {text : List Char} (h : BindsFrom 4 text) : operatorsIn text = [] := by
  rw [List.eq_nil_iff_forall_not_mem]
  intro op hop
  have := h op hop
  cases op <;> simp [Operator.strength] at this

theorem segments_eq_singleton {text : List Char} (h : operatorsIn text = [])
    : segments text = [text] := by
  apply Text.pieces_eq_singleton
  intro c hc
  rw [operatorsIn, List.filterMap_eq_nil_iff] at h
  rw [isOperator, h c hc]
  rfl

/-- A text without operators is a single leaf. -/
theorem faithful_atom {text : List Char} (h : BindsFrom 4 text) : Faithful text (atom text) := by
  have hnone := operatorsIn_eq_nil h
  have hleaf : ∀ e, atom text = .ok e → e.leaves = [e] ∧ e.operators = [] ∧ e.Canonical := by
    intro e hread
    cases e with
    | literal n => exact ⟨rfl, rfl, trivial⟩
    | byte i => exact ⟨rfl, rfl, trivial⟩
    | binary op left right => exact (atom_eq_ok_iff.mp hread).elim
  constructor
  . rw [segments_eq_singleton hnone]
    cases hread : atom text with
    | error error => simp [hread, Except.map, bind, Except.bind]
    | ok e => simp [hread, (hleaf e hread).1, Except.map, bind, Except.bind, pure, Except.pure]
  . intro e hread
    rw [(hleaf e hread).2.1, hnone]
  . intro e hread
    exact (hleaf e hread).2.2

section

variable {op : Operator} {piece rest : List Char}

theorem bindsFrom_append_cons {strength : Nat}
    : BindsFrom strength (piece ++ op.symbol :: rest)
        ↔
      BindsFrom strength piece ∧ strength ≤ op.strength ∧ BindsFrom strength rest := by
  simp only [BindsFrom, operatorsIn_append_cons, List.mem_append, List.mem_cons, or_imp,
    forall_and, forall_eq]

/-- Where a level has no operators of its own, only those of the levels below are left. -/
theorem BindsFrom.succ (h : BindsFrom op.strength piece)
    (hpiece : ∀ c ∈ piece, (c == op.symbol) = false)
    : BindsFrom (op.strength + 1) piece := by
  intro other hother
  have hle := h other hother
  have hne : op.strength ≠ other.strength := by
    intro heq
    obtain ⟨c, hc, hsymbol⟩ := List.mem_filterMap.mp hother
    have := hpiece c hc
    rw [← Operator.symbol_of_ofSymbol? hsymbol, Operator.eq_of_strength_eq heq] at this
    simp at this
  omega

theorem Faithful.binary {left right : Except Error Expr} (hleft : Faithful piece left)
    (hright : Faithful rest right) (hpiece : BindsFrom (op.strength + 1) piece)
    (hrest : BindsFrom op.strength rest)
    : Faithful (piece ++ op.symbol :: rest) (do
        let l ← left
        let r ← right
        return .binary op l r) := by
  have hleaves := hleft.leaves
  have hleaves' := hright.leaves
  cases left with
  | error error =>
    constructor
    . rw [segments_append_cons, List.mapM_append, ← hleaves]
      rfl
    . nofun
    . nofun
  | ok l =>
    cases right with
    | error error =>
      constructor
      . rw [segments_append_cons, List.mapM_append, ← hleaves, ← hleaves']
        rfl
      . nofun
      . nofun
    | ok r =>
      have hops := hleft.operators l rfl
      have hops' := hright.operators r rfl
      constructor
      . rw [segments_append_cons, List.mapM_append, ← hleaves, ← hleaves']
        rfl
      . rintro e ⟨⟩
        rw [operatorsIn_append_cons, Expr.operators, hops, hops']
      . rintro e ⟨⟩
        refine ⟨?_, ?_, hleft.canonical l rfl, hright.canonical r rfl⟩
        . rw [hops]
          exact hpiece
        . rw [hops']
          exact hrest

theorem faithful_level (op : Operator) {operand : List Char → Except Error Expr}
    (hoperand : ∀ {piece}, BindsFrom (op.strength + 1) piece → Faithful piece (operand piece))
    {text : List Char} (h : BindsFrom op.strength text)
    : Faithful text (level op operand text) := by
  induction text using Text.cut_induction (p := (· == op.symbol)) with
  | whole piece hpiece =>
    rw [level_eq_operand hpiece]
    exact hoperand (h.succ hpiece)
  | split piece c rest hpiece hc ih =>
    rw [beq_iff_eq.mp hc] at h ⊢
    obtain ⟨hfront, -, hback⟩ := bindsFrom_append_cons.mp h
    rw [level_append_cons hpiece]
    exact (hoperand (hfront.succ hpiece)).binary (ih hback) (hfront.succ hpiece) hback

end

theorem faithful_parseChars (text : List Char) : Faithful text (parseChars text) := by
  have hquotient : ∀ {text}, BindsFrom 3 text → Faithful text (level .div atom text) :=
    faithful_level .div faithful_atom
  have hproduct : ∀ {text}, BindsFrom 2 text → Faithful text (level .mul _ text) :=
    faithful_level .mul hquotient
  have hdifference : ∀ {text}, BindsFrom 1 text → Faithful text (level .sub _ text) :=
    faithful_level .sub hproduct
  exact faithful_level .add hdifference fun _ _ => Nat.zero_le _

theorem parseChars_eq_ok_iff {text : List Char} {e : Expr}
    : parseChars text = .ok e
        ↔
      e.Canonical ∧ e.operators = operatorsIn text ∧
        List.Forall₂ Denotes (segments text) e.leaves := by
  have hfaithful := faithful_parseChars text
  rw [← mapM_atom_eq_ok_iff]
  constructor
  . intro h
    refine ⟨hfaithful.canonical e h, hfaithful.operators e h, ?_⟩
    rw [← hfaithful.leaves, h]
    rfl
  . rintro ⟨hcanonical, hoperators, hleaves⟩
    rw [← hfaithful.leaves] at hleaves
    -- The text is read, and what it is read as cannot be another tree.
    cases h : parseChars text with
    | error error => simp [h, Except.map] at hleaves
    | ok e' =>
      have hsame : e'.leaves = e.leaves := by simpa [h, Except.map] using hleaves
      have hcanonical' := hfaithful.canonical e' h
      have hoperators' := hfaithful.operators e' h
      rw [hcanonical'.eq_of_leaves_eq hcanonical hsame (by rw [hoperators', hoperators])]

theorem parseChars_eq_error_iff {text : List Char} {error : Error}
    : parseChars text = .error error
        ↔
      ∃ before bad after,
        segments text = before ++ bad :: after ∧
        (∀ segment ∈ before, ∃ leaf, Denotes segment leaf) ∧
        (¬ ∃ leaf, Denotes bad leaf) ∧
        error = .invalidToken (String.ofList (Text.strip bad)) := by
  have hleaves := (faithful_parseChars text).leaves
  have hread : parseChars text = .error error ↔ (segments text).mapM atom = .error error := by
    rw [← hleaves]
    cases parseChars text with
    | error other => simp [Except.map]
    | ok e => simp [Except.map]
  rw [hread, mapM_eq_error_iff]
  simp only [atom_eq_ok_iff, atom_eq_error_iff]

theorem exists_parseChars_eq_ok_iff {text : List Char}
    : (∃ e, parseChars text = .ok e) ↔ ∀ segment ∈ segments text, ∃ leaf, Denotes segment leaf := by
  have hleaves := (faithful_parseChars text).leaves
  have hread : (∃ e, parseChars text = .ok e) ↔ ∃ es, (segments text).mapM atom = .ok es := by
    rw [← hleaves]
    cases parseChars text with
    | error error => simp [Except.map]
    | ok e => simp [Except.map]
  rw [hread, exists_mapM_eq_ok_iff]
  simp only [atom_eq_ok_iff]

theorem ofSymbol?_of_isDigit {c : Char} (h : c.isDigit = true) : Operator.ofSymbol? c = none := by
  rw [Option.eq_none_iff_forall_ne_some]
  intro op hop
  rw [← Operator.symbol_of_ofSymbol? hop] at h
  cases op <;> simp [Operator.symbol, Char.isDigit] at h

theorem print_literal (n : Nat)
    : operatorsIn (literal n).print = [] ∧ Denotes (literal n).print (literal n) := by
  have hdigits : ∀ c ∈ (literal n).print, c.isDigit = true := by
    intro c hc
    exact Nat.isDigit_of_mem_toDigits (by decide) (by decide) hc
  constructor
  . rw [operatorsIn, List.filterMap_eq_nil_iff]
    intro c hc
    exact ofSymbol?_of_isDigit (hdigits c hc)
  . rw [Denotes, Text.strip_eq_self]
    . exact Numeral.parseChars?_toDigits n
    . intro c hc
      exact Numeral.isBlank_eq_false_of_isDigit (hdigits c hc)

theorem print_byte (i : Fin 3)
    : operatorsIn (byte i).print = [] ∧ Denotes (byte i).print (byte i) := by
  match i with
  | 0 => exact ⟨rfl, rfl⟩
  | 1 => exact ⟨rfl, rfl⟩
  | 2 => exact ⟨rfl, rfl⟩

/-- The text that is printed of a tree has its operators, and its segments denote its leaves. -/
theorem operatorsIn_and_segments_print (e : Expr)
    : operatorsIn e.print = e.operators ∧ List.Forall₂ Denotes (segments e.print) e.leaves := by
  induction e with
  | literal n =>
    obtain ⟨hnone, hdenotes⟩ := print_literal n
    rw [segments_eq_singleton hnone]
    exact ⟨hnone, .cons hdenotes .nil⟩
  | byte i =>
    obtain ⟨hnone, hdenotes⟩ := print_byte i
    rw [segments_eq_singleton hnone]
    exact ⟨hnone, .cons hdenotes .nil⟩
  | binary op left right ihl ihr =>
    rw [print, operatorsIn_append_cons, segments_append_cons, ihl.1, ihr.1]
    exact ⟨rfl, List.rel_append ihl.2 ihr.2⟩

end PpuCodec.Expr
