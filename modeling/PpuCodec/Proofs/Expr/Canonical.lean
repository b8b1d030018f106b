import PpuCodec.Expr

/-!
The trees that a text without parentheses can mean. A tree is told by its leaves and its operators,
as they stand from left to right, if it is known to be canonical.
-/

namespace PpuCodec.Expr

/-- How strongly an operator binds. No two bind alike. -/
def Operator.strength : Operator → Nat
  | .add => 0
  | .sub => 1
  | .mul => 2
  | .div => 3

theorem Operator.eq_of_strength_eq {op other : Operator} (h : op.strength = other.strength)
    : op = other := by
  cases op <;> cases other <;> simp_all [strength]

/-- The leaves of a tree from left to right. -/
def leaves : Expr → List Expr
  | .binary _ left right => left.leaves ++ right.leaves
  | e => [e]

/-- The operators of a tree from left to right. -/
def operators : Expr → List Operator
  | .binary op left right => left.operators ++ op :: right.operators
  | _ => []

/-- To the left of an operator stand only stronger ones. To the right of it none is weaker, so that
operators of one kind nest to the right. -/
def Canonical : Expr → Prop
  | .binary op left right =>
    (∀ inner ∈ left.operators, op.strength < inner.strength) ∧
      (∀ inner ∈ right.operators, op.strength ≤ inner.strength) ∧
      left.Canonical ∧ right.Canonical
  | _ => True

instance decidableCanonical : (e : Expr) → Decidable e.Canonical
  | .literal _ => .isTrue trivial
  | .byte _ => .isTrue trivial
  | .binary op left right =>
    have := decidableCanonical left
    have := decidableCanonical right
    inferInstanceAs (Decidable ((∀ inner ∈ left.operators, op.strength < inner.strength) ∧
      (∀ inner ∈ right.operators, op.strength ≤ inner.strength) ∧
      left.Canonical ∧ right.Canonical))

/-- There is one leaf more than there are operators. -/
theorem length_leaves (e : Expr) : e.leaves.length = e.operators.length + 1 := by
  induction e with
  | literal n => rfl
  | byte i => rfl
  | binary op left right ihl ihr =>
    simp only [leaves, operators, List.length_append, List.length_cons, ihl, ihr]
    omega

section

variable {op op' : Operator} {front front' back back' : List Operator}

/-- Nothing stands between the places at which two operators are each the weakest: either would be
weaker than the other. -/
theorem eq_nil_of_weakest {between : List Operator} (heq : op :: back = between ++ op' :: back')
    (hback : ∀ inner ∈ back, op.strength ≤ inner.strength)
    (hbetween : ∀ inner ∈ between, op'.strength < inner.strength)
    : between = [] := by
  cases between with
  | nil => rfl
  | cons inner between =>
    rw [List.cons_append, List.cons.injEq] at heq
    obtain ⟨rfl, rfl⟩ := heq
    have hlt := hbetween op (by simp)
    have hle := hback op' (by simp)
    omega

/-- The weakest operator of a row is split off where it stands first. -/
theorem eq_of_append_weakest (heq : front ++ op :: back = front' ++ op' :: back')
    (hfront : ∀ inner ∈ front, op.strength < inner.strength)
    (hback : ∀ inner ∈ back, op.strength ≤ inner.strength)
    (hfront' : ∀ inner ∈ front', op'.strength < inner.strength)
    (hback' : ∀ inner ∈ back', op'.strength ≤ inner.strength)
    : front = front' ∧ op = op' ∧ back = back' := by
  rcases List.append_eq_append_iff.mp heq with ⟨between, rfl, hrest⟩ | ⟨between, rfl, hrest⟩
  . have hnil := eq_nil_of_weakest hrest hback fun inner hmem => hfront' inner (by simp [hmem])
    simpa [hnil] using hrest
  . have hnil := eq_nil_of_weakest hrest hback' fun inner hmem => hfront inner (by simp [hmem])
    simpa [hnil, eq_comm] using hrest

end

theorem Canonical.eq_of_leaves_eq {e e' : Expr} (h : e.Canonical) (h' : e'.Canonical)
    (hleaves : e.leaves = e'.leaves) (hoperators : e.operators = e'.operators)
    : e = e' := by
  induction e generalizing e' with
  | literal n =>
    cases e' with
    | literal m => simpa [leaves] using hleaves
    | byte j => simp [leaves] at hleaves
    | binary op' left' right' => simp [operators] at hoperators
  | byte i =>
    cases e' with
    | literal m => simp [leaves] at hleaves
    | byte j => simpa [leaves] using hleaves
    | binary op' left' right' => simp [operators] at hoperators
  | binary op left right ihl ihr =>
    cases e' with
    | literal m => simp [operators] at hoperators
    | byte j => simp [operators] at hoperators
    | binary op' left' right' =>
      obtain ⟨hfront, hback, hleft, hright⟩ := h
      obtain ⟨hfront', hback', hleft', hright'⟩ := h'
      obtain ⟨hfirst, rfl, hlast⟩ :=
        eq_of_append_weakest hoperators hfront hback hfront' hback'
      -- The operators of the left sides agree, so there are as many leaves on either left side.
      have hlength : left.leaves.length = left'.leaves.length := by
        rw [length_leaves, length_leaves, hfirst]
      obtain ⟨hlefts, hrights⟩ := List.append_inj hleaves hlength
      rw [ihl hleft hleft' hlefts hfirst]
      rw [ihr hright hright' hrights hlast]

end PpuCodec.Expr
