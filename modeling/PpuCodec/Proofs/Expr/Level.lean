import PpuCodec.Expr.Parser
import PpuCodec.Proofs.Text.Cut

/-!
One level of the reading of expressions, as a recursion on the text: what stands in front of the first
operator of the level is read by the level below, and what stands behind it by the same level again.
-/

namespace PpuCodec.Expr

variable {op : Operator} {operand : List Char → Except Error Expr} {piece : List Char}

theorem level_eq_operand (h : ∀ c ∈ piece, (c == op.symbol) = false)
    : level op operand piece = operand piece := by
  unfold level
  rw [Text.cut_eq_self h]
  cases hread : operand piece with
  | error error => simp [hread, bind, Except.bind]
  | ok e => simp [hread, bind, Except.bind, pure, Except.pure, chain]

theorem level_append_cons (h : ∀ c ∈ piece, (c == op.symbol) = false) (rest : List Char)
    : level op operand (piece ++ op.symbol :: rest) = do
        let left ← operand piece
        let right ← level op operand rest
        return .binary op left right := by
  unfold level
  rw [Text.cut_append_cons h (by simp)]
  cases hread : operand piece with
  | error error => simp [hread, bind, Except.bind]
  | ok left =>
    cases hfirst : operand (Text.cut (· == op.symbol) rest).1 with
    | error error => simp [hread, hfirst, bind, Except.bind]
    | ok e =>
      cases hothers : (Text.cut (· == op.symbol) rest).2.mapM operand with
      | error error => simp [hread, hfirst, hothers, bind, Except.bind]
      | ok es =>
        simp [hread, hfirst, hothers, bind, Except.bind, pure, Except.pure, chain]

theorem exists_of_level_append_cons {rest : List Char} {e : Expr}
    (hpiece : ∀ c ∈ piece, (c == op.symbol) = false)
    (h : level op operand (piece ++ op.symbol :: rest) = .ok e)
    : ∃ left right, operand piece = .ok left ∧ level op operand rest = .ok right ∧
        e = .binary op left right := by
  rw [level_append_cons hpiece] at h
  cases hleft : operand piece with
  | error error => simp [hleft, bind, Except.bind] at h
  | ok left =>
    cases hright : level op operand rest with
    | error error => simp [hleft, hright, bind, Except.bind] at h
    | ok right =>
      simp only [hleft, hright, bind, Except.bind, pure, Except.pure, Except.ok.injEq] at h
      exact ⟨left, right, rfl, rfl, h.symm⟩

end PpuCodec.Expr
