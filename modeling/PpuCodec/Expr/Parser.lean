import PpuCodec.Expr
import PpuCodec.Numeral

/-!
Reading expressions. There are no parentheses: the text is cut at every `+`, the parts at every `-`,
those at every `*`, and those at every `/`. The operators of one level nest to the right, so that
`10-3-2` is `10-(3-2)`.
-/

namespace PpuCodec.Expr

def atom (text : List Char) : Except Error Expr :=
  let token := Text.strip text
  match (List.finRange 3).find? fun i => token == (byte i).print with
  | some i => .ok (.byte i)
  | none =>
    match Numeral.parseChars? token with
    | some n => .ok (.literal n)
    | none => .error (.invalidToken (String.ofList token))

def chain (op : Operator) : Expr → List Expr → Expr
  | e, [] => e
  | e, next :: rest => .binary op e (chain op next rest)

/-- Cuts at every `op` and joins what `operand` makes of the parts, which it reads left to right. -/
def level (op : Operator) (operand : List Char → Except Error Expr) (text : List Char) :
    Except Error Expr := do
  let (first, others) := Text.cut (· == op.symbol) text
  let e ← operand first
  let es ← others.mapM operand
  return chain op e es

def parseChars : List Char → Except Error Expr :=
  level .add (level .sub (level .mul (level .div atom)))

def parse (text : String) : Except Error Expr :=
  parseChars text.toList

def evaluate (text : String) : Except Error Int := do
  (← parse text).eval []

end PpuCodec.Expr
