import PpuCodec.Text.Quoted

/-!
The arithmetic that format tables are written in: whole numbers and the bytes in front of the
decoder, joined by four operators.
-/

namespace PpuCodec

/-- The bytes from the cursor on. `none` stands for a byte past either end of the input. -/
abbrev Lookahead := List (Option Int)

namespace Expr

inductive Operator where
  | add
  | sub
  | mul
  | div
deriving Repr, DecidableEq

inductive Error where
  | invalidToken (token : String)
  | missingByte (index : Fin 3)
  | divisionByZero
  | notSingle (template : String) (count : Nat)
deriving Repr, DecidableEq

def Error.message : Error → String
  | .invalidToken token => s!"Invalid token {Text.quoted token} in expression"
  | .missingByte index => s!"Placeholder [{index.val}] has no lookahead byte to substitute"
  | .divisionByZero => "Division by zero"
  | .notSingle template count =>
    s!"Expected a single value in {Text.quoted template}, got {count}"

def Operator.symbol : Operator → Char
  | .add => '+'
  | .sub => '-'
  | .mul => '*'
  | .div => '/'

/-- A quotient is rounded toward zero. -/
def Operator.apply : Operator → Int → Int → Except Error Int
  | .add, a, b => .ok (a + b)
  | .sub, a, b => .ok (a - b)
  | .mul, a, b => .ok (a * b)
  | .div, a, b => if b = 0 then .error .divisionByZero else .ok (a.tdiv b)

end Expr

inductive Expr where
  | literal (value : Nat)
  | byte (index : Fin 3)
  | binary (op : Expr.Operator) (left right : Expr)
deriving Repr, DecidableEq

namespace Expr

instance : OfNat Expr n := ⟨.literal n⟩
instance : Add Expr := ⟨.binary .add⟩
instance : Sub Expr := ⟨.binary .sub⟩
instance : Mul Expr := ⟨.binary .mul⟩
instance : Div Expr := ⟨.binary .div⟩

/-- The left operand is evaluated first, so its error is the one reported. -/
def eval (look : Lookahead) : Expr → Except Error Int
  | .literal n => .ok n
  | .byte i =>
    match look[i.val]?.join with
    | some b => .ok b
    | none => .error (.missingByte i)
  | .binary op left right => do
    let a ← left.eval look
    let b ← right.eval look
    op.apply a b

def mentions (i : Fin 3) : Expr → Bool
  | .literal _ => false
  | .byte j => i == j
  | .binary _ left right => left.mentions i || right.mentions i

def print : Expr → List Char
  | .literal n => Nat.toDigits 10 n
  | .byte i => '[' :: Nat.toDigits 10 i ++ [']']
  | .binary op left right => left.print ++ op.symbol :: right.print

end Expr

end PpuCodec
