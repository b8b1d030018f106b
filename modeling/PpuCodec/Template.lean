import PpuCodec.Expr.Parser

/-!
A template is a row of expressions with white space between them, as the rules of a format use it for
operands, sizes and steps.
-/

namespace PpuCodec

structure Template where
  text : String
  parts : List Expr
deriving Repr, DecidableEq

namespace Template

def parse (text : String) : Except Expr.Error Template := do
  return ⟨text, ← (Text.words text.toList).mapM Expr.parseChars⟩

def ofExprs (parts : List Expr) : Template :=
  ⟨" ".intercalate (parts.map fun e => String.ofList e.print), parts⟩

def single (e : Expr) : Template :=
  .ofExprs [e]

def mentions (template : Template) (i : Fin 3) : Bool :=
  template.parts.any (·.mentions i)

def eval (look : Lookahead) (template : Template) : Except Expr.Error (List Int) :=
  template.parts.mapM (·.eval look)

/-- The value of a template that holds exactly one expression. -/
def value (look : Lookahead) (template : Template) : Except Expr.Error Int :=
  match template.parts with
  | [e] => e.eval look
  | parts => .error (.notSingle template.text parts.length)

end Template

end PpuCodec
