import PpuCodec.Rule
import PpuCodec.Text.Lowercase

/-!
A format is a named table of rules. The rules are tried from the top and the first one that applies
is the one that is used.
-/

namespace PpuCodec

structure Format where
  name : String
  key : String
  description : String
  rules : List Rule
  rules_ne_nil : rules ≠ [] := by simp

namespace Format

inductive Error where
  | noRules (key : String)
deriving Repr, DecidableEq

def Error.message : Error → String
  | .noRules key => s!"Format {Text.quoted key} has no operations"

def ofRules (name key description : String) (rules : List Rule) : Except Error Format :=
  if h : rules = [] then .error (.noRules key) else .ok ⟨name, key, description, rules, h⟩

/-- Keys are compared without regard to case. -/
def answersTo (format : Format) (key : String) : Bool :=
  Text.lower format.key == Text.lower key

end Format

end PpuCodec
