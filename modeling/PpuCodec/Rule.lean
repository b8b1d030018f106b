import PpuCodec.ByteRange
import PpuCodec.Template

/-!
One rule of a format's table: what the bytes at the cursor have to be, what the rule does, and how
many bytes it uses up. A `Rule.Draft` is a rule as it is written down; it becomes a rule if its
operands are the ones its kind needs, and if its templates only use bytes that it checks.
-/

namespace PpuCodec

namespace Rule

inductive Kind where
  | seek
  | fill
  | copy
  | stop
deriving Repr, DecidableEq

def Kind.name : Kind → String
  | .seek => "address"
  | .fill => "repeat"
  | .copy => "copy"
  | .stop => "end"

/-- How many operands a rule of this kind has; a rule that stops may be written with any number. -/
def Kind.operandCount : Kind → Option Nat
  | .seek => some 1
  | .fill => some 2
  | .copy => some 2
  | .stop => none

/-- What a rule does: move the write address, write one byte many times, copy bytes of the input
from a place relative to the cursor, or stop. -/
inductive Action where
  | seek (address : Expr)
  | fill (value count : Expr)
  | copy (count relative : Expr)
  | stop
deriving Repr, DecidableEq

def Action.kind : Action → Kind
  | .seek _ => .seek
  | .fill _ _ => .fill
  | .copy _ _ => .copy
  | .stop => .stop

/-- The condition on each of the three bytes from the cursor on; `none` admits all, missing ones
too. -/
abbrev Slots := Vector (Option ByteRange) 3

end Rule

structure Rule where
  action : Rule.Action
  slots : Rule.Slots := #v[none, none, none]
  size : Template := .single 1
  step : Template := .single 1
  /-- Applies only as the first rule of a decode. -/
  startOnly : Bool := false
  /-- The rules below it are tried next, where it left the cursor. -/
  continues : Bool := false
  discouraged : Bool := false
  note : String := ""
deriving Repr, DecidableEq

namespace Rule

def kind (rule : Rule) : Kind :=
  rule.action.kind

/-- Whether the rule applies. A lookahead of fewer than three bytes is checked as far as it goes. -/
def accepts (rule : Rule) (look : Lookahead) (atStart : Bool) : Bool :=
  (!rule.startOnly || atStart) &&
    (rule.slots.toList.zip look).all fun (slot, b) => slot.all (·.contains b)

def pattern (rule : Rule) : String :=
  let shown := rule.slots.toList.reverse.dropWhile (·.isNone) |>.reverse
  if shown.isEmpty then "*"
  else " ".intercalate (shown.map fun slot => (slot.map ByteRange.print).getD "xx")

def flags (rule : Rule) : List String :=
  [(rule.startOnly, "start"), (rule.continues, "no-break"), (rule.discouraged, "discouraged")].filterMap
    fun (isSet, name) => if isSet then some name else none

def describe (rule : Rule) : String :=
  let label := if rule.note.isEmpty then rule.kind.name else rule.note
  let suffix := if rule.flags.isEmpty then "" else " [" ++ ", ".intercalate rule.flags ++ "]"
  Text.padRight 12 rule.pattern ++ " " ++ label ++ suffix

structure Draft where
  kind : Kind
  slots : Slots
  operand : Template
  size : Template
  step : Template
  startOnly : Bool
  continues : Bool
  discouraged : Bool
  note : String
deriving Repr, DecidableEq

inductive Error where
  | operandCount (kind : Kind) (operand : String)
  | uncheckedByte (template : String) (index : Fin 3)
deriving Repr, DecidableEq

def Error.message : Error → String
  | .operandCount kind operand =>
    let count := kind.operandCount.getD 0
    s!"{kind.name} operation needs {count} operand(s), got {Text.quoted operand}"
  | .uncheckedByte template index =>
    s!"Template {Text.quoted template} uses [{index.val}] but byte{index.val} is a wildcard"

namespace Draft

def action (draft : Draft) : Except Error Action :=
  match draft.kind, draft.operand.parts with
  | .seek, [address] => .ok (.seek address)
  | .fill, [value, count] => .ok (.fill value count)
  | .copy, [count, relative] => .ok (.copy count relative)
  | .stop, _ => .ok .stop
  | kind, _ => .error (.operandCount kind draft.operand.text)

/-- The first byte that the template uses though the rule does not check it. -/
def uncheckedByte? (draft : Draft) (template : Template) : Option (Fin 3) :=
  (List.finRange 3).find? fun i => template.mentions i && draft.slots[i].isNone

def check (draft : Draft) (template : Template) : Except Error Unit :=
  match draft.uncheckedByte? template with
  | some i => .error (.uncheckedByte template.text i)
  | none => .ok ()

def toRule (draft : Draft) : Except Error Rule := do
  let action ← draft.action
  draft.check draft.operand
  draft.check draft.size
  draft.check draft.step
  return {
    action, slots := draft.slots, size := draft.size, step := draft.step
    startOnly := draft.startOnly, continues := draft.continues
    discouraged := draft.discouraged, note := draft.note
  }

end Draft

end Rule

end PpuCodec
