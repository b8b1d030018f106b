import PpuCodec.Image.Stroke
import PpuCodec.Rule

/-!
What happens when a rule applies: its templates are evaluated on the bytes at the cursor, and give
the size of the step and its effect.
-/

namespace PpuCodec

/-- Where a decode stands: the next input byte, the next address to write to, and whether no rule
has applied yet. -/
structure Cursor where
  position : Int
  address : Int
  atStart : Bool
deriving Repr, DecidableEq

inductive Effect where
  | seek (address : Int)
  /-- Writes; `cut` if the input ended before all of them were done. -/
  | paint (stroke : Stroke) (cut : Bool)
  | stop
deriving Repr, DecidableEq

namespace Effect

def finishes : Effect → Bool
  | .seek _ => false
  | .paint _ cut => cut
  | .stop => true

def addressAfter (address : Int) : Effect → Int
  | .seek target => target
  | .paint stroke _ => stroke.next
  | .stop => address

def apply (image : Image) : Effect → Image
  | .paint stroke _ => image.paint stroke
  | _ => image

def missed : Effect → List Int
  | .paint stroke _ => stroke.missed
  | _ => []

end Effect

inductive Fault where
  | expr (error : Expr.Error)
  | noProgress (pattern : String) (position size : Int)
  | sourceOutside
deriving Repr, DecidableEq

def Fault.message : Fault → String
  | .expr error => error.message
  | .noProgress pattern position size =>
    s!"Operation {pattern} at offset {Numeral.offset position} has size {size}; it must consume at least one byte"
  | .sourceOutside => "index out of range"

structure Firing where
  index : Nat
  rule : Rule
  cursor : Cursor
  size : Int
  effect : Effect
deriving Repr, DecidableEq

def Firing.next (firing : Firing) : Cursor where
  position := firing.cursor.position + firing.size
  address := firing.effect.addressAfter firing.cursor.address
  atStart := false

namespace Rule

/-- Only the first rule of a decode and the one that stops may leave the cursor where it is. -/
def mayStay (rule : Rule) : Bool :=
  rule.startOnly || rule.kind == .stop

def effect (rule : Rule) (data : Bytes) (cursor : Cursor) (step : Int) : Except Fault Effect := do
  let look := data.lookahead cursor.position
  match rule.action with
  | .seek address => return .seek (← (address.eval look).mapError .expr)
  | .fill value count =>
    let value ← (value.eval look).mapError .expr
    let count ← (count.eval look).mapError .expr
    return .paint ⟨cursor.address, step, List.replicate count.toNat (UInt8.ofInt value)⟩ false
  | .copy count relative =>
    let count ← (count.eval look).mapError .expr
    let relative ← (relative.eval look).mapError .expr
    match data.readFrom? (cursor.position + relative) count.toNat with
    | some bytes => return .paint ⟨cursor.address, step, bytes⟩ (bytes.length < count.toNat)
    | none => throw .sourceOutside
  | .stop => return .stop

def fire (rule : Rule) (index : Nat) (data : Bytes) (cursor : Cursor) : Except Fault Firing := do
  let look := data.lookahead cursor.position
  let size ← (rule.size.value look).mapError .expr
  if size ≤ 0 ∧ rule.mayStay = false then
    throw (.noProgress rule.pattern cursor.position size)
  else
    let step ← (rule.step.value look).mapError .expr
    let effect ← rule.effect data cursor step
    return ⟨index, rule, cursor, size, effect⟩

end Rule

end PpuCodec
