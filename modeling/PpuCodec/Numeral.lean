import PpuCodec.Text.Blank
import PpuCodec.Text.Quoted

/-!
Numbers as they are typed: decimal, or base sixteen behind `0x` or `$`, with white space around.
-/

namespace PpuCodec

namespace Numeral

inductive Error where
  | invalid (text : String)
  | overByte (text : String)
deriving Repr, DecidableEq

def Error.message : Error → String
  | .invalid text => s!"Invalid number: {Text.quoted text}"
  | .overByte text => s!"Value {Text.quoted text} does not fit in a byte"

/-- The value of a digit; letters count from ten on, in either case. -/
def digitValue? (base : Nat) (c : Char) : Option Nat :=
  let value? :=
    if '0' ≤ c ∧ c ≤ '9' then some (c.toNat - '0'.toNat)
    else if 'a' ≤ c ∧ c ≤ 'f' then some (c.toNat - 'a'.toNat + 10)
    else if 'A' ≤ c ∧ c ≤ 'F' then some (c.toNat - 'A'.toNat + 10)
    else none
  value?.filter (· < base)

def positional? (base : Nat) (digits : List Char) : Option Nat :=
  if digits.isEmpty then none
  else digits.foldlM (fun n c => (digitValue? base c).map (base * n + ·)) 0

def parseChars? (text : List Char) : Option Nat :=
  match Text.strip text with
  | '0' :: 'x' :: digits => positional? 16 digits
  | '$' :: digits => positional? 16 digits
  | digits => positional? 10 digits

def parse? (text : String) : Option Nat :=
  parseChars? text.toList

def parse (text : String) : Except Error Nat :=
  match parse? text with
  | some n => .ok n
  | none => .error (.invalid text)

def parseByte (text : String) : Except Error UInt8 := do
  let n ← parse text
  if n ≤ 0xFF then return UInt8.ofNat n else throw (.overByte text)

end Numeral

end PpuCodec
