import PpuCodec.Numeral.Hex

/-!
Closed ranges of byte values, the conditions that rules put on the bytes in front of the decoder.
-/

namespace PpuCodec

structure ByteRange where
  low : Nat
  high : Nat
  low_le_high : low ≤ high := by decide
  high_le : high ≤ 0xFF := by decide
deriving Repr, DecidableEq

namespace ByteRange

inductive Error where
  | invalid (low high : Int)
deriving Repr, DecidableEq

def Error.message : Error → String
  | .invalid low high =>
    s!"Invalid byte range {Numeral.markedHex 4 low}..{Numeral.markedHex 4 high}"

def ofBounds (low high : Int) : Except Error ByteRange :=
  if h : 0 ≤ low ∧ low ≤ high ∧ high ≤ 0xFF then
    .ok ⟨low.toNat, high.toNat, by omega, by omega⟩
  else
    .error (.invalid low high)

/-- A byte that is missing lies in no range. -/
def contains (range : ByteRange) : Option Int → Bool
  | some b => range.low ≤ b && b ≤ range.high
  | none => false

def print (range : ByteRange) : String :=
  if range.low = range.high then Numeral.hex 2 range.low
  else Numeral.hex 2 range.low ++ "-" ++ Numeral.hex 2 range.high

end ByteRange

end PpuCodec
