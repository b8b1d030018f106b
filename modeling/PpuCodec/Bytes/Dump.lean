import PpuCodec.Bytes
import PpuCodec.Numeral.Hex

/-!
A buffer shown in rows of equal width.
-/

namespace PpuCodec.Bytes

inductive DumpError where
  | zeroWidth
deriving Repr, DecidableEq

def DumpError.message : DumpError → String
  | .zeroWidth => "range() arg 3 must not be zero"

def rows (data : Bytes) (width : Nat) : List (List UInt8) :=
  (List.range ((data.size + width - 1) / width)).map fun i =>
    (data.extract (i * width) (i * width + width)).toList

def hexRows (data : Bytes) (width : Int) : Except DumpError (List String) :=
  if width = 0 then .error .zeroWidth
  else if width < 0 then .ok []
  else .ok ((data.rows width.toNat).map fun row =>
    Numeral.hexRow (row.map fun b => some (b.toNat : Int)))

end PpuCodec.Bytes
