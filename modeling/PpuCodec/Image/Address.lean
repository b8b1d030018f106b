import PpuCodec.Image.Region
import PpuCodec.Numeral

/-!
Addresses of picture memory as they are typed: the name of the part that begins there, or a number.
-/

namespace PpuCodec.Image.Address

inductive Error where
  | numeral (error : Numeral.Error)
  | image (error : Image.Error)
deriving Repr, DecidableEq

def Error.message : Error → String
  | .numeral error => error.message
  | .image error => error.message

def named : List (String × Region) :=
  [("nt0", .table .nametable 0), ("nt1", .table .nametable 1), ("nt2", .table .nametable 2),
   ("nt3", .table .nametable 3), ("att0", .table .attributes 0), ("att1", .table .attributes 1),
   ("att2", .table .attributes 2), ("att3", .table .attributes 3), ("chr0", .table .patterns 0),
   ("chr1", .table .patterns 1), ("bgpal", .backgroundPalette), ("spritepal", .spritePalette)]

def ofName? (text : String) : Option Int :=
  (named.lookup (Text.lower (String.ofList (Text.strip text.toList)))).map fun region =>
    (region.start : Int)

def parse (text : String) : Except Error Int :=
  match ofName? text with
  | some address => .ok address
  | none => do
    let n ← (Numeral.parse text).mapError .numeral
    (checkAddress n).mapError .image

end PpuCodec.Image.Address
