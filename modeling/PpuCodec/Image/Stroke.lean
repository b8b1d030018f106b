import PpuCodec.Image

/-!
A stroke is a row of bytes that are written one after the other, each `step` cells further on than
the one before.
-/

namespace PpuCodec

structure Stroke where
  address : Int
  step : Int
  bytes : List UInt8
deriving Repr, DecidableEq

namespace Stroke

def next (stroke : Stroke) : Int :=
  stroke.address + stroke.bytes.length * stroke.step

def addresses (stroke : Stroke) : List Int :=
  (List.range stroke.bytes.length).map fun (i : Nat) => stroke.address + i * stroke.step

def missed (stroke : Stroke) : List Int :=
  stroke.addresses.filter (!Image.holds ·)

end Stroke

def Image.paintFrom (image : Image) (address step : Int) : List UInt8 → Image
  | [] => image
  | b :: rest => paintFrom (image.write address b) (address + step) step rest

def Image.paint (image : Image) (stroke : Stroke) : Image :=
  image.paintFrom stroke.address stroke.step stroke.bytes

end PpuCodec
