import PpuCodec.Bytes

/-!
Colours. Palette memory holds numbers of colours in a fixed master palette of 64.
-/

namespace PpuCodec

structure Color where
  red : UInt8
  green : UInt8
  blue : UInt8
deriving Repr, DecidableEq

namespace Color

def master : Vector Color 64 := #v[
  ⟨84, 84, 84⟩, ⟨0, 30, 116⟩, ⟨8, 16, 144⟩, ⟨48, 0, 136⟩,
  ⟨68, 0, 100⟩, ⟨92, 0, 48⟩, ⟨84, 4, 0⟩, ⟨60, 24, 0⟩,
  ⟨32, 42, 0⟩, ⟨8, 58, 0⟩, ⟨0, 64, 0⟩, ⟨0, 60, 0⟩,
  ⟨0, 50, 60⟩, ⟨0, 0, 0⟩, ⟨0, 0, 0⟩, ⟨0, 0, 0⟩,
  ⟨152, 150, 152⟩, ⟨8, 76, 196⟩, ⟨48, 50, 236⟩, ⟨92, 30, 228⟩,
  ⟨136, 20, 176⟩, ⟨160, 20, 100⟩, ⟨152, 34, 32⟩, ⟨120, 60, 0⟩,
  ⟨84, 90, 0⟩, ⟨40, 114, 0⟩, ⟨8, 124, 0⟩, ⟨0, 118, 40⟩,
  ⟨0, 102, 120⟩, ⟨0, 0, 0⟩, ⟨0, 0, 0⟩, ⟨0, 0, 0⟩,
  ⟨236, 238, 236⟩, ⟨76, 154, 236⟩, ⟨120, 124, 236⟩, ⟨176, 98, 236⟩,
  ⟨228, 84, 236⟩, ⟨236, 88, 180⟩, ⟨236, 106, 100⟩, ⟨212, 136, 32⟩,
  ⟨160, 170, 0⟩, ⟨116, 196, 0⟩, ⟨76, 208, 32⟩, ⟨56, 204, 108⟩,
  ⟨56, 180, 204⟩, ⟨60, 60, 60⟩, ⟨0, 0, 0⟩, ⟨0, 0, 0⟩,
  ⟨236, 238, 236⟩, ⟨168, 204, 236⟩, ⟨188, 188, 236⟩, ⟨212, 178, 236⟩,
  ⟨236, 174, 236⟩, ⟨236, 174, 212⟩, ⟨236, 180, 176⟩, ⟨228, 196, 144⟩,
  ⟨204, 210, 120⟩, ⟨180, 222, 120⟩, ⟨168, 226, 144⟩, ⟨152, 226, 180⟩,
  ⟨160, 214, 228⟩, ⟨160, 162, 160⟩, ⟨0, 0, 0⟩, ⟨0, 0, 0⟩]

/-- The colour of a number; only its six lowest bits count. -/
def ofNumber (number : Int) : Color :=
  master[(number % 64).toNat]

end Color

abbrev Subpalette := Vector Color 4

namespace Subpalette

inductive Error where
  | outside
deriving Repr, DecidableEq

def Error.message : Error → String
  | .outside => "index out of range"

/-- Shown in place of a palette of zeros: black and three greys. -/
def gray : Subpalette :=
  #v[.ofNumber 0x0F, .ofNumber 0x00, .ofNumber 0x10, .ofNumber 0x30]

def ofMemory (memory : Bytes) (h : 16 ≤ memory.size) (i : Fin 4) : Subpalette :=
  Vector.ofFn fun j =>
    .ofNumber (if j.val = 0 then memory[0] else memory[4 * i.val + j.val]).toNat

def fourOfMemory (memory : Bytes) (h : 16 ≤ memory.size) : Vector Subpalette 4 :=
  if memory.all (· == 0) then Vector.replicate 4 gray else Vector.ofFn (ofMemory memory h)

/-- The same for any bytes. A memory of zeros may be short, any other needs sixteen bytes. -/
def fourOf (memory : Bytes) : Except Error (Vector Subpalette 4) :=
  if h : 16 ≤ memory.size then .ok (fourOfMemory memory h)
  else if memory.all (· == 0) then .ok (Vector.replicate 4 gray)
  else .error .outside

end Subpalette

end PpuCodec
