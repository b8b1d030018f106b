import PpuCodec.Bytes

/-!
The 16 KB of picture memory that a decode writes into: two pattern tables, four nametables of 960
tiles and 64 attribute bytes each, and the palettes.
-/

namespace PpuCodec

structure Image where
  cells : Vector UInt8 0x4000
deriving DecidableEq

namespace Image

inductive Error where
  | fill (value : Int)
  | size (count : Nat)
  | address (address : Int)
deriving Repr, DecidableEq

def Error.message : Error → String
  | .fill value => s!"Fill value {value} does not fit in a byte"
  | .size count => s!"PPU image must be {Numeral.markedHex 0 0x4000} bytes, got {Numeral.markedHex 0 count}"
  | .address target => s!"PPU address {Numeral.address target} out of range"

/-- Writing starts here unless the format says otherwise. -/
def defaultAddress : Int := 0x2000

def isTileCell (address : Nat) : Bool :=
  0x2000 ≤ address && address < 0x3000 && address % 0x400 < 0x3C0

/-- Memory in which nothing has been written: tiles are `fill`, everything else is zero. -/
def blank (fill : UInt8) : Image :=
  ⟨Vector.ofFn fun i => if isTileCell i then fill else 0⟩

def fillByte (value : Int) : Except Error UInt8 :=
  if 0 ≤ value ∧ value ≤ 0xFF then .ok (UInt8.ofNat value.toNat) else .error (.fill value)

def ofBytes (data : Bytes) : Except Error Image :=
  if h : data.size = 0x4000 then .ok ⟨⟨data, h⟩⟩ else .error (.size data.size)

def toBytes (image : Image) : Bytes :=
  image.cells.toArray

def holds (address : Int) : Bool :=
  0 ≤ address && address < 0x4000

def checkAddress (address : Int) : Except Error Int :=
  if holds address then .ok address else .error (.address address)

/-- A write outside the memory is dropped. -/
def write (image : Image) (address : Int) (b : UInt8) : Image :=
  if h : 0 ≤ address ∧ address < 0x4000 then ⟨image.cells.set address.toNat b (by omega)⟩ else image

end Image

end PpuCodec
