import PpuCodec.Bytes

/-!
Tiles of eight by eight pixels. A tile takes sixteen bytes: eight rows of low bits, then eight rows
of high bits, with the leftmost pixel in the highest bit.
-/

namespace PpuCodec

structure Tile where
  rows : Vector (Vector (Fin 4) 8) 8
deriving DecidableEq

namespace Tile

inductive Error where
  | outside
deriving Repr, DecidableEq

def Error.message : Error → String
  | .outside => "index out of range"

def bit (row : UInt8) (column : Fin 8) : Fin 2 :=
  ⟨row.toNat >>> (7 - column.val) % 2, Nat.mod_lt _ (by decide)⟩

def pixel (low high : UInt8) (column : Fin 8) : Fin 4 :=
  ⟨(bit low column).val + 2 * (bit high column).val, by omega⟩

def ofBytes (bytes : Vector UInt8 16) : Tile :=
  ⟨Vector.ofFn fun row => Vector.ofFn fun column => pixel bytes[row.val] bytes[row.val + 8] column⟩

def blank : Tile :=
  ⟨Vector.replicate 8 (Vector.replicate 8 0)⟩

/-- The tile that begins at `start`; it is blank if the data ends within it. -/
def readAt (data : Bytes) (start : Nat) : Tile :=
  if h : start + 16 ≤ data.size then
    ofBytes (Vector.ofFn fun i => data[start + i.val])
  else
    blank

/--
The tile of an index. A negative index counts sixteen bytes at a time from the end; the sixteen
bytes at the very end cannot be reached in this way.
-/
def decode (data : Bytes) (index : Int) : Except Error Tile :=
  if 0 ≤ index then .ok (readAt data (16 * index.toNat))
  else if index ≤ -2 ∧ 0 ≤ data.size + 16 * index then
    .ok (readAt data (data.size + 16 * index).toNat)
  else .error .outside

end Tile

end PpuCodec
