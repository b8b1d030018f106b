import PpuCodec.Expr

/-!
Byte buffers, and the ways in which they are looked at. Places are whole numbers of either sign.
-/

namespace PpuCodec

abbrev Bytes := Array UInt8

namespace Bytes

def byte? (data : Bytes) (position : Int) : Option UInt8 :=
  if 0 ≤ position then data[position.toNat]? else none

def lookahead (data : Bytes) (position : Int) : Lookahead :=
  [position, position + 1, position + 2].map fun p => (data.byte? p).map fun b => (b.toNat : Int)

/--
The first `count` bytes that are read from `start` on, or fewer if the buffer ends before. A place
below zero counts back from the end; reading then goes on at the front. There is nothing to read
before the place that is the front when counted from the end.
-/
def readFrom? (data : Bytes) (start : Int) (count : Nat) : Option (List UInt8) :=
  if 0 ≤ start then
    some (data.extract start.toNat (start.toNat + count)).toList
  else if -(data.size : Int) ≤ start then
    some ((data.extract (data.size + start).toNat data.size ++ data).extract 0 count).toList
  else if count = 0 then
    some []
  else
    none

/-- The byte at a place that may be counted back from the end. -/
def wrapped? (data : Bytes) (position : Int) : Option UInt8 :=
  if 0 ≤ position then data[position.toNat]?
  else if -(data.size : Int) ≤ position then data[(data.size + position).toNat]?
  else none

/-- A place, counted back from the end if it is below zero, moved to the nearest one inside. -/
def clamp (data : Bytes) (position : Int) : Nat :=
  if 0 ≤ position then min position.toNat data.size else (data.size + position).toNat

def slice (data : Bytes) (start stop : Int) : Bytes :=
  data.extract (data.clamp start) (data.clamp stop)

end Bytes

end PpuCodec
