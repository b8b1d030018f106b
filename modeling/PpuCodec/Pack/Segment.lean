import PpuCodec.Bytes

/-!
Data in segments: runs of one byte, and blocks of bytes that are taken as they are.
-/

namespace PpuCodec.Pack

/-- How many bytes at the front equal the first one; at most `cap` are counted, the first one always
is. -/
def runLength (cap : Nat) : List UInt8 → Nat
  | [] => 0
  | b :: rest => ((rest.take (cap - 1)).takeWhile (· == b)).length + 1

/-- The run that begins at a place, which may be counted back from the end: the run then goes on at
the front. -/
def runLengthAt? (data : Bytes) (start : Int) (cap : Nat) : Option Nat :=
  match data.readFrom? start (data.size - start).toNat with
  | some (b :: rest) => some (runLength cap (b :: rest))
  | _ => none

/-- A run shorter than this costs no less than its bytes. -/
def minRun : Nat := 3

def startsRun (data : List UInt8) : Bool :=
  minRun ≤ runLength minRun data

inductive Segment where
  | run (value : UInt8) (count : Nat)
  | block (bytes : List UInt8)
deriving Repr, DecidableEq

def Segment.expand : Segment → List UInt8
  | .run value count => List.replicate count value
  | .block bytes => bytes

theorem runLength_pos {cap : Nat} {b : UInt8} {rest : List UInt8} :
    0 < runLength cap (b :: rest) := by
  simp [runLength]

end PpuCodec.Pack
