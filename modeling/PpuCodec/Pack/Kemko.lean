import PpuCodec.Pack.Segment

/-!
Packing for the Kemko format. A run is written as the marker 0xFF, its byte and its length; a byte
that begins no run stands for itself. The marker itself is always written as a run.
-/

namespace PpuCodec.Pack.Kemko

def marker : UInt8 := 0xFF

def maxLength : Nat := 0xFF

def segments : List UInt8 → List Segment
  | [] => []
  | b :: rest =>
    let count := runLength maxLength (b :: rest)
    if minRun ≤ count ∨ b = marker then
      .run b count :: segments (rest.drop (count - 1))
    else
      .block [b] :: segments rest
termination_by data => data.length
decreasing_by all_goals simp only [List.length_drop, List.length_cons]; omega

def encodeSegment : Segment → List UInt8
  | .run value count => [marker, value, UInt8.ofNat count]
  | .block bytes => bytes

def body (data : List UInt8) : List UInt8 :=
  (segments data).flatMap encodeSegment

/-- A run of no bytes ends the data. -/
def endMark : List UInt8 := [marker, marker, 0]

def encode (data : List UInt8) : List UInt8 :=
  body data ++ endMark

end PpuCodec.Pack.Kemko
