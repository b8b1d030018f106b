import PpuCodec.Image
import PpuCodec.Pack.Segment

/-!
Packing for the two Konami formats. A segment is written behind its length: `n` for a run, 0x80 + `n`
for a block. The lengths stop at 0x7E, for 0x7F is the address mark and 0xFF the end.
-/

namespace PpuCodec.Pack.Konami

def maxLength : Nat := 0x7E

/-- The bytes up to the next run that is worth a segment, at most `limit` of them. -/
def blockBytes : Nat → List UInt8 → List UInt8
  | 0, _ => []
  | _ + 1, [] => []
  | limit + 1, b :: rest => if startsRun (b :: rest) then [] else b :: blockBytes limit rest

def segments : List UInt8 → List Segment
  | [] => []
  | b :: rest =>
    let count := runLength maxLength (b :: rest)
    if minRun ≤ count then
      .run b count :: segments (rest.drop (count - 1))
    else
      let more := blockBytes (maxLength - 1) rest
      .block (b :: more) :: segments (rest.drop more.length)
termination_by data => data.length
decreasing_by all_goals simp only [List.length_drop, List.length_cons]; omega

def encodeSegment : Segment → List UInt8
  | .run value count => [UInt8.ofNat count, value]
  | .block bytes => UInt8.ofNat (0x80 + bytes.length) :: bytes

def body (data : List UInt8) : List UInt8 :=
  (segments data).flatMap encodeSegment ++ [0xFF]

def header (address : Int) : List UInt8 :=
  [UInt8.ofInt address, UInt8.ofInt (address / 0x100)]

def encode (data : List UInt8) (address : Int) (withHeader : Bool) :
    Except Image.Error (List UInt8) := do
  let address ← Image.checkAddress address
  return (if withHeader then header address else []) ++ body data

end PpuCodec.Pack.Konami
