import PpuCodec.Decode.Tally
import PpuCodec.Format

/-!
Decoding an input in a given format into picture memory. If no rule applies, what was written so far
comes with the error.
-/

namespace PpuCodec

namespace Decode

inductive Error where
  | negativeOffset (offset : Int)
  | image (error : Image.Error)
  | stuck (format : String) (position : Int) (look : Lookahead) (image : Image)
  | fault (fault : Fault)
deriving DecidableEq

def Error.message : Error → String
  | .negativeOffset offset => s!"Offset must not be negative, got {offset}"
  | .image error => error.message
  | .stuck format position look _ =>
    s!"Invalid operation at offset {Numeral.offset position}: {Numeral.hexRow look} matches no {format} operation"
  | .fault reason => reason.message

end Decode

namespace Format

def run (format : Format) (data : Bytes) (offset : Int) : Run :=
  Run.ofRules format.rules data offset

def outcome (format : Format) (data : Bytes) (fill : UInt8) (run : Run) :
    Except Decode.Error Image :=
  match run.ending with
  | .complete => .ok (run.image fill)
  | .stuck =>
    let position := run.cursor.position
    .error (.stuck format.name position (data.lookahead position) (run.image fill))
  | .failed _ _ fault => .error (.fault fault)

def checkedFill (offset fill : Int) : Except Decode.Error UInt8 :=
  if offset < 0 then .error (.negativeOffset offset)
  else (Image.fillByte fill).mapError .image

def decode (format : Format) (data : Bytes) (offset fill : Int) : Except Decode.Error Image := do
  let fill ← checkedFill offset fill
  format.outcome data fill (format.run data offset)

/-- Decodes and adds the run to the tally; there is no run if offset or fill are impossible. -/
def decodeWith (format : Format) (tally : Tally) (data : Bytes) (offset fill : Int) :
    Except Decode.Error Image × Tally :=
  match checkedFill offset fill with
  | .error error => (.error error, tally)
  | .ok fill =>
    let run := format.run data offset
    (format.outcome data fill run, tally.observe offset run)

end Format

end PpuCodec
