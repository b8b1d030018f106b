import PpuCodec.CommandLine.Session
import PpuCodec.CommandLine.Settings
import PpuCodec.Bytes.Dump
import PpuCodec.Decode.Report
import PpuCodec.Format.BuiltIn
import PpuCodec.Preview

/-!
Decompressing a file: what was decoded is reported, and regions of it are written to files. They are
written even if the data ends in something that no rule of the format applies to.
-/

namespace PpuCodec.CommandLine

open Job

def dumpSize : Nat := 16

def dumpLines (data : Bytes) (position : Nat) : List String :=
  (Bytes.rows (data.extract position (position + dumpSize)) 8).mapIdx fun i row =>
    let start := Numeral.offset (position + 8 * i : Nat)
    let shown := Numeral.hexRow (row.map fun b => some (b.toNat : Int))
    s!"  {start}: {shown}"

def reportLines (tally : Tally) (withStats : Bool) : List String :=
  let start := Numeral.offset tally.startOffset
  let stop := Numeral.offset tally.endOffset
  [s!"  Bytes read: {tally.bytesConsumed} ({start}-{stop})"]
    ++ (if tally.endReached then [] else ["  Warning: no end of data marker found"])
    ++ tally.discouraged.map (fun (position, description) =>
      let text := String.ofList (Text.strip description.toList)
      s!"  Warning: discouraged operation at {Numeral.offset position}: {text}")
    ++ (tally.skippedAddresses.head?.toList.map fun first =>
      let address := "0x" ++ Numeral.hex 4 first
      s!"  Warning: {tally.skippedWrites} writes out of bounds (first at {address}), skipped.")
    ++ (tally.truncatedCopy.toList.map fun position =>
      s!"  Warning: copy at {Numeral.offset position} ran past the end of input")
    ++ (if withStats then [tally.report.print 0] else [])

/-- The image to go on with, and whether all went well. -/
def salvage (data : Bytes) : Except Decode.Error Image → Job (Image × Bool)
  | .ok image => return (image, true)
  | .error (.stuck format position look image) => do
    complain ("Error: " ++ Decode.Error.message (.stuck format position look image))
    (dumpLines data position.toNat).forM complain
    return (image, false)
  | .error error => throw (.decode error)

def writeRegions (settings : Settings) (image : Image) : List Region → Job Unit
  | [] => return
  | region :: rest => do
    if let some path := settings.target? region then
      writeTo path (image.region region)
    writeRegions settings image rest

def readChr (settings : Settings) : Job (Option Bytes) := do
  if settings.chr.isEmpty then return none
  else return some (← read (← parseSpec settings.chr))

def writePreview (settings : Settings) (image : Image) : Job Unit := do
  if settings.preview.isEmpty then
    return
  else
    let picture ← ofExcept .region
      (Preview.render image (← readChr settings) settings.patternTable)
    let store ← ofExcept (.file ∘ .store) ((← get).store.write settings.preview (.picture picture))
    modify fun session => { session with store }
    say s!"File created: {settings.preview}"

/-- The part of a file up to the end of what a specification means. -/
def uptoEnd (spec : FileSpec) (data : Bytes) : Bytes :=
  if spec.length = 0 then data else data.extract 0 (spec.offset + spec.length)

def decompress (settings : Settings) (input : String) : Job Bool := do
  let spec ← parseSpec input
  let format ← ofExcept .format (Catalog.builtIn.get settings.method)
  say s!"Decompressing from file: {spec.path} ({format.name})..."
  let data := uptoEnd spec (← readAll spec)
  if data.size ≤ spec.offset then
    say s!"  Warning: offset {Numeral.offset spec.offset} is past the end of the data"
  let (result, tally) := format.decodeWith {} data spec.offset settings.fill.toNat
  let (image, isWhole) ← salvage data result
  (reportLines tally settings.stats).forM say
  writeRegions settings image Flag.regions
  writePreview settings image
  return isWhole

end PpuCodec.CommandLine
