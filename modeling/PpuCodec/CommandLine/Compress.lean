import PpuCodec.CommandLine.Session
import PpuCodec.CommandLine.Settings

/-!
Compressing a file, or a part of it.
-/

namespace PpuCodec.CommandLine

open Job

def compress (settings : Settings) (input : String) : Job Unit := do
  let spec ← parseSpec input
  say s!"Compressing from file: {spec.path}..."
  let data ← read spec
  let packed ← ofExcept .encoder (pack settings.method data.toList settings.address)
  say s!"  Uncompressed size: {data.size} bytes"
  say s!"  Compressed size: {packed.length} bytes"
  say s!"  Target PPU Address: 0x{Numeral.hex 4 settings.address}"
  if settings.output.isEmpty then
    say "  Warning: no output file given (-o), nothing written"
  else
    writeTo settings.output packed.toArray

end PpuCodec.CommandLine
