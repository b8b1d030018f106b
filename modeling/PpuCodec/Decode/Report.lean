import PpuCodec.Decode.Tally
import PpuCodec.Text.Json

/-!
A tally as a JSON document.
-/

namespace PpuCodec

def Usage.report (use : Usage) : Json :=
  .record [
    ("index", .number use.index),
    ("description", .text use.description),
    ("usage_count", .number use.count)]

namespace Tally

def addressText (address : Int) : Json :=
  .text ("0x" ++ Numeral.hex 4 address)

def offsetText (offset : Int) : Json :=
  .text (Numeral.offset offset)

def report (tally : Tally) : Json :=
  .record [
    ("start_offset", offsetText tally.startOffset),
    ("end_offset", offsetText tally.endOffset),
    ("bytes_consumed", .number tally.bytesConsumed),
    ("final_address", addressText tally.finalAddress),
    ("end_reached", .bool tally.endReached),
    ("operations", .list (tally.usage.map (·.report))),
    ("discouraged_operations", .list (tally.discouraged.map fun (position, description) =>
      .record [("offset", offsetText position), ("description", .text description)])),
    ("skipped_writes", .record [
      ("total_count", .number tally.skippedWrites),
      ("first_addresses", .list (tally.skippedAddresses.map addressText))]),
    ("truncated_copy_at", (tally.truncatedCopy.map offsetText).getD .null)]

end Tally

end PpuCodec
