import PpuCodec.CommandLine.Flag
import PpuCodec.Format.BuiltIn
import PpuCodec.Pack

/-!
The texts that the program shows about itself: its version, its flags and its formats.
-/

namespace PpuCodec.CommandLine.About

def name : String := "NESCompress"

def version : String := "0.3.0"

def banner : String :=
  s!"{name} {version}"

def info : String :=
  s!"{name} v{version}-alpha by SpiderDave (https://github.com/spiderdave)"

def formatLines (format : Format) : List String :=
  let tag := if Encoder.all.any (·.key == format.key) then " (compress/decompress)" else ""
  s!"  {Text.padRight 10 format.key} {format.name}{tag}" ::
    format.rules.map (fun rule => "      " ++ rule.describe) ++ [""]

def formats : List String :=
  ["Supported formats:", ""] ++ Catalog.builtIn.formats.flatMap formatLines

def flagLine (flag : Flag) : String :=
  Text.padRight 34 ("  " ++ ", ".intercalate flag.names) ++ flag.purpose

def help : List String :=
  [info, "", "Compress or decompress data from NES games.", ""] ++ Flag.all.map flagLine ++
    ["", "File names may end with \":offset\" or \":offset:length\" (decimal, 0x or $ hex).",
     "Writing to \"file:offset\" patches the existing file instead of replacing it."]

end PpuCodec.CommandLine.About
