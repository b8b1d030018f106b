import PpuCodec.Image.Region

/-!
The flags of the command line and their names. Some have a short name besides the long ones.
-/

namespace PpuCodec.CommandLine

inductive Flag where
  | help
  | compress
  | decompress
  | list
  | method
  | address
  | output
  | fill
  | region (region : Region)
  | preview
  | patternTable
  | chr
  | stats
  | version
deriving Repr, DecidableEq

namespace Flag

def regions : List Region :=
  [.table .nametable 0, .table .nametable 1, .table .nametable 2, .table .nametable 3,
   .table .attributes 0, .table .attributes 1, .table .attributes 2, .table .attributes 3,
   .table .patterns 0, .table .patterns 1, .backgroundPalette, .spritePalette, .whole]

def all : List Flag :=
  [.help, .compress, .decompress, .list, .method, .address, .output, .fill] ++
    regions.map .region ++ [.preview, .patternTable, .chr, .stats, .version]

def regionNames : Region → List String
  | .table .nametable index => [s!"-{index}", s!"--nt{index}"]
  | .table kind index => [s!"--{kind.label}{index}"]
  | .backgroundPalette => ["-b", "--bkpal"]
  | .spritePalette => ["-s", "--spritepal"]
  | .whole => ["--ppu"]

def names : Flag → List String
  | .help => ["-h", "--help"]
  | .compress => ["-c", "--compress"]
  | .decompress => ["-d", "--decompress"]
  | .list => ["-l", "--list"]
  | .method => ["-m", "--method", "--mode"]
  | .address => ["-a", "--ppuaddr", "--ppuaddress"]
  | .output => ["-o", "--outputfile"]
  | .fill => ["-f", "--fill"]
  | .region target => regionNames target
  | .preview => ["--preview"]
  | .patternTable => ["--bgtable"]
  | .chr => ["--chr"]
  | .stats => ["--stats"]
  | .version => ["-v", "--version"]

def title (flag : Flag) : String :=
  "/".intercalate flag.names

def takesValue : Flag → Bool
  | .help | .list | .stats | .version => false
  | _ => true

def named : List (String × Flag) :=
  all.flatMap fun flag => flag.names.map (·, flag)

def ofName? (name : String) : Option Flag :=
  named.lookup name

def purpose : Flag → String
  | .help => "show this text and exit"
  | .compress => "file to compress"
  | .decompress => "file to decompress"
  | .list => "list the supported formats and exit"
  | .method => "compression method"
  | .address => "target PPU address or section name such as nt1, att0 (c)"
  | .output => "output file for compressed data (c)"
  | .fill => "byte used to prefill the nametables before decoding (d)"
  | .region (.table kind index) => s!"output file for {kind.title.map Char.toLower} {index} (d)"
  | .region .backgroundPalette => "output file for background palette (d)"
  | .region .spritePalette => "output file for sprite palette (d)"
  | .region .whole => "output file for whole 16KB PPU image (d)"
  | .preview => "render the decoded nametables to a PNG (d)"
  | .patternTable => "pattern table used by --preview, 0 or 1 (d)"
  | .chr => "CHR data used by --preview instead of the PPU image (d)"
  | .stats => "print decode statistics as JSON (d)"
  | .version => "show the version and exit"

end Flag

end PpuCodec.CommandLine
