import PpuCodec.CommandLine.Flag
import PpuCodec.Image.Address

/-!
What can be wrong with a command line.
-/

namespace PpuCodec.CommandLine

inductive ValueError where
  | address (error : Image.Address.Error)
  | number (error : Numeral.Error)
  | patternTable
deriving Repr, DecidableEq

def ValueError.message : ValueError → String
  | .address error => error.message
  | .number error => error.message
  | .patternTable => "pattern table must be 0 or 1"

inductive Usage where
  | ambiguous (word : String) (names : List String)
  | unrecognized (words : List String)
  | missingValue (flag : Flag)
  | ignoredValue (flag : Flag) (value : String)
  | badValue (flag : Flag) (error : ValueError)
  | conflict (flag other : Flag)
  | noJob
deriving Repr, DecidableEq

def Usage.message : Usage → String
  | .ambiguous word names =>
    s!"ambiguous option: {word} could match " ++ ", ".intercalate names
  | .unrecognized words => "unrecognized arguments: " ++ " ".intercalate words
  | .missingValue flag => s!"argument {flag.title}: expected one argument"
  | .ignoredValue flag value =>
    s!"argument {flag.title}: ignored explicit argument {Text.quoted value}"
  | .badValue flag error => s!"argument {flag.title}: {error.message}"
  | .conflict flag other => s!"argument {flag.title}: not allowed with argument {other.title}"
  | .noJob => "one of -c/--compress or -d/--decompress is required"

end PpuCodec.CommandLine
