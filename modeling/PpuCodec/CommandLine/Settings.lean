import PpuCodec.CommandLine.Word
import PpuCodec.Files.FileSpec

/-!
What a command line asks for. Words are read from left to right; of a flag that is given twice the
last value counts.
-/

namespace PpuCodec.CommandLine

structure Settings where
  compress : Option String := none
  decompress : Option String := none
  list : Bool := false
  method : String := "konami2"
  address : Int := Image.defaultAddress
  output : String := ""
  fill : UInt8 := 0
  /-- Where regions are to be written; of two for the same region the first counts. -/
  targets : List (Region × String) := []
  preview : String := ""
  patternTable : Nat := 0
  chr : String := ""
  stats : Bool := false
deriving Repr, DecidableEq

inductive Halt where
  | usage (error : Usage)
  | help
  | version
deriving Repr, DecidableEq

namespace Settings

def jobs (settings : Settings) : List Flag :=
  [(settings.compress.isSome, .compress), (settings.decompress.isSome, .decompress),
    (settings.list, .list)].filterMap fun (isGiven, flag) => if isGiven then some flag else none

def checkJob (settings : Settings) (flag : Flag) : Except Halt Unit :=
  match settings.jobs.find? (· != flag) with
  | some other => .error (.usage (.conflict flag other))
  | none => .ok ()

def parseFill (value : String) : Except ValueError UInt8 :=
  (Numeral.parseByte value).mapError .number

def parsePatternTable (value : String) : Except ValueError Nat := do
  let n ← (Numeral.parse value).mapError .number
  if n ≤ 1 then return n else throw .patternTable

/-- The settings after a flag was given, with a value if there is one. A text that is not there is
empty, and a number that is not there stays as it was. -/
def apply (settings : Settings) (flag : Flag) (value : Option String) : Except Halt Settings :=
  let text := value.getD ""
  let refuse (error : ValueError) : Halt := .usage (.badValue flag error)
  match flag with
  | .help => throw .help
  | .version => throw .version
  | .compress => do
    settings.checkJob flag
    return { settings with compress := some text }
  | .decompress => do
    settings.checkJob flag
    return { settings with decompress := some text }
  | .list => do
    settings.checkJob flag
    return { settings with list := true }
  | .method => return { settings with method := text }
  | .address => do
    let address ← (value.mapM Image.Address.parse).mapError (refuse ∘ .address)
    return { settings with address := address.getD settings.address }
  | .output => return { settings with output := text }
  | .fill => do
    let fill ← (value.mapM parseFill).mapError refuse
    return { settings with fill := fill.getD settings.fill }
  | .region target => return { settings with targets := (target, text) :: settings.targets }
  | .preview => return { settings with preview := text }
  | .patternTable => do
    let patternTable ← (value.mapM parsePatternTable).mapError refuse
    return { settings with patternTable := patternTable.getD settings.patternTable }
  | .chr => return { settings with chr := text }
  | .stats => return { settings with stats := true }

structure Given where
  flags : List (Flag × Option String)
  usesNext : Bool
deriving Repr, DecidableEq

def Given.after (flag : Flag) (given : Given) : Given :=
  { given with flags := (flag, none) :: given.flags }

/-- The value in the same word as its flag. Two dashes that stand alone are none. -/
def attached (text : List Char) : Option String :=
  if text = ['-', '-'] then none else some (String.ofList text)

def tailAfter : List Char → Tail
  | [] => .nothing
  | text => .short text

theorem length_tailAfter (text : List Char) : (tailAfter text).length = text.length := by
  cases text <;> rfl

/--
The flags in a word. Behind the short name of a flag that takes no value stands the name of the next
one; `next` is the next word if it is a value.
-/
def unfold (flag : Flag) (tail : Tail) (next : Option String) : Except Usage Given :=
  match flag.takesValue, tail with
  | true, .short text | true, .long text => .ok ⟨[(flag, attached text)], false⟩
  | true, .nothing =>
    match next with
    | some value => .ok ⟨[(flag, some value)], true⟩
    | none => .error (.missingValue flag)
  | false, .nothing => .ok ⟨[(flag, none)], false⟩
  | false, .short [] => .error (.ignoredValue flag "")
  | false, .short (c :: rest) =>
    match Flag.ofName? (String.ofList ['-', c]) with
    | some other => (unfold other (tailAfter rest) next).map (Given.after flag)
    | none => .error (.ignoredValue flag (String.ofList (c :: rest)))
  | false, .long text => .error (.ignoredValue flag (String.ofList text))
termination_by tail.length
decreasing_by
  rw [length_tailAfter]
  exact Nat.lt_succ_self rest.length

def nextValue? : List Word → Option String
  | .value text :: _ => some text
  | _ => none

def readWords (settings : Settings) (aside : List String) :
    List Word → Except Halt (Settings × List String)
  | [] => .ok (settings, aside)
  | .value text :: rest => settings.readWords (aside ++ [text]) rest
  | .unknown text :: rest => settings.readWords (aside ++ [text]) rest
  | .flag flag tail :: rest => do
    let given ← (unfold flag tail (nextValue? rest)).mapError .usage
    let settings ← given.flags.foldlM (fun settings (flag, value) => settings.apply flag value)
      settings
    settings.readWords aside (rest.drop given.usesNext.toNat)
termination_by words => words.length
decreasing_by all_goals simp only [List.length_drop, List.length_cons]; omega

def parse (line : List String) : Except Halt Settings := do
  let words ← (Word.ofStrings (line.map normalize)).mapError .usage
  let (settings, aside) ← ({} : Settings).readWords [] words
  if aside.isEmpty then return settings else throw (.usage (.unrecognized aside))

def paths (settings : Settings) : List String :=
  let named := settings.decompress.toList ++ settings.compress.toList ++
    [settings.output, settings.chr] ++ settings.targets.map (·.2)
  settings.preview :: named.filterMap fun text => (FileSpec.parse text).toOption.map (·.path)

def target? (settings : Settings) (region : Region) : Option String :=
  (settings.targets.lookup region).filter (!·.isEmpty)

end Settings

end PpuCodec.CommandLine
