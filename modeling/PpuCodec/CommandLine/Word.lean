import PpuCodec.CommandLine.Usage

/-!
The words of a command line: which of them are flags, and which are values.
-/

namespace PpuCodec.CommandLine

/-- A colon behind the name of a flag stands for an equals sign. -/
def normalizeChars (word : List Char) : List Char :=
  let name := word.takeWhile (· != ':')
  match word.head?, word.dropWhile (· != ':') with
  | some '-', _ :: value => if name.contains '=' then word else name ++ '=' :: value
  | _, _ => word

def normalize (word : String) : String :=
  String.ofList (normalizeChars word.toList)

inductive Tail where
  | nothing
  | short (text : List Char)
  | long (text : List Char)
deriving Repr, DecidableEq

def Tail.length : Tail → Nat
  | .short text => text.length
  | _ => 0

inductive Word where
  | value (text : String)
  | unknown (text : String)
  | flag (flag : Flag) (tail : Tail)
deriving Repr, DecidableEq

namespace Word

def isLong (word : List Char) : Bool :=
  ['-', '-'].isPrefixOf word

def splitName (word : List Char) : String × Tail :=
  let name := String.ofList (word.takeWhile (· != '='))
  match word.dropWhile (· != '=') with
  | _ :: text => (name, if isLong word then .long text else .short text)
  | [] => (name, .nothing)

/-- The flags that a word may mean though it is no full name: a long name may be cut short, and
text may stand directly behind a short name. -/
def candidates (word : List Char) : List (String × Word) :=
  if isLong word then
    let (name, tail) := splitName word
    (Flag.named.filter fun (full, _) => name.toList.isPrefixOf full.toList).map
      fun (full, known) => (full, .flag known tail)
  else
    (Flag.named.filter fun (name, _) => name.toList == word.take 2).map
      fun (name, known) => (name, .flag known (.short (word.drop 2)))

def fullName? (word : String) : Option Word :=
  match Flag.ofName? word with
  | some known => some (.flag known .nothing)
  | none =>
    match splitName word.toList with
    | (_, .nothing) => none
    | (name, tail) => (Flag.ofName? name).map fun known => .flag known tail

def ofString (word : String) : Except Usage Word :=
  match word.toList with
  | '-' :: second :: rest =>
    match fullName? word, candidates ('-' :: second :: rest) with
    | some found, _ => .ok found
    | none, [] => .ok (if rest.contains ' ' || second == ' ' then .value word else .unknown word)
    | none, [(_, found)] => .ok found
    | none, several => .error (.ambiguous word (several.map (·.1)))
  | _ => .ok (.value word)

/-- Behind two dashes that stand alone, all words are values; the dashes are of no use. -/
def ofStrings : List String → Except Usage (List Word)
  | [] => .ok []
  | word :: rest => do
    if word = "--" then
      return .unknown word :: rest.map .value
    else
      let first ← ofString word
      return first :: (← ofStrings rest)

end Word

end PpuCodec.CommandLine
