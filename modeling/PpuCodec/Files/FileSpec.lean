import PpuCodec.Bytes
import PpuCodec.Files.Store
import PpuCodec.Numeral

/-!
Files as they are named on the command line: a path, and behind colons an offset and a length. What
is written there makes a new file, or goes into the file that is there if an offset or a length is
given.
-/

namespace PpuCodec

/-- A part of a file. A length of zero means all that follows the offset. -/
structure FileSpec where
  path : String
  offset : Nat := 0
  length : Nat := 0
deriving Repr, DecidableEq

inductive Target where
  | fresh (path : String)
  /-- At most `limit` bytes go into the file at the offset, or all of them if it is zero. -/
  | patch (path : String) (offset limit : Nat)
deriving Repr, DecidableEq

namespace FileSpec

inductive Error where
  | missingName (text : String)
  | pastEnd (spec : FileSpec) (size : Nat)
  | store (error : Store.Error)
deriving Repr, DecidableEq

def Error.message : Error → String
  | .missingName text => s!"Missing file name in {Text.quoted text}"
  | .pastEnd spec size =>
    s!"Offset {Numeral.offset spec.offset} is past the end of {spec.path} ({size} bytes)"
  | .store error => error.message

/-- Takes at most `limit` numbers from the pieces of a text, of which the last one comes first. One
piece is left in any case. -/
def takeNumbers (limit : Nat) (pieces : List (List Char)) (numbers : List Nat) :
    List (List Char) × List Nat :=
  match limit, pieces with
  | limit + 1, last :: piece :: rest =>
    match Numeral.parseChars? last with
    | some n => takeNumbers limit (piece :: rest) (n :: numbers)
    | none => (last :: piece :: rest, numbers)
  | _, _ => (pieces, numbers)

def parse (text : String) : Except Error FileSpec :=
  let (pieces, numbers) := takeNumbers 2 (Text.pieces (· == ':') text.toList).reverse []
  let path := String.ofList (Text.join ':' pieces.reverse)
  if path.isEmpty then .error (.missingName text)
  else .ok ⟨path, numbers[0]?.getD 0, numbers[1]?.getD 0⟩

def readAll (spec : FileSpec) (store : Store) : Except Error Bytes :=
  (store.read spec.path).mapError .store

def read (spec : FileSpec) (store : Store) : Except Error Bytes := do
  let data ← spec.readAll store
  if data.size < spec.offset then
    throw (.pastEnd spec data.size)
  else
    let stop := if spec.length = 0 then data.size else spec.offset + spec.length
    return data.extract spec.offset stop

def target (spec : FileSpec) : Target :=
  if spec.offset = 0 ∧ spec.length = 0 then .fresh spec.path
  else .patch spec.path spec.offset spec.length

end FileSpec

namespace Target

def tidy (path : String) : String :=
  let slashes := (path.toList.takeWhile (· == '/')).length
  let root := if slashes = 0 then "" else if slashes = 2 then "//" else "/"
  let tidied := root ++ "/".intercalate ((Store.names path).filter (· != "."))
  if tidied.isEmpty then "." else tidied

/-- The bytes with `chunk` at the offset; zeros fill the gap if they end before it. -/
def splice (contents : Bytes) (offset : Nat) (chunk : Bytes) : Bytes :=
  let filled := contents ++ Array.replicate (offset - contents.size) 0
  filled.extract 0 offset ++ chunk ++ filled.extract (offset + chunk.size) filled.size

def chunk (data : Bytes) (limit : Nat) : Bytes :=
  if limit = 0 then data else data.extract 0 limit

def write (target : Target) (store : Store) (data : Bytes) : Except Store.Error (Store × Nat) :=
  match target with
  | .fresh path => do
    let store ← store.write (tidy path) (.bytes data)
    return (store, data.size)
  | .patch path offset limit => do
    let contents ← store.read path
    let chunk := chunk data limit
    let store ← store.write (tidy path) (.bytes (splice contents offset chunk))
    return (store, chunk.size)

end Target

end PpuCodec
