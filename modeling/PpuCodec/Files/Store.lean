import PpuCodec.Picture.Png
import PpuCodec.Text.Quoted

/-!
The files that can be reached, as a value. A file is found by the names on the way to it from the
root; a directory is there if it is listed or if something lies in it.
-/

namespace PpuCodec

inductive Content where
  | bytes (data : Bytes)
  | picture (picture : Picture)

def Content.toBytes : Content → Bytes
  | .bytes data => data
  | .picture shown => shown.toPng

inductive Entry where
  | file (content : Content)
  | directory

abbrev Location := List String

structure Store where
  entries : List (Location × Entry) := []
  /-- Where paths begin that do not begin at the root. -/
  home : Location := []

namespace Store

inductive Error where
  | missing (path : String)
  | notDirectory (path : String)
  | isDirectory (path : String)
  | zeroCharacter
deriving Repr, DecidableEq

def Error.message : Error → String
  | .missing path => s!"[Errno 2] No such file or directory: {Text.quoted path}"
  | .notDirectory path => s!"[Errno 20] Not a directory: {Text.quoted path}"
  | .isDirectory path => s!"[Errno 21] Is a directory: {Text.quoted path}"
  | .zeroCharacter => "embedded null byte"

def isParent (store : Store) (location : Location) : Bool :=
  location.isPrefixOf store.home || store.entries.any fun (other, _) => location.isPrefixOf other

def entry? (store : Store) (location : Location) : Option Entry :=
  match store.entries.lookup location with
  | some entry => some entry
  | none => if store.isParent location then some .directory else none

def putEntry (location : Location) (entry : Entry) :
    List (Location × Entry) → List (Location × Entry)
  | [] => [(location, entry)]
  | (other, old) :: rest =>
    if other = location then (location, entry) :: rest
    else (other, old) :: putEntry location entry rest

def put (store : Store) (location : Location) (content : Content) : Store :=
  { store with entries := putEntry location (.file content) store.entries }

def names (path : String) : List String :=
  ((Text.pieces (· == '/') path.toList).filter (!·.isEmpty)).map String.ofList

/-- The directory that names lead to from another one; two dots lead back. -/
def descend (store : Store) (path : String) (directory : Location) :
    List String → Except Error Location
  | [] => .ok directory
  | name :: rest =>
    if name = "." then store.descend path directory rest
    else if name = ".." then store.descend path directory.dropLast rest
    else
      let next := directory ++ [name]
      match store.entry? next with
      | some .directory => store.descend path next rest
      | some (.file _) => .error (.notDirectory path)
      | none => .error (.missing path)

def origin (home : Location) (path : String) : Location :=
  if path.toList.head? = some '/' then [] else home

/-- Where a path leads: its last name in the directory that the other names lead to. -/
def locate (store : Store) (path : String) : Except Error Location := do
  if path.toList.contains '\x00' then
    throw .zeroCharacter
  else if path.isEmpty then
    throw (.missing path)
  else
    let names := names path
    let directory ← store.descend path (origin store.home path) names.dropLast
    match names.getLast? with
    | none | some "." | some ".." => throw (.isDirectory path)
    | some name => return directory ++ [name]

/-- A slash at the end of a path asks for a directory. -/
def endsInSlash (path : String) : Bool :=
  path.toList.getLast? == some '/'

def read (store : Store) (path : String) : Except Error Bytes := do
  let location ← store.locate path
  match store.entry? location with
  | some (.file content) =>
    if endsInSlash path then throw (.notDirectory path) else return content.toBytes
  | some .directory => throw (.isDirectory path)
  | none => throw (.missing path)

def write (store : Store) (path : String) (content : Content) : Except Error Store := do
  let location ← store.locate path
  if endsInSlash path then
    throw (.isDirectory path)
  else
    match store.entry? location with
    | some .directory => throw (.isDirectory path)
    | _ => return store.put location content

def changes (before after : Store) : List (Location × Content) :=
  after.entries.filterMap fun (location, entry) =>
    match entry, before.entries.lookup location with
    | .file (.bytes data), some (.file (.bytes old)) =>
      if data = old then none else some (location, .bytes data)
    | .file content, _ => some (location, content)
    | .directory, _ => none

def steps (directory : Location) : List String → List Location
  | [] => []
  | name :: rest =>
    if name = "." then steps directory rest
    else if name = ".." then steps directory.dropLast rest
    else (directory ++ [name]) :: steps (directory ++ [name]) rest

end Store

end PpuCodec
