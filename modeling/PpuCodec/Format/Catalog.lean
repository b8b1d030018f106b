import PpuCodec.Format

/-!
The formats that are known, in the order in which they were added. No two of them answer to the same
key.
-/

namespace PpuCodec

structure Catalog where
  formats : List Format

namespace Catalog

inductive Error where
  | duplicateKey (key : String)
  | unknownFormat (key : String) (valid : List String)
deriving Repr, DecidableEq

def Error.message : Error → String
  | .duplicateKey key => s!"Duplicate format key: {Text.quoted key}"
  | .unknownFormat key valid =>
    s!"Unknown format {Text.quoted key}. Valid formats are: " ++ ", ".intercalate valid

def empty : Catalog := ⟨[]⟩

def get? (catalog : Catalog) (key : String) : Option Format :=
  catalog.formats.find? (·.answersTo key)

def contains (catalog : Catalog) (key : String) : Bool :=
  (catalog.get? key).isSome

def keys (catalog : Catalog) : List String :=
  catalog.formats.map (·.key)

def get (catalog : Catalog) (key : String) : Except Error Format :=
  match catalog.get? key with
  | some format => .ok format
  | none => .error (.unknownFormat key catalog.keys)

def size (catalog : Catalog) : Nat :=
  catalog.formats.length

def add (catalog : Catalog) (format : Format) : Except Error Catalog :=
  if catalog.contains format.key then .error (.duplicateKey format.key)
  else .ok ⟨catalog.formats ++ [format]⟩

def ofList (formats : List Format) : Except Error Catalog :=
  formats.foldlM add empty

end Catalog

end PpuCodec
