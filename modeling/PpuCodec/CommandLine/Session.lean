import PpuCodec.Decode
import PpuCodec.Files.FileSpec
import PpuCodec.Format.Catalog
import PpuCodec.Image.Region
import PpuCodec.Pack

/-!
A session reads and writes files, and prints. If it fails, what was written and printed before stays.
-/

namespace PpuCodec.CommandLine

structure Session where
  store : Store
  out : String := ""
  err : String := ""

inductive Failure where
  | file (error : FileSpec.Error)
  | format (error : Catalog.Error)
  | encoder (error : Encoder.Error)
  | decode (error : Decode.Error)
  | region (error : Region.Error)

namespace Failure

def message : Failure → String
  | .file (.store (.missing path)) => s!"file not found: {path}"
  | .file error => error.message
  | .format error => error.message
  | .encoder error => error.message
  | .decode error => error.message
  | .region error => error.message

end Failure

abbrev Job := ExceptT Failure (StateM Session)

namespace Job

def ofExcept (f : ε → Failure) : Except ε α → Job α
  | .ok a => pure a
  | .error e => throw (f e)

def say (line : String) : Job Unit :=
  modify fun session => { session with out := session.out ++ line ++ "\n" }

def complain (line : String) : Job Unit :=
  modify fun session => { session with err := session.err ++ line ++ "\n" }

def parseSpec (text : String) : Job FileSpec :=
  ofExcept .file (FileSpec.parse text)

def readAll (spec : FileSpec) : Job Bytes := do
  ofExcept .file (spec.readAll (← get).store)

def read (spec : FileSpec) : Job Bytes := do
  ofExcept .file (spec.read (← get).store)

def writeTo (text : String) (data : Bytes) : Job Unit := do
  let target := (← parseSpec text).target
  let (store, count) ← ofExcept (.file ∘ .store) (target.write (← get).store data)
  modify fun session => { session with store }
  match target with
  | .fresh path => say s!"File created: {path}"
  | .patch path offset _ =>
    say s!"File modified: {path} ({count} bytes at {Numeral.offset offset})"

end Job

end PpuCodec.CommandLine
