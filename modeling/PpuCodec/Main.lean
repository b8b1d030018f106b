import PpuCodec.CommandLine

/-!
The program. The files that the command line mentions are read before the run, and those that it
has changed are written afterwards.
-/

namespace PpuCodec.Main

def pathOf (location : Location) : String :=
  "/" ++ "/".intercalate location

def probe (location : Location) : IO (Option Entry) := do
  try
    let data ← IO.FS.readBinFile (pathOf location)
    return some (.file (.bytes data.data))
  catch
    | .noFileOrDirectory .. => return none
    | .inappropriateType .. => return some .directory
    | error => throw error

def snapshot (home : Location) (paths : List String) : IO Store := do
  let places := paths.flatMap fun path => Store.steps (Store.origin home path) (Store.names path)
  let mut entries := []
  for place in places.eraseDups do
    if let some entry ← probe place then
      entries := (place, entry) :: entries
  return { entries, home }

def run (words : List String) : IO UInt32 := do
  let home := Store.names (← IO.currentDir).toString
  let paths := match CommandLine.Settings.parse words with
    | .ok settings => settings.paths
    | .error _ => []
  let before ← snapshot home paths
  let outcome := CommandLine.run words before
  for (location, content) in before.changes outcome.store do
    IO.FS.writeBinFile (pathOf location) ⟨content.toBytes⟩
  IO.print outcome.out
  IO.eprint outcome.err
  return UInt32.ofNat outcome.status

end PpuCodec.Main

def main (words : List String) : IO UInt32 :=
  PpuCodec.Main.run words
