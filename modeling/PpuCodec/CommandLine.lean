import PpuCodec.CommandLine.About
import PpuCodec.CommandLine.Compress
import PpuCodec.CommandLine.Decompress

/-!
The command line as a function: from the words and the files to what is printed, the files
afterwards, and the exit status.
-/

namespace PpuCodec.CommandLine

structure Outcome where
  status : Nat
  out : String
  err : String
  store : Store

namespace Outcome

def printed (store : Store) (lines : List String) : Outcome :=
  ⟨0, String.join (lines.map (· ++ "\n")), "", store⟩

def refused (store : Store) (error : Usage) : Outcome :=
  ⟨2, "", s!"{About.name}: error: {error.message}\n", store⟩

def ofSession : Except Failure Bool × Session → Outcome
  | (.ok isWhole, session) =>
    ⟨if isWhole then 0 else 1, session.out ++ "Done.\n", session.err, session.store⟩
  | (.error failure, session) =>
    ⟨1, session.out, session.err ++ s!"Error: {failure.message}\n", session.store⟩

end Outcome

/-- An empty name is no name. -/
def jobFor? (settings : Settings) : Option (Job Bool) :=
  match settings.decompress.filter (!·.isEmpty), settings.compress.filter (!·.isEmpty) with
  | some input, _ => some (decompress settings input)
  | none, some input => some do
    compress settings input
    return true
  | none, none => none

def runJob (store : Store) (job : Job Bool) : Outcome :=
  .ofSession ((do Job.say About.banner; job : Job Bool).run ⟨store, "", ""⟩)

def run (line : List String) (store : Store) : Outcome :=
  match Settings.parse line with
  | .error (.usage error) => .refused store error
  | .error .help => .printed store About.help
  | .error .version => .printed store [About.info]
  | .ok settings =>
    if settings.list then .printed store About.formats
    else
      match jobFor? settings with
      | some job => runJob store job
      | none => .refused store .noJob

end PpuCodec.CommandLine
