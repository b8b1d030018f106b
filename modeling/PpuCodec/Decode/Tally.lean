import PpuCodec.Decode.Run

/-!
A tally collects what happens in decodes: how often each rule was used, which discouraged ones were,
what was dropped, and where the last decode began and ended. One tally may see many decodes, and two
tallies can be merged. A tally is made from runs, so it cannot influence them.
-/

namespace PpuCodec

/-- How often the rule at one place of a table was used, and what it was when first seen. -/
structure Usage where
  index : Nat
  description : String
  count : Nat
deriving Repr, DecidableEq

/-- Adds to the usage at an index. The list stands in the order of the indices, each at most once. -/
def Usage.add (use : Usage) : List Usage → List Usage
  | [] => [use]
  | other :: rest =>
    if use.index < other.index then use :: other :: rest
    else if use.index = other.index then { other with count := other.count + use.count } :: rest
    else other :: add use rest

structure Tally where
  startOffset : Int := 0
  endOffset : Int := 0
  finalAddress : Int := Image.defaultAddress
  endReached : Bool := false
  usage : List Usage := []
  discouraged : List (Int × String) := []
  skippedWrites : Nat := 0
  skippedAddresses : List Int := []
  /-- The place of a copy that ran past the end of the input. -/
  truncatedCopy : Option Int := none
deriving Repr, DecidableEq

namespace Run

/-- The rules that applied, the one that failed among them, with their indices and places. -/
def uses (run : Run) : List (Nat × Rule × Int) :=
  let failed := match run.ending with
    | .failed index rule _ => [(index, rule, run.cursor.position)]
    | _ => []
  run.fired.map (fun firing => (firing.index, firing.rule, firing.cursor.position)) ++ failed

def discouraged (run : Run) : List (Int × String) :=
  run.uses.filterMap fun (_, rule, position) =>
    if rule.discouraged then some (position, rule.describe) else none

def missed (run : Run) : List Int :=
  run.fired.flatMap (·.effect.missed)

def endReached (run : Run) : Bool :=
  run.fired.any (·.effect == .stop)

def truncatedCopies (run : Run) : List Int :=
  run.fired.filterMap fun firing => match firing.effect with
    | .paint _ true => some firing.cursor.position
    | _ => none

end Run

namespace Tally

def keptAddresses : Nat := 16

def bytesConsumed (tally : Tally) : Int :=
  tally.endOffset - tally.startOffset

/-- Adds a run from `offset`. A run that failed leaves no place where it ended. -/
def observe (tally : Tally) (offset : Int) (run : Run) : Tally :=
  let ended := match run.ending with
    | .failed .. => (tally.endOffset, tally.finalAddress)
    | _ => (run.cursor.position, run.cursor.address)
  { startOffset := offset
    endOffset := ended.1
    finalAddress := ended.2
    endReached := tally.endReached || run.endReached
    usage := run.uses.foldl (fun usage (index, rule, _) => Usage.add ⟨index, rule.describe, 1⟩ usage)
      tally.usage
    discouraged := tally.discouraged ++ run.discouraged
    skippedWrites := tally.skippedWrites + run.missed.length
    skippedAddresses := (tally.skippedAddresses ++ run.missed).take keptAddresses
    truncatedCopy := run.truncatedCopies.getLast?.or tally.truncatedCopy }

/-- Adds the counts of another tally; the places and the address describe one run and stay. -/
def merge (tally other : Tally) : Tally :=
  { tally with
    endReached := tally.endReached || other.endReached
    usage := other.usage.foldl (fun usage use => use.add usage) tally.usage
    discouraged := tally.discouraged ++ other.discouraged
    skippedWrites := tally.skippedWrites + other.skippedWrites
    skippedAddresses := (tally.skippedAddresses ++ other.skippedAddresses).take keptAddresses
    truncatedCopy := tally.truncatedCopy.or other.truncatedCopy }

end Tally

end PpuCodec
