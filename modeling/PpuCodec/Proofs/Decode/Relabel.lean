import Mathlib.Logic.Equiv.Basic
import PpuCodec.Decode
import PpuCodec.Proofs.Decode.Linked
import PpuCodec.Proofs.Tally.Merge

/-!
Runs over a table of which the rules stand at other places. If each pass does the same but for the
places of the rules, then so does the run. It comes to the same, and a tally shows the difference
only in the places at which rules were used.
-/

namespace PpuCodec

section

variable (place : Equiv.Perm Nat)

def Firing.relabel (firing : Firing) : Firing :=
  { firing with index := place firing.index }

def Ending.relabel : Ending → Ending
  | .complete => .complete
  | .stuck => .stuck
  | .failed index rule fault => .failed (place index) rule fault

def Pass.relabel (pass : Pass) : Pass :=
  ⟨pass.fired.map (·.relabel place), pass.cursor, pass.ending.map (·.relabel place)⟩

def Run.relabel (run : Run) : Run :=
  ⟨run.passes.map (·.map (·.relabel place)), run.cursor, run.ending.relabel place⟩

def Usage.relabel (use : Usage) : Usage :=
  { use with index := place use.index }

end

variable {place : Equiv.Perm Nat}

/-- A rule does the same wherever in the table it stands. -/
theorem Rule.fire_relabel (rule : Rule) (place : Equiv.Perm Nat) (index : Nat) (data : Bytes)
    (cursor : Cursor)
    : rule.fire (place index) data cursor
        =
      (rule.fire index data cursor).map (·.relabel place) := by
  unfold fire
  dsimp only
  generalize rule.size.value (data.lookahead cursor.position) = size
  generalize rule.step.value (data.lookahead cursor.position) = step
  cases size with
  | error error => rfl
  | ok size =>
    simp only [mapError_ok, bind, Except.bind]
    split
    . rfl
    . cases step with
      | error error => rfl
      | ok step =>
        simp only [mapError_ok]
        cases rule.effect data cursor step with
        | error fault => rfl
        | ok effect => rfl

namespace Run

variable {data : Bytes} {rules rules' : List Rule}

theorem ofCursor_relabel
    (h : ∀ cursor, Pass.ofRules data 0 rules' cursor
      = (Pass.ofRules data 0 rules cursor).relabel place) (cursor : Cursor)
    : ofCursor data rules' cursor = (ofCursor data rules cursor).relabel place := by
  obtain ⟨passes, last, final, hpasses, hfinal, hrun⟩ := exists_final data rules cursor
  rw [hrun]
  clear hrun
  induction hpasses with
  | none =>
    rw [ofCursor]
    cases hfinal with
    | exhausted hle =>
      rw [go_of_size_le hle]
      rfl
    | ended hlt hpass =>
      have hpass' := (h _).trans (congrArg (Pass.relabel place) hpass)
      rw [go_of_ending hlt hpass']
      rfl
    | stuck hlt hpass =>
      have hpass' := (h _).trans (congrArg (Pass.relabel place) hpass)
      rw [go_of_stuck hlt hpass']
      rfl
  | @pass cursor next last fired passes hlt hfired hpass _ ih =>
    have hpass' := (h _).trans (congrArg (Pass.relabel place) hpass)
    rw [ofCursor_of_open hlt (by simpa using hfired) hpass', ih hfinal]
    rfl

variable (run : Run)

theorem fired_relabel : (run.relabel place).fired = run.fired.map (·.relabel place) := by
  simp [fired, relabel, List.map_flatten]

theorem uses_relabel
    : (run.relabel place).uses
        =
      run.uses.map fun (index, rule, position) => (place index, rule, position) := by
  simp only [uses, fired_relabel, List.map_append, List.map_map]
  congr 1
  simp only [relabel]
  cases run.ending with
  | complete => rfl
  | stuck => rfl
  | failed index rule fault => rfl

theorem image_relabel (fill : UInt8) : (run.relabel place).image fill = run.image fill := by
  rw [image, image, fired_relabel, List.foldl_map]
  rfl

theorem discouraged_relabel : (run.relabel place).discouraged = run.discouraged := by
  rw [discouraged, discouraged, uses_relabel, List.filterMap_map]
  rfl

theorem missed_relabel : (run.relabel place).missed = run.missed := by
  rw [missed, missed, fired_relabel, List.flatMap_map]
  rfl

theorem endReached_relabel : (run.relabel place).endReached = run.endReached := by
  rw [endReached, endReached, fired_relabel, List.any_map]
  rfl

theorem truncatedCopies_relabel : (run.relabel place).truncatedCopies = run.truncatedCopies := by
  rw [truncatedCopies, truncatedCopies, fired_relabel, List.filterMap_map]
  rfl

end Run

/-- Where rules stand does not show in what a decode returns or fails with. -/
theorem Format.outcome_relabel {format format' : Format} (hname : format'.name = format.name)
    (data : Bytes) (fill : UInt8) (run : Run)
    : format'.outcome data fill (run.relabel place) = format.outcome data fill run := by
  unfold outcome
  rw [run.image_relabel, hname]
  simp only [Run.relabel]
  cases run.ending with
  | complete => rfl
  | stuck => rfl
  | failed index rule fault => rfl

namespace Usage

theorem total_relabel (index : Nat) (uses : List Usage)
    : total (place index) (uses.map (·.relabel place))
        =
      (total index uses).map (·.relabel place) := by
  induction uses with
  | nil => rfl
  | cons use uses ih =>
    have hindex : (use.relabel place).index = place index ↔ use.index = index :=
      place.injective.eq_iff
    rw [List.map_cons, total, total, ih]
    by_cases heq : use.index = index
    . rw [if_pos (hindex.mpr heq), if_pos heq]
      cases total index uses with
      | none => rfl
      | some later => rfl
    . rw [if_neg (mt hindex.mp heq), if_neg heq]

theorem nodup_of_ordered {usage : List Usage} (h : Ordered usage) : usage.Nodup := by
  apply List.Pairwise.imp _ h
  rintro a b hlt rfl
  exact Nat.lt_irrefl _ hlt

/-- Usages that are counted at other places are those that were counted, at those places. -/
theorem addAll_relabel_perm (uses : List Usage)
    : (addAll (uses.map (·.relabel place)) []).Perm ((addAll uses []).map (·.relabel place)) := by
  have hordered : Ordered (addAll uses []) := Ordered.addAll List.Pairwise.nil uses
  have hordered' : Ordered (addAll (uses.map (·.relabel place)) []) :=
    Ordered.addAll List.Pairwise.nil _
  have hinjective : Function.Injective (relabel place) := by
    rintro ⟨index, description, count⟩ ⟨index', description', count'⟩ heq
    simpa [relabel] using heq
  have hlookup : ∀ index, lookup (place index) (addAll (uses.map (·.relabel place)) [])
      = (lookup index (addAll uses [])).map (·.relabel place) := by
    intro index
    rw [Ordered.lookup_addAll List.Pairwise.nil, Ordered.lookup_addAll List.Pairwise.nil]
    rw [total_relabel]
    simp [lookup]
  rw [List.perm_ext_iff_of_nodup (nodup_of_ordered hordered')
    ((nodup_of_ordered hordered).map hinjective)]
  intro use
  have hmem : use ∈ addAll (uses.map (·.relabel place)) []
      ↔ lookup use.index (addAll (uses.map (·.relabel place)) []) = some use := by
    rw [hordered'.lookup_eq_some_iff]
    simp
  have hplace := hlookup (place.symm use.index)
  rw [place.apply_symm_apply] at hplace
  rw [hmem, hplace, Option.map_eq_some_iff, List.mem_map]
  constructor
  . rintro ⟨old, hold, heq⟩
    exact ⟨old, (hordered.lookup_eq_some_iff.mp hold).1, heq⟩
  . rintro ⟨old, hold, heq⟩
    refine ⟨old, hordered.lookup_eq_some_iff.mpr ⟨hold, ?_⟩, heq⟩
    rw [← heq, relabel, place.symm_apply_apply]

end Usage

namespace Tally

/-- Where rules stand shows in a fresh tally by the places of the counts, and by nothing else. -/
theorem observe_relabel (offset : Int) (run : Run)
    : let tally := Tally.observe {} offset run
      let tally' := Tally.observe {} offset (run.relabel place)
      tally' = { tally with usage := tally'.usage } ∧
      tally'.usage.Perm (tally.usage.map (·.relabel place)) := by
  intro tally tally'
  constructor
  . simp only [tally, tally', Tally.observe, run.discouraged_relabel, run.missed_relabel,
      run.endReached_relabel, run.truncatedCopies_relabel]
    simp only [Run.relabel]
    cases run.ending with
    | complete => rfl
    | stuck => rfl
    | failed index rule fault => rfl
  . have huses : usesOf (run.relabel place) = (usesOf run).map (·.relabel place) := by
      rw [usesOf, usesOf, run.uses_relabel, List.map_map, List.map_map]
      rfl
    simp only [tally, tally']
    rw [usage_observe, usage_observe, huses]
    exact Usage.addAll_relabel_perm (usesOf run)

end Tally

end PpuCodec
