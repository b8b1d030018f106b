import PpuCodec.Decode
import PpuCodec.Proofs.Decode.Excerpt
import PpuCodec.Proofs.Decode.Mirror
import PpuCodec.Proofs.Decode.Outcome

/-!
A decode of a stream that stands behind other bytes. Rules that get by with the bytes that they use
up never look at what is before the stream, so all that changes are the places.
-/

namespace PpuCodec

def Tally.shift (k : Int) (tally : Tally) : Tally :=
  { tally with
    startOffset := tally.startOffset + k
    endOffset := tally.endOffset + k
    discouraged := tally.discouraged.map fun hit => (hit.1 + k, hit.2)
    truncatedCopy := tally.truncatedCopy.map (· + k) }

def Decode.Error.shift (k : Int) : Decode.Error → Decode.Error
  | .stuck format position look written => .stuck format (position + k) look written
  | error => error

def shiftMirror (k : Int) : Mirror Firing where
  related cursor cursor' := 0 ≤ cursor.position ∧ cursor' = cursor.shift k
  covers _ := True
  view := Firing.shift k
  view' := id

section

variable {rules : List Rule} (hrules : ∀ rule ∈ rules, rule.SelfContained)

include hrules

theorem Pass.ofRules_prepend (before data : Bytes) {cursor : Cursor} (hposition : 0 ≤ cursor.position)
    : ofRules (before ++ data) 0 rules (cursor.shift before.size)
        =
      (ofRules data 0 rules cursor).shift before.size := by
  generalize hpass : ofRules data 0 rules cursor = pass
  -- The pass may leave the input, so this is taken to go on as far as the pass does.
  have hexcerpt := (Pass.scan_of_eq hpass).ofRules_excerpt before
    (max data.size pass.cursor.position.toNat) hrules hposition (by omega)
  have htake : data.take (max data.size pass.cursor.position.toNat) = data := by
    rw [Array.take_eq_extract, Array.extract_eq_self_iff]
    omega
  rw [htake] at hexcerpt
  exact hexcerpt

theorem shiftMirror_inStep (before data : Bytes)
    : (shiftMirror before.size).InStep data (before ++ data) rules rules := by
  constructor
  . rintro cursor cursor' ⟨hposition, rfl⟩
    simp only [Cursor.shift, Array.size_append]
    omega
  . rintro cursor cursor' ⟨hposition, rfl⟩ hlt hcovers
    rw [Pass.ofRules_prepend hrules before data hposition]
    constructor
    . simp [shiftMirror, Pass.shift]
    . have := (Pass.scan data rules 0 cursor).position_le hrules hposition
      rw [List.drop_zero] at this
      exact ⟨by omega, rfl⟩
    . rfl

namespace Run

theorem ofRules_prepend (before data : Bytes)
    : let run := ofRules rules data 0
      let run' := ofRules rules (before ++ data) before.size
      run.Echoes before.size run' ∧
      run'.fired = run.fired.map (·.shift before.size) ∧
      0 ≤ run.cursor.position := by
  intro run run'
  have hstart : (shiftMirror before.size).related (start 0) (start before.size) := by
    refine ⟨Int.le_refl _, ?_⟩
    simp [start, Cursor.shift]
  have hruns := (shiftMirror_inStep hrules before data).runs hstart (fun _ _ => trivial)
  change (shiftMirror before.size).Runs run run' at hruns
  obtain ⟨hposition, hcursor⟩ := hruns.cursor
  have hfired : run'.fired = run.fired.map (·.shift before.size) := by
    simpa [shiftMirror] using hruns.fired
  refine ⟨?_, hfired, hposition⟩
  apply echoes_of_fired hruns.ending
  . rw [hcursor]
    rfl
  . rw [hcursor]
    rfl
  . rw [hfired]
    simp [Firing.shift, Cursor.shift]

end Run

end

section

variable {k : Int} {run run' : Run} (hechoes : run.Echoes k run')
variable (hfired : run'.fired = run.fired.map (·.shift k))
variable (hending : ∀ index rule fault, run.ending ≠ .failed index rule fault)

include hechoes hfired hending

theorem Run.uses_shift : run'.uses = run.uses.map fun use => (use.1, use.2.1, use.2.2 + k) := by
  unfold uses
  rw [hechoes.ending, hfired]
  cases hrun : run.ending with
  | complete => simp [Firing.shift, Cursor.shift]
  | stuck => simp [Firing.shift, Cursor.shift]
  | failed index rule fault => exact absurd hrun (hending index rule fault)

theorem Run.discouraged_shift
    : run'.discouraged = run.discouraged.map fun hit => (hit.1 + k, hit.2) := by
  unfold discouraged
  rw [uses_shift hechoes hfired hending]
  rw [List.filterMap_map, List.map_filterMap]
  congr 1
  funext use
  simp only [Function.comp]
  split
  . rfl
  . rfl

theorem Tally.observe_shift (offset : Int)
    : observe {} (offset + k) run' = (observe {} offset run).shift k := by
  have hshows := hechoes.observe hending offset (offset + k)
  unfold shift
  rw [Tally.mk.injEq]
  refine ⟨rfl, hshows.endOffset, hshows.finalAddress, hshows.endReached, ?_, ?_,
    hshows.skippedWrites, hshows.skippedAddresses, hshows.truncatedCopy⟩
  . simp [observe, Run.uses_shift hechoes hfired hending, List.foldl_map]
  . simp [observe, Run.discouraged_shift hechoes hfired hending]

end

theorem Format.decodeWith_prepend {format : Format}
    (hrules : ∀ rule ∈ format.rules, rule.SelfContained) (before data : Bytes) (fill : UInt8)
    : format.decodeWith {} (before ++ data) before.size fill.toNat
        =
      let result := format.decodeWith {} data 0 fill.toNat
      (result.1.mapError (·.shift before.size), result.2.shift before.size) := by
  obtain ⟨hechoes, hfired, hposition⟩ := Run.ofRules_prepend hrules before data
  have hnever : ∀ index rule fault, (format.run data 0).ending ≠ .failed index rule fault := by
    intro index rule fault
    exact Run.ending_ne_failed hrules (Int.le_refl 0)
  change (format.run data 0).Echoes before.size (format.run (before ++ data) before.size) at hechoes
  have htally := Tally.observe_shift hechoes hfired hnever 0
  rw [Int.zero_add] at htally
  rw [format.decodeWith_eq_outcome {} data (Int.le_refl 0) fill]
  rw [format.decodeWith_eq_outcome {} _ (Int.natCast_nonneg _) fill]
  dsimp only
  rw [htally]
  rcases outcome_of_echoes format format hechoes hnever
    (Bytes.lookahead_prepend before data hposition) fill with ⟨image, h, h'⟩ | ⟨_, _, _, h, h'⟩
  . rw [h, h']
    rfl
  . rw [h, h']
    rfl

end PpuCodec
