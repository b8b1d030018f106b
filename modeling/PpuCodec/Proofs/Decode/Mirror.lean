import PpuCodec.Decode
import PpuCodec.Proofs.Decode.Linked

/-!
Two runs side by side, over inputs and tables that may differ. If from related cursors the next pass
shows the same on both sides and leads to related cursors again, then the runs show the same.
-/

namespace PpuCodec

/-- What two runs are compared by: where they stand, and what is seen of their firings. Only firings
of the first run that are covered are compared. -/
structure Mirror (β : Type) where
  related : Cursor → Cursor → Prop
  covers : Firing → Prop
  view : Firing → β
  view' : Firing → β

namespace Mirror

variable {β : Type} (mirror : Mirror β)

structure Passes (pass pass' : Pass) : Prop where
  fired : pass'.fired.map mirror.view' = pass.fired.map mirror.view
  cursor : mirror.related pass.cursor pass'.cursor
  ending : pass'.ending = pass.ending

structure Runs (run run' : Run) : Prop where
  fired : run'.fired.map mirror.view' = run.fired.map mirror.view
  cursor : mirror.related run.cursor run'.cursor
  ending : run'.ending = run.ending

structure InStep (data data' : Bytes) (rules rules' : List Rule) : Prop where
  lt_size_iff : ∀ {cursor cursor' : Cursor}, mirror.related cursor cursor' →
    (cursor.position < data.size ↔ cursor'.position < data'.size)
  passes : ∀ {cursor cursor' : Cursor}, mirror.related cursor cursor' →
    cursor.position < data.size →
      (∀ firing ∈ (Pass.ofRules data 0 rules cursor).fired, mirror.covers firing) →
        mirror.Passes (Pass.ofRules data 0 rules cursor) (Pass.ofRules data' 0 rules' cursor')

section

variable {mirror} {data data' : Bytes} {rules rules' : List Rule} {cursor cursor' last : Cursor}

theorem Runs.after {run run' : Run} {fired fired' : List Firing}
    (hfired : fired'.map mirror.view' = fired.map mirror.view) (hrun : mirror.Runs run run')
    : mirror.Runs (run.after [fired]) (run'.after [fired']) := by
  constructor
  . have hrest := hrun.fired
    simp only [Run.fired] at hrest
    simp [Run.after, Run.fired, hfired, hrest]
  . exact hrun.cursor
  . exact hrun.ending

/-- The pass that is made on the other side. -/
theorem InStep.exists_pass (h : mirror.InStep data data' rules rules') {fired : List Firing}
    {next : Cursor} {ending : Option Ending} (hrelated : mirror.related cursor cursor')
    (hlt : cursor.position < data.size)
    (hpass : Pass.ofRules data 0 rules cursor = ⟨fired, next, ending⟩)
    (hcovers : ∀ firing ∈ fired, mirror.covers firing)
    : ∃ fired' next',
        Pass.ofRules data' 0 rules' cursor' = ⟨fired', next', ending⟩ ∧
        fired'.map mirror.view' = fired.map mirror.view ∧
        mirror.related next next' := by
  have hpasses := h.passes hrelated hlt (by simpa [hpass] using hcovers)
  rw [hpass] at hpasses
  obtain ⟨hfired, hcursor, hending⟩ := hpasses
  dsimp only at hending
  refine ⟨_, _, ?_, hfired, hcursor⟩
  rw [← hending]

theorem InStep.final (h : mirror.InStep data data' rules rules') {final : Run}
    (hfinal : Run.Final data rules last final) (hrelated : mirror.related last cursor')
    (hcovers : ∀ firing ∈ final.fired, mirror.covers firing)
    : mirror.Runs final (Run.ofCursor data' rules' cursor') := by
  have hiff := h.lt_size_iff hrelated
  cases hfinal with
  | exhausted hle =>
    rw [Run.ofCursor]
    rw [Run.go_of_size_le (by omega)]
    constructor
    . rfl
    . exact hrelated
    . rfl
  | ended hlt hpass =>
    obtain ⟨fired', next', hpass', hfired, hnext⟩ := h.exists_pass hrelated hlt hpass
      (by simpa [Run.fired] using hcovers)
    rw [Run.ofCursor]
    rw [Run.go_of_ending (hiff.mp hlt) hpass']
    constructor
    . simpa [Run.fired] using hfired
    . exact hnext
    . rfl
  | stuck hlt hpass =>
    obtain ⟨fired', next', hpass', hfired, hnext⟩ := h.exists_pass hrelated hlt hpass (by simp)
    rw [List.map_nil, List.map_eq_nil_iff] at hfired
    rw [hfired] at hpass'
    rw [Run.ofCursor]
    rw [Run.go_of_stuck (hiff.mp hlt) hpass']
    constructor
    . rfl
    . exact hnext
    . rfl

theorem InStep.runs (h : mirror.InStep data data' rules rules')
    (hrelated : mirror.related cursor cursor')
    (hcovers : ∀ firing ∈ (Run.ofCursor data rules cursor).fired, mirror.covers firing)
    : mirror.Runs (Run.ofCursor data rules cursor) (Run.ofCursor data' rules' cursor') := by
  obtain ⟨passes, last, final, hpasses, hfinal, hrun⟩ := Run.exists_final data rules cursor
  rw [hrun] at hcovers ⊢
  clear hrun
  induction hpasses generalizing cursor' with
  | none => exact h.final hfinal hrelated hcovers
  | @pass cursor next last fired passes hlt hfired hpass _ ih =>
    simp only [Run.after, Run.fired, List.cons_append, List.flatten_cons, List.mem_append] at hcovers
    obtain ⟨fired', next', hpass', hviews, hnext⟩ := h.exists_pass hrelated hlt hpass
      (fun firing hmem => hcovers firing (.inl hmem))
    have hfired' : fired' ≠ [] := by
      intro heq
      rw [heq, List.map_nil, eq_comm, List.map_eq_nil_iff] at hviews
      exact hfired hviews
    rw [Run.ofCursor_of_open ((h.lt_size_iff hrelated).mp hlt) hfired' hpass']
    change mirror.Runs ((final.after passes).after [fired]) _
    apply Runs.after hviews
    apply ih hnext _ hfinal
    intro firing hmem
    exact hcovers firing (.inr hmem)

end

end Mirror

/-- The second run does the same, but `k` places further on in its input. -/
structure Run.Echoes (k : Int) (run run' : Run) : Prop where
  ending : run'.ending = run.ending
  position : run'.cursor.position = run.cursor.position + k
  address : run'.cursor.address = run.cursor.address
  image : ∀ fill, run'.image fill = run.image fill
  missed : run'.missed = run.missed
  endReached : run'.endReached = run.endReached
  truncatedCopies : run'.truncatedCopies = run.truncatedCopies.map (· + k)

/-- The tallies show the same, but for which rules were used, and for places `k` further on. -/
structure Tally.Echoes (k : Int) (tally tally' : Tally) : Prop where
  endOffset : tally'.endOffset = tally.endOffset + k
  finalAddress : tally'.finalAddress = tally.finalAddress
  endReached : tally'.endReached = tally.endReached
  skippedWrites : tally'.skippedWrites = tally.skippedWrites
  skippedAddresses : tally'.skippedAddresses = tally.skippedAddresses
  truncatedCopy : tally'.truncatedCopy = tally.truncatedCopy.map (· + k)

namespace Run

variable {k : Int} {run run' : Run}

/-- The place of a copy that was cut. -/
def cutAt : Int × Effect → Option Int
  | (position, .paint _ true) => some position
  | _ => none

theorem truncatedCopies_eq (run : Run)
    : run.truncatedCopies
        =
      (run.fired.map fun firing => (firing.cursor.position, firing.effect)).filterMap cutAt := by
  rw [List.filterMap_map]
  unfold truncatedCopies
  congr 1
  funext firing
  simp only [Function.comp, cutAt]
  cases firing.effect with
  | paint stroke cut =>
    cases cut
    . rfl
    . rfl
  | _ => rfl

theorem cutAt_add (k : Int) (position : Int) (effect : Effect)
    : cutAt (position + k, effect) = (cutAt (position, effect)).map (· + k) := by
  cases effect with
  | paint stroke cut =>
    cases cut
    . rfl
    . rfl
  | _ => rfl

theorem echoes_of_fired (hending : run'.ending = run.ending)
    (hposition : run'.cursor.position = run.cursor.position + k)
    (haddress : run'.cursor.address = run.cursor.address)
    (hfired : run'.fired.map (fun firing => (firing.cursor.position, firing.effect))
      = run.fired.map (fun firing => (firing.cursor.position + k, firing.effect)))
    : run.Echoes k run' := by
  have heffects : run'.fired.map (·.effect) = run.fired.map (·.effect) := by
    have := congrArg (List.map Prod.snd) hfired
    rwa [List.map_map, List.map_map] at this
  constructor
  . exact hending
  . exact hposition
  . exact haddress
  . intro fill
    have := congrArg (List.foldl Effect.apply (.blank fill)) heffects
    rwa [List.foldl_map, List.foldl_map] at this
  . have := congrArg (List.flatMap Effect.missed) heffects
    rwa [List.flatMap_map, List.flatMap_map] at this
  . have := congrArg (List.any · (· == .stop)) heffects
    simp only [List.any_map] at this
    exact this
  . rw [truncatedCopies_eq, truncatedCopies_eq, hfired]
    rw [List.filterMap_map, List.filterMap_map, List.map_filterMap]
    simp only [Function.comp_def, cutAt_add]

/-- A change of the address before all else leaves no trace. -/
theorem Echoes.after_seek (h : run.Echoes k run') {firing : Firing} {target : Int}
    (heffect : firing.effect = .seek target)
    : run.Echoes k (run'.after [[firing]]) := by
  have hfired : (run'.after [[firing]]).fired = firing :: run'.fired := by simp [fired, after]
  constructor
  . exact h.ending
  . exact h.position
  . exact h.address
  . intro fill
    rw [← h.image]
    simp [Run.image, hfired, heffect, Effect.apply]
  . rw [← h.missed]
    simp [Run.missed, hfired, heffect, Effect.missed]
  . rw [← h.endReached]
    simp [Run.endReached, hfired, heffect]
  . rw [← h.truncatedCopies]
    simp [Run.truncatedCopies, hfired, heffect]

theorem Echoes.observe (h : run.Echoes k run')
    (hending : ∀ index rule fault, run.ending ≠ .failed index rule fault) (offset offset' : Int)
    : Tally.Echoes k (.observe {} offset run) (.observe {} offset' run') := by
  have hended : run.ending = .complete ∨ run.ending = .stuck := by
    cases hrun : run.ending with
    | complete => simp
    | stuck => simp
    | failed index rule fault => exact absurd hrun (hending index rule fault)
  constructor
  . rcases hended with heq | heq
    all_goals simp [Tally.observe, h.ending, h.position, heq]
  . rcases hended with heq | heq
    all_goals simp [Tally.observe, h.ending, h.address, heq]
  . simp [Tally.observe, h.endReached]
  . simp [Tally.observe, h.missed]
  . simp [Tally.observe, h.missed]
  . simp [Tally.observe, h.truncatedCopies]

end Run

/-- The decodes return the same memory, or get stuck with the same in front of them. -/
theorem Format.outcome_of_echoes {k : Int} {run run' : Run} (format format' : Format)
    {data data' : Bytes} (h : run.Echoes k run')
    (hending : ∀ index rule fault, run.ending ≠ .failed index rule fault)
    (hlook : data'.lookahead (run.cursor.position + k) = data.lookahead run.cursor.position)
    (fill : UInt8)
    : (∃ image,
        format.outcome data fill run = .ok image ∧
        format'.outcome data' fill run' = .ok image) ∨
      ∃ position look image,
        format.outcome data fill run = .error (.stuck format.name position look image) ∧
        format'.outcome data' fill run' = .error (.stuck format'.name (position + k) look image) := by
  unfold outcome
  rw [h.ending, h.image]
  cases hrun : run.ending with
  | complete => exact .inl ⟨_, rfl, rfl⟩
  | stuck =>
    refine .inr ⟨_, _, _, rfl, ?_⟩
    dsimp only
    rw [h.position, hlook]
  | failed index rule fault => exact absurd hrun (hending index rule fault)

end PpuCodec
