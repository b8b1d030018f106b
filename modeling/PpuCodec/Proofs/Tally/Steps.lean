import PpuCodec.Proofs.Tally.Reachable

/-!
A tally that is written to while a decode goes on: when the decode begins, when a rule applies, when
a write misses the memory, when a copy is cut short, and when the decode comes to an end. It holds in
the end what is read off the finished run, unless it had kept more addresses than it may.
-/

namespace PpuCodec

/-- The place of a copy, if this is one and it was cut short. -/
def Effect.cutAt (position : Int) : Effect → Option Int
  | .paint _ true => some position
  | _ => none

namespace Run

section

variable (firing : Firing) (fired : List Firing) (cursor : Cursor) (ending : Ending)

theorem uses_cons
    : uses ⟨[firing :: fired], cursor, ending⟩
        =
      (firing.index, firing.rule, firing.cursor.position) :: uses ⟨[fired], cursor, ending⟩ := by
  rfl

theorem discouraged_cons
    : discouraged ⟨[firing :: fired], cursor, ending⟩
        =
      (if firing.rule.discouraged then [(firing.cursor.position, firing.rule.describe)] else [])
        ++ discouraged ⟨[fired], cursor, ending⟩ := by
  rw [discouraged, uses_cons]
  split
  . next hrule => simp [discouraged, hrule]
  . next hrule => simp [discouraged, hrule]

theorem missed_cons
    : missed ⟨[firing :: fired], cursor, ending⟩
        =
      firing.effect.missed ++ missed ⟨[fired], cursor, ending⟩ := by
  rfl

theorem endReached_cons
    : endReached ⟨[firing :: fired], cursor, ending⟩
        =
      (firing.effect == .stop || endReached ⟨[fired], cursor, ending⟩) := by
  rfl

theorem truncatedCopies_cons
    : truncatedCopies ⟨[firing :: fired], cursor, ending⟩
        =
      (firing.effect.cutAt firing.cursor.position).toList
        ++ truncatedCopies ⟨[fired], cursor, ending⟩ := by
  rcases heffect : firing.effect with target | ⟨stroke, _ | _⟩ | _
  . simp [truncatedCopies, Run.fired, heffect, Effect.cutAt]
  . simp [truncatedCopies, Run.fired, heffect, Effect.cutAt]
  . simp [truncatedCopies, Run.fired, heffect, Effect.cutAt]
  . simp [truncatedCopies, Run.fired, heffect, Effect.cutAt]

end

end Run

namespace Tally

def openAt (tally : Tally) (offset : Int) : Tally :=
  { tally with startOffset := offset }

def record (tally : Tally) (index : Nat) (rule : Rule) (position : Int) : Tally :=
  { tally with
    usage := Usage.add ⟨index, rule.describe, 1⟩ tally.usage
    discouraged :=
      if rule.discouraged then tally.discouraged ++ [(position, rule.describe)]
      else tally.discouraged }

def recordSkipped (tally : Tally) (address : Int) : Tally :=
  { tally with
    skippedWrites := tally.skippedWrites + 1
    skippedAddresses :=
      if tally.skippedAddresses.length < keptAddresses then tally.skippedAddresses ++ [address]
      else tally.skippedAddresses }

def recordCut (tally : Tally) (position : Int) : Tally :=
  { tally with truncatedCopy := some position }

def recordEnd (tally : Tally) : Tally :=
  { tally with endReached := true }

def closeAt (tally : Tally) (cursor : Cursor) : Tally :=
  { tally with endOffset := cursor.position, finalAddress := cursor.address }

def perform (tally : Tally) (position : Int) : Effect → Tally
  | .seek _ => tally
  | .paint stroke cut =>
    let tally := stroke.missed.foldl recordSkipped tally
    if cut then tally.recordCut position else tally
  | .stop => tally.recordEnd

def step (tally : Tally) (firing : Firing) : Tally :=
  (tally.record firing.index firing.rule firing.cursor.position).perform firing.cursor.position
    firing.effect

/-- Counts the rule that has failed, if that is what ended the decode. -/
def stepFailed (tally : Tally) (cursor : Cursor) : Option Ending → Tally
  | some (.failed index rule _) => tally.record index rule cursor.position
  | _ => tally

/-- Only a decode that did not fail leaves the place where it ended. -/
def leave (tally : Tally) (cursor : Cursor) : Ending → Tally
  | .failed .. => tally
  | _ => tally.closeAt cursor

variable {tally : Tally}

theorem skippedAddresses_recordSkipped (h : tally.skippedAddresses.length ≤ keptAddresses)
    (address : Int)
    : (tally.recordSkipped address).skippedAddresses
        =
      (tally.skippedAddresses ++ [address]).take keptAddresses := by
  simp only [recordSkipped]
  split
  . next hroom =>
    rw [List.take_of_length_le]
    rw [List.length_append]
    exact hroom
  . next hfull =>
    rw [List.take_append_of_le_length (by omega)]
    rw [List.take_of_length_le h]

theorem foldl_recordSkipped (h : tally.skippedAddresses.length ≤ keptAddresses)
    (addresses : List Int)
    : addresses.foldl recordSkipped tally
        =
      { tally with
        skippedWrites := tally.skippedWrites + addresses.length
        skippedAddresses := (tally.skippedAddresses ++ addresses).take keptAddresses } := by
  induction addresses generalizing tally with
  | nil => simp [List.take_of_length_le h]
  | cons address addresses ih =>
    have haddresses := skippedAddresses_recordSkipped h address
    rw [List.foldl_cons]
    rw [ih (by rw [haddresses]; exact List.length_take_le _ _)]
    rw [haddresses, take_take_append]
    simp only [recordSkipped, mk.injEq, List.length_cons, List.append_assoc, List.singleton_append]
    simp only [true_and, and_true]
    omega

theorem perform_eq (h : tally.skippedAddresses.length ≤ keptAddresses) (position : Int)
    (effect : Effect)
    : tally.perform position effect
        =
      { tally with
        endReached := tally.endReached || effect == .stop
        skippedWrites := tally.skippedWrites + effect.missed.length
        skippedAddresses := (tally.skippedAddresses ++ effect.missed).take keptAddresses
        truncatedCopy := (effect.cutAt position).or tally.truncatedCopy } := by
  cases effect with
  | seek target =>
    have hstop : (Effect.seek target == .stop) = false := by rfl
    simp [perform, Effect.cutAt, Effect.missed, List.take_of_length_le h, hstop]
  | stop => simp [perform, recordEnd, Effect.cutAt, Effect.missed, List.take_of_length_le h]
  | paint stroke cut =>
    have hstop : (Effect.paint stroke cut == .stop) = false := by rfl
    simp only [perform, foldl_recordSkipped h, hstop, Bool.or_false]
    cases cut with
    | false => rfl
    | true => rfl

theorem length_skippedAddresses_step (h : tally.skippedAddresses.length ≤ keptAddresses)
    (firing : Firing)
    : (tally.step firing).skippedAddresses.length ≤ keptAddresses := by
  rw [step, perform_eq (by exact h)]
  exact List.length_take_le _ _

theorem openAt_step (h : tally.skippedAddresses.length ≤ keptAddresses) (offset : Int)
    (firing : Firing)
    : (tally.openAt offset).step firing = (tally.step firing).openAt offset := by
  rw [step, perform_eq (by exact h)]
  rw [step, perform_eq (by exact h)]
  rfl

/-- What a run adds to a tally, it adds rule by rule. -/
theorem observe_cons (h : tally.skippedAddresses.length ≤ keptAddresses) (offset : Int)
    (firing : Firing) (fired : List Firing) (cursor : Cursor) (ending : Ending)
    : tally.observe offset ⟨[firing :: fired], cursor, ending⟩
        =
      (tally.step firing).observe offset ⟨[fired], cursor, ending⟩ := by
  rw [step, perform_eq (by exact h)]
  simp only [observe, mk.injEq]
  refine ⟨trivial, ?_, ?_, ?_, ?_, ?_, ?_, ?_, ?_⟩
  . cases ending <;> rfl
  . cases ending <;> rfl
  . rw [Run.endReached_cons, Bool.or_assoc]
    rfl
  . rfl
  . rw [Run.discouraged_cons, ← List.append_assoc]
    simp only [record]
    split
    . rfl
    . rw [List.append_nil]
  . rw [Run.missed_cons, List.length_append, Nat.add_assoc]
    rfl
  . rw [Run.missed_cons, take_take_append, List.append_assoc]
    rfl
  . rw [Run.truncatedCopies_cons, List.getLast?_append, Option.or_assoc]
    cases firing.effect.cutAt firing.cursor.position with
    | none => rfl
    | some position => rfl

theorem observe_nil (h : tally.skippedAddresses.length ≤ keptAddresses) (offset : Int)
    (cursor : Cursor) (ending : Ending)
    : tally.observe offset ⟨[[]], cursor, ending⟩
        =
      ((tally.openAt offset).stepFailed cursor (some ending)).leave cursor ending := by
  have hmissed : Run.missed ⟨[[]], cursor, ending⟩ = [] := by rfl
  have hreached : Run.endReached ⟨[[]], cursor, ending⟩ = false := by rfl
  have hcut : Run.truncatedCopies ⟨[[]], cursor, ending⟩ = [] := by rfl
  simp only [observe, hmissed, hreached, hcut, List.append_nil, Bool.or_false]
  rw [List.take_of_length_le h]
  cases ending with
  | complete => simp [Run.discouraged, Run.uses, Run.fired, stepFailed, leave, closeAt, openAt]
  | stuck => simp [Run.discouraged, Run.uses, Run.fired, stepFailed, leave, closeAt, openAt]
  | failed index rule fault =>
    simp only [Run.discouraged, Run.uses, Run.fired, stepFailed, leave, record, openAt]
    cases hrule : rule.discouraged with
    | false => simp [hrule]
    | true => simp [hrule]

theorem foldl_step_eq (h : tally.skippedAddresses.length ≤ keptAddresses) (offset : Int)
    (fired : List Firing) (cursor : Cursor) (ending : Ending)
    : ((fired.foldl step (tally.openAt offset)).stepFailed cursor (some ending)).leave cursor ending
        =
      tally.observe offset ⟨[fired], cursor, ending⟩ := by
  induction fired generalizing tally with
  | nil => exact (observe_nil h offset cursor ending).symm
  | cons firing fired ih =>
    rw [observe_cons h]
    rw [← ih (length_skippedAddresses_step h firing)]
    rw [List.foldl_cons, openAt_step h]

/-- A tally that was written to all through a decode shows the run. -/
theorem observe_eq (h : tally.skippedAddresses.length ≤ keptAddresses) (offset : Int) (run : Run)
    : ((run.fired.foldl step (tally.openAt offset)).stepFailed run.cursor
          (some run.ending)).leave run.cursor run.ending
        =
      tally.observe offset run := by
  rw [foldl_step_eq h]
  have hfired : Run.fired ⟨[run.fired], run.cursor, run.ending⟩ = run.fired := by simp [Run.fired]
  simp only [observe, Run.uses, Run.discouraged, Run.missed, Run.endReached, Run.truncatedCopies,
    hfired]

end Tally

end PpuCodec
