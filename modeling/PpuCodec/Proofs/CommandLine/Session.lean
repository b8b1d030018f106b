import PpuCodec.CommandLine
import PpuCodec.Proofs.Files.Patch

/-!
Jobs that go through: what they come to, and the files afterwards. What they print is left open.
-/

namespace PpuCodec.CommandLine

namespace Job

variable {α β : Type} {store after last : Store}

/-- From these files the job comes to `a`, whatever was printed before, and leaves the files
`after`. -/
def Yields (job : Job α) (store : Store) (a : α) (after : Store) : Prop :=
  ∀ out err, ∃ nextOut nextErr,
    job.run.run ⟨store, out, err⟩ = (.ok a, ⟨after, nextOut, nextErr⟩)

theorem yields_pure (a : α) (store : Store) : Yields (pure a) store a store := by
  intro out err
  exact ⟨out, err, rfl⟩

theorem Yields.bind {job : Job α} {next : α → Job β} {a : α} {b : β}
    (h : job.Yields store a after) (hnext : (next a).Yields after b last)
    : (job >>= next).Yields store b last := by
  intro out err
  obtain ⟨nextOut, nextErr, hrun⟩ := h out err
  obtain ⟨lastOut, lastErr, hlast⟩ := hnext nextOut nextErr
  refine ⟨lastOut, lastErr, ?_⟩
  rw [ExceptT.run_bind, StateT.run_bind, hrun]
  exact hlast

theorem yields_say (line : String) (store : Store) : (say line).Yields store () store := by
  intro out err
  exact ⟨_, err, rfl⟩

theorem yields_complain (line : String) (store : Store)
    : (complain line).Yields store () store := by
  intro out err
  exact ⟨out, _, rfl⟩

theorem yields_forM {print : String → Job Unit}
    (h : ∀ line, (print line).Yields store () store) (lines : List String)
    : (lines.forM print).Yields store () store := by
  induction lines with
  | nil => exact yields_pure () store
  | cons line rest ih => exact (h line).bind ih

theorem yields_ofExcept {ε : Type} (f : ε → Failure) {x : Except ε α} {a : α} (h : x = .ok a)
    (store : Store)
    : (ofExcept f x).Yields store a store := by
  rw [h]
  exact yields_pure a store

/-- What a job does with the session that it finds. -/
theorem yields_get_bind {next : Session → Job β} {b : β}
    (h : ∀ out err, (next ⟨store, out, err⟩).Yields store b after)
    : (get >>= next).Yields store b after := by
  intro out err
  exact h out err out err

theorem yields_store (store after : Store)
    : Yields (modify fun session => { session with store := after }) store () after := by
  intro out err
  exact ⟨out, err, rfl⟩

theorem yields_parseSpec {text : String} {spec : FileSpec} (h : FileSpec.parse text = .ok spec)
    (store : Store)
    : (parseSpec text).Yields store spec store :=
  yields_ofExcept .file h store

theorem yields_readAll {spec : FileSpec} {data : Bytes} (h : store.read spec.path = .ok data)
    : (readAll spec).Yields store data store := by
  apply yields_get_bind
  intro out err
  apply yields_ofExcept
  rw [FileSpec.readAll, h]
  rfl

theorem yields_read {spec : FileSpec} {data : Bytes} (h : spec.read store = .ok data)
    : (read spec).Yields store data store := by
  apply yields_get_bind
  intro out err
  exact yields_ofExcept .file h store

theorem yields_writeTo {text : String} {spec : FileSpec} {data : Bytes} {count : Nat}
    (hparse : FileSpec.parse text = .ok spec)
    (hwrite : spec.target.write store data = .ok (after, count))
    : (writeTo text data).Yields store () after := by
  apply (yields_parseSpec hparse store).bind
  apply yields_get_bind
  intro out err
  apply (yields_ofExcept _ hwrite store).bind
  apply (yields_store store after).bind
  split
  . apply yields_say
  . apply yields_say

end Job

theorem runJob_of_yields {job : Job Bool} {isWhole : Bool} {store after : Store}
    (h : job.Yields store isWhole after)
    : (runJob store job).status = (if isWhole then 0 else 1) ∧
      (runJob store job).store = after := by
  have hwhole : Job.Yields (do Job.say About.banner; job) store isWhole after :=
    (Job.yields_say About.banner store).bind h
  obtain ⟨out, err, hrun⟩ := hwhole "" ""
  rw [StateT.run] at hrun
  rw [runJob, hrun]
  exact ⟨rfl, rfl⟩

end PpuCodec.CommandLine
