import PpuCodec.Decode.Run

/-!
A run as a chain of passes. A pass that leaves the run open leads from one cursor to the next, and
the run goes on from there as if it had begun there.
-/

namespace PpuCodec

namespace Run

section

variable {data : Bytes} {rules : List Rule} {cursor next : Cursor} {fired : List Firing}

theorem go_of_ending {ending : Ending} (hlt : cursor.position < data.size)
    (hpass : Pass.ofRules data 0 rules cursor = ⟨fired, next, some ending⟩)
    (done : Array (List Firing))
    : go data rules cursor done = ⟨done.toList ++ [fired], next, ending⟩ := by
  unfold go
  rw [if_pos hlt]
  split
  . simp_all
  . simp_all
  . simp_all

theorem go_of_stuck (hlt : cursor.position < data.size)
    (hpass : Pass.ofRules data 0 rules cursor = ⟨[], next, none⟩) (done : Array (List Firing))
    : go data rules cursor done = ⟨done.toList ++ [[]], next, .stuck⟩ := by
  unfold go
  rw [if_pos hlt]
  split
  . simp_all
  . simp_all
  . simp_all

theorem go_of_open {firing : Firing} (hlt : cursor.position < data.size)
    (hpass : Pass.ofRules data 0 rules cursor = ⟨firing :: fired, next, none⟩)
    (done : Array (List Firing))
    : go data rules cursor done = go data rules next (done.push (firing :: fired)) := by
  rw [go]
  rw [if_pos hlt]
  split
  . simp_all
  . simp_all
  . simp_all

theorem go_of_size_le (hle : data.size ≤ cursor.position) (done : Array (List Firing))
    : go data rules cursor done = ⟨done.toList, cursor, .complete⟩ := by
  have : ¬ cursor.position < data.size := by omega
  unfold go
  rw [if_neg this]

end

def ofCursor (data : Bytes) (rules : List Rule) (cursor : Cursor) : Run :=
  go data rules cursor #[]

def after (passes : List (List Firing)) (run : Run) : Run :=
  { run with passes := passes ++ run.passes }

theorem go_eq_after (data : Bytes) (rules : List Rule) (cursor : Cursor)
    (done : Array (List Firing))
    : go data rules cursor done = (ofCursor data rules cursor).after done.toList := by
  unfold ofCursor
  -- The passes already made stay in front, so this follows the recursion of `go` on both sides.
  by_cases hlt : cursor.position < data.size
  . generalize hpass : Pass.ofRules data 0 rules cursor = pass
    match pass with
    | ⟨fired, next, some ending⟩ =>
      rw [go_of_ending hlt hpass, go_of_ending hlt hpass]
      simp [after]
    | ⟨[], next, none⟩ =>
      rw [go_of_stuck hlt hpass, go_of_stuck hlt hpass]
      simp [after]
    | ⟨firing :: fired, next, none⟩ =>
      have : bound data rules next < bound data rules cursor := by
        have := bound_lt hlt (by rw [hpass]) (by simp [hpass])
        rwa [hpass] at this
      rw [go_of_open hlt hpass, go_of_open hlt hpass]
      rw [go_eq_after data rules next (done.push _), go_eq_after data rules next (#[].push _)]
      simp [after]
  . have hle : data.size ≤ cursor.position := by omega
    rw [go_of_size_le hle, go_of_size_le hle]
    simp [after]
termination_by bound data rules cursor

theorem ofCursor_of_open {data : Bytes} {rules : List Rule} {cursor next : Cursor}
    {fired : List Firing} (hlt : cursor.position < data.size) (hfired : fired ≠ [])
    (hpass : Pass.ofRules data 0 rules cursor = ⟨fired, next, none⟩)
    : ofCursor data rules cursor = (ofCursor data rules next).after [fired] := by
  match fired with
  | firing :: fired =>
    rw [ofCursor]
    rw [go_of_open hlt hpass]
    rw [go_eq_after]
    simp

end Run

/-- Passes that leave the run open lead from one cursor to another. -/
inductive Passes (data : Bytes) (rules : List Rule)
    : Cursor → List (List Firing) → Cursor → Prop where
  | none {cursor : Cursor} : Passes data rules cursor [] cursor
  | pass {cursor next last : Cursor} {fired : List Firing} {passes : List (List Firing)}
      (hlt : cursor.position < data.size) (hfired : fired ≠ [])
      (hpass : Pass.ofRules data 0 rules cursor = ⟨fired, next, .none⟩)
      (rest : Passes data rules next passes last)
      : Passes data rules cursor (fired :: passes) last

namespace Passes

variable {data : Bytes} {rules : List Rule} {cursor next last : Cursor}

theorem trans {xs ys : List (List Firing)} (hx : Passes data rules cursor xs next)
    (hy : Passes data rules next ys last)
    : Passes data rules cursor (xs ++ ys) last := by
  induction hx with
  | none => exact hy
  | pass hlt hfired hpass _ ih => exact .pass hlt hfired hpass (ih hy)

theorem ofCursor_eq {passes : List (List Firing)} (h : Passes data rules cursor passes last)
    : Run.ofCursor data rules cursor = (Run.ofCursor data rules last).after passes := by
  induction h with
  | none => simp [Run.after]
  | pass hlt hfired hpass _ ih =>
    rw [Run.ofCursor_of_open hlt hfired hpass]
    rw [ih]
    simp [Run.after]

end Passes

end PpuCodec
