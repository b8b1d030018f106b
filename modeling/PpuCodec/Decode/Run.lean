import PpuCodec.Decode.Firing

/-!
Running a table of rules over an input. The table is gone through in passes: a pass looks for the
first rule that applies, and goes on below it if the rule says so. The run ends when the input is
used up, when a rule ends it, when no rule applies, or when a rule fails.

A run records the rules that applied. What was written follows from it, and so do all counts.
-/

namespace PpuCodec

inductive Ending where
  | complete
  | stuck
  | failed (index : Nat) (rule : Rule) (fault : Fault)
deriving Repr, DecidableEq

/-- What one pass over the table comes to; without an `ending` the run goes on at `cursor`. -/
structure Pass where
  fired : List Firing
  cursor : Cursor
  ending : Option Ending
deriving Repr, DecidableEq

def Pass.after (firing : Firing) (pass : Pass) : Pass :=
  { pass with fired := firing :: pass.fired }

def Pass.ofRules (data : Bytes) (index : Nat) (rules : List Rule) (cursor : Cursor) : Pass :=
  match rules with
  | [] => ⟨[], cursor, none⟩
  | rule :: below =>
    if rule.accepts (data.lookahead cursor.position) cursor.atStart then
      match rule.fire index data cursor with
      | .error fault => ⟨[], cursor, some (.failed index rule fault)⟩
      | .ok firing =>
        if firing.effect.finishes then ⟨[firing], firing.next, some .complete⟩
        else if rule.continues then (ofRules data (index + 1) below firing.next).after firing
        else ⟨[firing], firing.next, none⟩
    else
      ofRules data (index + 1) below cursor

namespace Rule

theorem effect_of_stop {rule : Rule} (h : rule.kind = .stop) (data : Bytes) (cursor : Cursor)
    (step : Int) : rule.effect data cursor step = .ok .stop := by
  cases ha : rule.action <;> simp_all [kind, Action.kind, effect, pure, Except.pure]

theorem fire_eq_ok {rule : Rule} {index : Nat} {data : Bytes} {cursor : Cursor} {firing : Firing}
    (h : rule.fire index data cursor = .ok firing) :
    firing.cursor = cursor ∧ firing.rule = rule ∧ (rule.mayStay = false → 0 < firing.size) ∧
      (rule.kind = .stop → firing.effect = .stop) := by
  simp only [fire, bind, Except.bind, throw, throwThe, MonadExceptOf.throw, pure,
    Except.pure] at h
  repeat' split at h
  all_goals simp only [reduceCtorEq, Except.ok.injEq] at h
  subst h
  refine ⟨rfl, rfl, by grind, fun hk => ?_⟩
  simp_all [effect_of_stop]

theorem size_pos_of_fire {rule : Rule} {index : Nat} {data : Bytes} {cursor : Cursor}
    {firing : Firing} (h : rule.fire index data cursor = .ok firing)
    (haccepts : rule.accepts (data.lookahead cursor.position) false)
    (hfinishes : firing.effect.finishes = false) : 0 < firing.size := by
  obtain ⟨-, -, hsize, hstop⟩ := fire_eq_ok h
  apply hsize
  have hstart : rule.startOnly = false := by
    simp [accepts] at haccepts
    exact haccepts.1
  have hkind : rule.kind ≠ .stop := fun hk => by
    simp [hstop hk, Effect.finishes] at hfinishes
  simp [mayStay, hstart, hkind]

end Rule

theorem Firing.position_next_lt {rule : Rule} {index : Nat} {data : Bytes} {cursor : Cursor}
    {firing : Firing} (h : rule.fire index data cursor = .ok firing)
    (haccepts : rule.accepts (data.lookahead cursor.position) cursor.atStart)
    (hstart : cursor.atStart = false) (hfinishes : firing.effect.finishes = false) :
    cursor.position < firing.next.position := by
  rw [hstart] at haccepts
  have := Rule.size_pos_of_fire h haccepts hfinishes
  simp only [next, (Rule.fire_eq_ok h).1]
  omega

namespace Pass

/-- A pass that leaves the run open has either not moved, or it has used up input. -/
theorem ofRules_of_ending_eq_none {data : Bytes} {index : Nat} {rules : List Rule}
    {cursor : Cursor} (h : (ofRules data index rules cursor).ending = none) :
    ((ofRules data index rules cursor).fired = [] ∧
      (ofRules data index rules cursor).cursor = cursor) ∨
    ((ofRules data index rules cursor).fired ≠ [] ∧
      (ofRules data index rules cursor).cursor.atStart = false ∧
      (cursor.atStart = false →
        cursor.position < (ofRules data index rules cursor).cursor.position)) := by
  fun_induction ofRules data index rules cursor with
  | case1 => simp
  | case2 => simp at h
  | case3 => simp at h
  | case4 index cursor rule below haccepts firing hfire hfinishes hcontinues ih =>
    refine .inr ⟨by simp [after], ?_⟩
    have hlt := Firing.position_next_lt hfire haccepts
    rcases ih h with ⟨-, hcursor⟩ | ⟨-, hstart, hnext⟩
    · simp only [after, hcursor]
      exact ⟨rfl, fun hs => hlt hs (by simpa using hfinishes)⟩
    · exact ⟨hstart, fun hs => Int.lt_trans (hlt hs (by simpa using hfinishes)) (hnext rfl)⟩
  | case5 index cursor rule below haccepts firing hfire hfinishes hcontinues =>
    refine .inr ⟨by simp, rfl, fun hs => ?_⟩
    exact Firing.position_next_lt hfire haccepts hs (by simpa using hfinishes)
  | case6 index cursor rule below haccepts ih => exact ih h

end Pass

structure Run where
  passes : List (List Firing)
  /-- Where the run ended, or the cursor at which no rule applied or one failed. -/
  cursor : Cursor
  ending : Ending
deriving Repr, DecidableEq

namespace Run

def remaining (data : Bytes) (cursor : Cursor) : Nat :=
  (data.size - cursor.position).toNat

/-- A bound on the passes from the cursor on. The first pass may move the cursor back. -/
def bound (data : Bytes) (rules : List Rule) (cursor : Cursor) : Nat :=
  if cursor.atStart then remaining data (Pass.ofRules data 0 rules cursor).cursor + 1
  else remaining data cursor

theorem bound_lt {data : Bytes} {rules : List Rule} {cursor : Cursor}
    (hposition : cursor.position < data.size)
    (hending : (Pass.ofRules data 0 rules cursor).ending = none)
    (hfired : (Pass.ofRules data 0 rules cursor).fired ≠ []) :
    bound data rules (Pass.ofRules data 0 rules cursor).cursor < bound data rules cursor := by
  rcases Pass.ofRules_of_ending_eq_none hending with ⟨h, -⟩ | ⟨-, hstart, hlt⟩
  · exact absurd h hfired
  · cases hs : cursor.atStart with
    | true => simp [bound, hs, hstart]
    | false =>
      have := hlt hs
      simp only [bound, hstart, hs, Bool.false_eq_true, if_false, remaining]
      omega

/-- Makes passes until the run ends; `done` are the passes already made. -/
def go (data : Bytes) (rules : List Rule) (cursor : Cursor) (done : Array (List Firing)) : Run :=
  if cursor.position < data.size then
    match _hpass : Pass.ofRules data 0 rules cursor with
    | ⟨fired, next, some ending⟩ => ⟨(done.push fired).toList, next, ending⟩
    | ⟨[], next, none⟩ => ⟨(done.push []).toList, next, .stuck⟩
    | ⟨firing :: fired, next, none⟩ => go data rules next (done.push (firing :: fired))
  else
    ⟨done.toList, cursor, .complete⟩
termination_by bound data rules cursor
decreasing_by
  have := bound_lt (by assumption) (by rw [_hpass]) (by simp [_hpass])
  rwa [_hpass] at this

def start (offset : Int) : Cursor where
  position := offset
  address := Image.defaultAddress
  atStart := true

def ofRules (rules : List Rule) (data : Bytes) (offset : Int) : Run :=
  go data rules (start offset) #[]

def fired (run : Run) : List Firing :=
  run.passes.flatten

def image (run : Run) (fill : UInt8) : Image :=
  run.fired.foldl (fun image firing => firing.effect.apply image) (.blank fill)

end Run

end PpuCodec
