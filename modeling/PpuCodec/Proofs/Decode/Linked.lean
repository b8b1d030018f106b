import PpuCodec.Proofs.Decode.Passes
import PpuCodec.Proofs.Decode.Scan

/-!
The rules that apply in a run stand in a row: each begins where the one before it left the cursor.
A run is a chain of passes that leave it open, and a last one that does not or is not made.
-/

namespace PpuCodec

/-- Firings that lead from one cursor to another. -/
def Linked (cursor : Cursor) : List Firing → Cursor → Prop
  | [], last => cursor = last
  | firing :: fired, last => firing.cursor = cursor ∧ Linked firing.next fired last

namespace Linked

variable {cursor next last : Cursor} {firing : Firing} {fired : List Firing}

theorem append {xs ys : List Firing} (hx : Linked cursor xs next) (hy : Linked next ys last)
    : Linked cursor (xs ++ ys) last := by
  induction xs generalizing cursor with
  | nil =>
    rw [Linked] at hx
    rw [hx]
    exact hy
  | cons firing xs ih =>
    constructor
    . exact hx.1
    . exact ih hx.2

theorem atStart_eq_false (h : Linked cursor fired last) (hcursor : cursor.atStart = false)
    : (∀ firing ∈ fired, firing.cursor.atStart = false) ∧ last.atStart = false := by
  induction fired generalizing cursor with
  | nil =>
    rw [Linked] at h
    rw [← h]
    exact ⟨by simp, hcursor⟩
  | cons firing fired ih =>
    obtain ⟨hfirst, hrest⟩ := h
    obtain ⟨hfired, hlast⟩ := ih hrest rfl
    refine ⟨?_, hlast⟩
    intro other hmem
    cases List.mem_cons.mp hmem with
    | inl heq =>
      rw [heq, hfirst]
      exact hcursor
    | inr hother => exact hfired other hother

/-- Only the first of the firings can stand at the start of a decode. -/
theorem atStart_tail (h : Linked cursor fired last)
    : ∀ firing ∈ fired.tail, firing.cursor.atStart = false := by
  cases fired with
  | nil => simp
  | cons firing fired => exact (atStart_eq_false h.2 rfl).1

theorem atStart_last (h : Linked cursor fired last) (hfired : fired ≠ [])
    : last.atStart = false := by
  cases fired with
  | nil => exact absurd rfl hfired
  | cons firing fired => exact (atStart_eq_false h.2 rfl).2

end Linked

/-- The firing is what a rule of the table comes to where it stands. -/
structure Firing.Of (data : Bytes) (rules : List Rule) (firing : Firing) : Prop where
  getElem? : rules[firing.index]? = some firing.rule
  accepts : firing.rule.accepts (data.lookahead firing.cursor.position) firing.cursor.atStart = true
  fire : firing.rule.fire firing.index data firing.cursor = .ok firing

/-- A rule of the table that applies at the cursor, but fails. -/
structure Rule.FailsAt (rule : Rule) (data : Bytes) (rules : List Rule) (index : Nat)
    (cursor : Cursor) (fault : Fault) : Prop where
  mem : rule ∈ rules
  accepts : rule.accepts (data.lookahead cursor.position) cursor.atStart = true
  fire : rule.fire index data cursor = .error fault

theorem Rule.FirstAt.of_fire {data : Bytes} {rules : List Rule} {top index : Nat} {cursor : Cursor}
    {rule : Rule} {firing : Firing}
    (h : Rule.FirstAt (rules.drop top) (data.lookahead cursor.position) cursor.atStart index rule)
    (hfire : rule.fire (top + index) data cursor = .ok firing)
    : firing.Of data rules := by
  obtain ⟨size, step, effect, -, -, -, -, heq⟩ := Rule.exists_of_fire_eq_ok hfire
  subst heq
  constructor
  . rw [← List.getElem?_drop]
    exact h.getElem?
  . exact h.accepts
  . exact hfire

namespace Scan

variable {data : Bytes} {rules : List Rule} {top : Nat} {cursor : Cursor} {pass : Pass}

theorem linked (h : Scan data rules top cursor pass) : Linked cursor pass.fired pass.cursor := by
  induction h with
  | runsOut _ => rfl
  | fails _ _ => rfl
  | ends _ hfire _ => exact ⟨(Rule.fire_eq_ok hfire).1, rfl⟩
  | breaks _ hfire _ _ => exact ⟨(Rule.fire_eq_ok hfire).1, rfl⟩
  | goesOn _ hfire _ _ _ ih => exact ⟨(Rule.fire_eq_ok hfire).1, ih⟩

theorem of_mem_fired (h : Scan data rules top cursor pass)
    : ∀ firing ∈ pass.fired, firing.Of data rules := by
  induction h with
  | runsOut _ => simp
  | fails _ _ => simp
  | ends hfirst hfire _ => simpa using hfirst.of_fire hfire
  | breaks hfirst hfire _ _ => simpa using hfirst.of_fire hfire
  | goesOn hfirst hfire _ _ _ ih => simpa [Pass.after] using ⟨hfirst.of_fire hfire, ih⟩

theorem finishes_of_mem_fired (h : Scan data rules top cursor pass) (hending : pass.ending = none)
    : ∀ firing ∈ pass.fired, firing.effect.finishes = false := by
  induction h with
  | runsOut _ => simp
  | fails _ _ => simp at hending
  | ends _ _ _ => simp at hending
  | breaks _ _ hopen _ => simpa using hopen
  | goesOn _ _ hopen _ _ ih => simpa [Pass.after, hopen] using ih hending

theorem ending_of_finishes (h : Scan data rules top cursor pass) {firing : Firing}
    (hmem : firing ∈ pass.fired) (hfinishes : firing.effect.finishes = true)
    : pass.ending = some .complete := by
  induction h with
  | runsOut _ => simp at hmem
  | fails _ _ => simp at hmem
  | ends _ _ _ => rfl
  | breaks _ _ hopen _ =>
    rw [List.mem_singleton] at hmem
    simp [← hmem, hfinishes] at hopen
  | goesOn _ _ hopen _ _ ih =>
    cases List.mem_cons.mp hmem with
    | inl heq => simp [← heq, hfinishes] at hopen
    | inr hbelow => exact ih hbelow

theorem failsAt (h : Scan data rules top cursor pass) {index : Nat} {rule : Rule}
    {fault : Fault} (hending : pass.ending = some (.failed index rule fault))
    : rule.FailsAt data rules index pass.cursor fault := by
  induction h with
  | runsOut _ => simp at hending
  | fails hfirst hfire =>
    simp only [Option.some.injEq, Ending.failed.injEq] at hending
    obtain ⟨hindex, hrule, hfault⟩ := hending
    rw [← hindex, ← hrule, ← hfault]
    exact ⟨hfirst.mem, hfirst.accepts, hfire⟩
  | ends _ _ _ => simp at hending
  | breaks _ _ _ _ => simp at hending
  | goesOn _ _ _ _ _ ih => exact ih hending

end Scan

theorem Pass.next_of_eq {data : Bytes} {rules : List Rule} {cursor next : Cursor}
    {fired : List Firing} (hpass : Pass.ofRules data 0 rules cursor = ⟨fired, next, none⟩)
    (hfired : fired ≠ [])
    : next.atStart = false ∧ (cursor.atStart = false → cursor.position < next.position) := by
  have := Pass.ofRules_of_ending_eq_none (congrArg Pass.ending hpass)
  rw [hpass] at this
  simpa [hfired] using this

namespace Run

/-- How a run ends that has come to `last`. The passes are those that are still made. -/
inductive Final (data : Bytes) (rules : List Rule) (last : Cursor) : Run → Prop where
  | exhausted (hle : data.size ≤ last.position) : Final data rules last ⟨[], last, .complete⟩
  | ended {fired : List Firing} {next : Cursor} {ending : Ending}
      (hlt : last.position < data.size)
      (hpass : Pass.ofRules data 0 rules last = ⟨fired, next, some ending⟩)
      : Final data rules last ⟨[fired], next, ending⟩
  | stuck (hlt : last.position < data.size)
      (hpass : Pass.ofRules data 0 rules last = ⟨[], last, none⟩)
      : Final data rules last ⟨[[]], last, .stuck⟩

/-- However the cursor stands, finitely many passes lead to one from which the run ends. -/
theorem exists_final (data : Bytes) (rules : List Rule) (cursor : Cursor)
    : ∃ passes last final,
        Passes data rules cursor passes last ∧
        Final data rules last final ∧
        ofCursor data rules cursor = final.after passes := by
  by_cases hlt : cursor.position < data.size
  . generalize hpass : Pass.ofRules data 0 rules cursor = pass
    match pass with
    | ⟨fired, next, some ending⟩ =>
      refine ⟨[], cursor, _, .none, .ended hlt hpass, ?_⟩
      rw [ofCursor]
      rw [go_of_ending hlt hpass]
      simp [after]
    | ⟨[], next, none⟩ =>
      have hnext : next = cursor := (Pass.scan_of_eq hpass).linked.symm
      rw [hnext] at hpass
      refine ⟨[], cursor, _, .none, .stuck hlt hpass, ?_⟩
      rw [ofCursor]
      rw [go_of_stuck hlt hpass]
      simp [after]
    | ⟨firing :: fired, next, none⟩ =>
      have : bound data rules next < bound data rules cursor := by
        have := bound_lt hlt (by rw [hpass]) (by simp [hpass])
        rwa [hpass] at this
      obtain ⟨passes, last, final, hpasses, hfinal, hrun⟩ := exists_final data rules next
      refine ⟨_, last, final, .pass hlt (by simp) hpass hpasses, hfinal, ?_⟩
      rw [ofCursor_of_open hlt (by simp) hpass]
      rw [hrun]
      simp [after]
  . have hle : data.size ≤ cursor.position := by omega
    refine ⟨[], cursor, _, .none, .exhausted hle, ?_⟩
    rw [ofCursor]
    rw [go_of_size_le hle]
    simp [after]
termination_by bound data rules cursor

end Run

namespace Passes

variable {data : Bytes} {rules : List Rule} {cursor last : Cursor} {passes : List (List Firing)}

theorem linked (h : Passes data rules cursor passes last)
    : Linked cursor passes.flatten last := by
  induction h with
  | none => rfl
  | pass _ _ hpass _ ih => exact (Pass.scan_of_eq hpass).linked.append ih

theorem of_mem_fired (h : Passes data rules cursor passes last)
    : ∀ firing ∈ passes.flatten, firing.Of data rules := by
  induction h with
  | none => simp
  | pass _ _ hpass _ ih =>
    intro firing hmem
    rw [List.flatten_cons] at hmem
    cases List.mem_append.mp hmem with
    | inl hfirst => exact (Pass.scan_of_eq hpass).of_mem_fired firing hfirst
    | inr hrest => exact ih firing hrest

theorem finishes_of_mem_fired (h : Passes data rules cursor passes last)
    : ∀ firing ∈ passes.flatten, firing.effect.finishes = false := by
  induction h with
  | none => simp
  | pass _ _ hpass _ ih =>
    intro firing hmem
    rw [List.flatten_cons] at hmem
    cases List.mem_append.mp hmem with
    | inl hfirst => exact (Pass.scan_of_eq hpass).finishes_of_mem_fired rfl firing hfirst
    | inr hrest => exact ih firing hrest

theorem atStart_eq_false (h : Passes data rules cursor passes last) (hpasses : passes ≠ [])
    : last.atStart = false := by
  apply h.linked.atStart_last
  cases h with
  | none => exact absurd rfl hpasses
  | pass _ hfired _ _ => simp [hfired]

end Passes

namespace Run

variable {data : Bytes} {rules : List Rule} {last : Cursor} {final : Run}

namespace Final

theorem linked (h : Final data rules last final) : Linked last final.fired final.cursor := by
  cases h with
  | exhausted _ => rfl
  | ended _ hpass => simpa [fired] using (Pass.scan_of_eq hpass).linked
  | stuck _ _ => rfl

theorem of_mem_fired (h : Final data rules last final)
    : ∀ firing ∈ final.fired, firing.Of data rules := by
  cases h with
  | exhausted _ => simp [fired]
  | ended _ hpass => simpa [fired] using (Pass.scan_of_eq hpass).of_mem_fired
  | stuck _ _ => simp [fired]

theorem failsAt (h : Final data rules last final) {index : Nat} {rule : Rule}
    {fault : Fault} (hending : final.ending = .failed index rule fault)
    : rule.FailsAt data rules index final.cursor fault := by
  cases h with
  | exhausted _ => simp at hending
  | ended _ hpass => exact (Pass.scan_of_eq hpass).failsAt (congrArg some hending)
  | stuck _ _ => simp at hending

end Final

variable (rules : List Rule) (data : Bytes) (offset : Int)

theorem exists_passes
    : ∃ passes last final,
        Passes data rules (start offset) passes last ∧
        Final data rules last final ∧
        ofRules rules data offset = final.after passes := by
  exact exists_final data rules (start offset)

theorem linked : Linked (start offset) (ofRules rules data offset).fired
    (ofRules rules data offset).cursor := by
  obtain ⟨passes, last, final, hpasses, hfinal, hrun⟩ := exists_passes rules data offset
  rw [hrun]
  simpa [fired, after] using hpasses.linked.append hfinal.linked

theorem of_mem_fired : ∀ firing ∈ (ofRules rules data offset).fired, firing.Of data rules := by
  obtain ⟨passes, last, final, hpasses, hfinal, hrun⟩ := exists_passes rules data offset
  rw [hrun]
  intro firing hmem
  simp only [fired, after, List.flatten_append] at hmem
  cases List.mem_append.mp hmem with
  | inl hbefore => exact hpasses.of_mem_fired firing hbefore
  | inr hlast => exact hfinal.of_mem_fired firing hlast

theorem failsAt {index : Nat} {rule : Rule} {fault : Fault}
    (h : (ofRules rules data offset).ending = .failed index rule fault)
    : rule.FailsAt data rules index (ofRules rules data offset).cursor fault := by
  obtain ⟨passes, last, final, hpasses, hfinal, hrun⟩ := exists_passes rules data offset
  rw [hrun] at h ⊢
  exact hfinal.failsAt h

end Run

end PpuCodec
