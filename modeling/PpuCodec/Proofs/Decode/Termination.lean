import PpuCodec.Decode
import PpuCodec.Proofs.Decode.Linked
import PpuCodec.Proofs.Decode.Outcome

/-!
A decode comes to an end, whatever the table. Only the first pass may leave the cursor where it is
or move it back. Every other one uses up input, so the input that the first one leaves bounds their
number.
-/

namespace PpuCodec

namespace Passes

variable {data : Bytes} {rules : List Rule} {cursor last : Cursor} {passes : List (List Firing)}

theorem length_add_remaining_le (h : Passes data rules cursor passes last)
    (hcursor : cursor.atStart = false)
    : passes.length + Run.remaining data last ≤ Run.remaining data cursor := by
  induction h with
  | none => simp
  | pass hlt hfired hpass _ ih =>
    obtain ⟨hnext, hmoves⟩ := Pass.next_of_eq hpass hfired
    have hposition := hmoves hcursor
    have hrest := ih hnext
    simp only [Run.remaining, List.length_cons] at hrest ⊢
    omega

end Passes

namespace Run

variable {data : Bytes} {rules : List Rule}

theorem Final.length_le {last : Cursor} {final : Run} (h : Final data rules last final)
    : final.passes.length ≤ 1 ∧ final.passes.length ≤ remaining data last := by
  cases h with
  | exhausted _ => simp
  | ended hlt _ =>
    simp only [remaining, List.length_singleton]
    omega
  | stuck hlt _ =>
    simp only [remaining, List.length_singleton]
    omega

theorem length_passes_le (data : Bytes) (rules : List Rule) (cursor : Cursor)
    : (ofCursor data rules cursor).passes.length
        ≤ 1 + remaining data (Pass.ofRules data 0 rules cursor).cursor := by
  obtain ⟨passes, last, final, hpasses, hfinal, hrun⟩ := exists_final data rules cursor
  rw [hrun]
  simp only [after, List.length_append]
  obtain ⟨hone, hleft⟩ := hfinal.length_le
  cases hpasses with
  | none =>
    rw [List.length_nil]
    omega
  | pass _ hfired hpass hrest =>
    have := hrest.length_add_remaining_le (Pass.next_of_eq hpass hfired).1
    rw [hpass, List.length_cons]
    dsimp only
    omega

/-- After the first pass, one that does not use up input is the last. -/
theorem position_lt_or_eq {offset : Int} {passes : List (List Firing)} {last : Cursor} {pass : Pass}
    (h : Passes data rules (start offset) passes last) (hpasses : passes ≠ [])
    (hlt : last.position < data.size) (hpass : Pass.ofRules data 0 rules last = pass)
    : last.position < pass.cursor.position ∨
      ∃ ending, ofRules rules data offset = ⟨passes ++ [pass.fired], pass.cursor, ending⟩ := by
  have hrun : ofRules rules data offset = (ofCursor data rules last).after passes := h.ofCursor_eq
  match pass with
  | ⟨fired, next, some ending⟩ =>
    refine .inr ⟨ending, ?_⟩
    rw [hrun, ofCursor]
    rw [go_of_ending hlt hpass]
    rfl
  | ⟨[], next, none⟩ =>
    refine .inr ⟨.stuck, ?_⟩
    rw [hrun, ofCursor]
    rw [go_of_stuck hlt hpass]
    rfl
  | ⟨firing :: fired, next, none⟩ =>
    exact .inl ((Pass.next_of_eq hpass (by simp)).2 (h.atStart_eq_false hpasses))

/-- Rules for the start of a decode are at most the first to apply, also if a rule fails. -/
theorem startOnly_of_mem_uses_tail (data : Bytes) (rules : List Rule) (offset : Int)
    : ∀ use ∈ (ofRules rules data offset).uses.tail, use.2.1.startOnly = false := by
  have hlinked := linked rules data offset
  have hof := of_mem_fired rules data offset
  have hfails := @failsAt rules data offset
  generalize ofRules rules data offset = run at hlinked hof hfails
  have hreject : ∀ {rule : Rule} {look : Lookahead},
      rule.accepts look false = true → rule.startOnly = false := by
    intro rule look haccepts
    simp only [Rule.accepts, Bool.or_false, Bool.and_eq_true, Bool.not_eq_true'] at haccepts
    exact haccepts.1
  intro use huse
  cases hfired : run.fired with
  | nil =>
    -- Nothing has applied before the rule that failed, if there is one.
    simp only [uses, hfired, List.map_nil, List.nil_append] at huse
    split at huse
    . simp at huse
    . simp at huse
  | cons first fired =>
    rw [hfired] at hlinked hof
    simp only [uses, hfired, List.map_cons, List.cons_append, List.tail_cons] at huse
    cases List.mem_append.mp huse with
    | inl hbefore =>
      obtain ⟨firing, hmem, heq⟩ := List.mem_map.mp hbefore
      rw [← heq]
      have haccepts := (hof firing (by simp [hmem])).accepts
      rw [hlinked.atStart_tail firing hmem] at haccepts
      exact hreject haccepts
    | inr hlast =>
      split at hlast
      . next index rule fault hending =>
        rw [List.mem_singleton.mp hlast]
        have haccepts := (hfails hending).accepts
        rw [hlinked.atStart_last (by simp)] at haccepts
        exact hreject haccepts
      . simp at hlast

end Run

namespace Format

/-- A decode stops. It is made of finitely many passes, of which each after the first uses up input
or is the last, and the first leaves room for no more of them than bytes. -/
theorem run_stops (format : Format) (data : Bytes) (offset : Nat) (fill : UInt8)
    : let rules := format.rules
      let run := format.run data offset
      let first := Pass.ofRules data 0 rules (Run.start offset)
      format.decode data offset fill.toNat = format.outcome data fill run ∧
      (∃ passes last final,
        Passes data rules (Run.start offset) passes last ∧
        Run.Final data rules last final ∧
        run = final.after passes) ∧
      (∀ use ∈ run.uses.tail, use.2.1.startOnly = false) ∧
      (∀ passes last, Passes data rules (Run.start offset) passes last →
        passes ≠ [] → last.position < data.size →
          let pass := Pass.ofRules data 0 rules last
          last.position < pass.cursor.position ∨
          ∃ ending, run = ⟨passes ++ [pass.fired], pass.cursor, ending⟩) ∧
      run.passes.length ≤ 1 + (data.size - first.cursor.position).toNat := by
  intro rules run first
  refine ⟨format.decode_eq_outcome data (by omega) fill, Run.exists_passes rules data offset,
    Run.startOnly_of_mem_uses_tail data rules offset, ?_, Run.length_passes_le data rules _⟩
  intro passes last hpasses hne hlt
  exact Run.position_lt_or_eq hpasses hne hlt rfl

end Format

end PpuCodec
