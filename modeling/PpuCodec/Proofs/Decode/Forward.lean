import PpuCodec.Proofs.Decode.Linked
import PpuCodec.Proofs.Rule.SelfContained

/-!
Runs over a table of rules that get by with the bytes that they use up. The cursor never moves back,
no rule fails, and a run that gets stuck does so at a place where the table has a gap.
-/

namespace PpuCodec

theorem Bytes.readsAt_drop (data : Bytes) {position : Int} (h : 0 ≤ position)
    : data.ReadsAt position (data.toList.drop position.toNat) := by
  exact ⟨h, rfl⟩

theorem Bytes.lookahead_eq_lookaheadOf (data : Bytes) {position : Int} (h : 0 ≤ position)
    : data.lookahead position = lookaheadOf (data.toList.drop position.toNat) := by
  exact (data.readsAt_drop h).lookahead_eq

theorem Bytes.lookahead_prepend (before data : Bytes) {position : Int} (h : 0 ≤ position)
    : Bytes.lookahead (before ++ data) (position + before.size) = data.lookahead position := by
  have hreads := data.readsAt_drop h
  rw [hreads.lookahead_eq, (hreads.prepend before).lookahead_eq]

variable {data : Bytes} {rules : List Rule}

theorem Firing.Of.spends {firing : Firing} (h : firing.Of data rules)
    (hrules : ∀ rule ∈ rules, rule.SelfContained) (hposition : 0 ≤ firing.cursor.position)
    : firing.rule.Spends (data.lookahead firing.cursor.position) firing.size := by
  have hself := hrules firing.rule (List.mem_of_getElem? h.getElem?)
  have haccepts := h.accepts
  rw [data.lookahead_eq_lookaheadOf hposition] at haccepts ⊢
  exact hself.spends_of_fire (data.readsAt_drop hposition) haccepts h.fire

theorem Linked.position_le {cursor last : Cursor} {fired : List Firing}
    (h : Linked cursor fired last) (hof : ∀ firing ∈ fired, firing.Of data rules)
    (hrules : ∀ rule ∈ rules, rule.SelfContained) (hposition : 0 ≤ cursor.position)
    : cursor.position ≤ last.position ∧
      ∀ firing ∈ fired, cursor.position ≤ firing.cursor.position := by
  induction fired generalizing cursor with
  | nil =>
    rw [Linked] at h
    simp [h]
  | cons firing fired ih =>
    obtain ⟨hcursor, hrest⟩ := h
    have hspends := (hof firing (by simp)).spends hrules (by rw [hcursor]; exact hposition)
    have hnext : cursor.position ≤ firing.next.position := by
      have := hspends.size_nonneg
      simp only [Firing.next, hcursor]
      omega
    obtain ⟨hlast, hfired⟩ := ih hrest (fun other hmem => hof other (by simp [hmem])) (by omega)
    constructor
    . omega
    . intro other hmem
      cases List.mem_cons.mp hmem with
      | inl heq => simp [heq, hcursor]
      | inr hother =>
        have := hfired other hother
        omega

theorem Rule.FirstAt.position_le {rule : Rule} {top index : Nat} {cursor : Cursor} {firing : Firing}
    (h : FirstAt (rules.drop top) (data.lookahead cursor.position) cursor.atStart index rule)
    (hfire : rule.fire (top + index) data cursor = .ok firing)
    (hrules : ∀ rule ∈ rules, rule.SelfContained) (hposition : 0 ≤ cursor.position)
    : cursor.position ≤ firing.next.position := by
  have hlinked : Linked cursor [firing] firing.next := ⟨(fire_eq_ok hfire).1, rfl⟩
  exact (hlinked.position_le (by simpa using h.of_fire hfire) hrules hposition).1

theorem Scan.position_le {top : Nat} {cursor : Cursor} {pass : Pass}
    (h : Scan data rules top cursor pass) (hrules : ∀ rule ∈ rules, rule.SelfContained)
    (hposition : 0 ≤ cursor.position)
    : cursor.position ≤ pass.cursor.position := by
  exact (h.linked.position_le h.of_mem_fired hrules hposition).1

theorem Scan.ending_ne_stuck {top : Nat} {cursor : Cursor} {pass : Pass}
    (h : Scan data rules top cursor pass)
    : pass.ending ≠ some .stuck := by
  induction h with
  | runsOut _ => simp
  | fails _ _ => simp
  | ends _ _ _ => simp
  | breaks _ _ _ _ => simp
  | goesOn _ _ _ _ _ ih => exact ih

theorem Scan.rejects_of_eq_nil {top : Nat} {cursor : Cursor} {pass : Pass}
    (h : Scan data rules top cursor pass) (hfired : pass.fired = []) (hending : pass.ending = none)
    : ∀ rule ∈ rules.drop top,
        rule.accepts (data.lookahead cursor.position) cursor.atStart = false := by
  cases h with
  | runsOut hrejects => exact hrejects
  | fails _ _ => simp at hending
  | ends _ _ _ => simp at hfired
  | breaks _ _ _ _ => simp at hfired
  | goesOn _ _ _ _ _ => simp [Pass.after] at hfired

namespace Run

/-- A run that is stuck is one that has made passes, and comes to where no rule applies. -/
theorem exists_passes_of_stuck {offset : Int} (h : (ofRules rules data offset).ending = .stuck)
    : ∃ passes last,
        Passes data rules (start offset) passes last ∧
        last.position < data.size ∧
        (∀ rule ∈ rules, rule.accepts (data.lookahead last.position) last.atStart = false) ∧
        ofRules rules data offset = ⟨passes ++ [[]], last, .stuck⟩ := by
  obtain ⟨passes, last, final, hpasses, hfinal, hrun⟩ := exists_passes rules data offset
  rw [hrun] at h ⊢
  cases hfinal with
  | exhausted _ => simp [after] at h
  | ended _ hpass =>
    rw [after] at h
    dsimp only at h
    rw [h] at hpass
    exact absurd rfl (Pass.scan_of_eq hpass).ending_ne_stuck
  | stuck hlt hpass =>
    refine ⟨passes, last, hpasses, hlt, ?_, rfl⟩
    simpa using (Pass.scan_of_eq hpass).rejects_of_eq_nil rfl rfl

theorem position_le (data : Bytes) {offset : Int} (hrules : ∀ rule ∈ rules, rule.SelfContained)
    (hoffset : 0 ≤ offset)
    : offset ≤ (ofRules rules data offset).cursor.position ∧
      ∀ firing ∈ (ofRules rules data offset).fired, offset ≤ firing.cursor.position := by
  exact (linked rules data offset).position_le (of_mem_fired rules data offset) hrules hoffset

theorem ending_ne_failed {offset : Int} (hrules : ∀ rule ∈ rules, rule.SelfContained)
    (hoffset : 0 ≤ offset) {index : Nat} {rule : Rule} {fault : Fault}
    : (ofRules rules data offset).ending ≠ .failed index rule fault := by
  intro hending
  have hfails := failsAt rules data offset hending
  have hposition : 0 ≤ (ofRules rules data offset).cursor.position := by
    have := (position_le data hrules hoffset).1
    omega
  have haccepts := hfails.accepts
  rw [data.lookahead_eq_lookaheadOf hposition] at haccepts
  obtain ⟨firing, hfire, -⟩ := (hrules rule hfails.mem).exists_fire index
    (data.readsAt_drop hposition) haccepts
  rw [hfails.fire] at hfire
  simp at hfire

end Run

end PpuCodec
