import PpuCodec.Proofs.Decode.Forward
import PpuCodec.Proofs.Decode.Records
import PpuCodec.Proofs.Rule.Settled

/-!
How far a run goes in its input. The bytes that a rule uses up are there if it has checked the last
of them, or has copied it. A run over such rules goes past the end of the input only in a copy that
is cut short there.
-/

namespace PpuCodec

namespace Rule

/-- A copy is made of at least one byte, and it reaches as far as `size` bytes. -/
def Action.Fetches (look : Lookahead) (size : Int) : Action → Prop
  | .copy count relative => ∃ n r, count.eval look = .ok n ∧ relative.eval look = .ok r ∧
      0 ≤ r ∧ 0 < n ∧ size ≤ r + n
  | _ => False

theorem Action.Fetches.exists_copy {action : Action} {look : Lookahead} {size : Int}
    (h : action.Fetches look size)
    : ∃ count relative n r,
        action = .copy count relative ∧ count.eval look = .ok n ∧ relative.eval look = .ok r ∧
        0 ≤ r ∧ 0 < n ∧ size ≤ r + n := by
  cases action with
  | copy count relative =>
    obtain ⟨n, r, hfetches⟩ := h
    exact ⟨count, relative, n, r, rfl, hfetches⟩
  | seek _ => exact h.elim
  | fill _ _ => exact h.elim
  | stop => exact h.elim

/-- Where the rule applies, the bytes that it uses up are there, or they are missing to its copy. -/
def Covered (rule : Rule) : Prop :=
  ∀ {rest : List UInt8} {atStart : Bool} {size : Int},
    rule.accepts (Bytes.lookaheadOf rest) atStart = true →
      rule.size.value (Bytes.lookaheadOf rest) = .ok size →
        size ≤ rest.length ∨ rule.action.Fetches (Bytes.lookaheadOf rest) size

end Rule

variable {data : Bytes} {rules : List Rule}

theorem Firing.Of.position_next_le {firing : Firing} (h : firing.Of data rules)
    (hcovered : firing.rule.Covered) (hposition : 0 ≤ firing.cursor.position)
    (hle : firing.cursor.position ≤ data.size)
    (hwhole : ∀ stroke, firing.effect ≠ .paint stroke true)
    : firing.next.position ≤ data.size := by
  have hreads := data.readsAt_drop hposition
  have hlength := hreads.length_eq hle
  generalize data.toList.drop firing.cursor.position.toNat = rest at hreads hlength
  obtain ⟨size, step, effect, hsize, -, -, heffect, heq⟩ := Rule.exists_of_fire_eq_ok h.fire
  have hfired : firing.size = size ∧ firing.effect = effect := by
    rw [heq]
    exact ⟨rfl, rfl⟩
  have haccepts := h.accepts
  rw [hreads.lookahead_eq] at haccepts hsize
  suffices size ≤ rest.length by
    simp only [Firing.next, hfired.1]
    omega
  cases hcovered haccepts hsize with
  | inl hthere => exact hthere
  | inr hfetches =>
    obtain ⟨count, relative, n, r, haction, hcount, hrelative, hr, hn, hreach⟩ :=
      hfetches.exists_copy
    have hcopy := Rule.effect_copy_of_reads step haction hreads hcount hrelative hr
    rw [heffect] at hcopy
    -- The copy is not cut, so its last byte is there, and with it all that is used up.
    have hlast : n.toNat ≤ ((rest.drop r.toNat).take n.toNat).length := by
      rw [← Nat.not_lt]
      intro hlt
      apply hwhole
      rw [hfired.2, Except.ok.inj hcopy, decide_eq_true hlt]
    rw [List.length_take, List.length_drop] at hlast
    omega

theorem Linked.position_le_size {cursor last : Cursor} {fired : List Firing}
    (h : Linked cursor fired last) (hof : ∀ firing ∈ fired, firing.Of data rules)
    (hrules : ∀ rule ∈ rules, rule.SelfContained) (hcovered : ∀ rule ∈ rules, rule.Covered)
    (hwhole : ∀ firing ∈ fired, ∀ stroke, firing.effect ≠ .paint stroke true)
    (hposition : 0 ≤ cursor.position) (hle : cursor.position ≤ data.size)
    : last.position ≤ data.size := by
  induction fired generalizing cursor with
  | nil =>
    rw [Linked] at h
    rw [← h]
    exact hle
  | cons firing fired ih =>
    obtain ⟨hcursor, hrest⟩ := h
    subst hcursor
    have hfirst := hof firing List.mem_cons_self
    have hnext := hfirst.position_next_le
      (hcovered firing.rule (List.mem_of_getElem? hfirst.getElem?)) hposition hle
      (hwhole firing List.mem_cons_self)
    have hspends := hfirst.spends hrules hposition
    apply ih hrest
    . intro other hmem
      exact hof other (List.mem_cons_of_mem _ hmem)
    . intro other hmem
      exact hwhole other (List.mem_cons_of_mem _ hmem)
    . have := hspends.size_nonneg
      simp only [Firing.next]
      omega
    . exact hnext

theorem Run.position_le_size {offset : Int} (hrules : ∀ rule ∈ rules, rule.SelfContained)
    (hcovered : ∀ rule ∈ rules, rule.Covered) (hoffset : 0 ≤ offset) (hle : offset ≤ data.size)
    (hwhole : (ofRules rules data offset).truncatedCopies = [])
    : (ofRules rules data offset).cursor.position ≤ data.size := by
  apply (linked rules data offset).position_le_size (of_mem_fired rules data offset) hrules hcovered
  . intro firing hmem
    exact effect_ne_cut_of_truncatedCopies hwhole hmem
  . exact hoffset
  . exact hle

end PpuCodec
