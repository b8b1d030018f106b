import PpuCodec.Proofs.Decode.Forward

/-!
Inputs that begin with other bytes and go on with the first bytes of another input. A pass that does
not leave these bytes is made over both in the same way, if the rules get by with the bytes that
they use up.
-/

namespace PpuCodec

def Cursor.shift (k : Int) (cursor : Cursor) : Cursor :=
  { cursor with position := cursor.position + k }

def Firing.shift (k : Int) (firing : Firing) : Firing :=
  { firing with cursor := firing.cursor.shift k }

def Pass.shift (k : Int) (pass : Pass) : Pass :=
  { pass with fired := pass.fired.map (·.shift k), cursor := pass.cursor.shift k }

@[simp]
theorem Cursor.shift_zero (cursor : Cursor) : cursor.shift 0 = cursor := by
  simp [shift]

@[simp]
theorem Pass.shift_zero (pass : Pass) : pass.shift 0 = pass := by
  simp [shift, Firing.shift]

@[simp]
theorem Firing.effect_shift (k : Int) (firing : Firing)
    : (firing.shift k).effect = firing.effect := by
  rfl

@[simp]
theorem Firing.next_shift (k : Int) (firing : Firing)
    : (firing.shift k).next = firing.next.shift k := by
  simp [next, shift, Cursor.shift, Int.add_right_comm]

theorem Pass.shift_after (k : Int) (firing : Firing) (pass : Pass)
    : (pass.after firing).shift k = (pass.shift k).after (firing.shift k) := by
  rfl

section

variable {data : Bytes} {rules : List Rule} {before : Bytes} {count : Nat}

namespace Rule

variable {rule : Rule} {top index : Nat} {cursor : Cursor} {firing : Firing}

theorem rejects_excerpt (hposition : 0 ≤ cursor.position)
    (h : rule.accepts (data.lookahead cursor.position) cursor.atStart = false)
    : rule.accepts (Bytes.lookahead (before ++ data.take count)
        (cursor.shift before.size).position) cursor.atStart = false := by
  have hreads := data.readsAt_drop hposition
  have hreads' := (hreads.take count).prepend before
  rw [hreads.lookahead_eq] at h
  unfold Cursor.shift
  rw [hreads'.lookahead_eq]
  apply Bool.eq_false_iff.mpr
  intro haccepts
  rw [accepts_of_accepts_take haccepts] at h
  simp at h

theorem FirstAt.excerpt
    (h : FirstAt (rules.drop top) (data.lookahead cursor.position) cursor.atStart index rule)
    (hfire : rule.fire (top + index) data cursor = .ok firing)
    (hself : rule.SelfContained) (hposition : 0 ≤ cursor.position)
    (hcount : firing.next.position ≤ count)
    : let data' := before ++ data.take count
      let cursor' := cursor.shift before.size
      FirstAt (rules.drop top) (data'.lookahead cursor'.position) cursor'.atStart index rule ∧
      rule.fire (top + index) data' cursor' = .ok (firing.shift before.size) := by
  intro data' cursor'
  have hreads := data.readsAt_drop hposition
  have hreads' : data'.ReadsAt cursor'.position _ := (hreads.take count).prepend before
  have haccepts := h.accepts
  rw [hreads.lookahead_eq] at haccepts
  have hcursor := (fire_eq_ok hfire).1
  -- What the rule uses up is all there.
  have hsize : firing.size.toNat ≤ count - cursor.position.toNat := by
    simp only [Firing.next, hcursor] at hcount
    omega
  obtain ⟨haccepts', hfire'⟩ := hself.fire_of_take_eq hreads hreads' rfl haccepts hfire
    (by rw [List.take_take, Nat.min_eq_left hsize])
  constructor
  . constructor
    . exact h.getElem?
    . rw [hreads'.lookahead_eq]
      exact haccepts'
    . intro other hmem
      exact rejects_excerpt hposition (h.rejects other hmem)
  . rw [hfire']
    obtain ⟨size, step, effect, -, -, -, -, heq⟩ := exists_of_fire_eq_ok hfire
    rw [heq]
    rfl

end Rule

namespace Scan

variable {top : Nat} {cursor : Cursor} {pass : Pass}

theorem ofRules_excerpt (h : Scan data rules top cursor pass) (before : Bytes) (count : Nat)
    (hrules : ∀ rule ∈ rules, rule.SelfContained) (hposition : 0 ≤ cursor.position)
    (hcount : pass.cursor.position ≤ count)
    : Pass.ofRules (before ++ data.take count) top (rules.drop top) (cursor.shift before.size)
        =
      pass.shift before.size := by
  induction h with
  | runsOut hrejects =>
    apply Pass.ofRules_of_rejects
    intro rule hmem
    exact Rule.rejects_excerpt hposition (hrejects rule hmem)
  | fails hfirst hfire =>
    have haccepts := hfirst.accepts
    rw [data.lookahead_eq_lookaheadOf hposition] at haccepts
    obtain ⟨firing, hother, -⟩ := (hrules _ hfirst.mem).exists_fire _
      (data.readsAt_drop hposition) haccepts
    rw [hfire] at hother
    simp at hother
  | ends hfirst hfire hfinishes =>
    obtain ⟨hfirst', hfire'⟩ := hfirst.excerpt hfire (hrules _ hfirst.mem) hposition hcount
    rw [Pass.ofRules_of_firstAt hfirst' hfire']
    simp [Pass.shift, hfinishes]
  | breaks hfirst hfire hopen hbreaks =>
    obtain ⟨hfirst', hfire'⟩ := hfirst.excerpt hfire (hrules _ hfirst.mem) hposition hcount
    rw [Pass.ofRules_of_firstAt hfirst' hfire']
    simp [Pass.shift, hopen, hbreaks]
  | goesOn hfirst hfire hopen hcontinues below ih =>
    have hnext := hfirst.position_le hfire hrules hposition
    have hbelow := below.position_le hrules (by omega)
    simp only [Pass.after] at hcount
    obtain ⟨hfirst', hfire'⟩ := hfirst.excerpt hfire (hrules _ hfirst.mem) hposition
      (Int.le_trans hbelow hcount)
    rw [Pass.ofRules_of_firstAt hfirst' hfire']
    rw [List.drop_drop, ← Nat.add_assoc]
    rw [Firing.next_shift, ih (by omega) hcount]
    simp [Pass.shift_after, hopen, hcontinues]

end Scan

end

end PpuCodec
