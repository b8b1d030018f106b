import PpuCodec.Proofs.Decode.Dispatch

/-!
A pass as a scan of the table. From where it stands it comes to the first rule that applies, if
there is one; what happens then is one of four things, and only one of them goes on below the rule.
All that is known of passes follows from these cases.
-/

namespace PpuCodec

namespace Rule

theorem forall_rejects_or_exists_firstAt (rules : List Rule) (look : Lookahead) (atStart : Bool)
    : (∀ rule ∈ rules, rule.accepts look atStart = false) ∨
      ∃ index rule, FirstAt rules look atStart index rule := by
  induction rules with
  | nil => exact .inl (by simp)
  | cons rule below ih =>
    cases hrule : rule.accepts look atStart with
    | true =>
      refine .inr ⟨0, rule, ?_⟩
      constructor
      . rfl
      . exact hrule
      . simp
    | false =>
      cases ih with
      | inl hbelow => exact .inl (by simpa [hrule] using hbelow)
      | inr hbelow =>
        obtain ⟨index, first, hfirst⟩ := hbelow
        refine .inr ⟨index + 1, first, ?_⟩
        constructor
        . simpa using hfirst.getElem?
        . exact hfirst.accepts
        . simpa [hrule] using hfirst.rejects

theorem FirstAt.mem {rules : List Rule} {look : Lookahead} {atStart : Bool} {top index : Nat}
    {rule : Rule} (h : FirstAt (rules.drop top) look atStart index rule)
    : rule ∈ rules := by
  apply List.mem_of_mem_drop
  exact List.mem_of_getElem? h.getElem?

end Rule

/-- What a pass comes to that starts below the first `top` rules of the table. -/
inductive Scan (data : Bytes) (rules : List Rule) : Nat → Cursor → Pass → Prop where
  | runsOut {top : Nat} {cursor : Cursor}
      (hrejects : ∀ rule ∈ rules.drop top,
        rule.accepts (data.lookahead cursor.position) cursor.atStart = false)
      : Scan data rules top cursor ⟨[], cursor, none⟩
  | fails {top index : Nat} {cursor : Cursor} {rule : Rule} {fault : Fault}
      (hfirst : Rule.FirstAt (rules.drop top) (data.lookahead cursor.position) cursor.atStart
        index rule)
      (hfire : rule.fire (top + index) data cursor = .error fault)
      : Scan data rules top cursor ⟨[], cursor, some (.failed (top + index) rule fault)⟩
  | ends {top index : Nat} {cursor : Cursor} {rule : Rule} {firing : Firing}
      (hfirst : Rule.FirstAt (rules.drop top) (data.lookahead cursor.position) cursor.atStart
        index rule)
      (hfire : rule.fire (top + index) data cursor = .ok firing)
      (hfinishes : firing.effect.finishes = true)
      : Scan data rules top cursor ⟨[firing], firing.next, some .complete⟩
  | breaks {top index : Nat} {cursor : Cursor} {rule : Rule} {firing : Firing}
      (hfirst : Rule.FirstAt (rules.drop top) (data.lookahead cursor.position) cursor.atStart
        index rule)
      (hfire : rule.fire (top + index) data cursor = .ok firing)
      (hopen : firing.effect.finishes = false) (hbreaks : rule.continues = false)
      : Scan data rules top cursor ⟨[firing], firing.next, none⟩
  | goesOn {top index : Nat} {cursor : Cursor} {rule : Rule} {firing : Firing} {pass : Pass}
      (hfirst : Rule.FirstAt (rules.drop top) (data.lookahead cursor.position) cursor.atStart
        index rule)
      (hfire : rule.fire (top + index) data cursor = .ok firing)
      (hopen : firing.effect.finishes = false) (hcontinues : rule.continues = true)
      (below : Scan data rules (top + index + 1) firing.next pass)
      : Scan data rules top cursor (pass.after firing)

namespace Pass

variable {data : Bytes} {rules : List Rule} {cursor : Cursor} {start index : Nat} {rule : Rule}

theorem ofRules_of_rejects (start : Nat)
    (h : ∀ rule ∈ rules, rule.accepts (data.lookahead cursor.position) cursor.atStart = false)
    : ofRules data start rules cursor = ⟨[], cursor, none⟩ := by
  rw [ofRules_drop start rules.length]
  . rw [List.drop_length]
    rfl
  . rw [List.take_length]
    exact h

theorem ofRules_of_fault {fault : Fault}
    (h : Rule.FirstAt rules (data.lookahead cursor.position) cursor.atStart index rule)
    (hfire : rule.fire (start + index) data cursor = .error fault)
    : ofRules data start rules cursor
        =
      ⟨[], cursor, some (.failed (start + index) rule fault)⟩ := by
  have hlt := (List.getElem?_eq_some_iff.mp h.getElem?).1
  have hrule := (List.getElem?_eq_some_iff.mp h.getElem?).2
  rw [ofRules_drop start index h.rejects]
  rw [List.drop_eq_getElem_cons hlt]
  rw [hrule]
  rw [ofRules]
  rw [h.accepts]
  simp only [if_true, hfire]

theorem scan (data : Bytes) (rules : List Rule) (top : Nat) (cursor : Cursor)
    : Scan data rules top cursor (ofRules data top (rules.drop top) cursor) := by
  cases Rule.forall_rejects_or_exists_firstAt (rules.drop top) (data.lookahead cursor.position)
      cursor.atStart with
  | inl hrejects =>
    rw [ofRules_of_rejects top hrejects]
    exact .runsOut hrejects
  | inr hexists =>
    obtain ⟨index, rule, hfirst⟩ := hexists
    match hfire : rule.fire (top + index) data cursor with
    | .error fault =>
      rw [ofRules_of_fault hfirst hfire]
      exact .fails hfirst hfire
    | .ok firing =>
      rw [ofRules_of_firstAt hfirst hfire]
      rw [List.drop_drop, ← Nat.add_assoc]
      cases hfinishes : firing.effect.finishes with
      | true =>
        rw [if_pos rfl]
        exact .ends hfirst hfire hfinishes
      | false =>
        rw [if_neg (by simp)]
        cases hcontinues : rule.continues with
        | true =>
          rw [if_pos rfl]
          exact .goesOn hfirst hfire hfinishes hcontinues
            (scan data rules (top + index + 1) firing.next)
        | false =>
          rw [if_neg (by simp)]
          exact .breaks hfirst hfire hfinishes hcontinues
termination_by rules.length - top
decreasing_by
  have := (List.getElem?_eq_some_iff.mp hfirst.getElem?).1
  rw [List.length_drop] at this
  omega

theorem scan_of_eq {pass : Pass} (h : ofRules data 0 rules cursor = pass)
    : Scan data rules 0 cursor pass := by
  rw [← h]
  exact scan data rules 0 cursor

end Pass

end PpuCodec
