import PpuCodec.Proofs.Decode.Excerpt
import PpuCodec.Proofs.Decode.Outcome

/-!
A decode that gets stuck, and one of the input that is cut off at that place. The rules are taken to
get by with the bytes that they use up. So each that applied applies to what is left by the cut, and
a missing byte makes no other rule apply before it.
-/

namespace PpuCodec

variable {data : Bytes} {rules : List Rule}

theorem Passes.take {cursor last : Cursor} {passes : List (List Firing)}
    (h : Passes data rules cursor passes last) (count : Nat)
    (hrules : ∀ rule ∈ rules, rule.SelfContained) (hposition : 0 ≤ cursor.position)
    (hbegin : cursor.atStart = true → cursor.position < count) (hcount : last.position ≤ count)
    : Passes (data.take count) rules cursor passes last := by
  induction h with
  | none => exact .none
  | @pass cursor next last fired passes hlt hfired hpass hrest ih =>
    obtain ⟨hstart, hmoves⟩ := Pass.next_of_eq hpass hfired
    have hnext : cursor.position ≤ next.position :=
      (Pass.scan_of_eq hpass).position_le hrules hposition
    have hlast := (hrest.linked.position_le hrest.of_mem_fired hrules (by omega)).1
    have hbefore : cursor.position < count := by
      cases hcursor : cursor.atStart with
      | true => exact hbegin hcursor
      | false =>
        have := hmoves hcursor
        omega
    have hpass' := (Pass.scan_of_eq hpass).ofRules_excerpt #[] count hrules hposition
      (by dsimp only; omega)
    simp only [Array.empty_append, Array.size_empty, Int.natCast_zero, Cursor.shift_zero,
      Pass.shift_zero] at hpass'
    apply Passes.pass _ hfired hpass'
    . exact ih (by omega) (by simp [hstart]) hcount
    . simp only [Array.take_eq_extract, Array.size_extract]
      omega

/-- The rule moves the cursor on whenever it applies: it has to, or its size is a positive number. -/
def Rule.movesOn (rule : Rule) : Bool :=
  !rule.mayStay || match rule.size.parts with
    | [.literal size] => 0 < size
    | _ => false

theorem Firing.Of.size_pos {firing : Firing} (h : firing.Of data rules)
    (hrules : ∀ rule ∈ rules, rule.movesOn = true)
    : 0 < firing.size := by
  obtain ⟨size, step, effect, hsize, hmoves, -, -, heq⟩ := Rule.exists_of_fire_eq_ok h.fire
  rw [heq]
  cases hmoves with
  | inl hpos => exact hpos
  | inr hmay =>
    have hrule := hrules firing.rule (List.mem_of_getElem? h.getElem?)
    simp only [Rule.movesOn, hmay, Bool.not_true, Bool.false_or] at hrule
    split at hrule
    . next n hparts =>
      simp only [Template.value, hparts, Expr.eval, Except.ok.injEq] at hsize
      simp only [decide_eq_true_eq] at hrule
      dsimp only
      omega
    . simp at hrule

namespace Run

/-- What a run comes to that has made its way to the end of the input. -/
structure Agrees (run cut : Run) : Prop where
  ending : cut.ending = .complete
  cursor : cut.cursor = run.cursor
  fired : cut.fired = run.fired

variable {offset : Int}

theorem agrees_take_of_lt (hrules : ∀ rule ∈ rules, rule.SelfContained) (hoffset : 0 ≤ offset)
    (h : (ofRules rules data offset).ending = .stuck)
    (hlt : offset < (ofRules rules data offset).cursor.position)
    : (ofRules rules data offset).Agrees
        (ofRules rules (data.take (ofRules rules data offset).cursor.position.toNat) offset) := by
  obtain ⟨passes, last, hpasses, -, -, hrun⟩ := exists_passes_of_stuck h
  rw [hrun] at hlt ⊢
  dsimp only at hlt ⊢
  have hcut := hpasses.take last.position.toNat hrules hoffset
    (fun _ => by change offset < _; omega) (by omega)
  have hend : ofCursor (data.take last.position.toNat) rules last = ⟨[], last, .complete⟩ := by
    rw [ofCursor]
    rw [go_of_size_le]
    simp only [Array.take_eq_extract, Array.size_extract]
    omega
  have hcutRun : ofRules rules (data.take last.position.toNat) offset
      = ⟨passes, last, .complete⟩ := by
    have : ofRules rules (data.take last.position.toNat) offset = _ := hcut.ofCursor_eq
    rw [hend] at this
    simpa [after] using this
  rw [hcutRun]
  constructor
  . rfl
  . rfl
  . simp [fired]

/-- A run that is stuck where it began has made one pass at most. -/
theorem firstPass_of_stuck (hrules : ∀ rule ∈ rules, rule.SelfContained) (hoffset : 0 ≤ offset)
    (h : (ofRules rules data offset).ending = .stuck)
    (hle : (ofRules rules data offset).cursor.position ≤ offset)
    : Pass.ofRules data 0 rules (start offset)
        =
      ⟨(ofRules rules data offset).fired, (ofRules rules data offset).cursor, none⟩ := by
  obtain ⟨passes, last, hpasses, -, hrejects, hrun⟩ := exists_passes_of_stuck h
  rw [hrun] at hle ⊢
  dsimp only at hle ⊢
  cases hpasses with
  | none => simpa [fired] using Pass.ofRules_of_rejects 0 hrejects
  | @pass _ next _ first passes _ hfirst hpass hrest =>
    have hnext : offset ≤ next.position :=
      (Pass.scan_of_eq hpass).position_le hrules hoffset
    cases hrest with
    | none => simpa [fired] using hpass
    | @pass _ second _ _ _ _ hsecond hpass' hrest' =>
      -- The second pass would have moved the cursor on.
      have hmoves := (Pass.next_of_eq hpass' hsecond).2 (Pass.next_of_eq hpass hfirst).1
      have := (hrest'.linked.position_le hrest'.of_mem_fired hrules (by omega)).1
      omega

theorem take_of_le {count : Nat} (hle : count ≤ offset)
    : ofRules rules (data.take count) offset = ⟨[], start offset, .complete⟩ := by
  rw [ofRules]
  rw [go_of_size_le]
  simp only [Array.take_eq_extract, Array.size_extract, start]
  omega

theorem agrees_take_of_movesOn (hrules : ∀ rule ∈ rules, rule.SelfContained)
    (hmoves : ∀ rule ∈ rules, rule.movesOn = true) (hoffset : 0 ≤ offset)
    (h : (ofRules rules data offset).ending = .stuck)
    : (ofRules rules data offset).Agrees
        (ofRules rules (data.take (ofRules rules data offset).cursor.position.toNat) offset) := by
  by_cases hlt : offset < (ofRules rules data offset).cursor.position
  . exact agrees_take_of_lt hrules hoffset h hlt
  . have hlinked := linked rules data offset
    have hof := of_mem_fired rules data offset
    rw [take_of_le (by omega)]
    generalize ofRules rules data offset = run at hlt hlinked hof
    match hfired : run.fired with
    | [] =>
      rw [hfired] at hlinked
      exact ⟨rfl, hlinked, hfired.symm⟩
    | firing :: fired =>
      rw [hfired] at hlinked hof
      have hsize := (hof firing (by simp)).size_pos hmoves
      have hlast := (hlinked.2.position_le (fun other hmem => hof other (by simp [hmem])) hrules
        (by simp only [Firing.next, hlinked.1, start]; omega)).1
      simp only [Firing.next, hlinked.1, start] at hlast
      omega

end Run

end PpuCodec
