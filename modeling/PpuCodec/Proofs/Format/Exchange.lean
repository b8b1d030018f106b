import PpuCodec.Proofs.Decode.Outcome
import PpuCodec.Proofs.Decode.Relabel
import PpuCodec.Proofs.Rule.Draft
import PpuCodec.Proofs.Rule.Settled

/-!
The order of rules in a table. It matters for two rules next to each other only if there is
something that both of them apply to. If there is not, and no rule goes on below itself, then the
table with these two exchanged comes to the same rule everywhere.
-/

namespace PpuCodec

def Lookahead.ofBytes (bytes : Vector (Option UInt8) 3) : Lookahead :=
  bytes.toList.map fun b => b.map fun b => (b.toNat : Int)

namespace Rule

/-- There are no three bytes, some of which may be missing, that both rules apply to. -/
def Apart (upper lower : Rule) : Prop :=
  ∀ (bytes : Vector (Option UInt8) 3) (atStart : Bool),
    ¬(upper.accepts (Lookahead.ofBytes bytes) atStart = true ∧
      lower.accepts (Lookahead.ofBytes bytes) atStart = true)

variable {upper lower : Rule}

theorem Excludes.apart (h : upper.Excludes lower) : upper.Apart lower := by
  obtain ⟨i, a, ha, b, hb, hapart⟩ := h
  intro bytes atStart
  rintro ⟨hupper, hlower⟩
  have hlength : (Lookahead.ofBytes bytes).length = 3 := by simp [Lookahead.ofBytes]
  obtain ⟨x, hx, hxa⟩ := exists_contains_of_accepts hupper hlength ha
  obtain ⟨y, hy, hyb⟩ := exists_contains_of_accepts hlower hlength hb
  have heq : x = y := by simpa [hx] using hy
  simp only [ByteRange.contains, Bool.and_eq_true, decide_eq_true_eq] at hxa hyb
  omega

theorem Apart.not_both (h : upper.Apart lower) (data : Bytes) (position : Int) (atStart : Bool)
    : ¬(upper.accepts (data.lookahead position) atStart = true ∧
        lower.accepts (data.lookahead position) atStart = true) := by
  exact h #v[data.byte? position, data.byte? (position + 1), data.byte? (position + 2)] atStart

section

variable {before below : List Rule}

/-- Each rule is found at the place that it was moved to. -/
theorem getElem?_exchange (index : Nat)
    : (before ++ lower :: upper :: below)[Equiv.swap before.length (before.length + 1) index]?
        =
      (before ++ upper :: lower :: below)[index]? := by
  rw [Equiv.swap_apply_def]
  split
  . next h =>
    rw [h, List.getElem?_append_right (by omega), List.getElem?_append_right (by omega)]
    simp
  . split
    . next h =>
      rw [h, List.getElem?_append_right (by omega), List.getElem?_append_right (by omega)]
      simp
    . next hfirst hsecond =>
      by_cases hlt : index < before.length
      . rw [List.getElem?_append_left hlt, List.getElem?_append_left hlt]
      . obtain ⟨more, rfl⟩ : ∃ more, index = before.length + (more + 2) :=
          ⟨index - before.length - 2, by omega⟩
        rw [List.getElem?_append_right (by omega), List.getElem?_append_right (by omega)]
        simp

theorem mem_take_iff {rules : List Rule} {rule : Rule} {index : Nat}
    : rule ∈ rules.take index ↔ ∃ place < index, rules[place]? = some rule := by
  rw [List.mem_iff_getElem?]
  simp [List.getElem?_take]

/-- An exchange of neighbours changes the order of no others. -/
theorem eq_of_swap_crosses {first index place : Nat}
    (hplace : place < Equiv.swap first (first + 1) index)
    (hcrosses : ¬ Equiv.swap first (first + 1) place < index)
    : index = first ∧ place = first := by
  rw [Equiv.swap_apply_def] at hplace hcrosses
  split_ifs at hplace hcrosses
  all_goals omega

theorem FirstAt.exchange {look : Lookahead} {atStart : Bool} {index : Nat} {rule : Rule}
    (h : FirstAt (before ++ upper :: lower :: below) look atStart index rule)
    (hapart : ¬(upper.accepts look atStart = true ∧ lower.accepts look atStart = true))
    : FirstAt (before ++ lower :: upper :: below) look atStart
        (Equiv.swap before.length (before.length + 1) index) rule := by
  constructor
  . rw [getElem?_exchange]
    exact h.getElem?
  . exact h.accepts
  . intro other hother
    obtain ⟨place, hplace, hget⟩ := mem_take_iff.mp hother
    have hfound : (before ++ upper :: lower :: below)[Equiv.swap before.length (before.length + 1)
        place]? = some other := by
      rw [← getElem?_exchange, Equiv.swap_apply_self]
      exact hget
    by_cases habove : Equiv.swap before.length (before.length + 1) place < index
    . exact h.rejects other (mem_take_iff.mpr ⟨_, habove, hfound⟩)
    . -- A rule is above the first one now, but was not before, only if these are the two.
      obtain ⟨hindex, hfirst⟩ := eq_of_swap_crosses hplace habove
      have hrule : upper = rule := by simpa [hindex] using h.getElem?
      have hlower : lower = other := by simpa [hfirst] using hget
      rw [← hlower]
      have haccepts := h.accepts
      rw [← hrule] at haccepts
      simpa [haccepts] using hapart

end

end Rule

/-- A pass over the table in which two rules next to each other are exchanged. -/
theorem Pass.ofRules_exchange {before below : List Rule} {upper lower : Rule}
    (hbreaks : ∀ rule ∈ before ++ upper :: lower :: below, rule.continues = false)
    (hapart : upper.Apart lower) (data : Bytes) (cursor : Cursor)
    : ofRules data 0 (before ++ lower :: upper :: below) cursor
        =
      (ofRules data 0 (before ++ upper :: lower :: below) cursor).relabel
        (Equiv.swap before.length (before.length + 1)) := by
  have hnot := hapart.not_both data cursor.position cursor.atStart
  cases Rule.forall_rejects_or_exists_firstAt (before ++ upper :: lower :: below)
      (data.lookahead cursor.position) cursor.atStart with
  | inl hrejects =>
    rw [ofRules_of_rejects 0 hrejects, ofRules_of_rejects 0]
    . rfl
    . intro rule hmem
      apply hrejects
      have hperm := (List.Perm.swap upper lower below).append_left before
      exact hperm.mem_iff.mp hmem
  | inr hexists =>
    obtain ⟨index, rule, hfirst⟩ := hexists
    have hother := hfirst.exchange hnot
    have hrule := hbreaks rule (List.mem_of_getElem? hfirst.getElem?)
    have hrelabel := rule.fire_relabel (Equiv.swap before.length (before.length + 1)) index data
      cursor
    rw [← Nat.zero_add (Equiv.swap before.length (before.length + 1) index)] at hrelabel
    cases hfire : rule.fire index data cursor with
    | error fault =>
      rw [hfire] at hrelabel
      rw [← Nat.zero_add index] at hfire
      rw [ofRules_of_fault hfirst hfire, ofRules_of_fault hother hrelabel]
      simp [Pass.relabel, Ending.relabel]
    | ok firing =>
      rw [hfire] at hrelabel
      rw [← Nat.zero_add index] at hfire
      rw [ofRules_of_breaks hfirst hfire hrule, ofRules_of_breaks hother hrelabel hrule]
      cases hfinishes : firing.effect.finishes with
      | true => simp [Pass.relabel, Firing.relabel, Firing.next, hfinishes, Ending.relabel]
      | false => simp [Pass.relabel, Firing.relabel, Firing.next, hfinishes]

namespace Format

/-- Two rules next to each other that never both apply may be exchanged. All decodes return or fail
as before, and a tally counts the uses of the two at each other's places. -/
theorem decodeWith_exchange {format exchanged : Format} {before below : List Rule}
    {upper lower : Rule} (hrules : format.rules = before ++ upper :: lower :: below)
    (hexchanged : exchanged
      = { format with rules := before ++ lower :: upper :: below, rules_ne_nil := by simp })
    (hbreaks : ∀ rule ∈ format.rules, rule.continues = false) (hapart : upper.Apart lower)
    (data : Bytes) (offset fill : Int)
    : let place := Equiv.swap before.length (before.length + 1)
      let (result, tally) := format.decodeWith {} data offset fill
      let (result', tally') := exchanged.decodeWith {} data offset fill
      result' = result ∧
      tally' = { tally with usage := tally'.usage } ∧
      tally'.usage.Perm (tally.usage.map (·.relabel place)) := by
  rw [hrules] at hbreaks
  have hrun : exchanged.run data offset = (format.run data offset).relabel
      (Equiv.swap before.length (before.length + 1)) := by
    have hcursor := Run.ofCursor_relabel (Pass.ofRules_exchange hbreaks hapart data)
      (Run.start offset)
    rw [← hrules] at hcursor
    rw [hexchanged]
    exact hcursor
  have hname : exchanged.name = format.name := by rw [hexchanged]
  unfold decodeWith
  cases checkedFill offset fill with
  | error error => exact ⟨rfl, rfl, List.Perm.nil⟩
  | ok fill =>
    dsimp only
    rw [hrun]
    exact ⟨outcome_relabel hname data fill _, Tally.observe_relabel offset _⟩

/-- A run, and then one of which the byte is missing. The rules for runs and blocks are apart. -/
theorem konami_decodeWith_exchange
    : let exchanged : Format :=
        { konami with
          rules := [konami.rules[1], konami.rules[0], konami.rules[2]], rules_ne_nil := by simp }
      let data : Bytes := #[0x02, 0x41, 0x05]
      konami.rules[0].Apart konami.rules[1] ∧
      (konami.decodeWith {} data 0 0).1.isOk = false ∧
      (exchanged.decodeWith {} data 0 0).1 = (konami.decodeWith {} data 0 0).1 ∧
      (konami.decodeWith {} data 0 0).2.usage = [⟨0, konami.rules[0].describe, 1⟩] ∧
      (exchanged.decodeWith {} data 0 0).2.usage = [⟨1, konami.rules[0].describe, 1⟩] := by
  intro exchanged data
  have hapart : konami.rules[0].Apart konami.rules[1] := by
    apply Rule.Excludes.apart
    decide
  have hrules : konami.rules = [] ++ konami.rules[0] :: konami.rules[1] :: [konami.rules[2]] := by
    rfl
  have hexchanged : exchanged
      = { konami with
          rules := [] ++ konami.rules[1] :: konami.rules[0] :: [konami.rules[2]],
          rules_ne_nil := by simp } := by
    rfl
  obtain ⟨hresult, -, husage⟩ := decodeWith_exchange hrules hexchanged (by decide) hapart data 0 0
  change (exchanged.decodeWith {} data 0 0).2.usage.Perm
    ((konami.decodeWith {} data 0 0).2.usage.map (·.relabel (Equiv.swap 0 1))) at husage
  have hbefore : (konami.decodeWith {} data 0 0).2.usage = [⟨0, konami.rules[0].describe, 1⟩] := by
    decide +kernel
  rw [hbefore] at husage
  exact ⟨hapart, by decide +kernel, hresult, hbefore, List.perm_singleton.mp husage⟩

end Format

end PpuCodec
