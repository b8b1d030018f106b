import PpuCodec.Proofs.Rule.SelfContained

/-!
Tables of which the choice of the rule does not depend on what follows the input. Bytes that are
added may make a rule apply that asks for more of them than there were. In such a table it then
stands below the rule that applied before, or could not have been told from it.
-/

namespace PpuCodec.Rule

open ByteRange (admits)

/-- The rules ask for different values of a byte. -/
def Excludes (upper lower : Rule) : Prop :=
  ∃ i : Fin 3, ∃ a ∈ upper.slots.get i, ∃ b ∈ lower.slots.get i, a.high < b.low ∨ b.high < a.low

/-- If the lower rule applies and `least` bytes are there, then more of them do not matter to the
upper one. -/
def Settles (least : Nat) (upper lower : Rule) : Prop :=
  upper.Excludes lower ∨
    ∀ i : Fin 3, (upper.slots.get i).isSome = true →
      (lower.slots.get i).isSome = true ∨ i.val < least

def TakesAny (rule : Rule) : Prop :=
  rule.startOnly = false ∧ ∀ i : Fin 3, rule.slots.get i = none

instance (upper lower : Rule) : Decidable (upper.Excludes lower) :=
  inferInstanceAs (Decidable (∃ i : Fin 3, ∃ a ∈ upper.slots.get i, ∃ b ∈ lower.slots.get i,
    a.high < b.low ∨ b.high < a.low))

instance (least : Nat) (upper lower : Rule) : Decidable (Settles least upper lower) :=
  inferInstanceAs (Decidable (_ ∨ _))

instance (rule : Rule) : Decidable rule.TakesAny :=
  inferInstanceAs (Decidable (_ ∧ _))

/-- The choice needs `least` bytes at the start, and one later on. A rule after which the table is
gone on with is followed by one that takes anything. -/
structure Settled (rules : List Rule) (least : Nat) : Prop where
  first : rules.Pairwise (Settles least)
  later : rules.Pairwise fun upper lower => upper.startOnly = true ∨ upper.Settles 1 lower
  continues : ∀ index (h : index < rules.length), rules[index].continues = true →
    ∃ lower ∈ rules[index + 1]?, lower.TakesAny

section

variable {rule upper lower : Rule} {rest : List UInt8} {atStart : Bool} {least : Nat}

theorem alike_append (h : ∀ i : Fin 3, (rule.slots.get i).isSome = true → i.val < rest.length)
    (more : List UInt8)
    : rule.Alike rest (rest ++ more) := by
  intro i hi
  rw [List.getElem?_append_left (h i hi)]

theorem lt_length_of_accepts (h : rule.accepts (Bytes.lookaheadOf rest) atStart = true) {i : Fin 3}
    (hi : (rule.slots.get i).isSome = true)
    : i.val < rest.length := by
  obtain ⟨b, hb⟩ := exists_byte_of_accepts h hi
  exact (List.getElem?_eq_some_iff.mp hb).1

theorem alike_append_of_accepts (h : rule.accepts (Bytes.lookaheadOf rest) atStart = true)
    (more : List UInt8)
    : rule.Alike rest (rest ++ more) := by
  apply alike_append
  intro i hi
  exact lt_length_of_accepts h hi

theorem Excludes.rejects (h : upper.Excludes lower)
    (haccepts : lower.accepts (Bytes.lookaheadOf rest) atStart = true)
    : upper.accepts (Bytes.lookaheadOf rest) atStart = false := by
  obtain ⟨i, a, ha, b, hb, hapart⟩ := h
  cases hupper : upper.accepts (Bytes.lookaheadOf rest) atStart with
  | false => rfl
  | true =>
    have hadmits := admits_of_accepts haccepts i
    have hadmits' := admits_of_accepts hupper i
    rw [Option.mem_def.mp hb] at hadmits
    rw [Option.mem_def.mp ha] at hadmits'
    cases hbyte : rest[i.val]? with
    | none => simp [hbyte, admits, ByteRange.contains] at hadmits
    | some x =>
      simp only [hbyte, admits, ByteRange.contains, Option.all_some, Option.map_some,
        Bool.and_eq_true, decide_eq_true_eq] at hadmits hadmits'
      omega

theorem Settles.rejects_append (h : upper.Settles least lower)
    (haccepts : lower.accepts (Bytes.lookaheadOf rest) atStart = true)
    (hrejects : upper.accepts (Bytes.lookaheadOf rest) atStart = false)
    (hleast : least ≤ rest.length) (more : List UInt8)
    : upper.accepts (Bytes.lookaheadOf (rest ++ more)) atStart = false := by
  cases h with
  | inl hexcludes =>
    apply hexcludes.rejects
    rw [← (alike_append_of_accepts haccepts more).accepts_eq]
    exact haccepts
  | inr hslots =>
    have halike : upper.Alike rest (rest ++ more) := by
      apply alike_append
      intro i hi
      cases hslots i hi with
      | inl hlower => exact lt_length_of_accepts haccepts hlower
      | inr hlt => omega
    rw [← halike.accepts_eq]
    exact hrejects

variable {rules : List Rule} {index : Nat}

theorem FirstAt.append (h : FirstAt rules (Bytes.lookaheadOf rest) atStart index rule)
    {more : List UInt8}
    (hrejects : ∀ other ∈ rules.take index,
      other.accepts (Bytes.lookaheadOf (rest ++ more)) atStart = false)
    : FirstAt rules (Bytes.lookaheadOf (rest ++ more)) atStart index rule := by
  constructor
  . exact h.getElem?
  . rw [← (alike_append_of_accepts h.accepts more).accepts_eq]
    exact h.accepts
  . exact hrejects

theorem rel_of_pairwise {R : Rule → Rule → Prop} (h : rules.Pairwise R)
    (hrule : rules[index]? = some rule)
    : ∀ other ∈ rules.take index, R other rule := by
  intro other hother
  rw [← List.take_append_drop index rules, List.pairwise_append] at h
  apply h.2.2 other hother
  apply List.mem_of_getElem? (i := 0)
  rw [List.getElem?_drop, Nat.add_zero]
  exact hrule

/-- Whatever follows the input, the first rule to apply stays the same. -/
def Lasts (rules : List Rule) (rest : List UInt8) (atStart : Bool) : Prop :=
  ∀ index rule more, FirstAt rules (Bytes.lookaheadOf rest) atStart index rule →
    FirstAt rules (Bytes.lookaheadOf (rest ++ more)) atStart index rule

theorem Settled.lasts (h : Settled rules least)
    (hleast : if atStart then least ≤ rest.length else rest ≠ [])
    : Lasts rules rest atStart := by
  intro index rule more hfirst
  apply hfirst.append
  intro other hother
  have hrejects := hfirst.rejects other hother
  cases atStart with
  | true =>
    have hsettles := rel_of_pairwise h.first hfirst.getElem? other hother
    exact hsettles.rejects_append hfirst.accepts hrejects hleast more
  | false =>
    cases rel_of_pairwise h.later hfirst.getElem? other hother with
    | inl hstart => simp [hstart]
    | inr hsettles =>
      have : 1 ≤ rest.length := List.length_pos_iff.mpr hleast
      exact hsettles.rejects_append hfirst.accepts hrejects this more

theorem Settled.exists_takesAny (h : Settled rules least) (hrule : rules[index]? = some rule)
    (hcontinues : rule.continues = true)
    : ∃ lower, rules[index + 1]? = some lower ∧ lower.TakesAny := by
  obtain ⟨hlt, hget⟩ := List.getElem?_eq_some_iff.mp hrule
  exact h.continues index hlt (by rw [hget, hcontinues])

theorem TakesAny.accepts (h : lower.TakesAny) (rest : List UInt8) (atStart : Bool)
    : lower.accepts (Bytes.lookaheadOf rest) atStart = true := by
  obtain ⟨hstart, hslots⟩ := h
  have h0 : lower.slots[0] = none := hslots 0
  have h1 : lower.slots[1] = none := hslots 1
  have h2 : lower.slots[2] = none := hslots 2
  simp [hstart, h0, h1, h2]

/-- At the head of a table, a rule that takes anything is the only one that is come to. -/
theorem TakesAny.lasts (h : lower.TakesAny) (hhead : rules[0]? = some lower) (rest : List UInt8)
    (atStart : Bool)
    : Lasts rules rest atStart := by
  intro index rule more hfirst
  apply hfirst.append
  cases index with
  | zero => simp
  | succ index =>
    have hmem : lower ∈ rules.take (index + 1) := by
      apply List.mem_of_getElem? (i := 0)
      simpa using hhead
    have := hfirst.rejects lower hmem
    rw [h.accepts] at this
    simp at this

end

end PpuCodec.Rule
