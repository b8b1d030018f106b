import PpuCodec.Proofs.Decode.CopySource
import PpuCodec.Proofs.Expr.Segments
import PpuCodec.Proofs.Rule.Checked

/-!
Drafts that become rules. A draft is refused if one of its templates mentions a byte that it does
not check, and a byte that is checked is there wherever the rule applies. So what a rule evaluates
always has its bytes, and as many operands as its kind takes.
-/

namespace PpuCodec

/-- What the template mentions is there, so it has its values unless something is divided by
zero. -/
structure Template.Evaluates (template : Template) (look : Lookahead) : Prop where
  present : ∀ i : Fin 3, template.mentions i = true → ∃ b, look[i.val]? = some (some b)
  eval : (∃ values, template.eval look = .ok values ∧ values.length = template.parts.length) ∨
    template.eval look = .error .divisionByZero
  value : (∃ v, template.value look = .ok v) ∨
    template.value look = .error .divisionByZero ∨
    template.parts.length ≠ 1 ∧
      template.value look = .error (.notSingle template.text template.parts.length)

theorem Template.evaluates_of_present {template : Template} {look : Lookahead}
    (h : ∀ i : Fin 3, template.mentions i = true → ∃ b, look[i.val]? = some (some b))
    : template.Evaluates look := by
  have hpart : ∀ e ∈ template.parts,
      (∃ v, e.eval look = .ok v) ∨ e.eval look = .error .divisionByZero := by
    intro e he
    apply Expr.eval_eq_ok_or_divisionByZero
    intro i hi
    obtain ⟨b, hb⟩ := h i (List.any_eq_true.mpr ⟨e, he, hi⟩)
    exact ⟨b, by rw [hb]; rfl⟩
  constructor
  . exact h
  . cases heval : template.eval look with
    | ok values =>
      have hvalues := Expr.mapM_eq_ok_iff.mp heval
      exact .inl ⟨values, rfl, hvalues.length_eq.symm⟩
    | error error =>
      obtain ⟨before, e, after, hparts, -, he⟩ := Expr.mapM_eq_error_iff.mp heval
      rcases hpart e (by simp [hparts]) with ⟨v, hv⟩ | hzero
      . simp [hv] at he
      . rw [hzero] at he
        rw [← Except.error.inj he]
        exact .inr rfl
  . unfold value
    split
    . next e hparts => exact (hpart e (by simp [hparts])).imp_right .inl
    . next hparts =>
      refine .inr (.inr ⟨?_, rfl⟩)
      intro hlength
      obtain ⟨e, he⟩ := List.length_eq_one_iff.mp hlength
      exact hparts e he

namespace Rule

def Action.operands : Action → List Expr
  | .seek address => [address]
  | .fill value count => [value, count]
  | .copy count relative => [count, relative]
  | .stop => []

theorem Action.mentions_eq (action : Action) (i : Fin 3)
    : action.mentions i = action.operands.any (·.mentions i) := by
  cases action
  all_goals simp [mentions, operands]

section

variable {rule : Rule} {look : Lookahead} {atStart : Bool}

/-- Whatever the lookahead, a byte that a rule checks is there if it applies. -/
theorem exists_contains_of_accepts (h : rule.accepts look atStart = true) (hlook : look.length = 3)
    {i : Fin 3} {range : ByteRange} (hslot : rule.slots.get i = some range)
    : ∃ b, look[i.val]? = some (some b) ∧ range.contains (some b) = true := by
  have hlt : i.val < look.length := by omega
  have hmem : (some range, look[i.val]) ∈ rule.slots.toList.zip look := by
    apply List.mem_of_getElem? (i := i.val)
    rw [List.getElem?_zip_eq_some]
    constructor
    . rw [← hslot, Vector.getElem?_toList]
      exact Vector.getElem?_eq_getElem i.isLt
    . exact List.getElem?_eq_getElem hlt
  simp only [accepts, Bool.and_eq_true, List.all_eq_true] at h
  have hcontains := h.2 _ hmem
  cases hbyte : look[i.val] with
  | none => simp [hbyte, ByteRange.contains] at hcontains
  | some b =>
    refine ⟨b, by rw [List.getElem?_eq_getElem hlt, hbyte], ?_⟩
    simpa [hbyte] using hcontains

theorem exists_getElem?_of_accepts (h : rule.accepts look atStart = true) (hlook : look.length = 3)
    {i : Fin 3} (hi : (rule.slots.get i).isSome = true)
    : ∃ b, look[i.val]? = some (some b) := by
  obtain ⟨range, hslot⟩ := Option.isSome_iff_exists.mp hi
  obtain ⟨b, hb, -⟩ := exists_contains_of_accepts h hlook hslot
  exact ⟨b, hb⟩

theorem evaluates_of_accepts (h : rule.accepts look atStart = true) (hlook : look.length = 3)
    {template : Template}
    (hchecked : ∀ i, template.mentions i = true → (rule.slots.get i).isSome = true)
    : template.Evaluates look := by
  apply Template.evaluates_of_present
  intro i hi
  exact exists_getElem?_of_accepts h hlook (hchecked i hi)

end

/-- How a rule can fail that only uses bytes that it checks. -/
inductive Foreseen (rule : Rule) : Fault → Prop where
  | division : Foreseen rule (.expr .divisionByZero)
  | notSingle {template : Template} (hmem : template ∈ [rule.size, rule.step])
      (hlength : template.parts.length ≠ 1)
      : Foreseen rule (.expr (.notSingle template.text template.parts.length))
  | noProgress (position : Int) {size : Int} (hsize : size ≤ 0)
      : Foreseen rule (.noProgress rule.pattern position size)
  | sourceOutside : Foreseen rule .sourceOutside

namespace Foreseen

variable {rule : Rule} {fault : Fault} {look : Lookahead}

theorem ne_missingByte (h : rule.Foreseen fault) (i : Fin 3) : fault ≠ .expr (.missingByte i) := by
  cases h
  all_goals simp

theorem of_value {template : Template} (hmem : template ∈ [rule.size, rule.step])
    (h : template.Evaluates look) {error : Expr.Error} (herror : template.value look = .error error)
    : rule.Foreseen (.expr error) := by
  rcases h.value with ⟨v, hv⟩ | hzero | ⟨hlength, hcount⟩
  . simp [hv] at herror
  . rw [hzero] at herror
    rw [← Except.error.inj herror]
    exact .division
  . rw [hcount] at herror
    rw [← Except.error.inj herror]
    exact .notSingle hmem hlength

end Foreseen

section

variable {rule : Rule} {data : Bytes} {cursor : Cursor} {fault : Fault} {atStart : Bool}

theorem Checked.eval_operand (hchecked : rule.Checked) {look : Lookahead}
    (haccepts : rule.accepts look atStart = true) (hlook : look.length = 3) {e : Expr}
    (he : e ∈ rule.action.operands)
    : (∃ v, e.eval look = .ok v) ∨ e.eval look = .error .divisionByZero := by
  apply Expr.eval_eq_ok_or_divisionByZero
  intro i hi
  have hmentions : rule.mentions i = true := by
    rw [mentions, Action.mentions_eq, List.any_eq_true.mpr ⟨e, he, hi⟩, Bool.or_true]
  obtain ⟨b, hb⟩ := exists_getElem?_of_accepts haccepts hlook (hchecked i hmentions)
  exact ⟨b, by rw [hb]; rfl⟩

theorem foreseen_of_effect (hchecked : rule.Checked)
    (haccepts : rule.accepts (data.lookahead cursor.position) atStart = true) {step : Int}
    (h : rule.effect data cursor step = .error fault)
    : rule.Foreseen fault := by
  have hoperand := fun {e : Expr} => hchecked.eval_operand haccepts (by rfl) (e := e)
  have hfault : ∀ {e : Expr} {error : Expr.Error}, e ∈ rule.action.operands →
      e.eval (data.lookahead cursor.position) = .error error → rule.Foreseen (.expr error) := by
    intro e error he herror
    rcases hoperand he with ⟨v, hv⟩ | hzero
    . simp [hv] at herror
    . rw [hzero] at herror
      rw [← Except.error.inj herror]
      exact .division
  unfold effect at h
  cases haction : rule.action with
  | seek address =>
    rw [haction] at h
    rcases eq_of_mapError_bind_eq_error h with ⟨error, herror, rfl⟩ | ⟨target, -, h⟩
    . exact hfault (by simp [haction, Action.operands]) herror
    . simp [pure, Except.pure] at h
  | fill value count =>
    rw [haction] at h
    rcases eq_of_mapError_bind_eq_error h with ⟨error, herror, rfl⟩ | ⟨v, -, h⟩
    . exact hfault (by simp [haction, Action.operands]) herror
    . rcases eq_of_mapError_bind_eq_error h with ⟨error, herror, rfl⟩ | ⟨n, -, h⟩
      . exact hfault (by simp [haction, Action.operands]) herror
      . simp [pure, Except.pure] at h
  | copy count relative =>
    rw [haction] at h
    rcases eq_of_mapError_bind_eq_error h with ⟨error, herror, rfl⟩ | ⟨n, -, h⟩
    . exact hfault (by simp [haction, Action.operands]) herror
    . rcases eq_of_mapError_bind_eq_error h with ⟨error, herror, rfl⟩ | ⟨r, -, h⟩
      . exact hfault (by simp [haction, Action.operands]) herror
      . split at h
        . simp [pure, Except.pure] at h
        . rw [← Except.error.inj h]
          exact .sourceOutside
  | stop => simp [haction, pure, Except.pure] at h

theorem foreseen_of_fire (hchecked : rule.Checked)
    (haccepts : rule.accepts (data.lookahead cursor.position) atStart = true) {index : Nat}
    (h : rule.fire index data cursor = .error fault)
    : rule.Foreseen fault := by
  have hevaluates : ∀ template ∈ [rule.size, rule.step],
      template.Evaluates (data.lookahead cursor.position) := by
    intro template hmem
    apply evaluates_of_accepts haccepts (by rfl)
    intro i hi
    apply hchecked
    simp only [List.mem_cons, List.not_mem_nil, or_false] at hmem
    rcases hmem with rfl | rfl
    . simp [mentions, hi]
    . simp [mentions, hi]
  unfold fire at h
  rcases eq_of_mapError_bind_eq_error h with ⟨error, herror, rfl⟩ | ⟨size, -, h⟩
  . exact .of_value (by simp) (hevaluates rule.size (by simp)) herror
  . split at h
    . next hstays =>
      rw [← Except.error.inj h]
      exact .noProgress _ hstays.1
    . rcases eq_of_mapError_bind_eq_error h with ⟨error, herror, rfl⟩ | ⟨step, -, h⟩
      . exact .of_value (by simp) (hevaluates rule.step (by simp)) herror
      . cases heffect : rule.effect data cursor step with
        | ok effect => simp [heffect, bind, Except.bind, pure, Except.pure] at h
        | error other =>
          have heq : other = fault := by simpa [heffect, bind, Except.bind] using h
          rw [heq] at heffect
          exact foreseen_of_effect hchecked haccepts heffect

end

end Rule

theorem Format.exists_failed_of_decode {format : Format} {data : Bytes} {offset fill : Int}
    {fault : Fault} (h : format.decode data offset fill = .error (.fault fault))
    : ∃ index rule, (format.run data offset).ending = .failed index rule fault := by
  unfold decode at h
  cases hfill : checkedFill offset fill with
  | error error =>
    rw [hfill] at h
    have heq : error = .fault fault := Except.error.inj h
    unfold checkedFill at hfill
    split at hfill
    . simp [← Except.error.inj hfill] at heq
    . unfold Image.fillByte at hfill
      split at hfill
      . simp [Rule.mapError_ok] at hfill
      . simp [← Except.error.inj hfill] at heq
  | ok fill =>
    rw [hfill] at h
    change format.outcome data fill _ = _ at h
    unfold outcome at h
    split at h
    . simp at h
    . simp at h
    . next index rule other hending =>
      simp only [Except.error.injEq, Decode.Error.fault.injEq] at h
      rw [h] at hending
      exact ⟨index, rule, hending⟩

namespace Rule

namespace Draft

variable {draft : Draft} {rule : Rule}

def templates (draft : Draft) : List Template :=
  [draft.operand, draft.size, draft.step]

theorem check_eq_ok_iff {template : Template}
    : draft.check template = .ok ()
        ↔
      ∀ i, template.mentions i = true → (draft.slots.get i).isSome = true := by
  unfold check
  split
  . next i hfound =>
    have hunchecked := List.find?_some hfound
    simp only [Bool.and_eq_true, Option.isNone_iff_eq_none] at hunchecked
    simp only [reduceCtorEq, false_iff]
    intro h
    have hsome := h i hunchecked.1
    have hnone : draft.slots.get i = none := hunchecked.2
    simp [hnone] at hsome
  . next hnone =>
    simp only [true_iff]
    intro i hi
    have hchecked := List.find?_eq_none.mp hnone i (List.mem_finRange i)
    cases hslot : draft.slots.get i with
    | some range => rfl
    | none =>
      have hslot : draft.slots[i] = none := hslot
      simp [hi, hslot] at hchecked

/-- The operands of the action are those that the draft has written down, as many as its kind
takes. -/
theorem operands_of_action {action : Action} (h : draft.action = .ok action)
    : action.kind = draft.kind ∧
      (∀ count ∈ draft.kind.operandCount,
        draft.operand.parts.length = count ∧ action.operands = draft.operand.parts) := by
  unfold Draft.action at h
  split at h
  . next hkind hparts =>
    rw [← Except.ok.inj h, hkind, hparts]
    exact ⟨rfl, by simp [Kind.operandCount, Action.operands]⟩
  . next hkind hparts =>
    rw [← Except.ok.inj h, hkind, hparts]
    exact ⟨rfl, by simp [Kind.operandCount, Action.operands]⟩
  . next hkind hparts =>
    rw [← Except.ok.inj h, hkind, hparts]
    exact ⟨rfl, by simp [Kind.operandCount, Action.operands]⟩
  . next hkind =>
    rw [← Except.ok.inj h, hkind]
    exact ⟨rfl, by simp [Kind.operandCount]⟩
  . simp at h

/-- What is known of a draft that became a rule. -/
structure Makes (draft : Draft) (rule : Rule) : Prop where
  action : draft.action = .ok rule.action
  slots : rule.slots = draft.slots
  size : rule.size = draft.size
  step : rule.step = draft.step
  checks : ∀ template ∈ draft.templates, draft.check template = .ok ()

theorem makes_of_toRule (h : draft.toRule = .ok rule) : draft.Makes rule := by
  unfold toRule at h
  obtain ⟨action, haction, h⟩ := exists_of_bind_eq_ok h
  obtain ⟨_, hoperand, h⟩ := exists_of_bind_eq_ok h
  obtain ⟨_, hsize, h⟩ := exists_of_bind_eq_ok h
  obtain ⟨_, hstep, h⟩ := exists_of_bind_eq_ok h
  simp only [pure, Except.pure, Except.ok.injEq] at h
  subst h
  constructor
  . exact haction
  . rfl
  . rfl
  . rfl
  . simp [templates, hoperand, hsize, hstep]

theorem Makes.isSome_slot (h : draft.Makes rule) {template : Template}
    (hmem : template ∈ draft.templates) (i : Fin 3) (hi : template.mentions i = true)
    : (rule.slots.get i).isSome = true := by
  rw [h.slots]
  exact check_eq_ok_iff.mp (h.checks template hmem) i hi

theorem Makes.mentions_operand (h : draft.Makes rule) {i : Fin 3}
    (hi : rule.action.mentions i = true)
    : draft.operand.mentions i = true := by
  obtain ⟨hkind, hoperands⟩ := operands_of_action h.action
  rw [Action.mentions_eq] at hi
  cases hcount : draft.kind.operandCount with
  | some count =>
    rw [(hoperands count hcount).2] at hi
    exact hi
  | none =>
    have hstop : rule.action.kind = .stop := by
      rw [hkind]
      cases hdraft : draft.kind with
      | stop => rfl
      | _ => simp [hdraft, Kind.operandCount] at hcount
    cases haction : rule.action with
    | stop => simp [haction, Action.operands] at hi
    | _ => simp [haction, Action.kind] at hstop

theorem Makes.checked (h : draft.Makes rule) : rule.Checked := by
  intro i hi
  simp only [mentions, Bool.or_eq_true] at hi
  rcases hi with (hsize | hstep) | haction
  . rw [h.size] at hsize
    exact h.isSome_slot (by simp [templates]) i hsize
  . rw [h.step] at hstep
    exact h.isSome_slot (by simp [templates]) i hstep
  . exact h.isSome_slot (by simp [templates]) i (h.mentions_operand haction)

/-- A draft that becomes a rule can be evaluated wherever the rule applies. So no decode over a table
of such rules misses a byte or an operand. -/
theorem toRule_evaluates
    : (∀ (draft : Draft) (rule : Rule), draft.toRule = .ok rule →
        rule.kind = draft.kind ∧
        (∀ count ∈ draft.kind.operandCount,
          draft.operand.parts.length = count ∧ rule.action.operands = draft.operand.parts) ∧
        ∀ (look : Lookahead) (atStart : Bool), look.length = 3 →
          rule.accepts look atStart = true →
            ∀ template ∈ [draft.operand, draft.size, draft.step], template.Evaluates look) ∧
      ∀ format : Format, (∀ rule ∈ format.rules, ∃ draft : Draft, draft.toRule = .ok rule) →
        ∀ (data : Bytes) (offset fill : Int) (fault : Fault),
          format.decode data offset fill = .error (.fault fault) →
            (∀ i, fault ≠ .expr (.missingByte i)) ∧
            ∃ rule ∈ format.rules, rule.Foreseen fault := by
  constructor
  . intro draft rule h
    have hmakes := makes_of_toRule h
    obtain ⟨hkind, hoperands⟩ := operands_of_action hmakes.action
    refine ⟨hkind, hoperands, ?_⟩
    intro look atStart hlook haccepts template hmem
    exact evaluates_of_accepts haccepts hlook (hmakes.isSome_slot hmem)
  . intro format hrules data offset fill fault hdecode
    obtain ⟨index, rule, hending⟩ := format.exists_failed_of_decode hdecode
    have hfails := Run.failsAt format.rules data offset hending
    obtain ⟨draft, hdraft⟩ := hrules rule hfails.mem
    have hforeseen := foreseen_of_fire (makes_of_toRule hdraft).checked hfails.accepts hfails.fire
    exact ⟨hforeseen.ne_missingByte, rule, hfails.mem, hforeseen⟩

/-- A rule that copies from two places before its byte. Its operands have their values, and a decode
does not lack bytes for them, though the source lies before the input. -/
theorem toRule_evaluates_lookBack
    : (lookBack 2).toRule = .ok (.lookBack 2) ∧
      (Rule.lookBack 2).accepts [some 0x41, none, none] false = true ∧
      (lookBack 2).operand.Evaluates [some 0x41, none, none] ∧
      (lookBack 2).operand.eval [some 0x41, none, none] = .ok [1, -2] ∧
      ∃ fault,
        (Format.lookBack 2).decode #[0x41] 0 0 = .error (.fault fault) ∧
        (∀ i, fault ≠ .expr (.missingByte i)) ∧
        ∃ rule ∈ (Format.lookBack 2).rules, rule.Foreseen fault := by
  have haccepts : (Rule.lookBack 2).accepts [some 0x41, none, none] false = true := by decide
  obtain ⟨hrule, hformat⟩ := toRule_evaluates
  have hevaluates := (hrule _ _ (toRule_lookBack 2)).2.2 _ _ rfl haccepts
  have hdecode : (Format.lookBack 2).decode #[0x41] 0 0 = .error (.fault .sourceOutside) := by
    have hending : ((Format.lookBack 2).run #[0x41] 0).ending
        = .failed 0 (.lookBack 2) .sourceOutside := by
      decide +kernel
    have hfill : Format.checkedFill 0 0 = .ok 0 := by rfl
    rw [Format.decode, hfill]
    change Format.outcome _ _ _ _ = _
    rw [Format.outcome, hending]
  have hrules : ∀ rule ∈ (Format.lookBack 2).rules, ∃ draft : Draft, draft.toRule = .ok rule := by
    intro rule hmem
    rw [List.mem_singleton.mp hmem]
    exact ⟨lookBack 2, toRule_lookBack 2⟩
  refine ⟨toRule_lookBack 2, haccepts, hevaluates _ (by simp), rfl, _, hdecode, ?_⟩
  exact hformat (Format.lookBack 2) hrules _ _ _ _ hdecode

end Draft

end Rule

end PpuCodec
