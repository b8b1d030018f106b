import PpuCodec.Proofs.Decode.Linked

/-!
Which rule applies next. Behind a rule that goes on, the rules below it are tried first; only if
none of them applies is the table gone through from the top again, at the same place of the input.
-/

namespace PpuCodec

/-- A pass may begin at the cursor: nothing has applied yet, or what applied last left the cursor
there, and if it goes on then no rule below it applies. -/
def Settled (data : Bytes) (rules : List Rule) (previous : Option Firing) (cursor : Cursor)
    : Prop :=
  ∀ firing, previous = some firing →
    firing.next = cursor ∧
    (firing.rule.continues = true → ∀ rule ∈ rules.drop (firing.index + 1),
      rule.accepts (data.lookahead cursor.position) cursor.atStart = false)

inductive Follows (data : Bytes) (rules : List Rule) : Option Firing → Firing → Prop where
  | below {previous firing : Firing} {index : Nat} (hcontinues : previous.rule.continues = true)
      (hcursor : firing.cursor = previous.next)
      (hfirst : Rule.FirstAt (rules.drop (previous.index + 1))
        (data.lookahead firing.cursor.position) firing.cursor.atStart index firing.rule)
      : Follows data rules (some previous) firing
  | top {previous : Option Firing} {firing : Firing}
      (hsettled : Settled data rules previous firing.cursor)
      (hfirst : Rule.FirstAt rules (data.lookahead firing.cursor.position) firing.cursor.atStart
        firing.index firing.rule)
      : Follows data rules previous firing

theorem Follows.cursor_eq {data : Bytes} {rules : List Rule} {previous firing : Firing}
    (h : Follows data rules (some previous) firing)
    : firing.cursor = previous.next := by
  cases h with
  | below _ hcursor _ => exact hcursor
  | top hsettled _ => exact (hsettled previous rfl).1.symm

/-- Each of the firings follows the one before it, and one that finishes is the last. -/
def Succession (data : Bytes) (rules : List Rule) : Option Firing → List Firing → Prop
  | _, [] => True
  | previous, firing :: fired =>
    Follows data rules previous firing ∧
    (firing.effect.finishes = true → fired = []) ∧
    Succession data rules (some firing) fired

theorem getLast?_cons_or (firing : Firing) (fired : List Firing) (previous : Option Firing)
    : (firing :: fired).getLast?.or previous = fired.getLast?.or (some firing) := by
  rw [List.getLast?_cons]
  cases fired.getLast? with
  | none => rfl
  | some last => rfl

namespace Succession

variable {data : Bytes} {rules : List Rule} {previous : Option Firing}

theorem append {xs ys : List Firing} (hx : Succession data rules previous xs)
    (hopen : ∀ firing ∈ xs, firing.effect.finishes = false)
    (hy : Succession data rules (xs.getLast?.or previous) ys)
    : Succession data rules previous (xs ++ ys) := by
  induction xs generalizing previous with
  | nil => exact hy
  | cons firing xs ih =>
    rw [getLast?_cons_or] at hy
    refine ⟨hx.1, ?_, ih hx.2.2 (fun other hmem => hopen other (by simp [hmem])) hy⟩
    intro hfinishes
    simp [hopen firing (by simp)] at hfinishes

theorem split {before after : List Firing} {firing : Firing}
    (h : Succession data rules previous (before ++ firing :: after))
    : Follows data rules (before.getLast?.or previous) firing ∧
      (firing.effect.finishes = true → after = []) := by
  induction before generalizing previous with
  | nil => exact ⟨h.1, h.2.1⟩
  | cons first before ih =>
    rw [getLast?_cons_or]
    exact ih h.2.2

end Succession

section

variable {data : Bytes} {rules : List Rule} {previous : Option Firing} {cursor last : Cursor}

/-- The two ways in which a scan comes to where it begins, as for `Follows`. -/
inductive LedTo (data : Bytes) (rules : List Rule) : Option Firing → Nat → Cursor → Prop where
  | below {firing : Firing} (hcontinues : firing.rule.continues = true)
      : LedTo data rules (some firing) (firing.index + 1) firing.next
  | top {previous : Option Firing} {cursor : Cursor} (hsettled : Settled data rules previous cursor)
      : LedTo data rules previous 0 cursor

theorem LedTo.follows {top index : Nat} {rule : Rule} {firing : Firing}
    (h : LedTo data rules previous top cursor)
    (hfirst : Rule.FirstAt (rules.drop top) (data.lookahead cursor.position) cursor.atStart index
      rule)
    (hfire : rule.fire (top + index) data cursor = .ok firing)
    : Follows data rules previous firing := by
  obtain ⟨size, step, effect, -, -, -, -, heq⟩ := Rule.exists_of_fire_eq_ok hfire
  cases h with
  | below hcontinues =>
    subst heq
    exact .below hcontinues rfl hfirst
  | top hsettled =>
    rw [Nat.zero_add] at heq
    subst heq
    exact .top hsettled hfirst

theorem Scan.succession {top : Nat} {pass : Pass} (h : Scan data rules top cursor pass)
    (hled : LedTo data rules previous top cursor)
    : Succession data rules previous pass.fired ∧
      (pass.ending = none →
        Settled data rules (pass.fired.getLast?.or previous) pass.cursor) := by
  induction h generalizing previous with
  | runsOut hrejects =>
    refine ⟨trivial, fun _ => ?_⟩
    cases hled with
    | below hcontinues =>
      intro firing heq
      cases heq
      exact ⟨rfl, fun _ => hrejects⟩
    | top hsettled => exact hsettled
  | fails _ _ => exact ⟨trivial, by simp⟩
  | ends hfirst hfire _ => exact ⟨⟨hled.follows hfirst hfire, fun _ => rfl, trivial⟩, by simp⟩
  | breaks hfirst hfire hopen hbreaks =>
    refine ⟨⟨hled.follows hfirst hfire, fun _ => rfl, trivial⟩, fun _ => ?_⟩
    rw [getLast?_cons_or]
    intro firing heq
    cases heq
    refine ⟨rfl, fun hcontinues => ?_⟩
    rw [(Rule.fire_eq_ok hfire).2.1, hbreaks] at hcontinues
    simp at hcontinues
  | @goesOn top index cursor rule firing pass hfirst hfire hopen hcontinues below ih =>
    have hrule := (Rule.fire_eq_ok hfire).2.1
    have hindex : firing.index = top + index := by
      obtain ⟨size, step, effect, -, -, -, -, heq⟩ := Rule.exists_of_fire_eq_ok hfire
      rw [heq]
    have hbelow : LedTo data rules (some firing) (top + index + 1) firing.next := by
      rw [← hindex]
      apply LedTo.below
      rw [hrule]
      exact hcontinues
    obtain ⟨hfired, hsettled⟩ := ih hbelow
    refine ⟨⟨hled.follows hfirst hfire, by simp [hopen], hfired⟩, fun hending => ?_⟩
    simp only [Pass.after]
    rw [getLast?_cons_or]
    exact hsettled hending

theorem Passes.succession {passes : List (List Firing)} (h : Passes data rules cursor passes last)
    (hsettled : Settled data rules previous cursor)
    : Succession data rules previous passes.flatten ∧
      Settled data rules (passes.flatten.getLast?.or previous) last ∧
      ∀ firing ∈ passes.flatten, firing.effect.finishes = false := by
  induction h generalizing previous with
  | none => exact ⟨trivial, hsettled, by simp⟩
  | pass _ _ hpass _ ih =>
    obtain ⟨hfired, hnext⟩ := (Pass.scan_of_eq hpass).succession (.top hsettled)
    have hopen := (Pass.scan_of_eq hpass).finishes_of_mem_fired rfl
    obtain ⟨hrest, hlast, hopenRest⟩ := ih (hnext rfl)
    rw [List.flatten_cons]
    refine ⟨hfired.append hopen hrest, ?_, ?_⟩
    . rw [List.getLast?_append, Option.or_assoc]
      exact hlast
    . intro firing hmem
      cases List.mem_append.mp hmem with
      | inl hfirst => exact hopen firing hfirst
      | inr hother => exact hopenRest firing hother

theorem Run.Final.succession {final : Run} (h : Run.Final data rules last final)
    (hsettled : Settled data rules previous last)
    : Succession data rules previous final.fired := by
  cases h with
  | exhausted _ => trivial
  | ended _ hpass =>
    simpa [Run.fired] using ((Pass.scan_of_eq hpass).succession (.top hsettled)).1
  | stuck _ _ => trivial

end

/-- The rules that apply in a run follow each other. -/
theorem Run.follows {rules : List Rule} {data : Bytes} {offset : Int} {before after : List Firing}
    {firing : Firing} (h : (ofRules rules data offset).fired = before ++ firing :: after)
    : Follows data rules before.getLast? firing ∧ (firing.effect.finishes = true → after = []) := by
  obtain ⟨passes, last, final, hpasses, hfinal, hrun⟩ := exists_passes rules data offset
  have hstart : Settled data rules none (start offset) := by
    intro firing heq
    simp at heq
  obtain ⟨hfired, hsettled, hopen⟩ := hpasses.succession hstart
  have hall := hfired.append hopen (hfinal.succession hsettled)
  have hsplit : passes.flatten ++ final.fired = before ++ firing :: after := by
    rw [← h, hrun]
    simp [fired, Run.after]
  rw [hsplit] at hall
  simpa using hall.split

end PpuCodec
