import PpuCodec.Proofs.Decode.Layout
import PpuCodec.Proofs.Decode.Linked

/-!
Records recovered from a run. If a table takes nothing but records, then what a decode has used up
is a stream of them; and if no record can be read in two ways, it is one such stream only.
-/

namespace PpuCodec

theorem Scan.exists_finishes_of_complete {data : Bytes} {rules : List Rule} {top : Nat}
    {cursor : Cursor} {pass : Pass} (h : Scan data rules top cursor pass)
    (hending : pass.ending = some .complete)
    : ∃ firing ∈ pass.fired, firing.effect.finishes = true := by
  induction h with
  | runsOut _ => simp at hending
  | fails _ _ => simp at hending
  | ends _ _ hfinishes => simpa using hfinishes
  | breaks _ _ _ _ => simp at hending
  | goesOn _ _ _ _ _ ih =>
    obtain ⟨firing, hmem, hfinishes⟩ := ih hending
    exact ⟨firing, List.mem_cons_of_mem _ hmem, hfinishes⟩

/-- A run that comes to its end though no rule has ended it has used up the input. -/
theorem Run.size_le_of_forall_open {data : Bytes} {rules : List Rule} {offset : Int}
    (hending : (ofRules rules data offset).ending = .complete)
    (hopen : ∀ firing ∈ (ofRules rules data offset).fired, firing.effect.finishes = false)
    : data.size ≤ (ofRules rules data offset).cursor.position := by
  obtain ⟨passes, last, final, -, hfinal, hrun⟩ := exists_passes rules data offset
  rw [hrun] at hending hopen ⊢
  cases hfinal with
  | exhausted hle => exact hle
  | ended _ hpass =>
    have hcomplete := (Pass.scan_of_eq hpass).exists_finishes_of_complete (congrArg some hending)
    obtain ⟨firing, hmem, hfinishes⟩ := hcomplete
    have := hopen firing (by simpa [fired, after] using .inr hmem)
    simp [hfinishes] at this
  | stuck _ _ => simp [after] at hending

theorem Run.effect_ne_cut_of_truncatedCopies {run : Run} (h : run.truncatedCopies = [])
    {firing : Firing} (hmem : firing ∈ run.fired) (stroke : Stroke)
    : firing.effect ≠ .paint stroke true := by
  intro heffect
  rw [truncatedCopies, List.filterMap_eq_nil_iff] at h
  have hcut := h firing hmem
  simp [heffect] at hcut

/-- In a table without a rule that stops, only a copy that is cut ends the run. -/
theorem Run.forall_open_of_truncatedCopies {data : Bytes} {rules : List Rule} {offset : Int}
    (hrules : ∀ rule ∈ rules, rule.action ≠ .stop)
    (h : (ofRules rules data offset).truncatedCopies = [])
    : ∀ firing ∈ (ofRules rules data offset).fired, firing.effect.finishes = false := by
  intro firing hmem
  have hof := of_mem_fired rules data offset firing hmem
  cases heffect : firing.effect with
  | seek address => rfl
  | paint stroke cut =>
    cases cut with
    | false => rfl
    | true => exact absurd heffect (effect_ne_cut_of_truncatedCopies h hmem stroke)
  | stop =>
    obtain ⟨size, step, effect, -, -, -, hfired, heq⟩ := Rule.exists_of_fire_eq_ok hof.fire
    rw [heq] at heffect
    dsimp only at heffect
    rw [heffect] at hfired
    have hstop := Rule.action_eq_stop_of_effect hfired
    exact absurd hstop (hrules firing.rule (List.mem_of_getElem? hof.getElem?))

namespace Layout

variable {R : Type} {layout : Layout R} {IsRecord : R → Prop} {rules : List Rule}

/-- Whatever a rule of the table uses up, if the decode goes on, are the bytes of a record. -/
structure Covers (layout : Layout R) (IsRecord : R → Prop) (rules : List Rule) : Prop where
  exists_record : ∀ {data : Bytes} {firing : Firing}, firing.Of data rules →
    0 ≤ firing.cursor.position → firing.effect.finishes = false →
      ∃ record rest,
        IsRecord record ∧
        data.ReadsAt firing.cursor.position (layout.bytes record ++ rest) ∧
        firing.size = (layout.bytes record).length

theorem Covers.exists_records (h : layout.Covers IsRecord rules) {data : Bytes}
    {cursor last : Cursor} {fired : List Firing} (hlinked : Linked cursor fired last)
    (hof : ∀ firing ∈ fired, firing.Of data rules)
    (hopen : ∀ firing ∈ fired, firing.effect.finishes = false) (hposition : 0 ≤ cursor.position)
    : ∃ records rest,
        (∀ record ∈ records, IsRecord record) ∧
        data.ReadsAt cursor.position (layout.encode records ++ rest) ∧
        data.ReadsAt last.position rest := by
  induction fired generalizing cursor with
  | nil =>
    rw [Linked] at hlinked
    subst hlinked
    have hreads : data.ReadsAt cursor.position _ := ⟨hposition, rfl⟩
    exact ⟨[], _, by simp, hreads, hreads⟩
  | cons firing fired ih =>
    obtain ⟨hcursor, hrest⟩ := hlinked
    subst hcursor
    obtain ⟨record, behind, hrecord, hreads, hsize⟩ :=
      h.exists_record (hof firing (by simp)) hposition (hopen firing (by simp))
    have hnext : firing.next.position = firing.cursor.position + (layout.bytes record).length := by
      rw [← hsize]
      rfl
    have hbehind := hreads.advance
    rw [← hnext] at hbehind
    obtain ⟨records, rest, hrecords, hstream, hlast⟩ :=
      ih hrest (fun other hmem => hof other (by simp [hmem]))
        (fun other hmem => hopen other (by simp [hmem])) hbehind.1
    refine ⟨record :: records, rest, by simpa using ⟨hrecord, hrecords⟩, ?_, hlast⟩
    have hsame : behind = layout.encode records ++ rest := hbehind.2.symm.trans hstream.2
    rw [hsame] at hreads
    simpa [encode] using hreads

/-- No two records begin in the same way, so that one could be taken for the other. -/
structure Readable (layout : Layout R) (IsRecord : R → Prop) : Prop where
  bytes_ne_nil : ∀ {record}, IsRecord record → layout.bytes record ≠ []
  eq_of_append_eq : ∀ {x y rest rest'}, IsRecord x → IsRecord y →
    layout.bytes x ++ rest = layout.bytes y ++ rest' → x = y

theorem Readable.encode_injective (h : layout.Readable IsRecord) {xs ys : List R}
    (hxs : ∀ record ∈ xs, IsRecord record) (hys : ∀ record ∈ ys, IsRecord record)
    (heq : layout.encode xs = layout.encode ys)
    : xs = ys := by
  induction xs generalizing ys with
  | nil =>
    cases ys with
    | nil => rfl
    | cons y ys =>
      have := h.bytes_ne_nil (hys y (by simp))
      simp [encode, this] at heq
  | cons x xs ih =>
    cases ys with
    | nil =>
      have := h.bytes_ne_nil (hxs x (by simp))
      simp [encode, this] at heq
    | cons y ys =>
      simp only [encode, List.flatMap_cons] at heq
      have hhead := h.eq_of_append_eq (hxs x (by simp)) (hys y (by simp)) heq
      subst hhead
      have htail := List.append_cancel_left heq
      rw [ih (fun record hmem => hxs record (by simp [hmem]))
        (fun record hmem => hys record (by simp [hmem])) htail]

end Layout

end PpuCodec
