import Mathlib.Data.List.SplitBy
import PpuCodec.Proofs.Pack.Basic

/-!
How data is packed for the Kemko format, run by run. Each maximal run is written for itself, whatever
stands before or behind it, so data may be packed in parts that do not cut a run.
-/

namespace PpuCodec.Pack

/-- The runs of equal bytes, each as long as it can be: its byte and how often it stands there. -/
def maximalRuns (data : List UInt8) : List (UInt8 × Nat) :=
  (data.splitBy (· == ·)).filterMap fun run => run.head?.map (·, run.length)

section

variable {value : UInt8} {count : Nat} {front back rest : List UInt8}

theorem maximalRuns_append (h : ∀ x ∈ front.getLast?, ∀ y ∈ back.head?, x ≠ y)
    : maximalRuns (front ++ back) = maximalRuns front ++ maximalRuns back := by
  rw [maximalRuns, List.splitBy_append]
  . apply List.filterMap_append
  . intro x hx y hy
    rw [beq_eq_false_iff_ne]
    exact h x hx y hy

theorem maximalRuns_replicate (hpos : 0 < count)
    : maximalRuns (List.replicate count value) = [(value, count)] := by
  have hne : List.replicate count value ≠ [] := by
    simp
    omega
  rw [maximalRuns, List.splitBy_of_isChain hne]
  . have hhead : (List.replicate count value).head? = some value := by
      rw [List.head?_replicate, if_neg (by omega)]
    simp [hhead]
  . apply List.isChain_replicate_of_rel
    exact beq_self_eq_true value

theorem maximalRuns_replicate_append (hpos : 0 < count) (hrest : rest.head? ≠ some value)
    : maximalRuns (List.replicate count value ++ rest) = (value, count) :: maximalRuns rest := by
  rw [maximalRuns_append, maximalRuns_replicate hpos, List.singleton_append]
  intro x hx y hy heq
  have hvalue : x = value := List.eq_of_mem_replicate (List.mem_of_mem_getLast? hx)
  rw [← heq, hvalue] at hy
  exact hrest hy

example : maximalRuns [7, 7, 8, 7] = [(7, 2), (8, 1), (7, 1)] := by decide

end

theorem exists_first_run (b : UInt8) (rest : List UInt8)
    : ∃ count more,
        0 < count ∧ b :: rest = List.replicate count b ++ more ∧ more.head? ≠ some b := by
  induction rest with
  | nil => exact ⟨1, [], by decide, rfl, by simp⟩
  | cons c rest ih =>
    by_cases heq : c = b
    . obtain ⟨count, more, -, hrest, hmore⟩ := ih
      refine ⟨count + 1, more, by omega, ?_, hmore⟩
      rw [List.replicate_succ, List.cons_append, ← hrest, heq]
    . exact ⟨1, c :: rest, by decide, rfl, by simpa using heq⟩

/-- Data is empty, or a run and data that does not go on with its byte. -/
@[elab_as_elim]
theorem run_induction {motive : List UInt8 → Prop} (nil : motive [])
    (run : ∀ value count rest, 0 < count → rest.head? ≠ some value → motive rest →
      motive (List.replicate count value ++ rest))
    (data : List UInt8)
    : motive data := by
  match data with
  | [] => exact nil
  | b :: rest =>
    obtain ⟨count, more, hpos, hdata, hmore⟩ := exists_first_run b rest
    have hlength : more.length < (b :: rest).length := by
      rw [hdata, List.length_append, List.length_replicate]
      omega
    rw [hdata]
    exact run b count more hpos hmore (run_induction nil run more)
termination_by data.length
decreasing_by exact hlength

namespace Kemko

/-- How long a run has to be for the marker to be written. The marker itself is never written as a
byte that stands for itself. -/
def leastRun (value : UInt8) : Nat :=
  if value = 0xFF then 1 else 3

theorem leastRun_pos (value : UInt8) : 0 < leastRun value := by
  rw [leastRun]
  split
  . decide
  . decide

/-- A maximal run as it is written: pieces of up to 255 bytes while it is long enough, and then the
bytes that are left. -/
def encodeRun (value : UInt8) (count : Nat) : List UInt8 :=
  if leastRun value ≤ count then
    [0xFF, value, UInt8.ofNat (min count 0xFF)] ++ encodeRun value (count - 0xFF)
  else
    List.replicate count value
termination_by count
decreasing_by
  have := leastRun_pos value
  omega

section

variable {value : UInt8} {count : Nat} {rest : List UInt8}

theorem leastRun_le_iff (value : UInt8) {count : Nat} (hpos : 0 < count)
    : leastRun value ≤ count ↔ minRun ≤ min count maxLength ∨ value = marker := by
  have hcap : minRun = 3 ∧ maxLength = 0xFF := by decide
  by_cases hvalue : value = 0xFF
  . rw [leastRun, if_pos hvalue]
    exact ⟨fun _ => .inr hvalue, fun _ => hpos⟩
  . rw [leastRun, if_neg hvalue, or_iff_left (by simpa [marker] using hvalue)]
    omega

theorem body_of_run (h : leastRun value ≤ count) (hrest : rest.head? ≠ some value)
    : body (List.replicate count value ++ rest)
        =
      [0xFF, value, UInt8.ofNat (min count 0xFF)]
        ++ body (List.replicate (count - 0xFF) value ++ rest) := by
  have hpos : 0 < count := Nat.lt_of_lt_of_le (leastRun_pos value) h
  have hcap : maxLength = 0xFF := by rfl
  have hlength := runLength_replicate_append maxLength (by decide) hpos hrest
  have hrun := (leastRun_le_iff value hpos).mp h
  obtain ⟨more, rfl⟩ : ∃ n, count = n + 1 := ⟨count - 1, by omega⟩
  rw [List.replicate_succ, List.cons_append] at hlength ⊢
  rw [body, segments, hlength, if_pos hrun, hcap]
  have hleft : more - (min (more + 1) 0xFF - 1) = more + 1 - 0xFF := by omega
  have hdrop : (List.replicate more value ++ rest).drop (min (more + 1) 0xFF - 1)
      = List.replicate (more + 1 - 0xFF) value ++ rest := by
    rw [List.drop_append_of_le_length (by rw [List.length_replicate]; omega)]
    rw [List.drop_replicate, hleft]
  rw [hdrop, List.flatMap_cons, ← body, encodeSegment, marker]

theorem body_of_few (h : count < leastRun value) (hrest : rest.head? ≠ some value)
    : body (List.replicate count value ++ rest) = List.replicate count value ++ body rest := by
  induction count with
  | zero => rfl
  | succ count ih =>
    have hpos := Nat.succ_pos count
    have hlength := runLength_replicate_append maxLength (by decide) hpos hrest
    have hfew := (leastRun_le_iff value hpos).not.mp (by omega)
    rw [List.replicate_succ, List.cons_append] at hlength ⊢
    rw [body, segments, hlength, if_neg hfew]
    rw [List.flatMap_cons, ← body, ih (by omega)]
    rfl

theorem body_replicate_append (hrest : rest.head? ≠ some value)
    : body (List.replicate count value ++ rest) = encodeRun value count ++ body rest := by
  fun_induction encodeRun value count with
  | case1 count hleast ih =>
    rw [body_of_run hleast hrest, ih, List.append_assoc]
  | case2 count hleast => exact body_of_few (by omega) hrest

end

theorem body_eq_flatMap_encodeRun (data : List UInt8)
    : body data = (maximalRuns data).flatMap fun (value, count) => encodeRun value count := by
  induction data using run_induction with
  | nil => simp [body, segments, maximalRuns]
  | run value count rest hpos hrest ih =>
    rw [body_replicate_append hrest, maximalRuns_replicate_append hpos hrest]
    rw [List.flatMap_cons, ih]

/-- What is written is what each maximal run is written as, in their order. So data can be packed in
two parts if no run is cut between them. -/
theorem encode_runwise
    : (∀ data,
        encode data = body data ++ [0xFF, 0xFF, 0x00] ∧
        body data = (maximalRuns data).flatMap fun (value, count) => encodeRun value count) ∧
      ∀ front back, front = [] ∨ back = [] ∨ front.getLast? ≠ back.head? →
        body (front ++ back) = body front ++ body back := by
  constructor
  . intro data
    exact ⟨rfl, body_eq_flatMap_encodeRun data⟩
  . intro front back hapart
    simp only [body_eq_flatMap_encodeRun]
    rw [← List.flatMap_append, maximalRuns_append]
    intro x hx y hy heq
    rcases hapart with rfl | rfl | hne
    . simp at hx
    . simp at hy
    . apply hne
      rw [Option.mem_def.mp hx, Option.mem_def.mp hy, heq]

/-- One marker more than a piece can hold, and behind it two bytes that are no run. -/
theorem encode_runwise_long_marker
    : let front := List.replicate 0x100 0xFF
      let back := [7, 7]
      front.getLast? ≠ back.head? ∧
        body (front ++ back) = [0xFF, 0xFF, 0xFF, 0xFF, 0xFF, 0x01, 7, 7] := by
  intro front back
  have hapart : front.getLast? ≠ back.head? := by decide
  refine ⟨hapart, ?_⟩
  have hparts := encode_runwise.2 front back (.inr (.inr hapart))
  have hfront : body front = [0xFF, 0xFF, 0xFF, 0xFF, 0xFF, 0x01] := by decide +kernel
  have hback : body back = [7, 7] := by decide +kernel
  rw [hparts, hfront, hback]
  rfl

end Kemko

end PpuCodec.Pack
