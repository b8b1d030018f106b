import Mathlib.Order.Bounds.Basic
import PpuCodec.Proofs.Decode.Input
import PpuCodec.Proofs.Pack.Basic

/-!
How long the run at a place is: as long as equal bytes go on there, up to a cap. So a smaller cap
cuts the same run off, and what an encoder tells from the first few bytes of a run fits the length
that it writes.
-/

namespace PpuCodec.Pack

/-- From `start` on there are `count` bytes, and all of them are the same. -/
def EqualBytes (data : Bytes) (start count : Nat) : Prop :=
  start + count ≤ data.size ∧ ∀ i < count, data[start + i]? = data[start]?

/-- A run under a smaller cap is the same run, cut off at that cap. -/
theorem runLength_eq_min {cap small : Nat} (hpos : 1 ≤ small) (hle : small ≤ cap) (b : UInt8)
    (rest : List UInt8)
    : runLength small (b :: rest) = min small (runLength cap (b :: rest)) := by
  apply eq_of_forall_le_iff
  intro count
  rw [Nat.le_min]
  cases Nat.lt_or_ge small count with
  | inl hlt =>
    have := runLength_le_cap hpos b rest
    omega
  | inr hge =>
    rw [le_runLength_iff hge, le_runLength_iff (Nat.le_trans hge hle)]
    exact (and_iff_right hge).symm

section

variable {data : Bytes} {start : Nat} {b : UInt8} {rest : List UInt8}

theorem equalBytes_iff (h : data.toList.drop start = b :: rest) (count : Nat)
    : EqualBytes data start count ↔ List.replicate count b <+: b :: rest := by
  have hget : ∀ i, data[start + i]? = (b :: rest)[i]? := by
    intro i
    rw [← h, List.getElem?_drop, Array.getElem?_toList]
  have hlength : start + (b :: rest).length = data.size := by
    have := congrArg List.length h
    simp only [List.length_drop, Array.length_toList, List.length_cons] at this ⊢
    omega
  have hfirst : data[start]? = some b := hget 0
  have hprefix : (∀ i < count, data[start + i]? = data[start]?)
      ↔ List.replicate count b <+: b :: rest := by
    rw [List.prefix_iff_getElem?, hfirst]
    simp only [hget, List.length_replicate, List.getElem_replicate]
  rw [EqualBytes, hprefix, ← hlength]
  apply and_iff_right_of_imp
  intro hrun
  have := hrun.length_le
  rw [List.length_replicate] at this
  omega

theorem runLengthAt?_eq (h : data.toList.drop start = b :: rest) (cap : Nat)
    : runLengthAt? data start cap = some (runLength cap (b :: rest)) := by
  have hreads : data.ReadsAt start (b :: rest) := ⟨Int.natCast_nonneg start, h⟩
  have hlt : (start : Int) < data.size := hreads.lt_size (List.cons_ne_nil b rest)
  have hlength := hreads.length_eq (Int.le_of_lt hlt)
  have hread := hreads.readFrom?_eq 0 (data.size - start : Int).toNat
  rw [Int.natCast_zero, Int.add_zero, List.drop_zero] at hread
  rw [runLengthAt?, hread, ← hlength, Int.toNat_natCast, List.take_length]

end

/-- The length of a run is the greatest count of equal bytes that the cap admits. Under a smaller cap
the length is cut off there, so an encoder that looks at the bytes for the shortest run that is worth
writing finds one exactly if the length it writes comes to as much. -/
theorem runLengthAt?_isGreatest {data : Bytes} {start : Nat} (hstart : start < data.size)
    {cap : Nat} (hcap : 1 ≤ cap)
    : ∃ longest,
        runLengthAt? data start cap = some longest ∧
        IsGreatest {count | 1 ≤ count ∧ count ≤ cap ∧ EqualBytes data start count} longest ∧
        (∀ small, 1 ≤ small → small ≤ cap →
          runLengthAt? data start small = some (min small longest)) ∧
        runLength cap (data.toList.drop start) = longest ∧
        (minRun ≤ cap → (startsRun (data.toList.drop start) = true ↔ minRun ≤ longest)) := by
  obtain ⟨b, rest, hdrop⟩ : ∃ b rest, data.toList.drop start = b :: rest := by
    apply List.ne_nil_iff_exists_cons.mp
    simp only [ne_eq, List.drop_eq_nil_iff, Array.length_toList]
    omega
  refine ⟨runLength cap (b :: rest), runLengthAt?_eq hdrop cap, ?_, ?_, ?_, ?_⟩
  . have hle := runLength_le_cap hcap b rest
    constructor
    . refine ⟨runLength_pos, hle, ?_⟩
      rw [equalBytes_iff hdrop, ← le_runLength_iff hle]
    . rintro count ⟨_, hcount, hequal⟩
      rw [le_runLength_iff hcount, ← equalBytes_iff hdrop]
      exact hequal
  . intro small hpos hle
    rw [runLengthAt?_eq hdrop, runLength_eq_min hpos hle]
  . rw [hdrop]
  . intro hleast
    rw [hdrop]
    exact startsRun_iff_le_runLength hleast b rest

/-- The same four bytes are seen as three of a kind and written as four, from the second place on. -/
theorem runLengthAt?_isGreatest_four
    : let data : Bytes := #[9, 5, 5, 5, 5, 1]
      runLengthAt? data 1 0x7E = some 4 ∧
      IsGreatest {count | 1 ≤ count ∧ count ≤ 0x7E ∧ EqualBytes data 1 count} 4 ∧
      runLengthAt? data 1 3 = some 3 ∧
      startsRun [5, 5, 5, 5, 1] = true := by
  intro data
  have hstart : 1 < data.size := by decide
  have hcap : 1 ≤ 0x7E := by decide
  obtain ⟨longest, hrun, hgreatest, hsmall, hlength, htest⟩ := runLengthAt?_isGreatest hstart hcap
  have hlongest : longest = 4 := by
    rw [← hlength]
    rfl
  subst hlongest
  refine ⟨hrun, hgreatest, hsmall 3 (by decide) (by decide), ?_⟩
  exact (htest (by decide)).mpr (by decide)

end PpuCodec.Pack
