import PpuCodec.Pack

/-!
What all encoders have in common: their keys, how the data is cut into segments, and how long a run
is.
-/

namespace PpuCodec

theorem Encoder.ofKey_key (encoder : Encoder) : ofKey encoder.key = .ok encoder := by
  cases encoder with
  | konami => rfl
  | konami2 => rfl
  | kemko => rfl

theorem pack_key (encoder : Encoder) (bytes : List UInt8) (address : Int)
    : pack encoder.key bytes address = encoder.encode bytes address := by
  rw [pack]
  rw [Encoder.ofKey_key]
  rfl

end PpuCodec

namespace PpuCodec.Pack

theorem runLength_le_cap {cap : Nat} (hcap : 1 ≤ cap) (b : UInt8) (rest : List UInt8)
    : runLength cap (b :: rest) ≤ cap := by
  have htake : (rest.take (cap - 1)).length ≤ cap - 1 := by
    rw [List.length_take]
    omega
  have hwhile := (List.takeWhile_sublist (l := rest.take (cap - 1)) (· == b)).length_le
  rw [runLength]
  omega

theorem replicate_runLength_append (cap : Nat) (b : UInt8) (rest : List UInt8)
    : List.replicate (runLength cap (b :: rest)) b ++ rest.drop (runLength cap (b :: rest) - 1)
        =
      b :: rest := by
  rw [runLength]
  generalize hrun : (rest.take (cap - 1)).takeWhile (· == b) = run
  -- The bytes that are counted begin the rest, and they are all the same.
  have hprefix : run <+: rest := by
    rw [← hrun]
    apply List.IsPrefix.trans
    . apply List.takeWhile_prefix
    . apply List.take_prefix
  have hreplicate : run = List.replicate run.length b := by
    apply List.eq_replicate_of_mem
    intro other hmem
    rw [← hrun] at hmem
    have := List.all_eq_true.mp List.all_takeWhile other hmem
    simpa using this
  rw [List.replicate_succ]
  rw [← hreplicate]
  rw [Nat.add_sub_cancel]
  rw [List.cons_append]
  rw [List.prefix_iff_eq_append.mp hprefix]

theorem le_length_takeWhile_iff {cap count : Nat} (hcount : count ≤ cap) (b : UInt8)
    (data : List UInt8)
    : count ≤ ((data.take cap).takeWhile (· == b)).length ↔ List.replicate count b <+: data := by
  induction count generalizing cap data with
  | zero => simp
  | succ count ih =>
    obtain ⟨cap, rfl⟩ : ∃ n, cap = n + 1 := ⟨cap - 1, by omega⟩
    cases data with
    | nil => simp
    | cons c rest =>
      rw [List.take_succ_cons, List.takeWhile_cons, List.replicate_succ, List.cons_prefix_cons]
      by_cases heq : c = b
      . rw [if_pos (by simp [heq]), List.length_cons, Nat.succ_le_succ_iff]
        rw [ih (by omega)]
        simp [heq]
      . simp [heq, Ne.symm heq]

/-- As far as the cap allows, a run is as long as equal bytes stand at the front. -/
theorem le_runLength_iff {cap count : Nat} (hcount : count ≤ cap) (b : UInt8) (rest : List UInt8)
    : count ≤ runLength cap (b :: rest) ↔ List.replicate count b <+: b :: rest := by
  cases count with
  | zero => simp
  | succ count =>
    rw [runLength, Nat.succ_le_succ_iff, le_length_takeWhile_iff (by omega)]
    simp [List.replicate_succ]

theorem replicate_succ_prefix_iff (count : Nat) (b : UInt8) (rest : List UInt8)
    : List.replicate (count + 1) b <+: List.replicate count b ++ rest ↔ rest.head? = some b := by
  rw [List.replicate_succ', List.prefix_append_right_inj]
  exact List.singleton_prefix_iff_head?_eq_some

/-- A run ends at the cap, or where another byte or none follows. -/
theorem runLength_eq_iff {cap count : Nat} (hpos : 1 ≤ count) (hcap : count ≤ cap) (b : UInt8)
    (rest : List UInt8)
    : runLength cap (List.replicate count b ++ rest) = count
        ↔
      count = cap ∨ rest.head? ≠ some b := by
  obtain ⟨more, hcons⟩ : ∃ more, List.replicate count b ++ rest = b :: more := by
    obtain ⟨n, rfl⟩ : ∃ n, count = n + 1 := ⟨count - 1, by omega⟩
    exact ⟨_, rfl⟩
  have hle : count ≤ runLength cap (List.replicate count b ++ rest) := by
    rw [hcons, le_runLength_iff hcap, ← hcons]
    apply List.prefix_append
  cases Nat.eq_or_lt_of_le hcap with
  | inl heq =>
    have := runLength_le_cap (by omega : 1 ≤ cap) b more
    rw [hcons] at hle ⊢
    omega
  | inr hlt =>
    -- One byte more belongs to the run if the rest begins with it.
    have hmore : count + 1 ≤ runLength cap (List.replicate count b ++ rest)
        ↔ rest.head? = some b := by
      rw [hcons, le_runLength_iff hlt, ← hcons, replicate_succ_prefix_iff]
    rw [ne_eq, ← hmore]
    omega

/-- A run that ends is read in full, unless it is longer than the cap. -/
theorem runLength_replicate_append (cap : Nat) {count : Nat} {value : UInt8} {rest : List UInt8}
    (hcap : 0 < cap) (hpos : 0 < count) (hrest : rest.head? ≠ some value)
    : runLength cap (List.replicate count value ++ rest) = min count cap := by
  by_cases hle : count ≤ cap
  . rw [Nat.min_eq_left hle, runLength_eq_iff hpos hle]
    exact .inr hrest
  . obtain ⟨more, rfl⟩ := Nat.exists_eq_add_of_le (Nat.le_of_not_le hle)
    rw [Nat.min_eq_right (by omega), ← List.replicate_append_replicate, List.append_assoc]
    rw [runLength_eq_iff hcap (Nat.le_refl cap)]
    exact .inl rfl

/-- Whether a run is worth a segment is told from its length under any cap that admits so much. -/
theorem startsRun_iff_le_runLength {cap : Nat} (hcap : minRun ≤ cap) (b : UInt8)
    (rest : List UInt8)
    : startsRun (b :: rest) = true ↔ minRun ≤ runLength cap (b :: rest) := by
  rw [startsRun, decide_eq_true_iff]
  rw [le_runLength_iff (Nat.le_refl minRun), le_runLength_iff hcap]

theorem startsRun_iff {data : List UInt8}
    : startsRun data = true ↔ ∃ b, [b, b, b] <+: data := by
  rw [startsRun, decide_eq_true_iff]
  cases data with
  | nil => simp [runLength, minRun]
  | cons b rest =>
    rw [minRun, le_runLength_iff (Nat.le_refl 3)]
    constructor
    . intro h
      exact ⟨b, h⟩
    . rintro ⟨c, h⟩
      obtain ⟨rfl, -⟩ := List.cons_prefix_cons.mp h
      exact h

end PpuCodec.Pack
