import PpuCodec.Proofs.Pack.Konami

/-!
How data is cut for the Konami formats. A run takes all equal bytes that there are, up to its cap. A
block ends where a run begins, or at its cap. Data can be cut in one such way only, so the segments
are known from what is asked of them, whatever made them.
-/

namespace PpuCodec.Pack.Konami

/-- What is asked of a segment with the segments `after` behind it. A byte that has two more of its
kind behind it begins a run, so it stands in no block. -/
def Greedy (after : List Segment) : Segment → Prop
  | .run value count =>
    3 ≤ count ∧ count ≤ 0x7E ∧
      (count = 0x7E ∨ (after.flatMap Segment.expand).head? ≠ some value)
  | .block bytes =>
    1 ≤ bytes.length ∧ bytes.length ≤ 0x7E ∧
      (∀ i < bytes.length, ∀ b,
        ¬ [b, b, b] <+: (bytes ++ after.flatMap Segment.expand).drop i) ∧
      ∀ more rest, after = .block more :: rest → bytes.length = 0x7E

/-- The same of every segment of a row. -/
def GreedyCut (records : List Segment) : Prop :=
  ∀ record after, record :: after <:+ records → Greedy after record

theorem greedyCut_nil : GreedyCut [] := by
  intro record after hsuffix
  simp at hsuffix

theorem greedyCut_cons {record : Segment} {after : List Segment}
    : GreedyCut (record :: after) ↔ Greedy after record ∧ GreedyCut after := by
  constructor
  . intro h
    constructor
    . exact h record after (List.suffix_refl _)
    . intro other rest hsuffix
      exact h other rest (hsuffix.trans (List.suffix_cons record after))
  . rintro ⟨hfirst, hafter⟩ other rest hsuffix
    cases List.suffix_cons_iff.mp hsuffix with
    | inl heq =>
      obtain ⟨rfl, rfl⟩ := List.cons.inj heq
      exact hfirst
    | inr hbehind => exact hafter other rest hbehind

section

variable {b : UInt8} {rest data : List UInt8} {limit : Nat} {after : List Segment}

theorem startsRun_iff_minRun_le
    : startsRun (b :: rest) = true ↔ minRun ≤ runLength maxLength (b :: rest) := by
  apply startsRun_iff_le_runLength
  decide

theorem segments_of_startsRun (h : startsRun (b :: rest) = true)
    : segments (b :: rest)
        =
      .run b (runLength maxLength (b :: rest))
        :: segments (rest.drop (runLength maxLength (b :: rest) - 1)) := by
  rw [segments, if_pos (startsRun_iff_minRun_le.mp h)]

theorem segments_of_startsRun_eq_false (h : startsRun (b :: rest) = false)
    : segments (b :: rest)
        =
      .block (b :: blockBytes (maxLength - 1) rest)
        :: segments (rest.drop (blockBytes (maxLength - 1) rest).length) := by
  rw [segments, if_neg]
  rw [← startsRun_iff_minRun_le, h]
  simp

theorem startsRun_drop_of_lt_blockBytes {i : Nat} (h : i < (blockBytes limit data).length)
    : startsRun (data.drop i) = false := by
  fun_induction blockBytes limit data generalizing i with
  | case1 => simp at h
  | case2 => simp at h
  | case3 => simp at h
  | case4 limit b rest hstarts ih =>
    cases i with
    | zero => simpa using hstarts
    | succ i =>
      rw [List.length_cons] at h
      exact ih (by omega)

/-- A block ends at its cap, with the data, or where a run begins. -/
theorem blockBytes_ends (limit : Nat) (data : List UInt8)
    : (blockBytes limit data).length = limit ∨ data.drop (blockBytes limit data).length = [] ∨
        startsRun (data.drop (blockBytes limit data).length) = true := by
  fun_induction blockBytes limit data with
  | case1 => exact .inl rfl
  | case2 => exact .inr (.inl rfl)
  | case3 limit b rest hstarts => exact .inr (.inr hstarts)
  | case4 limit b rest hstarts ih => simpa using ih

theorem segments_ne_block_cons (h : data = [] ∨ startsRun data = true) (more : List UInt8)
    : segments data ≠ .block more :: after := by
  cases data with
  | nil =>
    rw [segments]
    simp
  | cons b rest =>
    rw [segments_of_startsRun (h.resolve_left (by simp))]
    simp

theorem greedy_run (h : startsRun (b :: rest) = true)
    (hafter : after.flatMap Segment.expand = rest.drop (runLength maxLength (b :: rest) - 1))
    : Greedy after (.run b (runLength maxLength (b :: rest))) := by
  have hcap : runLength maxLength (b :: rest) ≤ maxLength := runLength_le_cap (by decide) b rest
  refine ⟨startsRun_iff_minRun_le.mp h, hcap, ?_⟩
  rw [hafter]
  apply (runLength_eq_iff runLength_pos hcap b _).mp
  rw [replicate_runLength_append]

theorem greedy_block (h : startsRun (b :: rest) = false)
    : Greedy (segments (rest.drop (blockBytes (maxLength - 1) rest).length))
        (.block (b :: blockBytes (maxLength - 1) rest)) := by
  have hlength := length_blockBytes_le (maxLength - 1) rest
  have hcap : maxLength - 1 + 1 = 0x7E := by rfl
  refine ⟨by simp, ?_, ?_, ?_⟩
  . rw [List.length_cons]
    omega
  . intro i hi c htriple
    rw [flatMap_expand_segments, List.cons_append, blockBytes_append_drop] at htriple
    have hstarts : startsRun ((b :: rest).drop i) = true := startsRun_iff.mpr ⟨c, htriple⟩
    cases i with
    | zero => simp [h] at hstarts
    | succ i =>
      have hmore : i < (blockBytes (maxLength - 1) rest).length := by simpa using hi
      simp [startsRun_drop_of_lt_blockBytes hmore] at hstarts
  . intro more others hblock
    cases blockBytes_ends (maxLength - 1) rest with
    | inl hfull => rw [List.length_cons, hfull, hcap]
    | inr hends => exact absurd hblock (segments_ne_block_cons hends more)

end

theorem greedyCut_segments (data : List UInt8) : GreedyCut (segments data) := by
  fun_induction segments data with
  | case1 => exact greedyCut_nil
  | case2 b rest count hrun ih =>
    rw [greedyCut_cons]
    exact ⟨greedy_run (startsRun_iff_minRun_le.mpr hrun) (flatMap_expand_segments _), ih⟩
  | case3 b rest count hrun more ih =>
    rw [greedyCut_cons]
    refine ⟨greedy_block ?_, ih⟩
    rwa [← Bool.not_eq_true, startsRun_iff_minRun_le]

section

variable {value : UInt8} {count : Nat} {bytes rest : List UInt8} {after records : List Segment}

/-- Bytes none of which begins a run are read as a block, if it has to end where they do. -/
theorem blockBytes_append {limit : Nat} (hlimit : bytes.length ≤ limit)
    (hnone : ∀ i < bytes.length, startsRun ((bytes ++ rest).drop i) = false)
    (hends : bytes.length = limit ∨ rest = [] ∨ startsRun rest = true)
    : blockBytes limit (bytes ++ rest) = bytes := by
  induction bytes generalizing limit with
  | nil =>
    rw [List.nil_append]
    fun_cases blockBytes limit rest with
    | case1 => rfl
    | case2 => rfl
    | case3 limit b rest hstarts => rfl
    | case4 limit b rest hstarts => simp [hstarts] at hends
  | cons b bytes ih =>
    rw [List.length_cons] at hlimit hends
    obtain ⟨limit, rfl⟩ : ∃ n, limit = n + 1 := ⟨limit - 1, by omega⟩
    have hfirst : startsRun (b :: (bytes ++ rest)) = false := hnone 0 (by simp)
    rw [List.cons_append, blockBytes, if_neg (by simp [hfirst])]
    rw [ih (by omega)]
    . intro i hi
      exact hnone (i + 1) (by simpa using hi)
    . exact hends.imp_left Nat.succ.inj

theorem startsRun_replicate_append (h : 3 ≤ count)
    : startsRun (List.replicate count value ++ rest) = true := by
  obtain ⟨more, rfl⟩ := Nat.exists_eq_add_of_le h
  rw [startsRun_iff, ← List.replicate_append_replicate, List.append_assoc]
  exact ⟨value, List.prefix_append _ _⟩

theorem segments_of_greedy_run (h : Greedy after (.run value count))
    (hafter : segments (after.flatMap Segment.expand) = after)
    : segments (List.replicate count value ++ after.flatMap Segment.expand)
        =
      .run value count :: after := by
  obtain ⟨hmin, hcap, hends⟩ := h
  have hstarts : startsRun (List.replicate count value ++ after.flatMap Segment.expand) = true :=
    startsRun_replicate_append hmin
  have hcount : runLength maxLength _ = count :=
    (runLength_eq_iff (by omega) hcap value (after.flatMap Segment.expand)).mpr hends
  obtain ⟨more, rfl⟩ : ∃ n, count = n + 1 := ⟨count - 1, by omega⟩
  rw [List.replicate_succ, List.cons_append] at hcount hstarts ⊢
  rw [segments_of_startsRun hstarts, hcount, Nat.add_sub_cancel]
  rw [List.drop_left' List.length_replicate, hafter]

/-- The block has to end where it does: at its cap, with the data, or at a run. -/
theorem ends_of_greedy_block (h : Greedy after (.block bytes)) (hcut : GreedyCut after)
    : bytes.length = 0x7E ∨ after.flatMap Segment.expand = [] ∨
        startsRun (after.flatMap Segment.expand) = true := by
  obtain ⟨-, -, -, hadjacent⟩ := h
  cases after with
  | nil => exact .inr (.inl rfl)
  | cons next others =>
    cases next with
    | block more => exact .inl (hadjacent more others rfl)
    | run value count =>
      obtain ⟨hmin, -⟩ := (greedyCut_cons.mp hcut).1
      rw [List.flatMap_cons]
      exact .inr (.inr (startsRun_replicate_append hmin))

theorem segments_of_greedy_block (h : Greedy after (.block bytes)) (hcut : GreedyCut after)
    (hafter : segments (after.flatMap Segment.expand) = after)
    : segments (bytes ++ after.flatMap Segment.expand) = .block bytes :: after := by
  have hends := ends_of_greedy_block h hcut
  obtain ⟨hmin, hcap, htriple, -⟩ := h
  have hnone : ∀ i < bytes.length,
      startsRun ((bytes ++ after.flatMap Segment.expand).drop i) = false := by
    intro i hi
    rw [← Bool.not_eq_true, startsRun_iff, not_exists]
    exact htriple i hi
  cases bytes with
  | nil => simp at hmin
  | cons b more =>
    rw [List.length_cons] at hcap hends
    have hlimit : maxLength - 1 + 1 = 0x7E := by rfl
    have hmore : blockBytes (maxLength - 1) (more ++ after.flatMap Segment.expand) = more := by
      apply blockBytes_append
      . omega
      . intro i hi
        exact hnone (i + 1) (by simpa using hi)
      . exact hends.imp_left fun hfull => by omega
    have hfirst : startsRun (b :: (more ++ after.flatMap Segment.expand)) = false :=
      hnone 0 (by simp)
    rw [List.cons_append, segments_of_startsRun_eq_false hfirst, hmore]
    rw [List.drop_left, hafter]

theorem segments_flatMap_expand (h : GreedyCut records)
    : segments (records.flatMap Segment.expand) = records := by
  induction records with
  | nil => rw [List.flatMap_nil, segments]
  | cons record after ih =>
    obtain ⟨hfirst, hafter⟩ := greedyCut_cons.mp h
    rw [List.flatMap_cons]
    cases record with
    | run value count => exact segments_of_greedy_run hfirst (ih hafter)
    | block bytes => exact segments_of_greedy_block hfirst hafter (ih hafter)

end

/-- No code of a segment is another format's, nor an address or end mark. -/
theorem code_of_greedy {record : Segment} {after : List Segment} (h : Greedy after record)
    : ∃ code ∉ [0x00, 0x01, 0x02, 0x7F, 0x80, 0xFF], (encodeSegment record).head? = some code := by
  have hcode : ∀ n, 3 ≤ n → n ≤ 0xFE → n ≠ 0x7F → n ≠ 0x80 →
      UInt8.ofNat n ∉ [0x00, 0x01, 0x02, 0x7F, 0x80, 0xFF] := by
    intro n _ _ _ _
    have hn : (UInt8.ofNat n).toNat = n := by
      rw [UInt8.toNat_ofNat']
      omega
    simp only [List.mem_cons, ← UInt8.toNat_inj, hn]
    simp
    omega
  cases record with
  | run value count =>
    obtain ⟨hmin, hcap, -⟩ := h
    exact ⟨_, hcode count hmin (by omega) (by omega) (by omega), rfl⟩
  | block bytes =>
    obtain ⟨hmin, hcap, -⟩ := h
    exact ⟨_, hcode (0x80 + bytes.length) (by omega) (by omega) (by omega) (by omega), rfl⟩

/-- Behind the header, the packed data is the one greedy cut of the data in segments, and the end mark.
Neither address nor header has a part in it. -/
theorem encode_greedyCut (data : List UInt8)
    : ∃ records,
        (∀ address withHeader,
          encode data address withHeader
            = (Image.checkAddress address).map fun _ =>
                (if withHeader then header address else [])
                  ++ (records.flatMap encodeSegment ++ [0xFF])) ∧
        records.flatMap Segment.expand = data ∧
        GreedyCut records ∧
        (∀ record ∈ records, ∃ code ∉ [0x00, 0x01, 0x02, 0x7F, 0x80, 0xFF],
          (encodeSegment record).head? = some code) ∧
        ∀ others, others.flatMap Segment.expand = data → GreedyCut others → others = records := by
  have hcut := greedyCut_segments data
  refine ⟨segments data, ?_, flatMap_expand_segments data, hcut, ?_, ?_⟩
  . intro address withHeader
    rw [encode, Image.checkAddress]
    split
    . rfl
    . rfl
  . intro record hmem
    obtain ⟨before, after, heq⟩ := List.append_of_mem hmem
    apply code_of_greedy (hcut record after ?_)
    rw [heq]
    exact List.suffix_append before _
  . intro others hexpand hothers
    rw [← hexpand, segments_flatMap_expand hothers]

/-- A run that goes over the cap leaves bytes that begin no run, so they go into a block. -/
theorem encode_greedyCut_over_cap
    : let data := List.replicate 0x80 7 ++ [8]
      encode data 0x2400 true = .ok [0x00, 0x24, 0x7E, 7, 0x83, 7, 7, 8, 0xFF] := by
  intro data
  obtain ⟨records, hencode, -, -, -, honly⟩ := encode_greedyCut data
  have hcut : GreedyCut [.run 7 0x7E, .block [7, 7, 8]] := by
    simp only [greedyCut_cons]
    refine ⟨?_, ?_, greedyCut_nil⟩
    . simp [Greedy]
    . have hnone : ∀ i < 3, startsRun ([7, 7, 8].drop i) = false := by decide
      refine ⟨by decide, by decide, ?_, by simp⟩
      intro i hi b htriple
      have hstarts := startsRun_iff.mpr ⟨b, htriple⟩
      exact Bool.false_ne_true ((hnone i hi).symm.trans hstarts)
  have := honly _ (by decide) hcut
  rw [hencode, ← this]
  rfl

end PpuCodec.Pack.Konami
