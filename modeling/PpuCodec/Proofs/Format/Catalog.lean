import Mathlib.Data.List.Induction
import Mathlib.Data.List.Nodup
import PpuCodec.Format.BuiltIn

/-!
A catalog as a map from keys to formats. It can be made of a list of formats if no two of their keys
are alike. Then each format is found under its key, and the order is that of the list.
-/

namespace PpuCodec

/-- The key of a format as keys are compared. -/
def Format.plainKey (format : Format) : String :=
  Text.lower format.key

theorem Format.answersTo_iff {format : Format} {key : String}
    : format.answersTo key = true ↔ format.plainKey = Text.lower key := by
  apply beq_iff_eq

namespace Catalog

variable {catalog : Catalog} {format : Format} {front formats : List Format} {key other : String}

theorem get?_eq_none_iff
    : catalog.get? key = none
        ↔
      ∀ format ∈ catalog.formats, format.plainKey ≠ Text.lower key := by
  simp only [get?, List.find?_eq_none, Format.answersTo_iff, ne_eq]

theorem contains_iff
    : catalog.contains key = true ↔ ∃ format ∈ catalog.formats, format.plainKey = Text.lower key := by
  simp only [contains, get?, List.find?_isSome, Format.answersTo_iff]

theorem plainKey_of_get? (h : catalog.get? key = some format)
    : format.plainKey = Text.lower key := by
  have hanswers := List.find?_some (p := fun format : Format => format.answersTo key) h
  exact Format.answersTo_iff.mp hanswers

theorem get?_congr (h : Text.lower key = Text.lower other)
    : catalog.get? key = catalog.get? other := by
  simp only [get?, Format.answersTo, h]

theorem get_eq_ok_iff : catalog.get key = .ok format ↔ catalog.get? key = some format := by
  unfold get
  cases catalog.get? key with
  | none => simp
  | some found => simp

theorem get_eq_error_iff {error : Error}
    : catalog.get key = .error error
        ↔
      catalog.get? key = none ∧ error = .unknownFormat key catalog.keys := by
  unfold get
  cases catalog.get? key with
  | none => simp [eq_comm]
  | some found => simp

/-- No two formats of the list have keys that are alike. -/
def Distinct (formats : List Format) : Prop :=
  (formats.map Format.plainKey).Nodup

theorem Distinct.get?_eq_some_iff (h : Distinct catalog.formats)
    : catalog.get? key = some format
        ↔
      format ∈ catalog.formats ∧ format.plainKey = Text.lower key := by
  constructor
  . intro hfound
    exact ⟨List.mem_of_find?_eq_some hfound, plainKey_of_get? hfound⟩
  . rintro ⟨hmem, hkey⟩
    cases hfound : catalog.get? key with
    | none =>
      rw [get?_eq_none_iff] at hfound
      exact absurd hkey (hfound format hmem)
    | some found =>
      have hsame : found = format := by
        apply List.inj_on_of_nodup_map h (List.mem_of_find?_eq_some hfound) hmem
        rw [plainKey_of_get? hfound, hkey]
      rw [hsame]

theorem distinct_concat_iff
    : Distinct (front ++ [format])
        ↔
      Distinct front ∧ ∀ earlier ∈ front, earlier.plainKey ≠ format.plainKey := by
  unfold Distinct
  rw [List.map_append, List.nodup_append]
  simp

theorem add_of_distinct (h : Distinct (catalog.formats ++ [format]))
    : catalog.add format = .ok ⟨catalog.formats ++ [format]⟩ := by
  rw [distinct_concat_iff] at h
  unfold add
  rw [if_neg]
  rw [contains_iff]
  rintro ⟨earlier, hmem, hkey⟩
  exact h.2 earlier hmem hkey

theorem add_of_mem {earlier : Format} (hmem : earlier ∈ catalog.formats)
    (hkey : earlier.plainKey = format.plainKey)
    : catalog.add format = .error (.duplicateKey format.key) := by
  unfold add
  rw [if_pos]
  rw [contains_iff]
  exact ⟨earlier, hmem, hkey⟩

/-- The formats that are still to come are added behind those that are there. -/
theorem foldlM_add_of_distinct (h : Distinct (front ++ formats))
    : formats.foldlM add ⟨front⟩ = .ok ⟨front ++ formats⟩ := by
  induction formats generalizing front with
  | nil =>
    rw [List.append_nil]
    rfl
  | cons format rest ih =>
    rw [← List.singleton_append, ← List.append_assoc] at h ⊢
    have hfirst : Distinct (front ++ [format]) := by
      unfold Distinct at h ⊢
      rw [List.map_append] at h
      exact h.of_append_left
    rw [List.singleton_append, List.foldlM_cons, add_of_distinct hfirst]
    exact ih h

/-- The first format of the list whose key is like that of one in front of it. -/
def FirstClash (formats : List Format) (format : Format) : Prop :=
  ∃ front rest,
    formats = front ++ format :: rest ∧
    Distinct front ∧
    ∃ earlier ∈ front, earlier.plainKey = format.plainKey

theorem distinct_or_exists_firstClash (formats : List Format)
    : Distinct formats ∨ ∃ format, FirstClash formats format := by
  -- What is added behind a list changes nothing about the first clash in it.
  induction formats using List.reverseRecOn with
  | nil => exact .inl List.nodup_nil
  | append_singleton front format ih =>
    cases ih with
    | inl hfront =>
      by_cases hclash : ∃ earlier ∈ front, earlier.plainKey = format.plainKey
      . exact .inr ⟨format, front, [], rfl, hfront, hclash⟩
      . rw [distinct_concat_iff]
        push Not at hclash
        exact .inl ⟨hfront, hclash⟩
    | inr hclash =>
      obtain ⟨clashing, before, rest, hsplit, hdistinct, hearlier⟩ := hclash
      refine .inr ⟨clashing, before, rest ++ [format], ?_, hdistinct, hearlier⟩
      rw [hsplit, List.append_assoc, List.cons_append]

theorem ofList_of_distinct (h : Distinct formats) : ofList formats = .ok ⟨formats⟩ := by
  have hall : Distinct ([] ++ formats) := h
  exact foldlM_add_of_distinct hall

theorem ofList_of_firstClash (h : FirstClash formats format)
    : ofList formats = .error (.duplicateKey format.key) := by
  obtain ⟨front, rest, hsplit, hdistinct, earlier, hmem, hkey⟩ := h
  have hfront : front.foldlM add empty = .ok ⟨front⟩ := foldlM_add_of_distinct hdistinct
  have hadd : add ⟨front⟩ format = .error (.duplicateKey format.key) := add_of_mem hmem hkey
  rw [ofList, hsplit, List.foldlM_append, hfront]
  simp only [bind, Except.bind, List.foldlM_cons, hadd]

theorem ofList_eq_ok_iff : ofList formats = .ok catalog ↔ Distinct formats ∧ catalog = ⟨formats⟩ := by
  cases distinct_or_exists_firstClash formats with
  | inl hdistinct => simp [ofList_of_distinct hdistinct, hdistinct, eq_comm]
  | inr hclash =>
    obtain ⟨format, hclash⟩ := hclash
    rw [ofList_of_firstClash hclash]
    constructor
    . intro h
      contradiction
    . rintro ⟨hdistinct, _⟩
      have := ofList_of_firstClash hclash
      rw [ofList_of_distinct hdistinct] at this
      contradiction

theorem ofList_eq_error_iff {error : Error}
    : ofList formats = .error error
        ↔
      ∃ format, FirstClash formats format ∧ error = .duplicateKey format.key := by
  constructor
  . intro h
    cases distinct_or_exists_firstClash formats with
    | inl hdistinct =>
      rw [ofList_of_distinct hdistinct] at h
      contradiction
    | inr hclash =>
      obtain ⟨format, hclash⟩ := hclash
      rw [ofList_of_firstClash hclash] at h
      injection h with h
      exact ⟨format, hclash, h.symm⟩
  . rintro ⟨format, hclash, rfl⟩
    exact ofList_of_firstClash hclash

/-- What a catalog is that is made of a list, and when it can be made: a map whose keys are compared
without regard to case, with the formats of the list in their order. -/
theorem ofList_isMap (formats : List Format)
    : ((∃ catalog, ofList formats = .ok catalog) ↔ Distinct formats) ∧
      (∀ error, ofList formats = .error error ↔
        ∃ format, FirstClash formats format ∧ error = .duplicateKey format.key) ∧
      ∀ catalog, ofList formats = .ok catalog →
        (∀ key format, catalog.get key = .ok format ↔
          format ∈ formats ∧ Text.lower format.key = Text.lower key) ∧
        (∀ key error, catalog.get key = .error error ↔
          (∀ format ∈ formats, Text.lower format.key ≠ Text.lower key) ∧
          error = .unknownFormat key (formats.map (·.key))) ∧
        (∀ key, catalog.contains key = true ↔ ∃ format, catalog.get key = .ok format) ∧
        (∀ key other, Text.lower key = Text.lower other →
          (∃ format, catalog.get key = .ok format ∧ catalog.get other = .ok format) ∨
          (∃ error error', catalog.get key = .error error ∧ catalog.get other = .error error')) ∧
        catalog.formats = formats ∧
        catalog.keys = formats.map (·.key) ∧
        catalog.size = formats.length := by
  refine ⟨?_, fun error => ofList_eq_error_iff, ?_⟩
  . simp [ofList_eq_ok_iff]
  . intro catalog h
    obtain ⟨hdistinct, rfl⟩ := ofList_eq_ok_iff.mp h
    refine ⟨?_, ?_, ?_, ?_, rfl, rfl, rfl⟩
    . intro key format
      rw [get_eq_ok_iff]
      exact Distinct.get?_eq_some_iff hdistinct
    . intro key error
      rw [get_eq_error_iff, get?_eq_none_iff]
      rfl
    . intro key
      simp only [get_eq_ok_iff]
      apply Option.isSome_iff_exists
    . intro key other hlike
      have hsame : get? ⟨formats⟩ key = get? ⟨formats⟩ other := get?_congr hlike
      cases hfound : get? ⟨formats⟩ key with
      | none =>
        rw [hfound] at hsame
        exact .inr ⟨_, _, get_eq_error_iff.mpr ⟨hfound, rfl⟩, get_eq_error_iff.mpr ⟨hsame.symm, rfl⟩⟩
      | some format =>
        rw [hfound] at hsame
        exact .inl ⟨format, get_eq_ok_iff.mpr hfound, get_eq_ok_iff.mpr hsame.symm⟩

/-- The catalog of the formats that are built in is made of their list. -/
theorem ofList_isMap_builtIn
    : ofList builtIn.formats = .ok builtIn ∧
      builtIn.get "KONAMI2" = .ok Format.konami2 ∧
      builtIn.get "lz77" = .error (.unknownFormat "lz77" builtIn.keys) := by
  have hlist : ofList builtIn.formats = .ok builtIn := by rfl
  obtain ⟨_, _, hmap⟩ := ofList_isMap builtIn.formats
  obtain ⟨hget, hunknown, _⟩ := hmap builtIn hlist
  refine ⟨hlist, ?_, ?_⟩
  . rw [hget]
    exact ⟨by simp [builtIn], by decide⟩
  . rw [hunknown]
    refine ⟨?_, rfl⟩
    simp only [builtIn, List.forall_mem_cons]
    decide

end Catalog

end PpuCodec
