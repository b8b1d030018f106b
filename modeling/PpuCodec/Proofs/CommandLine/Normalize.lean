import PpuCodec.CommandLine
import PpuCodec.Proofs.Text.Cut

/-!
Flags with a colon in front of their value. Only a colon that comes first, before any equals sign,
is read as one; the value behind it stays as it is. A command line means the same in both forms.
-/

namespace PpuCodec.CommandLine

/-- The name of a flag as it is typed, up to where a value begins. -/
structure IsFlagName (name : List Char) : Prop where
  head? : name.head? = some '-'
  colon_not_mem : ':' ∉ name
  equals_not_mem : '=' ∉ name

instance (name : List Char) : Decidable (IsFlagName name) :=
  decidable_of_iff (name.head? = some '-' ∧ ':' ∉ name ∧ '=' ∉ name)
    ⟨fun ⟨hhead, hcolon, hequals⟩ => ⟨hhead, hcolon, hequals⟩,
      fun h => ⟨h.head?, h.colon_not_mem, h.equals_not_mem⟩⟩

theorem isFlagName_of_mem_named {name : String} {flag : Flag} (h : (name, flag) ∈ Flag.named)
    : IsFlagName name.toList := by
  have hall : Flag.named.all (fun known => IsFlagName known.1.toList) = true := by
    decide +kernel
  simpa using List.all_eq_true.mp hall (name, flag) h

/-- The word is the name of a flag and, behind a colon, a value. -/
def HasColonForm (word : List Char) : Prop :=
  ∃ name value, IsFlagName name ∧ word = name ++ ':' :: value

section

variable {name value word : List Char}

theorem normalizeChars_colon (h : IsFlagName name) (value : List Char)
    : normalizeChars (name ++ ':' :: value) = name ++ '=' :: value := by
  have hname : ∀ c ∈ name, (c != ':') = true := by
    intro c hc
    rw [bne_iff_ne]
    rintro rfl
    exact h.colon_not_mem hc
  have hhead : (name ++ ':' :: value).head? = some '-' := by
    rw [List.head?_append, h.head?]
    rfl
  have htake : (name ++ ':' :: value).takeWhile (· != ':') = name := by
    rw [List.takeWhile_append_of_pos hname]
    simp
  have hdrop : (name ++ ':' :: value).dropWhile (· != ':') = ':' :: value := by
    rw [List.dropWhile_append_of_pos hname]
    simp
  unfold normalizeChars
  rw [htake, hdrop, hhead]
  simp [h.equals_not_mem]

/-- What stands in front of the first colon is the name, if no equals sign stands there. -/
theorem hasColonForm_of_dropWhile {c : Char} (hhead : word.head? = some '-')
    (hdrop : word.dropWhile (· != ':') = c :: value) (hequals : '=' ∉ word.takeWhile (· != ':'))
    : HasColonForm word := by
  have hcolon : (c != ':') = false := by
    have := List.head?_dropWhile_not (· != ':') word
    rwa [hdrop] at this
  rw [bne_eq_false_iff_eq] at hcolon
  rw [hcolon] at hdrop
  refine ⟨word.takeWhile (· != ':'), value, ?_, ?_⟩
  . constructor
    . rw [List.head?_takeWhile, hhead]
      rfl
    . intro hmem
      have := List.all_eq_true.mp List.all_takeWhile ':' hmem
      simp at this
    . exact hequals
  . rw [← hdrop, List.takeWhile_append_dropWhile]

theorem normalizeChars_of_not_hasColonForm (h : ¬ HasColonForm word)
    : normalizeChars word = word := by
  unfold normalizeChars
  split
  . next c value hhead hdrop =>
    apply ite_eq_left_iff.mpr
    intro hequals
    apply absurd _ h
    apply hasColonForm_of_dropWhile hhead hdrop
    simpa using hequals
  . rfl

theorem IsFlagName.not_mem (h : IsFlagName name)
    : ∀ c ∈ name, (c == ':' || c == '=') = false := by
  intro c hc
  rw [Bool.or_eq_false_iff, beq_eq_false_iff_ne, beq_eq_false_iff_ne]
  constructor
  . rintro rfl
    exact h.colon_not_mem hc
  . rintro rfl
    exact h.equals_not_mem hc

theorem not_hasColonForm_equals (h : IsFlagName name) (value : List Char)
    : ¬ HasColonForm (name ++ '=' :: value) := by
  rintro ⟨other, rest, hother, heq⟩
  have hcut := Text.cut_append_cons h.not_mem (by rfl : ('=' == ':' || '=' == '=') = true) value
  have hcut' := Text.cut_append_cons hother.not_mem (by rfl : (':' == ':' || ':' == '=') = true) rest
  rw [← heq, hcut] at hcut'
  obtain rfl : name = other := congrArg Prod.fst hcut'
  have := List.append_cancel_left heq
  simp at this

theorem not_hasColonForm_normalizeChars (word : List Char)
    : ¬ HasColonForm (normalizeChars word) := by
  by_cases h : HasColonForm word
  . obtain ⟨name, value, hname, rfl⟩ := h
    rw [normalizeChars_colon hname]
    exact not_hasColonForm_equals hname value
  . rwa [normalizeChars_of_not_hasColonForm h]

theorem HasColonForm.head? (h : HasColonForm word) : word.head? = some '-' := by
  obtain ⟨name, value, hname, rfl⟩ := h
  rw [List.head?_append, hname.head?]
  rfl

end

theorem normalize_of_not_hasColonForm {word : String} (h : ¬ HasColonForm word.toList)
    : normalize word = word := by
  rw [normalize, normalizeChars_of_not_hasColonForm h, String.ofList_toList]

theorem toList_colon (name value : String)
    : (name ++ ":" ++ value).toList = name.toList ++ ':' :: value.toList := by
  simp

theorem toList_equals (name value : String)
    : (name ++ "=" ++ value).toList = name.toList ++ '=' :: value.toList := by
  simp

theorem normalize_colon {name : String} (h : IsFlagName name.toList) (value : String)
    : normalize (name ++ ":" ++ value) = name ++ "=" ++ value := by
  rw [normalize, toList_colon, normalizeChars_colon h, ← toList_equals, String.ofList_toList]

theorem normalize_equals {name : String} (h : IsFlagName name.toList) (value : String)
    : normalize (name ++ "=" ++ value) = name ++ "=" ++ value := by
  apply normalize_of_not_hasColonForm
  rw [toList_equals]
  exact not_hasColonForm_equals h value.toList

theorem normalize_normalize (word : String) : normalize (normalize word) = normalize word := by
  apply normalize_of_not_hasColonForm
  rw [normalize, String.toList_ofList]
  apply not_hasColonForm_normalizeChars

theorem map_normalize_map_normalize (words : List String)
    : (words.map normalize).map normalize = words.map normalize := by
  rw [List.map_map]
  apply List.map_congr_left
  intro word _
  exact normalize_normalize word

theorem run_map_normalize (words : List String) (store : Store)
    : run (words.map normalize) store = run words store := by
  unfold run Settings.parse
  rw [map_normalize_map_normalize]

theorem run_congr {words other : List String} (h : words.map normalize = other.map normalize)
    (store : Store)
    : run words store = run other store := by
  rw [← run_map_normalize, h, run_map_normalize]

/-- Words keep their number and their order, and a second time nothing changes. What is no flag with a
colon stays as it is, above all a word that is no flag. The two forms of a flag and its value become
the same word, the one with the equals sign, so it does not matter which of them is given. -/
theorem normalize_interchangeable
    : (∀ words : List String,
        (words.map normalize).length = words.length ∧
        (∀ i : Nat, (words.map normalize)[i]? = words[i]?.map normalize) ∧
        (words.map normalize).map normalize = words.map normalize) ∧
      (∀ word : String, ¬ HasColonForm word.toList → normalize word = word) ∧
      (∀ word : String, word.toList.head? ≠ some '-' → normalize word = word) ∧
      ∀ name value : String, IsFlagName name.toList →
        normalize (name ++ ":" ++ value) = name ++ "=" ++ value ∧
        normalize (name ++ "=" ++ value) = name ++ "=" ++ value ∧
        ∀ front back store,
          run (front ++ (name ++ ":" ++ value) :: back) store
            =
          run (front ++ (name ++ "=" ++ value) :: back) store := by
  refine ⟨?_, ?_, ?_, ?_⟩
  . intro words
    exact ⟨List.length_map _, fun i => List.getElem?_map, map_normalize_map_normalize words⟩
  . intro word
    exact normalize_of_not_hasColonForm
  . intro word hhead
    apply normalize_of_not_hasColonForm
    intro hcolon
    exact hhead hcolon.head?
  . intro name value hname
    have hcolon := normalize_colon hname value
    have hequals := normalize_equals hname value
    refine ⟨hcolon, hequals, ?_⟩
    intro front back store
    apply run_congr
    rw [List.map_append, List.map_append, List.map_cons, List.map_cons]
    rw [hcolon, hequals]

/-- In the value a colon and an equals sign stand as they are. -/
theorem normalize_interchangeable_place
    : normalize "-d:a=b:0x10" = "-d=a=b:0x10" ∧
      normalize "-d=a=b:0x10" = "-d=a=b:0x10" ∧
      normalize "a:-b" = "a:-b" ∧
      ∀ store, run ["-m", "konami", "-d:a=b:0x10"] store = run ["-m", "konami", "-d=a=b:0x10"] store
    := by
  obtain ⟨_, _, hvalue, hforms⟩ := normalize_interchangeable
  have hknown : ("-d", Flag.decompress) ∈ Flag.named := by decide
  have hname := isFlagName_of_mem_named hknown
  obtain ⟨hcolon, hequals, hrun⟩ := hforms "-d" "a=b:0x10" hname
  exact ⟨hcolon, hequals, hvalue "a:-b" (by decide), hrun ["-m", "konami"] []⟩

end PpuCodec.CommandLine
