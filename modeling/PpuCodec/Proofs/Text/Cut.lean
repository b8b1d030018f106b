import PpuCodec.Text.Blank

/-!
Texts that are cut at the characters of a class, and texts with white space around them.
-/

namespace PpuCodec.Text

section

variable {p : Char → Bool}

/-- A text is a single piece, or a piece in front of a cut and of a text that is cut in turn. -/
theorem cut_induction {motive : List Char → Prop}
    (whole : ∀ piece, (∀ c ∈ piece, p c = false) → motive piece)
    (split : ∀ piece c rest, (∀ d ∈ piece, p d = false) → p c = true → motive rest →
      motive (piece ++ c :: rest))
    (text : List Char)
    : motive text := by
  -- The piece that is being read grows to the left of what is left of the text.
  suffices h : ∀ piece, (∀ c ∈ piece, p c = false) → motive (piece ++ text) from h [] (by simp)
  induction text with
  | nil =>
    intro piece hpiece
    rw [List.append_nil]
    exact whole piece hpiece
  | cons c rest ih =>
    intro piece hpiece
    cases hc : p c with
    | true => exact split piece c rest hpiece hc (ih [] (by simp))
    | false =>
      have hgrown : ∀ d ∈ piece ++ [c], p d = false := by
        intro d hd
        cases List.mem_append.mp hd with
        | inl hmem => exact hpiece d hmem
        | inr hlast => rw [List.mem_singleton.mp hlast, hc]
      have := ih (piece ++ [c]) hgrown
      rwa [List.append_assoc] at this

theorem cut_append_cons {piece : List Char} (hpiece : ∀ d ∈ piece, p d = false) {c : Char}
    (hc : p c = true) (rest : List Char)
    : cut p (piece ++ c :: rest) = (piece, (cut p rest).1 :: (cut p rest).2) := by
  induction piece with
  | nil => exact cut_cons hc rest
  | cons d piece ih =>
    simp only [List.mem_cons, forall_eq_or_imp] at hpiece
    rw [List.cons_append]
    simp [cut, ih hpiece.2, hpiece.1]

theorem pieces_eq_singleton {piece : List Char} (h : ∀ c ∈ piece, p c = false)
    : pieces p piece = [piece] := by
  rw [pieces, cut_eq_self h]

theorem mem_of_mem_pieces {s piece : List Char} (h : piece ∈ pieces p s) {c : Char}
    (hc : c ∈ piece)
    : c ∈ s := by
  induction s using cut_induction (p := p) with
  | whole front hfront =>
    rw [pieces_eq_singleton hfront, List.mem_singleton] at h
    rwa [h] at hc
  | split front d rest hfront hd ih =>
    rw [pieces_append hd, pieces_eq_singleton hfront, List.mem_append, List.mem_singleton] at h
    rw [List.mem_append, List.mem_cons]
    cases h with
    | inl heq =>
      rw [heq] at hc
      exact .inl hc
    | inr hmem => exact .inr (.inr (ih hmem))

end

section

variable {c : Char} {parts : List (List Char)}

theorem pieces_eq_of_not_mem {s : List Char} (h : c ∉ s) : pieces (· == c) s = [s] := by
  apply pieces_eq_singleton
  intro d hd
  rw [beq_eq_false_iff_ne]
  rintro rfl
  exact h hd

theorem pieces_join (hne : parts ≠ []) (h : ∀ part ∈ parts, c ∉ part)
    : pieces (· == c) (join c parts) = parts := by
  induction parts with
  | nil => contradiction
  | cons part rest ih =>
    simp only [List.mem_cons, forall_eq_or_imp] at h
    cases rest with
    | nil => exact pieces_eq_of_not_mem h.1
    | cons next rest =>
      rw [join, pieces_append (by simp), pieces_eq_of_not_mem h.1, ih (by simp) h.2]
      . rfl
      . simp

theorem eq_or_exists_of_mem_join {d : Char} (h : d ∈ join c parts)
    : d = c ∨ ∃ part ∈ parts, d ∈ part := by
  induction parts with
  | nil => contradiction
  | cons part rest ih =>
    cases rest with
    | nil => exact .inr ⟨part, List.mem_cons_self, h⟩
    | cons next rest =>
      rw [join, List.mem_append, List.mem_cons] at h
      . rcases h with hpart | heq | hrest
        . exact .inr ⟨part, List.mem_cons_self, hpart⟩
        . exact .inl heq
        . refine (ih hrest).imp_right ?_
          rintro ⟨other, hmem, hd⟩
          exact ⟨other, List.mem_cons_of_mem part hmem, hd⟩
      . simp

theorem exists_join_cons (c : Char) (part : List Char) (rest : List (List Char))
    : ∃ back, join c (part :: rest) = part ++ back := by
  cases rest with
  | nil => exact ⟨[], (List.append_nil part).symm⟩
  | cons next rest => exact ⟨_, rfl⟩

theorem exists_join_append (c : Char) (front : List (List Char)) (part : List Char)
    : ∃ before, join c (front ++ [part]) = before ++ part := by
  induction front with
  | nil => exact ⟨[], rfl⟩
  | cons first front ih =>
    obtain ⟨before, hjoin⟩ := ih
    refine ⟨first ++ c :: before, ?_⟩
    rw [List.cons_append, join, hjoin]
    . rw [List.append_assoc, List.cons_append]
    . simp

theorem intercalate_eq_join (c : Char) (parts : List (List Char))
    : [c].intercalate parts = join c parts := by
  induction parts with
  | nil => rfl
  | cons part rest ih =>
    cases rest with
    | nil => simp [join]
    | cons next rest =>
      rw [List.intercalate_cons_cons, ih]
      simp [join]

end

section

variable {s front back : List Char}

theorem strip_eq_self (h : ∀ c ∈ s, isBlank c = false) : strip s = s := by
  have hfront : s.dropWhile isBlank = s := by
    cases s with
    | nil => rfl
    | cons c rest =>
      apply List.dropWhile_cons_of_neg
      simp [h c]
  have hback : s.reverse.dropWhile isBlank = s.reverse := by
    cases hs : s.reverse with
    | nil => rfl
    | cons c rest =>
      have hmem : c ∈ s := by
        rw [← List.mem_reverse, hs]
        exact List.mem_cons_self
      apply List.dropWhile_cons_of_neg
      simp [h c hmem]
  rw [strip, hfront, hback, List.reverse_reverse]

/-- White space around a text is stripped off, whatever the text. -/
theorem strip_append (hfront : ∀ c ∈ front, isBlank c = true)
    (hback : ∀ c ∈ back, isBlank c = true)
    : strip (front ++ s ++ back) = strip s := by
  have hblank : ∀ c ∈ back.reverse, isBlank c = true := by
    intro c hc
    exact hback c (List.mem_reverse.mp hc)
  unfold strip
  rw [List.append_assoc, List.dropWhile_append_of_pos hfront]
  rw [List.dropWhile_append]
  split
  . next hempty =>
    rw [List.isEmpty_iff] at hempty
    have hall : (back ++ []).dropWhile isBlank = [] := by
      rw [List.dropWhile_append_of_pos hback, List.dropWhile_nil]
    rw [List.append_nil] at hall
    rw [hempty, hall]
  . rw [List.reverse_append, List.dropWhile_append_of_pos hblank]

theorem exists_eq_append_strip (s : List Char)
    : ∃ front back,
        s = front ++ strip s ++ back ∧
        (∀ c ∈ front, isBlank c = true) ∧
        (∀ c ∈ back, isBlank c = true) := by
  refine ⟨s.takeWhile isBlank,
    ((s.dropWhile isBlank).reverse.takeWhile isBlank).reverse, ?_, ?_, ?_⟩
  . rw [strip, List.append_assoc, ← List.reverse_append]
    rw [List.takeWhile_append_dropWhile, List.reverse_reverse]
    rw [List.takeWhile_append_dropWhile]
  . exact List.all_eq_true.mp List.all_takeWhile
  . intro c hc
    exact List.all_eq_true.mp List.all_takeWhile c (List.mem_reverse.mp hc)

theorem strip_strip (s : List Char) : strip (strip s) = strip s := by
  obtain ⟨front, back, hs, hfront, hback⟩ := exists_eq_append_strip s
  have := strip_append (s := strip s) hfront hback
  rw [← hs] at this
  exact this.symm

end

end PpuCodec.Text
