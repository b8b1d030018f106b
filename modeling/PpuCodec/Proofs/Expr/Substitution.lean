import PpuCodec.Proofs.Expr.Grammar
import PpuCodec.Proofs.Rule.Checked
import PpuCodec.Template

/-!
Placeholders that are replaced by numbers, in a text and in the tree that it is read as. To read the
text and then to put in the bytes is the same as to put their digits in and then to read it.
-/

namespace PpuCodec.Expr

/-- What is written for a placeholder: the decimal digits of its byte, or the placeholder itself if
there is no such byte. -/
def digitsAt (look : Lookahead) (i : Nat) : List Char :=
  match look[i]?.join with
  | some b => Nat.toDigits 10 b.toNat
  | none => '[' :: Nat.toDigits 10 i ++ [']']

/-- The text with digits in the place of each placeholder. -/
def fillIn (look : Lookahead) : List Char → List Char
  | '[' :: '0' :: ']' :: rest => digitsAt look 0 ++ fillIn look rest
  | '[' :: '1' :: ']' :: rest => digitsAt look 1 ++ fillIn look rest
  | '[' :: '2' :: ']' :: rest => digitsAt look 2 ++ fillIn look rest
  | c :: rest => c :: fillIn look rest
  | [] => []

def substitute (look : Lookahead) : Expr → Expr
  | .literal n => .literal n
  | .byte i =>
    match look[i.val]?.join with
    | some b => .literal b.toNat
    | none => .byte i
  | .binary op left right => .binary op (left.substitute look) (right.substitute look)

/-- The characters of placeholders, and of the numbers that are written in their place. -/
def isLeafChar (c : Char) : Bool :=
  c == '[' || c == ']' || c.isDigit

def Apart (p : Char → Bool) : Prop :=
  ∀ c, isLeafChar c = true → p c = false

section

variable {look : Lookahead} {s rest : List Char} {c : Char}

theorem fillIn_cons_of_ne (h : c ≠ '[') (rest : List Char)
    : fillIn look (c :: rest) = c :: fillIn look rest := by
  rw [fillIn]
  all_goals simp [h]

theorem fillIn_append_of_not_mem (look : Lookahead) (h : '[' ∉ s) (rest : List Char)
    : fillIn look (s ++ rest) = s ++ fillIn look rest := by
  induction s with
  | nil => rfl
  | cons c s ih =>
    simp only [List.mem_cons, not_or] at h
    rw [List.cons_append, fillIn_cons_of_ne (Ne.symm h.1), ih h.2]
    rfl

theorem fillIn_eq_self (look : Lookahead) (h : '[' ∉ s) : fillIn look s = s := by
  have := fillIn_append_of_not_mem look h []
  rwa [fillIn, List.append_nil] at this

theorem exists_eq_of_append_cons {d : Char} {tail : List Char} (hd : c ≠ d) (hc : c ≠ ']')
    (h : s ++ c :: rest = d :: ']' :: tail)
    : ∃ front, s = d :: ']' :: front := by
  match s with
  | [] => simp [hd] at h
  | [x] => simp [hc] at h
  | x :: y :: front =>
    simp only [List.cons_append, List.cons.injEq] at h
    exact ⟨front, by rw [h.1, h.2.1]⟩

/-- A character that occurs in no placeholder ends what may be one. -/
theorem fillIn_append_cons (hc : isLeafChar c = false) (rest : List Char)
    : fillIn look (s ++ c :: rest) = fillIn look s ++ c :: fillIn look rest := by
  have hne : ∀ d, isLeafChar d = true → c ≠ d := by
    rintro d hd rfl
    simp [hc] at hd
  have hclose : c ≠ ']' := hne ']' rfl
  fun_induction fillIn look s with
  | case1 s ih => simp [fillIn, ih]
  | case2 s ih => simp [fillIn, ih]
  | case3 s ih => simp [fillIn, ih]
  | case4 d s h0 h1 h2 ih =>
    rw [List.cons_append, fillIn, ih]
    . rfl
    . intro tail hd htail
      obtain ⟨front, hs⟩ := exists_eq_of_append_cons (hne '0' rfl) hclose htail
      exact h0 front hd hs
    . intro tail hd htail
      obtain ⟨front, hs⟩ := exists_eq_of_append_cons (hne '1' rfl) hclose htail
      exact h1 front hd hs
    . intro tail hd htail
      obtain ⟨front, hs⟩ := exists_eq_of_append_cons (hne '2' rfl) hclose htail
      exact h2 front hd hs
  | case5 => exact fillIn_cons_of_ne (hne '[' rfl) rest

theorem digitsAt_ne_nil (look : Lookahead) (i : Nat) : digitsAt look i ≠ [] := by
  unfold digitsAt
  split
  . exact Nat.toDigits_ne_nil
  . simp

theorem isLeafChar_of_mem_digitsAt {i : Nat} (h : c ∈ digitsAt look i) : isLeafChar c = true := by
  have hdigit : ∀ n, c ∈ Nat.toDigits 10 n → isLeafChar c = true := by
    intro n hc
    simp [isLeafChar, Nat.isDigit_of_mem_toDigits (by decide) (by decide) hc]
  unfold digitsAt at h
  split at h
  . exact hdigit _ h
  . rw [List.mem_append, List.mem_cons, List.mem_singleton] at h
    rcases h with (rfl | hmem) | rfl
    . rfl
    . exact hdigit _ hmem
    . rfl

theorem mem_or_isLeafChar_of_mem_fillIn (h : c ∈ fillIn look s)
    : c ∈ s ∨ isLeafChar c = true := by
  fun_induction fillIn look s with
  | case4 d s h0 h1 h2 ih =>
    cases List.mem_cons.mp h with
    | inl heq => exact .inl (by simp [heq])
    | inr hmem =>
      cases ih hmem with
      | inl hs => exact .inl (List.mem_cons_of_mem _ hs)
      | inr hleaf => exact .inr hleaf
  | case5 => simp at h
  | _ s ih =>
    cases List.mem_append.mp h with
    | inl hdigits => exact .inr (isLeafChar_of_mem_digitsAt hdigits)
    | inr hmem =>
      cases ih hmem with
      | inl hs => exact .inl (by simp [hs])
      | inr hleaf => exact .inr hleaf

theorem isEmpty_fillIn (look : Lookahead) (s : List Char)
    : (fillIn look s).isEmpty = s.isEmpty := by
  fun_cases fillIn look s with
  | case4 => rfl
  | case5 => rfl
  | _ => simp [digitsAt_ne_nil]

section

variable {p : Char → Bool}

theorem Apart.fillIn (h : Apart p) (hs : ∀ c ∈ s, p c = false)
    : ∀ c ∈ fillIn look s, p c = false := by
  intro c hc
  cases mem_or_isLeafChar_of_mem_fillIn hc with
  | inl hmem => exact hs c hmem
  | inr hleaf => exact h c hleaf

theorem Apart.isLeafChar_eq_false (h : Apart p) (hc : p c = true) : isLeafChar c = false := by
  cases hleaf : isLeafChar c with
  | false => rfl
  | true => simp [h c hleaf] at hc

theorem pieces_fillIn (h : Apart p) (s : List Char)
    : Text.pieces p (Expr.fillIn look s) = (Text.pieces p s).map (Expr.fillIn look) := by
  induction s using Text.cut_induction (p := p) with
  | whole piece hpiece =>
    rw [Text.pieces_eq_singleton hpiece, Text.pieces_eq_singleton (h.fillIn hpiece)]
    rfl
  | split piece c rest hpiece hc ih =>
    rw [fillIn_append_cons (h.isLeafChar_eq_false hc)]
    rw [Text.pieces_append hc, Text.pieces_append hc, ih]
    rw [Text.pieces_eq_singleton hpiece, Text.pieces_eq_singleton (h.fillIn hpiece)]
    rfl

theorem apart_isBlank : Apart Text.isBlank := by
  intro c hc
  simp only [isLeafChar, Bool.or_eq_true, beq_iff_eq] at hc
  rcases hc with (rfl | rfl) | hdigit
  . rfl
  . rfl
  . exact Numeral.isBlank_eq_false_of_isDigit hdigit

theorem apart_symbol (op : Operator) : Apart (· == op.symbol) := by
  intro c hc
  rw [beq_eq_false_iff_ne]
  rintro rfl
  cases op <;> simp [isLeafChar, Operator.symbol, Char.isDigit] at hc

theorem words_fillIn (s : List Char)
    : Text.words (fillIn look s) = (Text.words s).map (fillIn look) := by
  rw [Text.words, pieces_fillIn apart_isBlank, List.filter_map, Text.words]
  congr 2
  funext piece
  simp [isEmpty_fillIn]

end

variable {e : Expr}

theorem fillIn_print_byte (i : Fin 3) (rest : List Char)
    : fillIn look ((byte i).print ++ rest) = digitsAt look i ++ fillIn look rest := by
  match i with
  | 0 => rfl
  | 1 => rfl
  | 2 => rfl

theorem denotes_digitsAt (look : Lookahead) (i : Fin 3)
    : Denotes (digitsAt look i) ((byte i).substitute look) := by
  have hstrip : Text.strip (digitsAt look i) = digitsAt look i := by
    apply Text.strip_eq_self
    intro c hc
    exact apart_isBlank c (isLeafChar_of_mem_digitsAt hc)
  unfold digitsAt substitute at *
  cases hbyte : look[i.val]?.join with
  | none =>
    simp only [hbyte] at hstrip
    exact hstrip
  | some b =>
    simp only [hbyte] at hstrip
    rw [Denotes, hstrip]
    exact Numeral.parseChars?_toDigits b.toNat

theorem denotes_fillIn (h : Denotes s e) : Denotes (fillIn look s) (e.substitute look) := by
  cases e with
  | literal n =>
    -- There are no placeholders in a number.
    have hnone : '[' ∉ s := by
      intro hmem
      rw [Denotes, Numeral.parseChars?_strip] at h
      exact absurd (Numeral.isNumeralChar_of_parseChars? h '[' hmem) (by decide)
    rw [fillIn_eq_self look hnone]
    exact h
  | byte i =>
    obtain ⟨front, back, hs, hfront, hback⟩ := Text.exists_eq_append_strip s
    have hopen : ∀ {blank : List Char}, (∀ c ∈ blank, Text.isBlank c = true) → '[' ∉ blank := by
      intro blank hblank hmem
      exact absurd (hblank _ hmem) (by decide)
    have hfilled : fillIn look s = front ++ digitsAt look i ++ back := by
      rw [hs, h, List.append_assoc, fillIn_append_of_not_mem look (hopen hfront)]
      rw [fillIn_print_byte, fillIn_eq_self look (hopen hback), List.append_assoc]
    have hstrip : Text.strip (fillIn look s) = Text.strip (digitsAt look i) := by
      rw [hfilled, Text.strip_append hfront hback]
    exact (denotes_congr hstrip _).mpr (denotes_digitsAt look i)
  | binary op left right => exact h.elim

/-- To fill in the text before it is read is to substitute in the tree afterwards. -/
def Commutes (look : Lookahead) (reader : List Char → Except Error Expr) : Prop :=
  ∀ s e, reader s = .ok e → reader (fillIn look s) = .ok (e.substitute look)

theorem commutes_atom : Commutes look atom := by
  intro s e h
  rw [atom_eq_ok_iff] at h ⊢
  exact denotes_fillIn h

theorem Commutes.level {operand : List Char → Except Error Expr} (hoperand : Commutes look operand)
    (op : Operator)
    : Commutes look (level op operand) := by
  have hapart := apart_symbol op
  intro s
  induction s using Text.cut_induction (p := (· == op.symbol)) with
  | whole piece hpiece =>
    intro e h
    rw [level_eq_operand hpiece] at h
    rw [level_eq_operand (hapart.fillIn hpiece)]
    exact hoperand piece e h
  | split piece c rest hpiece hc ih =>
    intro e h
    rw [beq_iff_eq.mp hc] at h ⊢
    obtain ⟨left, right, hleft, hright, rfl⟩ := exists_of_level_append_cons hpiece h
    rw [fillIn_append_cons (hapart.isLeafChar_eq_false (by simp))]
    rw [level_append_cons (hapart.fillIn hpiece), hoperand piece left hleft, ih right hright]
    rfl

theorem commutes_parseChars : Commutes look parseChars :=
  (((commutes_atom.level .div).level .mul).level .sub).level .add

/-- The bytes that the expression mentions are there, and they are natural numbers. -/
def HasBytes (look : Lookahead) (e : Expr) : Prop :=
  ∀ i : Fin 3, e.mentions i = true → ∃ n : Nat, look[i.val]?.join = some (n : Int)

theorem HasBytes.left {op : Operator} {left right : Expr} (h : HasBytes look (.binary op left right))
    : HasBytes look left := by
  intro i hi
  exact h i (by simp [mentions, hi])

theorem HasBytes.right {op : Operator} {left right : Expr}
    (h : HasBytes look (.binary op left right))
    : HasBytes look right := by
  intro i hi
  exact h i (by simp [mentions, hi])

theorem HasBytes.eval_substitute (h : HasBytes look e)
    : (e.substitute look).eval [] = e.eval look := by
  induction e with
  | literal n => rfl
  | byte i =>
    obtain ⟨n, hn⟩ := h i (by simp [mentions])
    simp [substitute, eval, hn]
  | binary op left right ihl ihr =>
    rw [substitute, eval, eval, ihl h.left, ihr h.right]

theorem HasBytes.mentions_substitute (h : HasBytes look e) (i : Fin 3)
    : (e.substitute look).mentions i = false := by
  induction e with
  | literal n => rfl
  | byte j =>
    obtain ⟨n, hn⟩ := h j (by simp [mentions])
    simp [substitute, mentions, hn]
  | binary op left right ihl ihr =>
    rw [substitute, mentions, ihl h.left, ihr h.right]
    rfl

/-- An expression that has its bytes fails in nothing but a division. -/
theorem HasBytes.error_eq (h : HasBytes look e) {error : Error} (herror : e.eval look = .error error)
    : error = .divisionByZero := by
  have hpresent : ∀ i : Fin 3, e.mentions i = true → ∃ b, look[i.val]?.join = some b := by
    intro i hi
    obtain ⟨n, hn⟩ := h i hi
    exact ⟨n, hn⟩
  cases eval_eq_ok_or_divisionByZero hpresent with
  | inl hvalue =>
    obtain ⟨v, hv⟩ := hvalue
    simp [hv] at herror
  | inr hdivision => simpa [hdivision, eq_comm] using herror

end

end PpuCodec.Expr

namespace PpuCodec.Template

/-- The text of a template with digits in the place of each placeholder. -/
def fillIn (look : Lookahead) (text : String) : String :=
  String.ofList (Expr.fillIn look text.toList)

/-- The values of the words of a text, each of which is read as an expression on its own. -/
def wordValues (text : String) : List (Except Expr.Error Int) :=
  (Text.words text.toList).map fun word => Expr.evaluate (String.ofList word)

/-- The bytes that the template mentions are there, and they are natural numbers. -/
def HasBytes (look : Lookahead) (template : Template) : Prop :=
  ∀ i : Fin 3, template.mentions i = true → ∃ n : Nat, look[i.val]?.join = some (n : Int)

section

variable {text : String} {template : Template} {look : Lookahead}

theorem parse_eq_ok_iff
    : parse text = .ok template
        ↔
      template.text = text ∧
        List.Forall₂ (fun word e => Expr.parseChars word = .ok e) (Text.words text.toList)
          template.parts := by
  rw [← Expr.mapM_eq_ok_iff, parse]
  cases template with
  | mk shown parts =>
    cases (Text.words text.toList).mapM Expr.parseChars with
    | error error => simp [bind, Except.bind]
    | ok es => simp [bind, Except.bind, pure, Except.pure, eq_comm]

theorem wordValues_eq (h : parse text = .ok template)
    : wordValues text = template.parts.map (·.eval []) := by
  have hparts := (parse_eq_ok_iff.mp h).2
  unfold wordValues
  generalize Text.words text.toList = words at hparts ⊢
  generalize template.parts = es at hparts ⊢
  induction hparts with
  | nil => rfl
  | cons hfirst hothers ih =>
    rw [List.map_cons, List.map_cons, ih]
    rw [Expr.evaluate, Expr.parse, String.toList_ofList, hfirst]
    rfl

theorem HasBytes.of_mem (h : template.HasBytes look) {e : Expr} (he : e ∈ template.parts)
    : e.HasBytes look := by
  intro i hi
  apply h
  rw [mentions, List.any_eq_true]
  exact ⟨e, he, hi⟩

theorem parse_fillIn_eq (h : parse text = .ok template) (look : Lookahead)
    : parse (fillIn look text)
        =
      .ok ⟨fillIn look text, template.parts.map (·.substitute look)⟩ := by
  have hparts := (parse_eq_ok_iff.mp h).2
  rw [parse_eq_ok_iff]
  refine ⟨rfl, ?_⟩
  rw [fillIn, String.toList_ofList, Expr.words_fillIn]
  rw [List.forall₂_map_left_iff, List.forall₂_map_right_iff]
  exact hparts.imp Expr.commutes_parseChars

/-- A template means what its text means when the bytes are written into it. -/
theorem parse_fillIn (hparse : parse text = .ok template) (hbytes : template.HasBytes look)
    : ∃ filled,
        parse (fillIn look text) = .ok filled ∧
        (∀ i, filled.mentions i = false) ∧
        filled.parts.length = template.parts.length ∧
        wordValues (fillIn look text) = template.parts.map (·.eval look) ∧
        (wordValues (fillIn look text)).mapM id = template.eval look ∧
        ∀ error, template.eval look = .error error → error = .divisionByZero := by
  have hfilled := parse_fillIn_eq hparse look
  have hvalues : wordValues (fillIn look text) = template.parts.map (·.eval look) := by
    rw [wordValues_eq hfilled, List.map_map]
    apply List.map_congr_left
    intro e he
    exact (hbytes.of_mem he).eval_substitute
  refine ⟨_, hfilled, ?_, List.length_map _, hvalues, ?_, ?_⟩
  . intro i
    rw [mentions, List.any_eq_false]
    intro e he
    obtain ⟨part, hpart, rfl⟩ := List.mem_map.mp he
    simp [(hbytes.of_mem hpart).mentions_substitute i]
  . rw [hvalues, List.mapM_map]
    rfl
  . intro error herror
    obtain ⟨before, bad, after, hparts, -, hbad⟩ := Expr.mapM_eq_error_iff.mp herror
    exact (hbytes.of_mem (by simp [hparts])).error_eq hbad

/-- The second word divides by a byte that is zero. -/
theorem parse_fillIn_zero_divisor
    : let look : Lookahead := [some 0x34, some 0x12, some 0]
      let template : Template := ⟨"[1]*256+[0] 10/[2]", [.byte 1 * 256 + .byte 0, 10 / .byte 2]⟩
      parse template.text = .ok template ∧
      template.HasBytes look ∧
      wordValues (fillIn look template.text) = [.ok 0x1234, .error .divisionByZero] := by
  intro look template
  have hparse : parse template.text = .ok template := by decide +kernel
  have hbytes : template.HasBytes look := by
    intro i _
    match i with
    | 0 => exact ⟨0x34, rfl⟩
    | 1 => exact ⟨0x12, rfl⟩
    | 2 => exact ⟨0, rfl⟩
  obtain ⟨filled, -, -, -, hvalues, -⟩ := parse_fillIn hparse hbytes
  exact ⟨hparse, hbytes, hvalues⟩

end

end PpuCodec.Template
