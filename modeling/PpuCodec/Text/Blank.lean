/-!
White space, and how text is cut: `cut` at every character of a class, `strip` at both ends,
`words` into the pieces that white space separates.
-/

namespace PpuCodec.Text

def inRanges (ranges : List (Nat × Nat)) (c : Char) : Bool :=
  ranges.any fun (lo, hi) => lo ≤ c.toNat && c.toNat ≤ hi

def blankRanges : List (Nat × Nat) :=
  [(0x09, 0x0D), (0x1C, 0x20), (0x85, 0x85), (0xA0, 0xA0), (0x1680, 0x1680), (0x2000, 0x200A),
   (0x2028, 0x2029), (0x202F, 0x202F), (0x205F, 0x205F), (0x3000, 0x3000)]

def isBlank (c : Char) : Bool :=
  inRanges blankRanges c

theorem isBlank_of_isWhitespace {c : Char} (h : c.isWhitespace) : isBlank c := by
  simp only [Char.isWhitespace, Bool.or_eq_true, decide_eq_true_eq] at h
  rcases h with ((rfl | rfl) | rfl) | rfl <;> decide

def strip (s : List Char) : List Char :=
  ((s.dropWhile isBlank).reverse.dropWhile isBlank).reverse

/--
Cuts the text at every character of the class `p`, which is dropped: the first piece, and the pieces
after it. There is one piece more than there are cuts, and any of them may be empty.
-/
def cut (p : Char → Bool) : List Char → List Char × List (List Char)
  | [] => ([], [])
  | c :: rest =>
    let (first, others) := cut p rest
    if p c then ([], first :: others) else (c :: first, others)

def pieces (p : Char → Bool) (s : List Char) : List (List Char) :=
  (cut p s).1 :: (cut p s).2

theorem cut_eq_self {p : Char → Bool} {s : List Char} (h : ∀ c ∈ s, p c = false) :
    cut p s = (s, []) := by
  induction s with
  | nil => rfl
  | cons c rest ih =>
    simp only [List.mem_cons, forall_eq_or_imp] at h
    simp [cut, ih h.2, h.1]

theorem cut_cons {p : Char → Bool} {c : Char} (h : p c) (s : List Char) :
    cut p (c :: s) = ([], (cut p s).1 :: (cut p s).2) := by
  simp [cut, h]

theorem pieces_append {p : Char → Bool} {s : List Char} {c : Char} (h : p c) (t : List Char) :
    pieces p (s ++ c :: t) = pieces p s ++ pieces p t := by
  induction s with
  | nil => simp [pieces, cut, h]
  | cons d rest ih =>
    simp only [pieces, List.cons_append, List.cons.injEq] at ih
    by_cases hd : p d <;> simp [pieces, cut, hd, ih]

theorem not_mem_pieces {p : Char → Bool} {s piece : List Char} (h : piece ∈ pieces p s) :
    ∀ c ∈ piece, p c = false := by
  induction s generalizing piece with
  | nil => simp_all [pieces, cut]
  | cons d rest ih =>
    have hp : pieces p rest = (cut p rest).1 :: (cut p rest).2 := rfl
    by_cases hd : p d
    · have : piece = [] ∨ piece ∈ pieces p rest := by simpa [pieces, cut, hd] using h
      rcases this with rfl | h
      · nofun
      · exact ih h
    · have : piece = d :: (cut p rest).1 ∨ piece ∈ (cut p rest).2 := by
        simpa [pieces, cut, hd] using h
      rcases this with rfl | h
      · simpa [hd] using ih (hp ▸ List.mem_cons_self)
      · exact ih (hp ▸ List.mem_cons_of_mem _ h)

def words (s : List Char) : List (List Char) :=
  (pieces isBlank s).filter (!·.isEmpty)

def join (c : Char) : List (List Char) → List Char
  | [] => []
  | [piece] => piece
  | piece :: rest => piece ++ c :: join c rest

theorem join_pieces (c : Char) (s : List Char) : join c (pieces (· == c) s) = s := by
  induction s with
  | nil => rfl
  | cons d rest ih =>
    cases hr : (cut (· == c) rest).2 with
    | nil => by_cases hd : d = c <;> simp_all [pieces, cut, join]
    | cons => by_cases hd : d = c <;> simp_all [pieces, cut, join]

def padRight (width : Nat) (s : String) : String :=
  s ++ String.ofList (List.replicate (width - s.length) ' ')

end PpuCodec.Text
