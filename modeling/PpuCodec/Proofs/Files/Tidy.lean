import PpuCodec.Files.FileSpec
import PpuCodec.Proofs.Files.Store
import PpuCodec.Proofs.Text.Cut

/-!
Tidying a path changes how it is written, but not where it leads.
-/

namespace PpuCodec

namespace Store

variable {path name : String} {s root : List Char}

theorem of_mem_names (h : name ∈ names path)
    : name ≠ "" ∧ '/' ∉ name.toList ∧ ∀ c ∈ name.toList, c ∈ path.toList := by
  rw [names, List.mem_map] at h
  obtain ⟨piece, hmem, hname⟩ := h
  rw [List.mem_filter] at hmem
  rw [← hname, String.toList_ofList]
  refine ⟨?_, ?_, ?_⟩
  . simpa using hmem.2
  . intro hslash
    have := Text.not_mem_pieces hmem.1 '/' hslash
    simp at this
  . intro c hc
    exact Text.mem_of_mem_pieces hmem.1 hc

/-- Slashes in front of a path stand in front of no name. -/
theorem filter_pieces_append (h : ∀ c ∈ root, c = '/') (s : List Char)
    : (Text.pieces (· == '/') (root ++ s)).filter (!·.isEmpty)
        =
      (Text.pieces (· == '/') s).filter (!·.isEmpty) := by
  induction root with
  | nil => rfl
  | cons c root ih =>
    simp only [List.mem_cons, forall_eq_or_imp] at h
    rw [List.cons_append, ← List.nil_append (c :: (root ++ s))]
    rw [Text.pieces_append (by simp [h.1]), List.filter_append, ih h.2]
    rfl

end Store

namespace Target

open Store (names)

variable {path name : String}

/-- The names that are left of a path: a single dot leads nowhere. -/
def keptNames (path : String) : List String :=
  (names path).filter (· != ".")

theorem of_mem_keptNames (h : name ∈ keptNames path)
    : name ≠ "" ∧ '/' ∉ name.toList ∧ ∀ c ∈ name.toList, c ∈ path.toList := by
  rw [keptNames, List.mem_filter] at h
  exact Store.of_mem_names h.1

theorem exists_join_eq_cons (h : name ∈ keptNames path)
    : ∃ c rest, Text.join '/' ((keptNames path).map String.toList) = c :: rest ∧ c ≠ '/' := by
  cases hkept : keptNames path with
  | nil =>
    rw [hkept] at h
    contradiction
  | cons first others =>
    have hmem : first ∈ keptNames path := by
      rw [hkept]
      exact List.mem_cons_self
    obtain ⟨hne, hslash, _⟩ := of_mem_keptNames hmem
    obtain ⟨back, hback⟩ := Text.exists_join_cons '/' first.toList (others.map String.toList)
    rw [List.map_cons, hback]
    cases hfirst : first.toList with
    | nil => exact absurd (String.toList_eq_nil_iff.mp hfirst) hne
    | cons c rest =>
      rw [hfirst, List.mem_cons, not_or] at hslash
      exact ⟨c, rest ++ back, rfl, Ne.symm hslash.1⟩

/-- What is left of a path: the slashes in front as far as they count, and the kept names. -/
theorem toList_tidy (h : name ∈ keptNames path)
    : ∃ root,
        (tidy path).toList = root ++ Text.join '/' ((keptNames path).map String.toList) ∧
        (∀ c ∈ root, c = '/') ∧
        (root = [] ↔ path.toList.head? ≠ some '/') := by
  have hslashes : (path.toList.takeWhile (· == '/')).length = 0 ↔ path.toList.head? ≠ some '/' := by
    cases path.toList with
    | nil => simp
    | cons c rest =>
      by_cases hc : c = '/'
      . simp [hc]
      . simp [hc]
  have hroot : ∀ slashes : Nat, ∃ root,
      (if slashes = 0 then "" else if slashes = 2 then "//" else "/").toList = root ∧
      (∀ c ∈ root, c = '/') ∧
      (root = [] ↔ slashes = 0) := by
    intro slashes
    by_cases hzero : slashes = 0
    . simp [hzero]
    . by_cases htwo : slashes = 2
      . simp [htwo]
      . simp [hzero, htwo]
  obtain ⟨root, hlist, hall, hnil⟩ := hroot (path.toList.takeWhile (· == '/')).length
  refine ⟨root, ?_, hall, hnil.trans hslashes⟩
  have hjoin : "/".toList.intercalate ((keptNames path).map String.toList)
      = Text.join '/' ((keptNames path).map String.toList) := by
    apply Text.intercalate_eq_join
  unfold tidy
  dsimp only
  rw [← keptNames, if_neg]
  . rw [String.toList_append, String.toList_intercalate, hlist, hjoin]
  . rw [String.isEmpty_iff, ← String.toList_eq_nil_iff]
    rw [String.toList_append, String.toList_intercalate, hjoin, List.append_eq_nil_iff]
    obtain ⟨c, rest, hcons, _⟩ := exists_join_eq_cons h
    simp [hcons]

theorem eq_slash_or_mem_of_mem_tidy (h : name ∈ keptNames path) {c : Char}
    (hc : c ∈ (tidy path).toList)
    : c = '/' ∨ c ∈ path.toList := by
  obtain ⟨root, hlist, hroot, _⟩ := toList_tidy h
  rw [hlist, List.mem_append] at hc
  cases hc with
  | inl hmem => exact .inl (hroot c hmem)
  | inr hmem =>
    refine (Text.eq_or_exists_of_mem_join hmem).imp_right ?_
    rintro ⟨part, hpart, hc⟩
    obtain ⟨kept, hkept, heq⟩ := List.mem_map.mp hpart
    rw [← heq] at hc
    exact (of_mem_keptNames hkept).2.2 c hc

theorem names_tidy (h : name ∈ keptNames path) : names (tidy path) = keptNames path := by
  obtain ⟨root, hlist, hroot, _⟩ := toList_tidy h
  have hparts : ∀ part ∈ (keptNames path).map String.toList, '/' ∉ part ∧ part.isEmpty = false := by
    intro part hmem
    obtain ⟨kept, hkept, hpart⟩ := List.mem_map.mp hmem
    obtain ⟨hne, hslash, _⟩ := of_mem_keptNames hkept
    rw [← hpart]
    exact ⟨hslash, by simp [hne]⟩
  have hne : (keptNames path).map String.toList ≠ [] := by
    intro hnil
    rw [List.map_eq_nil_iff] at hnil
    rw [hnil] at h
    contradiction
  rw [names, hlist, Store.filter_pieces_append hroot]
  rw [Text.pieces_join hne (fun part hmem => (hparts part hmem).1)]
  rw [List.filter_eq_self.mpr]
  . simp
  . intro part hmem
    rw [(hparts part hmem).2]
    rfl

theorem origin_tidy (home : Location) (h : name ∈ keptNames path)
    : Store.origin home (tidy path) = Store.origin home path := by
  have hhead : (tidy path).toList.head? = some '/' ↔ path.toList.head? = some '/' := by
    obtain ⟨root, hlist, hroot, hnil⟩ := toList_tidy h
    rw [hlist]
    cases root with
    | nil =>
      obtain ⟨c, rest, hcons, hc⟩ := exists_join_eq_cons h
      rw [List.nil_append, hcons, List.head?_cons]
      simp [hc, hnil.mp rfl]
    | cons c root =>
      have hpath : path.toList.head? = some '/' := by simpa using hnil
      rw [List.cons_append, List.head?_cons, hroot c List.mem_cons_self]
      simp [hpath]
  unfold Store.origin
  simp only [hhead]

theorem endsInSlash_tidy {front : List String} (h : keptNames path = front ++ [name])
    : Store.endsInSlash (tidy path) = false := by
  have hmem : name ∈ keptNames path := by simp [h]
  obtain ⟨hne, hslash, _⟩ := of_mem_keptNames hmem
  obtain ⟨root, hlist, _⟩ := toList_tidy hmem
  obtain ⟨before, hjoin⟩ := Text.exists_join_append '/' (front.map String.toList) name.toList
  rw [h, List.map_append, List.map_singleton, hjoin] at hlist
  rw [Store.endsInSlash, hlist, beq_eq_false_iff_ne]
  cases hlast : name.toList.getLast? with
  | none => exact absurd (String.toList_eq_nil_iff.mp (List.getLast?_eq_none_iff.mp hlast)) hne
  | some c =>
    rw [List.getLast?_append, List.getLast?_append, hlast]
    simp only [Option.some_or, ne_eq, Option.some.injEq]
    rintro rfl
    exact hslash (List.mem_of_getLast? hlast)

end Target

namespace Store

open Target (tidy keptNames)

variable {store : Store} {path : String} {location : Location}

theorem LeadsTo.tidy (h : store.LeadsTo path location)
    : store.LeadsTo (tidy path) location ∧ endsInSlash (tidy path) = false := by
  cases h with
  | @last front name directory hzero hnames hdot hdots hfront =>
    have hkept : keptNames path = front.filter (· != ".") ++ [name] := by
      rw [keptNames, hnames, List.filter_append, List.filter_cons_of_pos (by simp [hdot])]
      rfl
    have hmem : name ∈ keptNames path := by simp [hkept]
    constructor
    . apply LeadsTo.last _ _ hdot hdots
      . rw [Target.origin_tidy store.home hmem]
        exact hfront.filter_dots
      . intro hchar
        have hslash : '\x00' ≠ '/' := by decide
        cases Target.eq_slash_or_mem_of_mem_tidy hmem hchar with
        | inl heq => exact hslash heq
        | inr hpath => exact hzero hpath
      . rw [Target.names_tidy hmem, hkept]
    . exact Target.endsInSlash_tidy hkept

theorem ne_empty_of_writableAt_tidy (h : store.WritableAt (tidy path) location) : path ≠ "" := by
  rintro rfl
  cases h.leadsTo with
  | @last front name directory hzero hnames hdot hdots hfront =>
    have htidy : names (tidy "") = [] ++ ["."] := by rfl
    rw [htidy] at hnames
    have hname := List.append_inj_right' hnames rfl
    injection hname with hname
    exact hdot hname.symm

theorem WritableAt.tidy (h : store.WritableAt path location)
    : store.WritableAt (tidy path) location := by
  obtain ⟨hleads, hslash⟩ := h.leadsTo.tidy
  exact ⟨hleads, hslash, h.entry?_ne⟩

end Store

end PpuCodec
