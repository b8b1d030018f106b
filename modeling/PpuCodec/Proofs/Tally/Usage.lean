import Mathlib.Data.List.Sort
import PpuCodec.Decode.Tally

/-!
How often rules were used, by their indices. A list of usages is known by what it says of each
index, and usages that are added come behind what is there: the counts add up, and the first
description stays. So it does not matter how the usages that are added are grouped.
-/

namespace PpuCodec.Usage

/-- Two usages of what stands at one index. It is described as it was when first seen. -/
def join (use later : Usage) : Usage :=
  { use with count := use.count + later.count }

instance : Std.Associative join where
  assoc a b c := by simp [join, Nat.add_assoc]

/-- What a list says of an index. -/
def lookup (index : Nat) (usage : List Usage) : Option Usage :=
  usage.find? (·.index == index)

def Ordered (usage : List Usage) : Prop :=
  usage.Pairwise fun a b => a.index < b.index

def addAll (uses usage : List Usage) : List Usage :=
  uses.foldl (fun usage use => use.add usage) usage

/-- What a row of usages, in any order, comes to for an index. -/
def total (index : Nat) : List Usage → Option Usage
  | [] => none
  | use :: rest =>
    if use.index = index then (some use).merge join (total index rest) else total index rest

theorem merge_assoc (a b c : Option Usage)
    : (a.merge join b).merge join c = a.merge join (b.merge join c) := by
  exact (Option.associative_merge join).assoc a b c

variable {use : Usage} {uses usage others : List Usage} {index : Nat}

theorem lookup_cons (use : Usage) (usage : List Usage) (index : Nat)
    : lookup index (use :: usage) = if use.index = index then some use else lookup index usage := by
  unfold lookup
  rw [List.find?_cons]
  split
  . next h => rw [if_pos (beq_iff_eq.mp h)]
  . next h => rw [if_neg (beq_eq_false_iff_ne.mp h)]

theorem lookup_eq_none (h : ∀ other ∈ usage, other.index ≠ index) : lookup index usage = none := by
  rw [lookup, List.find?_eq_none]
  intro other hmem
  simpa using h other hmem

theorem Ordered.lookup_eq_some_iff (h : Ordered usage)
    : lookup index usage = some use ↔ use ∈ usage ∧ use.index = index := by
  induction usage with
  | nil => simp [lookup]
  | cons first rest ih =>
    obtain ⟨hfirst, hrest⟩ := List.pairwise_cons.mp h
    rw [lookup_cons]
    split
    . next heq =>
      rw [Option.some.injEq, List.mem_cons]
      constructor
      . rintro rfl
        exact ⟨.inl rfl, heq⟩
      . rintro ⟨rfl | hmem, hindex⟩
        . rfl
        . have := hfirst use hmem
          omega
    . next hne =>
      rw [ih hrest, List.mem_cons]
      constructor
      . rintro ⟨hmem, hindex⟩
        exact ⟨.inr hmem, hindex⟩
      . rintro ⟨rfl | hmem, hindex⟩
        . exact absurd hindex hne
        . exact ⟨hmem, hindex⟩

/-- Ordered lists that say the same of each index are the same. -/
theorem Ordered.eq_of_lookup_eq (h : Ordered usage) (hothers : Ordered others)
    (heq : ∀ index, lookup index usage = lookup index others)
    : usage = others := by
  have : Std.Antisymm fun a b : Usage => a.index < b.index := ⟨fun a b hab hba => by omega⟩
  have : Std.Irrefl fun a b : Usage => a.index < b.index := ⟨fun a => by omega⟩
  apply h.eq_of_mem_iff hothers
  intro use
  have hsome : lookup use.index usage = some use ↔ lookup use.index others = some use := by
    rw [heq]
  rw [h.lookup_eq_some_iff, hothers.lookup_eq_some_iff] at hsome
  simpa using hsome

theorem index_of_mem_add {other : Usage} (h : other ∈ use.add usage)
    : other.index = use.index ∨ ∃ old ∈ usage, old.index = other.index := by
  induction usage with
  | nil =>
    rw [add, List.mem_singleton] at h
    rw [h]
    exact .inl rfl
  | cons first rest ih =>
    rw [add] at h
    split at h
    . cases List.mem_cons.mp h with
      | inl heq =>
        rw [heq]
        exact .inl rfl
      | inr hmem => exact .inr ⟨other, hmem, rfl⟩
    . split at h
      . cases List.mem_cons.mp h with
        | inl heq =>
          rw [heq]
          exact .inr ⟨first, List.mem_cons_self, rfl⟩
        | inr hmem => exact .inr ⟨other, List.mem_cons_of_mem _ hmem, rfl⟩
      . cases List.mem_cons.mp h with
        | inl heq =>
          rw [heq]
          exact .inr ⟨first, List.mem_cons_self, rfl⟩
        | inr hmem =>
          refine (ih hmem).imp_right ?_
          rintro ⟨old, hold, hindex⟩
          exact ⟨old, List.mem_cons_of_mem _ hold, hindex⟩

theorem Ordered.add (h : Ordered usage) (use : Usage) : Ordered (use.add usage) := by
  induction usage with
  | nil => exact List.pairwise_singleton _ _
  | cons first rest ih =>
    obtain ⟨hfirst, hrest⟩ := List.pairwise_cons.mp h
    rw [Usage.add]
    split
    . next hlt =>
      apply List.Pairwise.cons _ h
      intro other hmem
      cases List.mem_cons.mp hmem with
      | inl heq =>
        rw [heq]
        exact hlt
      | inr hother => exact Nat.lt_trans hlt (hfirst other hother)
    . next hge =>
      split
      . exact List.Pairwise.cons hfirst hrest
      . next hne =>
        apply List.Pairwise.cons _ (ih hrest)
        intro other hmem
        cases index_of_mem_add hmem with
        | inl heq => omega
        | inr hold =>
          obtain ⟨old, hmem, heq⟩ := hold
          rw [← heq]
          exact hfirst old hmem

theorem Ordered.lookup_add (h : Ordered usage) (use : Usage) (index : Nat)
    : lookup index (use.add usage)
        =
      if use.index = index then (lookup index usage).merge join (some use)
      else lookup index usage := by
  induction usage with
  | nil =>
    rw [Usage.add, lookup_cons]
    rfl
  | cons first rest ih =>
    obtain ⟨hfirst, hrest⟩ := List.pairwise_cons.mp h
    rw [Usage.add]
    split
    . next hlt =>
      rw [lookup_cons use]
      split
      . next heq =>
        rw [lookup_eq_none, Option.merge_none_left]
        intro other hmem
        cases List.mem_cons.mp hmem with
        | inl hother =>
          rw [hother]
          omega
        | inr hother =>
          have := hfirst other hother
          omega
      . rfl
    . next hge =>
      split
      . next heq =>
        rw [lookup_cons, lookup_cons, heq]
        split
        . rfl
        . rfl
      . next hne =>
        rw [lookup_cons, lookup_cons, ih hrest]
        split
        . next hindex =>
          rw [if_neg]
          omega
        . rfl

theorem Ordered.addAll (h : Ordered usage) (uses : List Usage) : Ordered (addAll uses usage) := by
  induction uses generalizing usage with
  | nil => exact h
  | cons use uses ih => exact ih (h.add use)

theorem Ordered.lookup_addAll (h : Ordered usage) (uses : List Usage) (index : Nat)
    : lookup index (Usage.addAll uses usage)
        =
      (lookup index usage).merge join (total index uses) := by
  induction uses generalizing usage with
  | nil => exact Option.merge_none_right.symm
  | cons use uses ih =>
    change lookup index (Usage.addAll uses (use.add usage)) = _
    rw [ih (h.add use), h.lookup_add, total]
    split
    . rw [merge_assoc]
    . rfl

theorem Ordered.total_eq (h : Ordered usage) (index : Nat)
    : total index usage = lookup index usage := by
  induction usage with
  | nil => rfl
  | cons use rest ih =>
    obtain ⟨hfirst, hrest⟩ := List.pairwise_cons.mp h
    rw [total, lookup_cons, ih hrest]
    split
    . rw [lookup_eq_none, Option.merge_none_right]
      intro other hmem
      have := hfirst other hmem
      omega
    . rfl

/-- Usages may be collected in a list of their own before they are added. -/
theorem Ordered.addAll_addAll (h : Ordered usage) (hothers : Ordered others) (uses : List Usage)
    : Usage.addAll (Usage.addAll uses others) usage
        =
      Usage.addAll uses (Usage.addAll others usage) := by
  apply (h.addAll _).eq_of_lookup_eq ((h.addAll _).addAll _)
  intro index
  rw [h.lookup_addAll, (hothers.addAll _).total_eq, hothers.lookup_addAll]
  rw [(h.addAll _).lookup_addAll, h.lookup_addAll, hothers.total_eq]
  rw [merge_assoc]

end PpuCodec.Usage
