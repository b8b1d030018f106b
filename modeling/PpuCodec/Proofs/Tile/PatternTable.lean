import PpuCodec.Tile.PatternTable

/-!
The tiles that a pattern table gives are those of its data, whichever of them it has kept.
-/

namespace PpuCodec

theorem Tile.decode_ofNat (data : Bytes) (index : Nat)
    : decode data index = .ok (readAt data (16 * index)) := by
  rw [decode, if_pos (Int.natCast_nonneg index), Int.toNat_natCast]

namespace PatternTable

/-- What was kept under an index is the tile that is read there. -/
structure Faithful (table : PatternTable) (data : Bytes) : Prop where
  data_eq : table.data = data
  kept : ∀ index tile, table.kept[index]? = some tile → tile = Tile.readAt data (16 * index)

theorem faithful_ofBytes (data : Bytes) : (ofBytes data).Faithful data := by
  constructor
  . rfl
  . intro index tile h
    simp [ofBytes] at h

variable {table : PatternTable} {data : Bytes}

theorem Faithful.tile (h : table.Faithful data) (index : Nat)
    : (table.tile index).1 = Tile.readAt data (16 * index) ∧
        (table.tile index).2.Faithful data := by
  unfold PatternTable.tile
  split
  . next tile hkept => exact ⟨h.kept index tile hkept, h⟩
  . rw [h.data_eq]
    refine ⟨rfl, rfl, ?_⟩
    intro other tile hother
    rw [Std.HashMap.getElem?_insert] at hother
    split at hother
    . next heq => rw [← eq_of_beq heq, ← Option.some.inj hother]
    . exact h.kept other tile hother

theorem Faithful.tiles (h : table.Faithful data) (indices : List Nat)
    : (table.tiles indices).1 = indices.map fun index => Tile.readAt data (16 * index) := by
  induction indices generalizing table with
  | nil => rfl
  | cons index rest ih =>
    obtain ⟨hfirst, hafter⟩ := h.tile index
    rw [List.map_cons, ← hfirst, ← ih hafter]
    rfl

theorem Faithful.tileAt (h : table.Faithful data) (index : Int)
    : (table.tileAt index).1 = Tile.decode data index ∧
        (table.tileAt index).2.Faithful data := by
  unfold PatternTable.tileAt
  cases index with
  | ofNat i =>
    obtain ⟨htile, hafter⟩ := h.tile i
    constructor
    . apply Eq.trans (congrArg Except.ok htile)
      exact (Tile.decode_ofNat data i).symm
    . exact hafter
  | negSucc i =>
    rw [h.data_eq]
    exact ⟨rfl, h⟩

/-- The table after tiles were asked for, one after another. -/
def afterAsking (table : PatternTable) (indices : List Int) : PatternTable :=
  indices.foldl (fun table index => (table.tileAt index).2) table

theorem Faithful.afterAsking (h : table.Faithful data) (indices : List Int)
    : (table.afterAsking indices).Faithful data := by
  induction indices generalizing table with
  | nil => exact h
  | cons index rest ih =>
    apply ih
    exact (h.tileAt index).2

end PatternTable

end PpuCodec
