import PpuCodec.Tile
import Std.Data.HashMap

/-!
The tiles of a pattern table. Those that were asked for are kept, so that each is decoded only once.
-/

namespace PpuCodec

structure PatternTable where
  data : Bytes
  kept : Std.HashMap Nat Tile

namespace PatternTable

def ofBytes (data : Bytes) : PatternTable :=
  ⟨data, ∅⟩

def tile (table : PatternTable) (index : Nat) : Tile × PatternTable :=
  match table.kept[index]? with
  | some tile => (tile, table)
  | none =>
    let tile := Tile.readAt table.data (16 * index)
    (tile, { table with kept := table.kept.insert index tile })

/-- The tile of an index that may count from the end; such tiles are not kept. -/
def tileAt (table : PatternTable) (index : Int) : Except Tile.Error Tile × PatternTable :=
  match index with
  | .ofNat i =>
    let (tile, table) := table.tile i
    (.ok tile, table)
  | .negSucc i => (Tile.decode table.data (.negSucc i), table)

def tiles (table : PatternTable) : List Nat → List Tile × PatternTable
  | [] => ([], table)
  | index :: rest =>
    let (tile, table) := table.tile index
    let (others, table) := tiles table rest
    (tile :: others, table)

theorem length_tiles (table : PatternTable) (indices : List Nat) :
    (table.tiles indices).1.length = indices.length := by
  induction indices generalizing table with
  | nil => rfl
  | cons index rest ih => simp [tiles, ih]

end PatternTable

end PpuCodec
