import PpuCodec.Palette

/-!
Pictures: rows of coloured pixels.
-/

namespace PpuCodec

structure Picture where
  width : Nat
  height : Nat
  rows : Vector (Vector Color width) height

namespace Picture

def ofFn (width height : Nat) (color : Fin width → Fin height → Color) : Picture where
  width := width
  height := height
  rows := Vector.ofFn fun y => Vector.ofFn fun x => color x y

def pixel? (picture : Picture) (x y : Nat) : Option Color :=
  if h : x < picture.width ∧ y < picture.height then some picture.rows[y][x] else none

theorem pixel?_ofFn {width height x y : Nat} (color : Fin width → Fin height → Color)
    (hx : x < width) (hy : y < height) :
    (ofFn width height color).pixel? x y = some (color ⟨x, hx⟩ ⟨y, hy⟩) := by
  simp [ofFn, pixel?, hx, hy]

end Picture

end PpuCodec
