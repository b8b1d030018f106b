import PpuCodec.Decode.Firing

/-!
A pen that writes its way through picture memory, one byte after the other. It is what the records
of the formats are read in terms of; an effect of a rule moves the pen as the bytes it writes would.
-/

namespace PpuCodec

namespace Image

/-- The memory with `bytes` laid over it from `address` on; what goes past the end is cut off. -/
def overlay (image : Image) (address : Nat) (bytes : List UInt8) : Image :=
  ⟨Vector.ofFn fun i =>
    if address ≤ i then bytes[i.val - address]?.getD image.cells[i] else image.cells[i]⟩

theorem ext_cells {a b : Image} (h : ∀ (i : Nat) (hi : i < 0x4000), a.cells[i] = b.cells[i])
    : a = b := by
  cases a
  cases b
  congr 1
  apply Vector.ext
  exact h

theorem cells_write (image : Image) (address : Int) (b : UInt8) (i : Nat) (hi : i < 0x4000)
    : (image.write address b).cells[i] = if address = i then b else image.cells[i] := by
  unfold write
  split
  . next hin =>
    have : address.toNat = i ↔ address = i := by omega
    simp [Vector.getElem_set, this]
  . next hout =>
    have : address ≠ i := by omega
    simp [this]

theorem overlay_nil (image : Image) (address : Nat) : image.overlay address [] = image := by
  apply ext_cells
  intro i hi
  simp [overlay]

theorem overlay_cons (image : Image) (address : Nat) (b : UInt8) (bytes : List UInt8)
    : image.overlay address (b :: bytes) = (image.write address b).overlay (address + 1) bytes := by
  apply ext_cells
  intro i hi
  simp only [overlay, Vector.getElem_ofFn, Fin.getElem_fin, cells_write, Int.natCast_inj]
  -- Behind the first cell the write changes nothing, and before it neither side does.
  by_cases hlt : address + 1 ≤ i
  . have hle : address ≤ i := by omega
    have hne : address ≠ i := by omega
    have hsub : i - address = i - (address + 1) + 1 := by omega
    simp [hlt, hle, hne, hsub]
  . by_cases heq : address = i
    . have : ¬ i + 1 ≤ i := by omega
      simp [heq, this]
    . have : ¬ address ≤ i := by omega
      simp [hlt, heq, this]

end Image

namespace Stroke

variable (address step : Int) (b : UInt8) (bytes : List UInt8)

/-- Where a write goes, counted on from the one after the first. -/
theorem place_succ (i : Nat)
    : address + (i + 1 : Nat) * step = address + step + i * step := by
  simp only [Int.natCast_add, Int.natCast_one, Int.add_mul, Int.one_mul]
  omega

theorem next_cons : next ⟨address, step, b :: bytes⟩ = next ⟨address + step, step, bytes⟩ := by
  apply place_succ

theorem missed_cons
    : missed ⟨address, step, b :: bytes⟩
        =
      (if Image.holds address then [] else [address]) ++ missed ⟨address + step, step, bytes⟩ := by
  simp only [missed, addresses, List.length_cons, List.range_succ_eq_map, List.map_cons,
    List.map_map, Function.comp_def, Nat.succ_eq_add_one, place_succ]
  cases h : Image.holds address with
  | false => simp [h]
  | true => simp [h]

end Stroke

/-- The memory that is written, the address of the next write, and the addresses outside of the
memory, where writes were dropped. -/
structure Pen where
  image : Image
  address : Int
  dropped : List Int := []

namespace Pen

def moveTo (pen : Pen) (address : Int) : Pen :=
  { pen with address }

/-- Writes one byte and goes on by `step`, also where nothing can be written. -/
def put (step : Int) (pen : Pen) (b : UInt8) : Pen where
  image := pen.image.write pen.address b
  address := pen.address + step
  dropped := if Image.holds pen.address then pen.dropped else pen.dropped ++ [pen.address]

def write (pen : Pen) (step : Int) (bytes : List UInt8) : Pen :=
  bytes.foldl (put step) pen

theorem write_cons (pen : Pen) (step : Int) (b : UInt8) (bytes : List UInt8)
    : pen.write step (b :: bytes) = (put step pen b).write step bytes := by
  rfl

theorem write_append (pen : Pen) (step : Int) (xs ys : List UInt8)
    : pen.write step (xs ++ ys) = (pen.write step xs).write step ys := by
  simp [write]

def follow (pen : Pen) (effect : Effect) : Pen where
  image := effect.apply pen.image
  address := effect.addressAfter pen.address
  dropped := pen.dropped ++ effect.missed

@[simp]
theorem follow_seek (pen : Pen) (address : Int)
    : pen.follow (.seek address) = pen.moveTo address := by
  simp [follow, moveTo, Effect.apply, Effect.addressAfter, Effect.missed]

@[simp]
theorem follow_paint (pen : Pen) (step : Int) (bytes : List UInt8) (cut : Bool)
    : pen.follow (.paint ⟨pen.address, step, bytes⟩ cut) = pen.write step bytes := by
  induction bytes generalizing pen with
  | nil =>
    simp [follow, write, Effect.apply, Effect.addressAfter, Effect.missed, Image.paint,
      Image.paintFrom, Stroke.next, Stroke.missed, Stroke.addresses]
  | cons b bytes ih =>
    rw [write_cons]
    rw [← ih]
    simp only [follow, Effect.apply, Effect.addressAfter, Effect.missed, Stroke.next_cons,
      Stroke.missed_cons, put, Image.paint, Image.paintFrom]
    cases Image.holds pen.address with
    | false => simp
    | true => simp

theorem image_foldl_follow (fired : List Firing) (pen : Pen)
    : (fired.foldl (fun pen firing => pen.follow firing.effect) pen).image
        =
      fired.foldl (fun image firing => firing.effect.apply image) pen.image := by
  induction fired generalizing pen with
  | nil => rfl
  | cons firing fired ih => exact ih (pen.follow firing.effect)

theorem dropped_foldl_follow (fired : List Firing) (pen : Pen)
    : (fired.foldl (fun pen firing => pen.follow firing.effect) pen).dropped
        =
      pen.dropped ++ fired.flatMap (·.effect.missed) := by
  induction fired generalizing pen with
  | nil => simp
  | cons firing fired ih =>
    rw [List.foldl_cons, ih]
    simp [follow]

theorem address_write (pen : Pen) (step : Int) (bytes : List UInt8)
    : (pen.write step bytes).address = pen.address + bytes.length * step := by
  induction bytes generalizing pen with
  | nil => simp [write]
  | cons b bytes ih =>
    rw [write_cons]
    rw [ih]
    rw [List.length_cons, Stroke.place_succ]
    rfl

theorem image_write_one (pen : Pen) (address : Nat) (hpen : pen.address = address)
    (bytes : List UInt8)
    : (pen.write 1 bytes).image = pen.image.overlay address bytes := by
  induction bytes generalizing pen address with
  | nil => simp [write, Image.overlay_nil]
  | cons b bytes ih =>
    rw [write_cons]
    rw [ih _ (address + 1)]
    . rw [Image.overlay_cons]
      simp [put, hpen]
    . simp [put, hpen]

theorem length_dropped_write_one (pen : Pen) (address : Nat) (hpen : pen.address = address)
    (bytes : List UInt8)
    : (pen.write 1 bytes).dropped.length
        =
      pen.dropped.length + (bytes.length - (0x4000 - address)) := by
  induction bytes generalizing pen address with
  | nil => simp [write]
  | cons b bytes ih =>
    rw [write_cons]
    rw [ih _ (address + 1)]
    . have hholds : Image.holds (address : Int) = decide (address < 0x4000) := by
        rw [Bool.eq_iff_iff]
        simp only [Image.holds, Bool.and_eq_true, decide_eq_true_eq]
        omega
      simp only [put, hpen, hholds, List.length_cons]
      split
      . next hlt =>
        simp only [decide_eq_true_eq] at hlt
        omega
      . next hge =>
        simp only [decide_eq_true_eq] at hge
        rw [List.length_append, List.length_singleton]
        omega
    . simp [put, hpen]

end Pen

end PpuCodec
