/-!
# Slices

Parts of a text between two positions, counted in characters. A negative position counts from the
end, and a position outside the text stands for the nearest end of it.
-/

namespace NormalOrder.Text

/-- The place in a text of `length` characters that position `i` stands for. -/
def place (length : Nat) (i : Int) : Nat :=
  if i < 0 then (i + length).toNat else min i.toNat length

def sliceTo (s : String) (stop : Int) : String :=
  String.ofList (s.toList.take (place s.length stop))

def sliceFrom (s : String) (start : Int) : String :=
  String.ofList (s.toList.drop (place s.length start))

/-- The characters from `start` on and before `stop`; empty when `stop` does not come after
`start`. -/
def slice (s : String) (start stop : Int) : String :=
  String.ofList ((s.toList.take (place s.length stop)).drop (place s.length start))

theorem place_natCast {length i : Nat} (h : i ≤ length) : place length i = i := by
  unfold place
  split <;> omega

/-- Cutting at two positions in order loses nothing. -/
theorem sliceTo_append_slice_append_sliceFrom (s : String) (start stop : Int)
    (h : place s.length start ≤ place s.length stop) :
    sliceTo s start ++ slice s start stop ++ sliceFrom s stop = s := by
  apply String.toList_injective
  simp only [sliceTo, slice, sliceFrom, String.toList_append, String.toList_ofList]
  generalize s.toList = cs
  generalize place s.length start = i at h ⊢
  generalize place s.length stop = j at h ⊢
  have : cs.take i = (cs.take j).take i := by rw [List.take_take, Nat.min_eq_left h]
  rw [this, List.take_append_drop, List.take_append_drop]

end NormalOrder.Text
