/-! # Indices from either end

An index is an integer. From zero on it counts from the front of a list, and below zero from the
end, so that the last item has the index minus one.
-/

namespace Preproc.Index

/-- How far from the front of a list of a given length an index points. It is negative for an
index that lies before the list. -/
def fromFront (length : Nat) (index : Int) : Int :=
  if index < 0 then index + length else index

def get? {α : Type} (items : List α) (index : Int) : Option α :=
  let place := fromFront items.length index
  if place < 0 then none else items[place.toNat]?

/-- The items from `first` up to, and without, `last`. What lies outside the list is left out. -/
def slice {α : Type} (items : List α) (first last : Int) : List α :=
  (items.take (fromFront items.length last).toNat).drop (fromFront items.length first).toNat

@[simp]
theorem fromFront_natCast (length index : Nat) : fromFront length index = index := by
  unfold fromFront
  split <;> omega

/-- From zero on, an index counts from the front. -/
@[simp]
theorem get?_natCast {α : Type} (items : List α) (index : Nat) :
    get? items index = items[index]? := by
  have inside : ¬ (index : Int) < 0 := by omega
  simp [get?, inside]

/-- From zero on, the ends of a slice count from the front. -/
@[simp]
theorem slice_natCast {α : Type} (items : List α) (first last : Nat) :
    slice items first last = (items.take last).drop first := by
  simp [slice]

/-- Below zero, an index counts from the end. -/
theorem get?_neg {α : Type} (items : List α) (back : Nat) (inside : back < items.length) :
    get? items (-(back + 1)) = items[items.length - (back + 1)]? := by
  have place : fromFront items.length (-(back + 1)) = (items.length - (back + 1) : Nat) := by
    unfold fromFront
    split <;> omega
  have front : ¬ ((items.length - (back + 1) : Nat) : Int) < 0 := by omega
  simp only [get?, place, front, ↓reduceIte, Int.toNat_natCast]

end Preproc.Index
