import Mathlib

/-!
`<[T]>::chunks(size)`: pieces of `size` items from the front, the last one shorter when
`size` does not divide the length. The iterator yields a piece while what is left is not
empty; `fuel` bounds its turns, and the length is enough.
-/

namespace Chunks

variable {α β : Type} {size : Nat}

def chunksFrom (size : Nat) : Nat → List α → List (List α)
  | 0, _ => []
  | fuel + 1, data => if data.isEmpty then [] else data.take size :: chunksFrom size fuel (data.drop size)

def chunks (size : Nat) (data : List α) : List (List α) := chunksFrom size data.length data

/-- The pieces put back together are the data. By induction on the fuel. -/
theorem flatten_chunksFrom (positive : 0 < size) {fuel : Nat} {data : List α} (enough : data.length ≤ fuel) :
    (chunksFrom size fuel data).flatten = data := by
  induction fuel generalizing data with
  | zero =>
    obtain rfl : data = [] := List.eq_nil_of_length_eq_zero (by omega)
    rfl
  | succ fuel ih =>
    cases data with
    | nil => rfl
    | cons item rest =>
      have shorter : ((item :: rest).drop size).length ≤ fuel := by
        simp only [List.length_drop, List.length_cons] at enough ⊢
        omega
      rw [chunksFrom, if_neg (by simp), List.flatten_cons, ih shorter, List.take_append_drop]

theorem flatten_chunks (positive : 0 < size) (data : List α) : (chunks size data).flatten = data :=
  flatten_chunksFrom positive (Nat.le_refl _)

theorem length_chunksFrom (positive : 0 < size) {fuel : Nat} {data : List α} (enough : data.length ≤ fuel) :
    (chunksFrom size fuel data).length = (data.length + size - 1) / size := by
  induction fuel generalizing data with
  | zero =>
    obtain rfl : data = [] := List.eq_nil_of_length_eq_zero (by omega)
    simp [chunksFrom, Nat.div_eq_of_lt (show size - 1 < size by omega)]
  | succ fuel ih =>
    cases data with
    | nil => simp [chunksFrom, Nat.div_eq_of_lt (show size - 1 < size by omega)]
    | cons item rest =>
      have shorter : ((item :: rest).drop size).length ≤ fuel := by
        simp only [List.length_drop, List.length_cons] at enough ⊢
        omega
      rw [chunksFrom, if_neg (by simp), List.length_cons, ih shorter, List.length_drop, List.length_cons]
      by_cases fits : rest.length + 1 ≤ size
      · -- one piece holds it all
        have last : rest.length + 1 - size + size - 1 = size - 1 := by omega
        have whole : (rest.length + 1 + size - 1) / size = 1 := Nat.div_eq_of_lt_le (by omega) (by omega)
        rw [last, Nat.div_eq_of_lt (by omega), whole]
      · -- a full piece, then the pieces of the rest
        have split : rest.length + 1 + size - 1 = (rest.length + 1 - size + size - 1) + size := by omega
        rw [split, Nat.add_div_right _ positive]

theorem length_chunks (positive : 0 < size) (data : List α) :
    (chunks size data).length = (data.length + size - 1) / size :=
  length_chunksFrom positive (Nat.le_refl _)

/-- Collecting, for each index in order, the pieces a map holds gives the pieces joined. By
induction on the pieces, with the map shifted by one. -/
theorem flatMap_filterMap_range {parts : List (List α)} {held : Nat → Option β} {part : β → List α}
    (holds : ∀ index (below : index < parts.length), ∃ item, held index = some item ∧ part item = parts[index]) :
    ((List.range parts.length).filterMap held).flatMap part = parts.flatten := by
  induction parts generalizing held with
  | nil => rfl
  | cons first rest ih =>
    obtain ⟨item, found, same⟩ := holds 0 (by simp)
    have shifted : ∀ index (below : index < rest.length), ∃ item, (held ∘ Nat.succ) index = some item ∧
        part item = rest[index] := fun index below => by
      obtain ⟨item, found, same⟩ := holds (index + 1) (by simp [below])
      exact ⟨item, found, by rw [same, List.getElem_cons_succ]⟩
    rw [List.length_cons, List.range_succ_eq_map, List.filterMap_cons, found, List.filterMap_map,
      List.flatMap_cons, ih shifted, same]
    rfl

end Chunks
