import Mathlib

/-!
# Layouts of variable width

Items of different widths stored one after another. `offset width l i` is where item `i` of `l`
begins when the first one begins at 0. Distinct items of positive width begin at distinct offsets.
-/

namespace Layout

variable {α : Type} (width : α → Nat)

/-- Where item `i` begins. -/
def offset (l : List α) (i : Nat) : Nat := ((l.take i).map width).sum

/-- Where the item after the last one would begin. -/
def total (l : List α) : Nat := (l.map width).sum

@[simp]
theorem offset_zero (l : List α) : offset width l 0 = 0 := by simp [offset]

@[simp]
theorem total_nil : total width [] = 0 := rfl

@[simp]
theorem total_cons (a : α) (l : List α) : total width (a :: l) = width a + total width l := by
  simp [total]

theorem offset_succ {l : List α} {i : Nat} (h : i < l.length) :
    offset width l (i + 1) = offset width l i + width l[i] := by
  simp only [offset, List.map_take]
  rw [List.sum_take_succ (l.map width) i (by simpa using h), List.getElem_map]

theorem offset_append_length (l r : List α) : offset width (l ++ r) l.length = total width l := by
  simp [offset, total]

theorem offset_le_total (l : List α) (i : Nat) : offset width l i ≤ total width l := by
  conv_rhs => rw [total, ← List.take_append_drop i l, List.map_append, List.sum_append]
  exact Nat.le_add_right _ _

theorem offset_mono (l : List α) {i j : Nat} (h : i ≤ j) : offset width l i ≤ offset width l j := by
  have htake : l.take i = (l.take j).take i := by rw [List.take_take, Nat.min_eq_left h]
  rw [offset, htake]
  exact offset_le_total width (l.take j) i

theorem offset_lt {l : List α} (hwidth : ∀ a ∈ l, 0 < width a) {i j : Nat} (hij : i < j)
    (hj : j ≤ l.length) : offset width l i < offset width l j := by
  have hi : i < l.length := by omega
  calc offset width l i < offset width l i + width l[i] :=
        Nat.lt_add_of_pos_right (hwidth _ (List.getElem_mem hi))
    _ = offset width l (i + 1) := (offset_succ width hi).symm
    _ ≤ offset width l j := offset_mono width l hij

end Layout
