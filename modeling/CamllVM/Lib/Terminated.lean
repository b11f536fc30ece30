import Mathlib

/-!
# Lists with one terminator, at the end

Some elements of a list are terminators. A list is terminated if its last element is a terminator
and no other one is.
-/

def Terminated {α : Type} (isTerm : α → Bool) (l : List α) : Prop :=
  (∀ a ∈ l.dropLast, isTerm a = false) ∧ ∃ a ∈ l.getLast?, isTerm a = true

namespace Terminated

variable {α : Type} {isTerm : α → Bool} {l r : List α} {a b : α}

instance : Decidable (Terminated isTerm l) := inferInstanceAs (Decidable (_ ∧ _))

@[simp]
theorem singleton_iff : Terminated isTerm [a] ↔ isTerm a = true := by simp [Terminated]

@[simp]
theorem cons_cons_iff : Terminated isTerm (a :: b :: l) ↔
    isTerm a = false ∧ Terminated isTerm (b :: l) := by
  simp [Terminated, and_assoc]

theorem concat_iff : Terminated isTerm (l ++ [a]) ↔
    (∀ c ∈ l, isTerm c = false) ∧ isTerm a = true := by
  simp [Terminated]

theorem concat (hl : ∀ c ∈ l, isTerm c = false) (ha : isTerm a = true) :
    Terminated isTerm (l ++ [a]) := concat_iff.mpr ⟨hl, ha⟩

theorem ne_nil (h : Terminated isTerm l) : l ≠ [] := by
  rintro rfl
  obtain ⟨-, a, ha, -⟩ := h
  cases ha

/-- What is no terminator may come before. -/
theorem append (hl : ∀ c ∈ l, isTerm c = false) (hr : Terminated isTerm r) :
    Terminated isTerm (l ++ r) := by
  obtain ⟨body, a, rfl⟩ := (List.eq_nil_or_concat' r).resolve_left hr.ne_nil
  obtain ⟨hbody, ha⟩ := concat_iff.mp hr
  rw [← List.append_assoc]
  exact concat (List.forall_mem_append.mpr ⟨hl, hbody⟩) ha

/-- Nothing comes behind a terminator. -/
theorem right_eq_nil (h : Terminated isTerm (l ++ r)) (ha : a ∈ l) (hterm : isTerm a = true) :
    r = [] := by
  by_contra hr
  obtain ⟨body, b, rfl⟩ := (List.eq_nil_or_concat' r).resolve_left hr
  rw [← List.append_assoc] at h
  have hnot := (concat_iff.mp h).1 a (List.mem_append_left _ ha)
  rw [hterm] at hnot
  cases hnot

end Terminated
