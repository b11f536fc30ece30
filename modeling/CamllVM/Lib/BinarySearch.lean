import Mathlib

/-!
# Binary search

The search for the last index of an interval that is not above a target. The probe is the upper one of
two middle indices, so that each half is smaller than the interval.
-/

namespace BinarySearch

variable (above : Nat → Prop) [DecidablePred above]

def search (lo hi : Nat) : Nat :=
  if lo < hi then
    if above ((lo + hi + 1) / 2) then search lo ((lo + hi + 1) / 2 - 1)
    else search ((lo + hi + 1) / 2) hi
  else
    lo
termination_by hi - lo

/-- The intervals that are probed. -/
def rounds (lo hi : Nat) : List (Nat × Nat) :=
  if lo < hi then
    if above ((lo + hi + 1) / 2) then (lo, hi) :: rounds lo ((lo + hi + 1) / 2 - 1)
    else (lo, hi) :: rounds ((lo + hi + 1) / 2) hi
  else
    []
termination_by hi - lo

variable {above} {lo hi j : Nat}

/-- The target is found if the indices above it are those that the probes report. -/
theorem search_eq (habove : ∀ c, lo < c → c ≤ hi → (above c ↔ j < c)) (hlo : lo ≤ j) (hhi : j ≤ hi) :
    search above lo hi = j := by
  fun_induction search above lo hi with
  | case1 lo hi hlt hprobe ih =>
      have hbelow : j < (lo + hi + 1) / 2 := (habove _ (by omega) (by omega)).mp hprobe
      exact ih (fun c hc hc' => habove c hc (by omega)) hlo (by omega)
  | case2 lo hi hlt hprobe ih =>
      have hnot : ¬j < (lo + hi + 1) / 2 := fun h => hprobe ((habove _ (by omega) (by omega)).mpr h)
      exact ih (fun c hc hc' => habove c (by omega) hc') (by omega) hhi
  | case3 lo hi hge => omega

theorem mem_rounds {r : Nat × Nat} (h : r ∈ rounds above lo hi) :
    lo ≤ r.1 ∧ r.1 < r.2 ∧ r.2 ≤ hi := by
  fun_induction rounds above lo hi with
  | case1 lo hi hlt hprobe ih =>
      rcases List.mem_cons.mp h with rfl | h
      · exact ⟨Nat.le_refl _, hlt, Nat.le_refl _⟩
      · obtain ⟨hlo, hr, hhi⟩ := ih h
        exact ⟨hlo, hr, by omega⟩
  | case2 lo hi hlt hprobe ih =>
      rcases List.mem_cons.mp h with rfl | h
      · exact ⟨Nat.le_refl _, hlt, Nat.le_refl _⟩
      · obtain ⟨hlo, hr, hhi⟩ := ih h
        exact ⟨by omega, hr, hhi⟩
  | case3 lo hi hge => cases h

end BinarySearch
