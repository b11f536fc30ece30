import Mathlib

/-!
# Logs of writes

A log lists the positions that are written, in order, each with what is written there. If no position
is written twice, the order is of no account: every position holds what the log has for it.
-/

namespace WriteLog

variable {α : Type}

/-- The words after all writes of a log. -/
def write (l : List α) (log : List (Nat × α)) : List α := log.foldl (fun l w => l.set w.1 w.2) l

def positions (log : List (Nat × α)) : List Nat := log.map Prod.fst

/-- The writes of `as` from position `k` on. -/
def consecutive (k : Nat) : List α → List (Nat × α)
  | [] => []
  | a :: as => (k, a) :: consecutive (k + 1) as

variable {l : List α} {log log' : List (Nat × α)} {k : Nat} {a : α}

@[simp]
theorem write_nil (l : List α) : write l [] = l := rfl

theorem write_cons (l : List α) (w : Nat × α) (log : List (Nat × α)) :
    write l (w :: log) = write (l.set w.1 w.2) log := rfl

theorem write_append (l : List α) (log log' : List (Nat × α)) :
    write l (log ++ log') = write (write l log) log' := List.foldl_append

@[simp]
theorem length_write (l : List α) (log : List (Nat × α)) : (write l log).length = l.length := by
  induction log generalizing l with
  | nil => rfl
  | cons w log ih => rw [write_cons, ih, List.length_set]

theorem getElem?_write_of_not_mem (h : k ∉ positions log) : (write l log)[k]? = l[k]? := by
  induction log generalizing l with
  | nil => rfl
  | cons w log ih =>
      obtain ⟨hne, hmem⟩ : k ≠ w.1 ∧ k ∉ positions log := by simpa [positions] using h
      rw [write_cons, ih hmem, List.getElem?_set_ne (Ne.symm hne)]

theorem getElem?_write (hnodup : (positions log).Nodup) (hmem : (k, a) ∈ log) (hk : k < l.length) :
    (write l log)[k]? = some a := by
  induction log generalizing l with
  | nil => cases hmem
  | cons w log ih =>
      obtain ⟨hnew, hnodup⟩ : w.1 ∉ positions log ∧ (positions log).Nodup := by
        simpa [positions] using hnodup
      rw [write_cons]
      rcases List.mem_cons.mp hmem with hfirst | hlater
      · subst hfirst
        rw [getElem?_write_of_not_mem hnew, List.getElem?_set_self hk]
      · exact ih hnodup hlater (by rwa [List.length_set])

/-- If every position is written, nothing of the old words is left. -/
theorem mem_of_mem_write (hpositions : (positions log).Perm (List.range l.length))
    (h : a ∈ write l log) : ∃ k, (k, a) ∈ log := by
  obtain ⟨k, hk⟩ := List.mem_iff_getElem?.mp h
  have hlt : k < l.length := by
    rw [← length_write l log]
    exact (List.getElem?_eq_some_iff.mp hk).1
  obtain ⟨w, hw, rfl⟩ := List.mem_map.mp (hpositions.mem_iff.mpr (List.mem_range.mpr hlt))
  have hwritten := getElem?_write (hpositions.nodup_iff.mpr List.nodup_range) hw hlt
  exact ⟨w.1, Option.some.inj (hwritten.symm.trans hk) ▸ hw⟩

/-! ### Consecutive positions -/

theorem take_succ_set (a : α) (h : k < l.length) : (l.set k a).take (k + 1) = l.take k ++ [a] := by
  rw [List.set_eq_take_append_cons_drop, if_pos h, List.take_append]
  simp [Nat.min_eq_left (Nat.le_of_lt h)]

theorem write_consecutive {as : List α} (h : k + as.length ≤ l.length) :
    write l (consecutive k as) = l.take k ++ as ++ l.drop (k + as.length) := by
  induction as generalizing l k with
  | nil => simp [consecutive]
  | cons a as ih =>
      rw [List.length_cons] at h
      have hdrop : (l.set k a).drop (k + 1 + as.length) = l.drop (k + (as.length + 1)) := by
        rw [List.drop_set_of_lt (by omega), Nat.add_assoc, Nat.add_comm 1]
      rw [consecutive, write_cons, ih (by rw [List.length_set]; omega), take_succ_set a (by omega),
        hdrop, List.length_cons]
      simp only [List.append_assoc, List.cons_append, List.nil_append]

theorem positions_consecutive (k : Nat) (as : List α) :
    positions (consecutive k as) = List.range' k as.length := by
  induction as generalizing k with
  | nil => rfl
  | cons a as ih => exact congrArg (List.cons k) (ih (k + 1))

theorem mem_of_mem_consecutive {as : List α} {j : Nat} (h : (j, a) ∈ consecutive k as) : a ∈ as := by
  induction as generalizing k with
  | nil => cases h
  | cons b as ih =>
      rcases List.mem_cons.mp h with heq | h
      · cases heq
        exact List.mem_cons_self
      · exact List.mem_cons_of_mem _ (ih h)

theorem mem_consecutive (k : Nat) {as : List α} {i : Nat} (h : as[i]? = some a) :
    (k + i, a) ∈ consecutive k as := by
  induction as generalizing k i with
  | nil => cases h
  | cons b as ih =>
      cases i with
      | zero =>
          cases h
          exact List.mem_cons_self
      | succ i =>
          rw [Nat.add_comm i, ← Nat.add_assoc]
          exact List.mem_cons_of_mem _ (ih (k + 1) h)

end WriteLog
