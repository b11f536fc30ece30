import Mathlib

/-!
# Vertices that nothing supports

In a directed graph with a root, a vertex other than the root is unsupported if all its predecessors
are. The unsupported vertices can be taken out of the graph a few at a time.
-/

namespace Support

variable {V : Type} {edge : V → V → Prop} {root u v : V}

/-- The least property of a vertex other than the root whose predecessors all have it. -/
inductive Unsupported (edge : V → V → Prop) (root : V) : V → Prop
  | intro {v : V} : v ≠ root → (∀ u, edge u v → Unsupported edge root u) → Unsupported edge root v

theorem Unsupported.ne_root (h : Unsupported edge root v) : v ≠ root := by
  cases h with
  | intro hne _ => exact hne

theorem Unsupported.pred (h : Unsupported edge root v) (hedge : edge u v) :
    Unsupported edge root u := by
  cases h with
  | intro _ hpred => exact hpred u hedge

theorem Unsupported.mem_of_closed {X : Set V}
    (hX : ∀ v, v ≠ root → (∀ u, edge u v → u ∈ X) → v ∈ X) (h : Unsupported edge root v) :
    v ∈ X := by
  induction h with
  | intro hne _ ih => exact hX _ hne ih

theorem not_unsupported_of_reachable (h : Relation.ReflTransGen edge root v) :
    ¬Unsupported edge root v := by
  intro hv
  induction h with
  | refl => exact hv.ne_root rfl
  | tail _ hedge ih => exact ih (hv.pred hedge)

theorem not_unsupported_succ (hu : ¬Unsupported edge root u) (hedge : edge u v) :
    ¬Unsupported edge root v := fun hv => hu (hv.pred hedge)

theorem exists_supported_pred (hv : ¬Unsupported edge root v) (hne : v ≠ root) :
    ∃ u, edge u v ∧ ¬Unsupported edge root u := by
  by_contra hnone
  push Not at hnone
  exact hv (.intro hne hnone)

/-- If every vertex of a set but the root has a predecessor in the set, the set is supported. -/
theorem not_unsupported_of_pred {X : Set V} (hX : ∀ v ∈ X, v ≠ root → ∃ u ∈ X, edge u v)
    (hv : v ∈ X) : ¬Unsupported edge root v := by
  intro h
  induction h with
  | intro hne _ ih =>
      obtain ⟨u, hu, hedge⟩ := hX _ hv hne
      exact ih u hedge hu

/-- Taking out unsupported vertices with their edges changes nothing for the others. -/
theorem unsupported_iff_erase {S : Set V} (hS : ∀ v ∈ S, Unsupported edge root v) :
    Unsupported edge root v ↔ v ∈ S ∨ Unsupported (fun u w => u ∉ S ∧ edge u w) root v := by
  constructor
  · intro h
    induction h with
    | intro hne _ ih => exact .inr (.intro hne fun u hu => (ih u hu.2).resolve_left hu.1)
  · rintro (hv | hv)
    · exact hS _ hv
    · induction hv with
      | intro hne _ ih =>
          refine .intro hne fun u hedge => ?_
          by_cases hu : u ∈ S
          · exact hS u hu
          · exact ih u ⟨hu, hedge⟩

end Support
