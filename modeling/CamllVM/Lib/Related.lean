import Mathlib

/-!
# Related computations

Two computations that may fail are related if both fail, or if both have results and these are
related. Programs that take related steps one after the other are related.
-/

namespace Related

variable {α α' α'' β β' : Type} {R R' : α → α' → Prop} {S : β → β' → Prop}

theorem mono {x : Option α} {y : Option α'} (h : Option.Rel R x y) (hR : ∀ a b, R a b → R' a b) :
    Option.Rel R' x y := by
  cases h with
  | some hab => exact .some (hR _ _ hab)
  | none => exact .none

/-- A step, and what comes behind it. -/
theorem bind {x : Option α} {y : Option α'} {f : α → Option β} {g : α' → Option β'}
    (h : Option.Rel R x y) (hnext : ∀ a b, R a b → Option.Rel S (f a) (g b)) :
    Option.Rel S (x >>= f) (y >>= g) := by
  cases h with
  | some hab => exact hnext _ _ hab
  | none => exact .none

/-- A step that gives the same on both sides, and what comes behind it. -/
theorem bindEq {γ : Type} {x y : Option γ} {f : γ → Option β} {g : γ → Option β'} (h : y = x)
    (hnext : ∀ c, Option.Rel S (f c) (g c)) : Option.Rel S (x >>= f) (y >>= g) := by
  subst h
  cases y with
  | some c => exact hnext c
  | none => exact .none

theorem bindSelf {γ : Type} {x : Option γ} {f : γ → Option β} {g : γ → Option β'}
    (hnext : ∀ c, x = some c → Option.Rel S (f c) (g c)) : Option.Rel S (x >>= f) (x >>= g) := by
  cases x with
  | some c => exact hnext c rfl
  | none => exact .none

theorem optionMap {x : Option α} {y : Option α'} {f : α → β} {g : α' → β'} (h : Option.Rel R x y)
    (hnext : ∀ a b, R a b → S (f a) (g b)) : Option.Rel S (x.map f) (y.map g) := by
  cases h with
  | some hab => exact .some (hnext _ _ hab)
  | none => exact .none

theorem flip {Q : α' → α → Prop} {x : Option α} {y : Option α'} (h : Option.Rel R x y)
    (hR : ∀ a b, R a b → Q b a) : Option.Rel Q y x := by
  cases h with
  | some hab => exact .some (hR _ _ hab)
  | none => exact .none

theorem comp {P : α' → α'' → Prop} {Q : α → α'' → Prop} {x : Option α} {y : Option α'}
    {z : Option α''} (h : Option.Rel R x y) (h' : Option.Rel P y z)
    (hQ : ∀ a b c, R a b → P b c → Q a c) : Option.Rel Q x z := by
  cases h with
  | some hab =>
      cases h' with
      | some hbc => exact .some (hQ _ _ _ hab hbc)
  | none =>
      cases h' with
      | none => exact .none

theorem join {x : Option (Option α)} {y : Option (Option α')} (h : Option.Rel (Option.Rel R) x y) :
    Option.Rel R x.join y.join := by
  cases h with
  | some hab => exact hab
  | none => exact .none

theorem ite {c c' : Prop} [Decidable c] [Decidable c'] {x x' : Option α} {y y' : Option α'}
    (hc : c ↔ c') (h : c → Option.Rel R x y) (h' : ¬c → Option.Rel R x' y') :
    Option.Rel R (if c then x else x') (if c' then y else y') := by
  by_cases htest : c
  · rw [if_pos htest, if_pos (hc.mp htest)]
    exact h htest
  · rw [if_neg htest, if_neg (hc.not.mp htest)]
    exact h' htest

section

variable {l : List α} {l' : List α'}

theorem getElem? (h : List.Forall₂ R l l') (i : Nat) : Option.Rel R l[i]? l'[i]? := by
  induction h generalizing i with
  | nil => exact .none
  | cons hab _ ih =>
      cases i with
      | zero => exact .some hab
      | succ i => exact ih i

theorem set (h : List.Forall₂ R l l') (i : Nat) {a : α} {b : α'} (hab : R a b) :
    List.Forall₂ R (l.set i a) (l'.set i b) := by
  induction h generalizing i with
  | nil => exact .nil
  | cons hhead htail ih =>
      cases i with
      | zero => exact .cons hab htail
      | succ i => exact .cons hhead (ih i)

theorem replicate (n : Nat) {a : α} {b : α'} (hab : R a b) :
    List.Forall₂ R (List.replicate n a) (List.replicate n b) := by
  induction n with
  | zero => exact .nil
  | succ n ih => exact .cons hab ih

theorem self {Q : α → α → Prop} (h : List.Forall₂ R l l') (hQ : ∀ a b, R a b → Q a a) :
    List.Forall₂ Q l l := by
  induction h with
  | nil => exact .nil
  | cons hhead _ ih => exact .cons (hQ _ _ hhead) ih

theorem forall₂_comp {P : α' → α'' → Prop} {Q : α → α'' → Prop} {l'' : List α''}
    (h : List.Forall₂ R l l') (h' : List.Forall₂ P l' l'')
    (hQ : ∀ a b c, R a b → P b c → Q a c) : List.Forall₂ Q l l'' := by
  induction h generalizing l'' with
  | nil =>
      cases h' with
      | nil => exact .nil
  | cons hab _ ih =>
      cases h' with
      | cons hbc htail => exact .cons (hQ _ _ _ hab hbc) (ih htail)

theorem map {f : α → α'} (h : ∀ a ∈ l, R a (f a)) : List.Forall₂ R l (l.map f) :=
  List.forall₂_map_right_iff.mpr (List.forall₂_same.mpr h)

end

end Related
