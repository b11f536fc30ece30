import Mathlib

/-!
# Properties of results

A computation that may fail ensures a property if every result that it has has the property. There
is a rule for each way in which a computation is composed.
-/

def Ensures {α : Type} (P : α → Prop) (x : Option α) : Prop := ∀ a, x = some a → P a

namespace Ensures

variable {α β : Type} {P Q : α → Prop} {R : β → Prop} {x y : Option α} {a : α}

theorem stuck : Ensures P none := by
  intro a h
  cases h

theorem result (h : P a) : Ensures P (some a) := by
  intro b heq
  cases heq
  exact h

/-- Nothing is known of the result but that it is the result. -/
theorem self (x : Option α) : Ensures (fun a => x = some a) x := fun _ h => h

theorem mono (h : Ensures P x) (hPQ : ∀ a, P a → Q a) : Ensures Q x := fun a ha => hPQ a (h a ha)

/-- A computation, and what comes behind it. -/
theorem andThen {f : α → Option β} (h : Ensures P x) (hnext : ∀ a, P a → Ensures R (f a)) :
    Ensures R (x >>= f) := by
  cases hx : x with
  | none => exact stuck
  | some a => exact hnext a (h a hx)

theorem map {f : α → β} (h : Ensures P x) (hf : ∀ a, P a → R (f a)) : Ensures R (x.map f) := by
  cases hx : x with
  | none => exact stuck
  | some a => exact result (hf a (h a hx))

theorem join {x : Option (Option α)} (h : Ensures (Ensures P) x) : Ensures P x.join := by
  cases hx : x with
  | none => exact stuck
  | some y => exact h y hx

theorem byCases {c : Prop} [Decidable c] (h : c → Ensures P x) (h' : ¬c → Ensures P y) :
    Ensures P (if c then x else y) := by
  split
  · next hc => exact h hc
  · next hc => exact h' hc

end Ensures
