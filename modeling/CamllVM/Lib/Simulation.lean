import CamllVM.Lib.Related

/-!
# Simulations between step functions

A step function leads from a state to the next one, ends the run, or is stuck. A forward simulation
matches a step of the one machine with some steps of the other. It may match a step with no step at
all if a rank goes down, so that this cannot happen for ever.
-/

namespace Simulation

/-- What a step leads to. -/
inductive Next (σ : Type) where
  | running (s : σ)
  | finished

variable {σ τ : Type}

def Steps (step : σ → Option (Next σ)) (s s' : σ) : Prop := step s = some (.running s')

def Reaches (step : σ → Option (Next σ)) : σ → σ → Prop := Relation.ReflTransGen (Steps step)

def Advances (step : σ → Option (Next σ)) : σ → σ → Prop := Relation.TransGen (Steps step)

/-- The first `n` steps. -/
def runFor (step : σ → Option (Next σ)) : Nat → σ → Option (Next σ)
  | 0, s => some (.running s)
  | n + 1, s =>
      match step s with
      | some (.running s') => runFor step n s'
      | r => r

/-- The run from `s` comes to an end. -/
def Finishes (step : σ → Option (Next σ)) (s : σ) : Prop :=
  ∃ s', Reaches step s s' ∧ step s' = some .finished

/-- The run from `s` goes on for ever. -/
def Diverges (step : σ → Option (Next σ)) (s : σ) : Prop :=
  ∃ run : Nat → σ, run 0 = s ∧ ∀ n, Steps step (run n) (run (n + 1))

section

variable {step : σ → Option (Next σ)} {s s' s'' : σ}

theorem Reaches.advances (h : Reaches step s s') (hstep : Steps step s' s'') :
    Advances step s s'' := Relation.TransGen.tail' h hstep

theorem Advances.reaches (h : Advances step s s') : Reaches step s s' := h.to_reflTransGen

theorem Finishes.of_reaches (h : Reaches step s s') (hfin : Finishes step s') : Finishes step s := by
  obtain ⟨t, ht, hdone⟩ := hfin
  exact ⟨t, h.trans ht, hdone⟩

theorem Reaches.diverges (h : Reaches step s s') (hdiv : Diverges step s) : Diverges step s' := by
  induction h with
  | refl => exact hdiv
  | @tail a b _ hab ih =>
      obtain ⟨run, rfl, hrun⟩ := ih
      have heq : some (Next.running (run 1)) = some (Next.running b) := (hrun 0).symm.trans hab
      cases heq
      exact ⟨fun n => run (n + 1), rfl, fun n => hrun (n + 1)⟩

theorem finishes_of_runFor {n : Nat} (h : runFor step n s = some .finished) : Finishes step s := by
  induction n generalizing s with
  | zero => cases h
  | succ n ih =>
      rw [runFor] at h
      split at h
      · next s' hstep => exact .of_reaches (.single hstep) (ih h)
      · exact ⟨s, .refl, h⟩

/-- A run that comes to an end does not go on for ever. -/
theorem Finishes.not_diverges (h : Finishes step s) : ¬Diverges step s := by
  rintro hdiv
  obtain ⟨t, ht, hdone⟩ := h
  obtain ⟨run, rfl, hrun⟩ := ht.diverges hdiv
  have heq : some Next.finished = some (Next.running (run 1)) := hdone.symm.trans (hrun 0)
  cases heq

theorem Diverges.of_reaches (h : Reaches step s s') (hdiv : Diverges step s') : Diverges step s := by
  induction h using Relation.ReflTransGen.head_induction_on with
  | refl => exact hdiv
  | @head a b hab _ ih =>
      obtain ⟨run, rfl, hrun⟩ := ih
      refine ⟨fun n => Nat.casesOn n a run, rfl, fun n => ?_⟩
      cases n with
      | zero => exact hab
      | succ n => exact hrun n

/-- It is enough to go on in steps that keep a property, one after the other. -/
theorem Diverges.of_steps {P : σ → Prop} (hstep : ∀ s, P s → ∃ s', Steps step s s' ∧ P s') (hs : P s) :
    Diverges step s := by
  choose next hnext hkeep using hstep
  let run : Nat → {s // P s} := fun n =>
    Nat.rec ⟨s, hs⟩ (fun _ p => ⟨next p.1 p.2, hkeep p.1 p.2⟩) n
  exact ⟨fun n => (run n).1, rfl, fun n => hnext (run n).1 (run n).2⟩

end

/-- Related states step to related states, and the end of one run is matched by the end of the
other. -/
structure Forward (step : σ → Option (Next σ)) (step' : τ → Option (Next τ)) (rank : σ → Nat)
    (R : σ → τ → Prop) : Prop where
  running : ∀ s s' t, R s t → Steps step s s' →
    ∃ t', R s' t' ∧ (Advances step' t t' ∨ t' = t ∧ rank s' < rank s)
  finished : ∀ s t, R s t → step s = some .finished → Finishes step' t

namespace Forward

variable {step : σ → Option (Next σ)} {step' : τ → Option (Next τ)} {rank : σ → Nat}
  {R : σ → τ → Prop} {s s' : σ} {t : τ}

theorem reaches (h : Forward step step' rank R) (hR : R s t) (hs : Reaches step s s') :
    ∃ t', Reaches step' t t' ∧ R s' t' := by
  induction hs with
  | refl => exact ⟨t, .refl, hR⟩
  | tail _ hstep ih =>
      obtain ⟨t₁, ht₁, hR₁⟩ := ih
      obtain ⟨t₂, hR₂, hadvance | ⟨rfl, -⟩⟩ := h.running _ _ _ hR₁ hstep
      · exact ⟨t₂, ht₁.trans hadvance.reaches, hR₂⟩
      · exact ⟨t₂, ht₁, hR₂⟩

theorem finishes (h : Forward step step' rank R) (hR : R s t) (hs : Finishes step s) :
    Finishes step' t := by
  obtain ⟨s', hs', hdone⟩ := hs
  obtain ⟨t', ht', hR'⟩ := h.reaches hR hs'
  exact (h.finished _ _ hR' hdone).of_reaches ht'

/-- A run that goes on for ever does not stand still for ever. -/
theorem advances_of_diverges (h : Forward step step' rank R) (hR : R s t) (hs : Diverges step s) :
    ∃ s' t', R s' t' ∧ Diverges step s' ∧ Advances step' t t' := by
  induction hrank : rank s using Nat.strong_induction_on generalizing s with
  | _ n ih =>
      obtain ⟨run, rfl, hrun⟩ := hs
      have hlater : Diverges step (run 1) := ⟨fun n => run (n + 1), rfl, fun n => hrun (n + 1)⟩
      obtain ⟨t', hR', hadvance | ⟨rfl, hlt⟩⟩ := h.running _ _ _ hR (hrun 0)
      · exact ⟨run 1, t', hR', hlater, hadvance⟩
      · exact ih _ (hrank ▸ hlt) hR' hlater rfl

theorem diverges (h : Forward step step' rank R) (hR : R s t) (hs : Diverges step s) :
    Diverges step' t := by
  refine Diverges.of_steps (P := fun t => ∃ s t', R s t' ∧ Diverges step s ∧ Reaches step' t t')
    (fun t ht => ?_) ⟨s, t, hR, hs, .refl⟩
  obtain ⟨s, t', hR, hs, ht⟩ := ht
  obtain ⟨s₁, t₁, hR₁, hs₁, hadvance⟩ := h.advances_of_diverges hR hs
  obtain ⟨t₂, hstep, hreach⟩ := Relation.TransGen.head'_iff.mp (Relation.TransGen.trans_right ht hadvance)
  exact ⟨t₂, hstep, s₁, t₁, hR₁, hs₁, hreach⟩

end Forward

/-! ### Machines in step -/

inductive Next.Rel (R : σ → τ → Prop) : Next σ → Next τ → Prop
  | running {s : σ} {t : τ} (h : R s t) : Rel R (.running s) (.running t)
  | finished : Rel R .finished .finished

/-- Related states step to related states, end together and are stuck together. -/
def Lockstep (step : σ → Option (Next σ)) (step' : τ → Option (Next τ)) (R : σ → τ → Prop) : Prop :=
  ∀ s t, R s t → Option.Rel (Next.Rel R) (step s) (step' t)

namespace Lockstep

variable {step : σ → Option (Next σ)} {step' : τ → Option (Next τ)} {R : σ → τ → Prop} {s : σ} {t : τ}

theorem symm (h : Lockstep step step' R) : Lockstep step' step fun t s => R s t := by
  refine fun t s hR => Related.flip (h s t hR) fun next next' hnext => ?_
  cases hnext with
  | running hR => exact .running hR
  | finished => exact .finished

theorem forward (h : Lockstep step step' R) : Forward step step' (fun _ => 0) R where
  running s s' t hR hstep := by
    have hrel := h s t hR
    rw [hstep] at hrel
    generalize hstep' : step' t = x at hrel
    cases hrel with
    | some hnext =>
        cases hnext with
        | running hR' => exact ⟨_, hR', .inl (.single hstep')⟩
  finished s t hR hstep := by
    have hrel := h s t hR
    rw [hstep] at hrel
    generalize hstep' : step' t = x at hrel
    cases hrel with
    | some hnext =>
        cases hnext with
        | finished => exact ⟨t, .refl, hstep'⟩

theorem finishes_iff (h : Lockstep step step' R) (hR : R s t) :
    Finishes step s ↔ Finishes step' t :=
  ⟨h.forward.finishes hR, h.symm.forward.finishes hR⟩

theorem diverges_iff (h : Lockstep step step' R) (hR : R s t) :
    Diverges step s ↔ Diverges step' t :=
  ⟨h.forward.diverges hR, h.symm.forward.diverges hR⟩

end Lockstep

end Simulation
