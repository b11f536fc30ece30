import Mathlib

/-!
# Runs of a labelled step function

A run from a state is the list of its labels, each with the state that its step leads to. The rules
lift what one step preserves to the whole run.
-/

namespace Runs

variable {L S G : Type}

/-- The list is a run from the state `s`. -/
def IsRun (step : L → S → Option S) : S → List (L × S) → Prop
  | _, [] => True
  | s, (l, s') :: run => step l s = some s' ∧ IsRun step s' run

/-- The state that a run from `s` ends in. -/
def last : S → List (L × S) → S
  | s, [] => s
  | _, (_, s') :: run => last s' run

/-- A property of every state on the way. -/
def AllStates (P : S → Prop) (s : S) (run : List (L × S)) : Prop := P s ∧ ∀ e ∈ run, P e.2

/-- A property of every step on the way, with the states before and after it. -/
def AllSteps (C : S → L → S → Prop) : S → List (L × S) → Prop
  | _, [] => True
  | s, (l, s') :: run => C s l s' ∧ AllSteps C s' run

variable {step : L → S → Option S} {P : S → Prop} {C : S → L → S → Prop} {s : S}
  {run run' : List (L × S)}

theorem isRun_append : IsRun step s (run ++ run') ↔ IsRun step s run ∧ IsRun step (last s run) run' := by
  induction run generalizing s with
  | nil => exact ⟨fun h => ⟨trivial, h⟩, fun h => h.2⟩
  | cons e run ih =>
      obtain ⟨l, s'⟩ := e
      rw [List.cons_append, IsRun, ih, IsRun, last, and_assoc]

theorem last_append : last s (run ++ run') = last (last s run) run' := by
  induction run generalizing s with
  | nil => rfl
  | cons e run ih => exact ih

theorem AllStates.allSteps (h : AllStates P s run) : AllSteps (fun _ _ s' => P s') s run := by
  induction run generalizing s with
  | nil => trivial
  | cons e run ih =>
      have he := h.2 e List.mem_cons_self
      exact ⟨he, ih ⟨he, fun e' he' => h.2 e' (List.mem_cons_of_mem e he')⟩⟩

theorem allSteps_iff_split : AllSteps C s run ↔
    ∀ before l s' after, run = before ++ (l, s') :: after → C (last s before) l s' := by
  induction run generalizing s with
  | nil =>
      refine ⟨fun _ before l s' after heq => ?_, fun _ => trivial⟩
      exact absurd heq.symm (List.append_ne_nil_of_right_ne_nil before (List.cons_ne_nil _ _))
  | cons e run ih =>
      obtain ⟨l, s₁⟩ := e
      rw [AllSteps, ih]
      constructor
      · rintro ⟨hhead, htail⟩ before l' s' after heq
        cases before with
        | nil => cases heq; exact hhead
        | cons e before =>
            cases heq
            exact htail before l' s' after rfl
      · intro h
        exact ⟨h [] l s₁ run rfl,
          fun before l' s' after heq => h ((l, s₁) :: before) l' s' after (by rw [heq]; rfl)⟩

/-- What every step that meets a condition preserves holds along a run of such steps. -/
theorem allStates_of_step (hstep : ∀ s l s', P s → step l s = some s' → C s l s' → P s')
    (hrun : IsRun step s run) (hcond : AllSteps C s run) (hs : P s) : AllStates P s run := by
  induction run generalizing s with
  | nil => exact ⟨hs, fun _ he => absurd he List.not_mem_nil⟩
  | cons e run ih =>
      obtain ⟨l, s'⟩ := e
      have htail := ih hrun.2 hcond.2 (hstep s l s' hs hrun.1 hcond.1)
      refine ⟨hs, fun e he => ?_⟩
      rcases List.mem_cons.mp he with rfl | he
      · exact htail.1
      · exact htail.2 e he

theorem allStates_of_invariant (hstep : ∀ s l s', P s → step l s = some s' → P s')
    (hrun : IsRun step s run) (hs : P s) : AllStates P s run := by
  refine allStates_of_step (C := fun _ _ _ => True) (fun s l s' hp h _ => hstep s l s' hp h) hrun ?_ hs
  clear hrun hs
  induction run generalizing s with
  | nil => trivial
  | cons e run ih => exact ⟨trivial, ih⟩

theorem allSteps_of_invariant (hstep : ∀ s l s', P s → step l s = some s' → P s' ∧ C s l s')
    (hrun : IsRun step s run) (hs : P s) : AllSteps C s run := by
  induction run generalizing s with
  | nil => trivial
  | cons e run ih =>
      obtain ⟨l, s'⟩ := e
      obtain ⟨hs', hc⟩ := hstep s l s' hs hrun.1
      exact ⟨hc, ih hrun.2 hs'⟩

/-- A condition that is exact for one step is exact for a run. -/
theorem allStates_iff_allSteps (hstep : ∀ s l s', P s → step l s = some s' → (P s' ↔ C s l s'))
    (hrun : IsRun step s run) (hs : P s) : AllStates P s run ↔ AllSteps C s run := by
  refine ⟨fun hall => ?_, fun hcond => ?_⟩
  · clear hs
    induction run generalizing s with
    | nil => trivial
    | cons e run ih =>
        obtain ⟨l, s'⟩ := e
        have hs' : P s' := hall.2 (l, s') List.mem_cons_self
        exact ⟨(hstep s l s' hall.1 hrun.1).mp hs',
          ih hrun.2 ⟨hs', fun e he => hall.2 e (List.mem_cons_of_mem _ he)⟩⟩
  · exact allStates_of_step (fun s l s' hp h hc => (hstep s l s' hp h).mpr hc) hrun hcond hs

/-- The run along a list of labels, up to the first label that the step function refuses. -/
def trace (step : L → S → Option S) : S → List L → List (L × S)
  | _, [] => []
  | s, l :: ls =>
      match step l s with
      | some s' => (l, s') :: trace step s' ls
      | none => []

theorem isRun_trace (step : L → S → Option S) (s : S) (ls : List L) :
    IsRun step s (trace step s ls) := by
  induction ls generalizing s with
  | nil => trivial
  | cons l ls ih =>
      unfold trace
      split
      · next s' hstep => exact ⟨hstep, ih s'⟩
      · trivial

/-- Every label that is tried along the list, with the state it is tried in. The last one may be
refused. -/
def attempts (step : L → S → Option S) : S → List L → List (S × L)
  | _, [] => []
  | s, l :: ls =>
      (s, l) ::
        match step l s with
        | some s' => attempts step s' ls
        | none => []

/-- Two properties of attempts that agree wherever an invariant holds. -/
theorem forall_attempts_iff {A B : S → L → Prop} (hstep : ∀ s l s', P s → step l s = some s' → P s')
    (hiff : ∀ s l, P s → (A s l ↔ B s l)) (hs : P s) (ls : List L) :
    (∀ e ∈ attempts step s ls, A e.1 e.2) ↔ ∀ e ∈ attempts step s ls, B e.1 e.2 := by
  induction ls generalizing s with
  | nil => exact ⟨fun _ _ he => absurd he List.not_mem_nil, fun _ _ he => absurd he List.not_mem_nil⟩
  | cons l ls ih =>
      have hrest : (∀ e ∈ (match step l s with
            | some s' => attempts step s' ls
            | none => []), A e.1 e.2) ↔
          ∀ e ∈ (match step l s with
            | some s' => attempts step s' ls
            | none => []), B e.1 e.2 := by
        cases hl : step l s with
        | none => exact ⟨fun _ _ he => absurd he List.not_mem_nil, fun _ _ he => absurd he List.not_mem_nil⟩
        | some s' => exact ih (hstep s l s' hs hl)
      rw [attempts, List.forall_mem_cons, List.forall_mem_cons, hiff s l hs, hrest]

/-- The step function with a record of the run so far beside the state. The record can refuse a
step. -/
def recorded (step : L → S → Option S) (record : L → S → S → G → Option G) (l : L) (sg : S × G) :
    Option (S × G) := do
  let s' ← step l sg.1
  let g' ← record l sg.1 s' sg.2
  return (s', g')

theorem recorded_eq_some {record : L → S → S → G → Option G} {l : L} {s' : S} {g g' : G} :
    recorded step record l (s, g) = some (s', g') ↔
      step l s = some s' ∧ record l s s' g = some g' := by
  simp only [recorded, Option.bind_eq_bind, Option.bind_eq_some_iff]
  constructor
  · rintro ⟨s₁, hs, g₁, hg, heq⟩
    cases heq
    exact ⟨hs, hg⟩
  · rintro ⟨hs, hg⟩
    exact ⟨s', hs, g', hg, rfl⟩

end Runs
