import CamllVM.Lib.Runs
import CamllVM.Proof.Steps

/-!
# The stack headroom at a function entry

The library functions for calls hand the code of the callee to the generated code, which goes on to
it. All of them but `apply` make sure before that the stack pointer is not below
`caml_stack_threshold`: a body can then push as many words as lie between the threshold and the low
end of the stack. The threshold never moves towards the base of the stack, so that this holds of the
rest of the run as well.
-/

namespace CamllVM

open Runs

/-- `StackPointer >= caml_stack_threshold` -/
def Machine.Headroom (m : Machine) : Prop := m.stack.length ≤ m.camlStackThreshold

/-- The number of words between the base and the low end of the stack, of which `headroom` words lie
below the threshold. -/
def Machine.capacity (m : Machine) (headroom : Nat) : Nat := m.camlStackThreshold + headroom

/-- `caml_realloc_stack` makes the stack so large that the stack pointer is at the new threshold or
above it. -/
def Runtime.Reestablishes (rt : Runtime) : Prop :=
  ∀ size threshold, rt.camlReallocStack size = .ret threshold → size ≤ threshold

/-- The machine at the return of a library function that hands over the code of a callee. -/
def handed : Option (Outcome (Machine × CodePtr)) → Option Machine
  | some (.next (m, _)) => some m
  | _ => none

/-- The machine at the moment at which an instruction is handed the code of the callee. -/
def ZInstruction.handsOver (rt : Runtime) (inst : ZInstruction) (m : Machine) : Option Machine :=
  match inst.opNum with
  | .apply => (m.apply (inst.arg 0)).map Prod.fst
  | .apply1 => handed (m.apply1 rt)
  | .apply2 => handed (m.apply2 rt)
  | .apply3 => handed (m.apply3 rt)
  | .appterm => do handed (m.appterm rt (← inst.countArg 0) (← inst.countArg 1))
  | .appterm1 => do handed (m.appterm1 rt (← inst.countArg 0))
  | .appterm2 => do handed (m.appterm2 rt (← inst.countArg 0))
  | .appterm3 => do handed (m.appterm3 rt (← inst.countArg 0))
  | _ => none

/-- Wherever the run hands over the code of a callee, the stack has headroom, and from then on the
first `headroom` words that are pushed lie above the low end of the stack. -/
def EntriesHaveHeadroom (rt : Runtime) (headroom : Nat) (s : Exec)
    (run : List (ZInstruction × Exec)) : Prop :=
  ∀ before inst s' body m, run = before ++ (inst, s') :: body →
    inst.handsOver rt (last s before).machine = some m →
    m.Headroom ∧ ∀ e ∈ (inst, s') :: body, ∀ pushed ≤ headroom,
      m.stack.length + pushed ≤ e.2.machine.capacity headroom

/-! ### The library functions that leave the threshold alone -/

/-- The threshold is that of `m` where the function returns or jumps to a handler. -/
def Outcome.KeepsThreshold (m : Machine) (o : Outcome Machine) : Prop :=
  (∀ m', o = .next m' → m'.camlStackThreshold = m.camlStackThreshold) ∧
    ∀ i m', o = .jump (.longjmp i m') → m'.camlStackThreshold = m.camlStackThreshold

theorem Outcome.keepsThreshold_next {m m' : Machine}
    (h : m'.camlStackThreshold = m.camlStackThreshold) : (Outcome.next m').KeepsThreshold m := by
  refine ⟨fun m'' heq => ?_, fun i m'' heq => ?_⟩
  · cases heq
    exact h
  · cases heq

namespace Machine

variable {rt : Runtime} {m m' : Machine} {n : Nat} {v w : Value}

theorem threshold_raiseSp (h : m.raiseSp n = some m') :
    m'.camlStackThreshold = m.camlStackThreshold := by
  obtain ⟨-, rfl⟩ := raiseSp_eq_some h
  rfl

theorem threshold_setSlot {i : Nat} (h : m.setSlot i v = some m') :
    m'.camlStackThreshold = m.camlStackThreshold := by
  obtain ⟨-, rfl⟩ := setSlot_eq_some h
  rfl

theorem threshold_setField {i : Int} (h : m.setField v i w = some m') :
    m'.camlStackThreshold = m.camlStackThreshold := by
  simp only [setField, Option.bind_eq_bind, Option.bind_eq_some_iff] at h
  obtain ⟨heap, -, h⟩ := h
  cases h
  rfl

theorem threshold_reserve (h : m.reserve rt = some m') :
    m'.camlStackThreshold = m.camlStackThreshold := by
  unfold reserve at h
  split at h
  · cases h
    rfl
  · cases h
    rfl

theorem threshold_allocSmall {block : Value} {wosize tag : Nat}
    (h : m.allocSmall rt wosize tag = some (block, m')) :
    m'.camlStackThreshold = m.camlStackThreshold := by
  simp only [allocSmall, Option.bind_eq_bind, Option.bind_eq_some_iff] at h
  obtain ⟨m₁, hreserve, h⟩ := h
  cases h
  have hsame : m₁.camlStackThreshold = m.camlStackThreshold := threshold_reserve hreserve
  exact hsame

theorem threshold_allocBlock {block : Value} {wosize tag : Nat}
    (h : m.allocBlock rt wosize tag = some (block, m')) :
    m'.camlStackThreshold = m.camlStackThreshold := by
  unfold allocBlock at h
  split at h
  · exact threshold_allocSmall h
  · cases h
    rfl

theorem threshold_restoreAfterCCall (h : m.restoreAfterCCall = some m') :
    m'.camlStackThreshold = m.camlStackThreshold := by
  simp only [restoreAfterCCall, Option.bind_eq_bind, Option.bind_eq_some_iff] at h
  obtain ⟨env, -, m₁, hraise, h⟩ := h
  cases h
  have hsame := threshold_raiseSp hraise
  exact hsame

theorem threshold_fillFromStack {block : Value} {i : Nat}
    (h : m.fillFromStack block i n = some m') : m'.camlStackThreshold = m.camlStackThreshold := by
  induction n generalizing m i with
  | zero => cases h; rfl
  | succ n ih =>
      simp only [fillFromStack, Option.bind_eq_bind, Option.bind_eq_some_iff] at h
      obtain ⟨v, -, m₁, hset, m₂, hraise, h⟩ := h
      rw [ih h, threshold_raiseSp hraise, threshold_setField hset]

theorem threshold_fillDoubles {block : Value} {i : Nat} (h : m.fillDoubles block i n = some m') :
    m'.camlStackThreshold = m.camlStackThreshold := by
  induction n generalizing m i with
  | zero => cases h; rfl
  | succ n ih =>
      simp only [fillDoubles, Option.bind_eq_bind, Option.bind_eq_some_iff] at h
      obtain ⟨v, -, d, -, m₁, hset, m₂, hraise, h⟩ := h
      rw [ih h, threshold_raiseSp hraise, threshold_setField hset]

theorem threshold_copySlots {block : Value} {i j : Nat} (h : m.copySlots block i j n = some m') :
    m'.camlStackThreshold = m.camlStackThreshold := by
  induction n generalizing m j with
  | zero => cases h; rfl
  | succ n ih =>
      simp only [copySlots, Option.bind_eq_bind, Option.bind_eq_some_iff] at h
      obtain ⟨v, -, m₁, hset, h⟩ := h
      rw [ih h, threshold_setField hset]

theorem threshold_wordOp {f : BitVec 64 → BitVec 64 → Option Value} (h : m.wordOp f = some m') :
    m'.camlStackThreshold = m.camlStackThreshold := by
  simp only [wordOp, Option.bind_eq_bind, Option.bind_eq_some_iff] at h
  obtain ⟨a, -, w, -, b, -, accu, -, m₁, hraise, h⟩ := h
  cases h
  exact (threshold_raiseSp hraise :)

theorem threshold_getDynMet (h : m.getDynMet = some m') :
    m'.camlStackThreshold = m.camlStackThreshold := by
  simp only [getDynMet, Option.bind_eq_bind, Option.bind_eq_some_iff] at h
  obtain ⟨w, -, meths, -, w', -, hi, -, tag, -, li, -, accu, -, h⟩ := h
  cases h
  rfl

theorem threshold_getDoubleField {idx : Int} (h : m.getDoubleField rt idx = some m') :
    m'.camlStackThreshold = m.camlStackThreshold := by
  simp only [getDoubleField, Option.bind_eq_bind, Option.bind_eq_some_iff] at h
  obtain ⟨w, -, h⟩ := h
  split at h
  · obtain ⟨⟨block, m₁⟩, halloc, h⟩ := Option.bind_eq_some_iff.mp h
    obtain ⟨m₂, hset, h⟩ := Option.bind_eq_some_iff.mp h
    cases h
    exact (threshold_setField hset).trans (threshold_allocSmall halloc)
  · cases h

theorem threshold_camlRaise {exn : Value} {i : Nat} (h : m.camlRaise exn = some (.longjmp i m')) :
    m'.camlStackThreshold = m.camlStackThreshold := by
  rcases camlRaise_cases h with ⟨-, heq⟩ | ⟨i', -, heq⟩
  · cases heq
  · cases heq
    rfl

theorem threshold_primitive {p : Int} {args : PrimArgs} {o : Outcome Machine}
    (h : m.primitive rt p args = some o) : o.KeepsThreshold m := by
  simp only [primitive, Option.bind_eq_bind, Option.bind_eq_some_iff] at h
  obtain ⟨done, -, h⟩ := h
  split at h
  · cases h
    exact Outcome.keepsThreshold_next rfl
  · obtain ⟨j, hraise, rfl⟩ := Option.map_eq_some_iff.mp h
    refine ⟨fun m' heq => ?_, fun i m' heq => ?_⟩
    · cases heq
    · cases heq
      have hsame := threshold_camlRaise hraise
      exact hsame

theorem threshold_cCall {extra : Nat} {p : Int} {o : Outcome Machine}
    (h : m.cCall rt extra p = some o) : o.KeepsThreshold m := by
  simp only [cCall, Option.bind_eq_bind, Option.bind_eq_some_iff] at h
  obtain ⟨args, -, o', hprim, h⟩ := h
  have hkeeps := threshold_primitive hprim
  cases o' with
  | jump j =>
      cases h
      exact hkeeps
  | next m₁ =>
      obtain ⟨m₃, hrest, rfl⟩ := Option.map_eq_some_iff.mp h
      obtain ⟨m₂, hrestore, hraise⟩ := Option.bind_eq_some_iff.mp hrest
      refine Outcome.keepsThreshold_next ?_
      rw [threshold_raiseSp hraise, threshold_restoreAfterCCall hrestore, hkeeps.1 m₁ rfl]
      rfl

theorem threshold_cCallN {p nargs : Int} {o : Outcome Machine} (h : m.cCallN rt p nargs = some o) :
    o.KeepsThreshold m := by
  simp only [cCallN, Option.bind_eq_bind, Option.bind_eq_some_iff] at h
  obtain ⟨o', hprim, h⟩ := h
  have hkeeps := threshold_primitive hprim
  cases o' with
  | jump j =>
      cases h
      exact hkeeps
  | next m₁ =>
      obtain ⟨m₃, hrest, rfl⟩ := Option.map_eq_some_iff.mp h
      obtain ⟨m₂, hrestore, hrest⟩ := Option.bind_eq_some_iff.mp hrest
      refine Outcome.keepsThreshold_next ?_
      split at hrest
      · rw [threshold_raiseSp hrest, threshold_restoreAfterCCall hrestore, hkeeps.1 m₁ rfl]
        rfl
      · cases hrest

end Machine

namespace RuntimeCall

open Machine

variable {rt : Runtime} {m m' : Machine}

section

attribute [local grind →] threshold_raiseSp threshold_setSlot threshold_setField
  threshold_allocSmall threshold_allocBlock threshold_fillFromStack threshold_fillDoubles
  threshold_copySlots

theorem run_threshold {c : RuntimeCall} {o : Outcome Machine} (h : c.run rt m = some o) :
    o.KeepsThreshold m := by
  cases c
  case cCall1 | cCall2 | cCall3 | cCall4 | cCall5 => exact threshold_cCall h
  case cCallN => exact threshold_cCallN h
  -- The other functions cannot raise an exception.
  all_goals
    refine ⟨fun m' heq => ?_, fun i m' heq => absurd (heq ▸ h) plain_ne_jump⟩
    subst heq
    replace h := of_plain h
  case addInt | subInt | mulInt | divInt | modInt | andInt | orInt | xorInt | lslInt | lsrInt |
      asrInt | geInt | ltInt | leInt | ultInt | ugeInt | gtInt => exact threshold_wordOp h
  case getDynMet => exact threshold_getDynMet h
  case getPubMet => exact (threshold_getDynMet h :)
  case getDoubleField => exact threshold_getDoubleField h
  all_goals
    simp only [Machine.constInt, Machine.push, pushWord, lowerSp, Machine.pop, Machine.pushRetAddr,
      Machine.acc, Machine.envAcc, Machine.negInt, Machine.offsetInt, Machine.boolNot,
      Machine.isInt, Machine.offsetRef, Machine.cmpNeq, Machine.cmpEq, Machine.assign,
      Machine.getGlobal, Machine.setGlobal, Machine.getField, Machine.storeField, Machine.getAtom,
      Machine.makeBlock1, Machine.makeBlock2, Machine.makeBlock3, Machine.makeBlock,
      Machine.makeFloatBlock, Machine.storeDoubleField, Machine.vectLength, Machine.getVectItem,
      Machine.setVectItem, Machine.getStringChar, Machine.setStringChar, Machine.closureRec,
      Machine.setClosureRecNestedClos, Machine.closure, Machine.offsetClosure, Machine.getMethod,
      Option.bind_eq_bind, Option.bind_eq_some_iff, Option.pure_def, Option.some.injEq] at h
    grind

end

theorem runAll_threshold {cs : List RuntimeCall} {o : Outcome Machine}
    (h : runAll rt cs m = some o) : o.KeepsThreshold m := by
  induction cs generalizing m with
  | nil =>
      cases h
      exact Outcome.keepsThreshold_next rfl
  | cons c cs ih =>
      simp only [runAll, Option.bind_eq_bind, Option.bind_eq_some_iff] at h
      obtain ⟨o', hrun, h⟩ := h
      have hkeeps := run_threshold hrun
      cases o' with
      | jump j =>
          cases h
          exact hkeeps
      | next m₁ =>
          have hsame := hkeeps.1 m₁ rfl
          obtain ⟨hnext, hjump⟩ := ih h
          exact ⟨fun m' heq => (hnext m' heq).trans hsame,
            fun i m' heq => (hjump i m' heq).trans hsame⟩

end RuntimeCall

/-! ### The stack check -/

namespace Machine

variable {rt : Runtime} {m m' : Machine} {n : Nat}

/-- A library function that ends with the stack check has not changed the threshold before. -/
def EndsWithCheck (rt : Runtime) (m : Machine) (o : Option (Outcome (Machine × CodePtr))) : Prop :=
  ∀ o', o = some o' → ∃ m₁ : Machine, m₁.camlStackThreshold = m.camlStackThreshold ∧
    m₁.checkedCall rt = some o'

theorem endsWithCheck_applyArgs (m : Machine) (n : Nat) :
    m.EndsWithCheck rt (m.applyArgs rt n) := by
  intro o' h
  obtain ⟨args, w, -, -, -, -, hchecked⟩ := applyArgs_eq_some h
  exact ⟨m.framed args w, rfl, hchecked⟩

theorem endsWithCheck_appterm (m : Machine) (n slotsize : Nat) :
    m.EndsWithCheck rt (m.appterm rt n slotsize) := by
  intro o' h
  obtain ⟨args, -, -, -, -, hchecked⟩ := appterm_eq_some h
  exact ⟨m.tailFramed args slotsize, rfl, hchecked⟩

theorem endsWithCheck_apptermArgs (m : Machine) (n slotsize : Nat) :
    m.EndsWithCheck rt (m.apptermArgs rt n slotsize) := by
  intro o' h
  obtain ⟨args, -, -, -, -, hchecked⟩ := apptermArgs_eq_some h
  exact ⟨m.tailFramed args slotsize, rfl, hchecked⟩

/-- Behind the check the stack has headroom, and the stack has not become smaller. -/
theorem checkStacks_headroom (hrt : rt.Reestablishes) (h : m.checkStacks rt = some (.next m')) :
    m'.Headroom ∧ m.camlStackThreshold ≤ m'.camlStackThreshold := by
  unfold checkStacks at h
  split at h
  · next hlow =>
      cases hrealloc : rt.camlReallocStack m.stack.length with
      | ret threshold =>
          simp only [hrealloc, Option.some.injEq, Outcome.next.injEq] at h
          have hnew := hrt _ _ hrealloc
          rw [← h]
          exact ⟨hnew, by dsimp only; omega⟩
      | raise exn =>
          simp only [hrealloc] at h
          obtain ⟨j, -, heq⟩ := Option.map_eq_some_iff.mp h
          cases heq
  · next hroom =>
      cases h
      exact ⟨Nat.not_lt.mp hroom, Nat.le_refl _⟩

theorem checkStacks_raises {i : Nat} (h : m.checkStacks rt = some (.jump (.longjmp i m'))) :
    m'.camlStackThreshold = m.camlStackThreshold := by
  unfold checkStacks at h
  split at h
  · cases hrealloc : rt.camlReallocStack m.stack.length with
    | ret threshold => simp [hrealloc] at h
    | raise exn =>
        simp only [hrealloc] at h
        obtain ⟨j, hraise, heq⟩ := Option.map_eq_some_iff.mp h
        cases heq
        have hsame := threshold_camlRaise hraise
        exact hsame
  · cases h

theorem EndsWithCheck.headroom {o : Option (Outcome (Machine × CodePtr))} {c : CodePtr}
    (ho : m.EndsWithCheck rt o) (hrt : rt.Reestablishes) (h : o = some (.next (m', c))) :
    m'.Headroom ∧ m.camlStackThreshold ≤ m'.camlStackThreshold := by
  obtain ⟨m₁, hsame, hchecked⟩ := ho _ h
  simp only [checkedCall, Option.bind_eq_bind, Option.bind_eq_some_iff] at hchecked
  obtain ⟨o', hcheck, hnext⟩ := hchecked
  cases o' with
  | jump j => cases hnext
  | next m₂ =>
      obtain ⟨⟨m₃, c'⟩, hcalling, heq⟩ := Option.map_eq_some_iff.mp hnext
      cases heq
      obtain ⟨rfl, -⟩ := calling_eq_some hcalling
      rw [← hsame]
      exact checkStacks_headroom hrt hcheck

theorem EndsWithCheck.raises {o : Option (Outcome (Machine × CodePtr))} {i : Nat}
    (ho : m.EndsWithCheck rt o) (h : o = some (.jump (.longjmp i m'))) :
    m'.camlStackThreshold = m.camlStackThreshold := by
  obtain ⟨m₁, hsame, hchecked⟩ := ho _ h
  simp only [checkedCall, Option.bind_eq_bind, Option.bind_eq_some_iff] at hchecked
  obtain ⟨o', hcheck, hnext⟩ := hchecked
  cases o' with
  | jump j =>
      cases hnext
      exact (checkStacks_raises hcheck).trans hsame
  | next m₂ =>
      obtain ⟨a, -, heq⟩ := Option.map_eq_some_iff.mp hnext
      cases heq

end Machine

/-! ### Steps -/

namespace Exec

variable {rt : Runtime} {inst : ZInstruction} {s s' : Exec} {m : Machine}

theorem enter_threshold {c : CodePtr} (h : s.enter m c = some s') :
    s'.machine.camlStackThreshold = m.camlStackThreshold := by
  obtain ⟨id, m', rfl, ⟨-, rfl⟩ | ⟨-, vs, env, rfl⟩⟩ := enter_cases h <;> rfl

theorem land_threshold {i : Nat} (h : s.land i m = some s') :
    s'.machine.camlStackThreshold = m.camlStackThreshold := by
  obtain ⟨buf, m₁, m₂, -, -, hvalue, hremove, rfl⟩ := land_eq_some h
  obtain ⟨env, link, extra, extraArgs, -, -, -, -, rfl⟩ := Machine.getExceptionValue_eq_some hvalue
  obtain ⟨context, -, rfl⟩ := Machine.removeExceptionContext_eq_some hremove
  rfl

theorem settle_threshold {o : Option (Outcome (Machine × CodePtr))}
    {next : Machine × CodePtr → Option Stepped} (hrt : rt.Reestablishes)
    (ho : s.machine.EndsWithCheck rt o)
    (hnext : ∀ m c s', next (m, c) = some (.running s') →
      s'.machine.camlStackThreshold = m.camlStackThreshold)
    (h : (o.bind fun o' => s.settle o' next) = some (.running s')) :
    s.machine.camlStackThreshold ≤ s'.machine.camlStackThreshold ∧
      ∀ m, handed o = some m → m.camlStackThreshold ≤ s'.machine.camlStackThreshold := by
  obtain ⟨o', ho', hsettle⟩ := Option.bind_eq_some_iff.mp h
  obtain ⟨⟨m, c⟩, rfl, hcall⟩ | ⟨i, m, rfl, hland⟩ := settle_eq_running hsettle
  · have hsame := hnext m c s' hcall
    refine ⟨hsame ▸ (ho.headroom hrt ho').2, fun m₁ hm₁ => ?_⟩
    rw [ho'] at hm₁
    cases hm₁
    exact hsame.ge
  · refine ⟨((land_threshold hland).trans (ho.raises ho')).ge, fun m₁ hm₁ => ?_⟩
    rw [ho'] at hm₁
    cases hm₁

theorem callBy_threshold {o : Option (Outcome (Machine × CodePtr))} (hrt : rt.Reestablishes)
    (ho : s.machine.EndsWithCheck rt o) (h : s.callBy o = some (.running s')) :
    s.machine.camlStackThreshold ≤ s'.machine.camlStackThreshold ∧
      ∀ m, handed o = some m → m.camlStackThreshold ≤ s'.machine.camlStackThreshold := by
  refine settle_threshold hrt ho (fun m c s₁ hcall => ?_) h
  obtain ⟨s₂, henter, heq⟩ := Option.map_eq_some_iff.mp hcall
  cases heq
  exact enter_threshold henter

theorem tailCallBy_threshold {o : Option (Outcome (Machine × CodePtr))} (hrt : rt.Reestablishes)
    (ho : s.machine.EndsWithCheck rt o) (h : s.tailCallBy o = some (.running s')) :
    s.machine.camlStackThreshold ≤ s'.machine.camlStackThreshold ∧
      ∀ m, handed o = some m → m.camlStackThreshold ≤ s'.machine.camlStackThreshold := by
  refine settle_threshold hrt ho (fun m c s₁ hcall => ?_) h
  obtain ⟨s₂, henter, heq⟩ := Option.map_eq_some_iff.mp hcall
  cases heq
  exact enter_threshold henter

theorem leave_threshold (h : s.leave m = .running s') :
    s'.machine.camlStackThreshold = m.camlStackThreshold := by
  obtain ⟨fn, callers, -, rfl⟩ := leave_eq_running h
  rfl

theorem handleReturn_threshold {n : Nat} {c : Option CodePtr}
    (h : s.machine.handleReturn n = some (m, c)) :
    m.camlStackThreshold = s.machine.camlStackThreshold := by
  obtain ⟨-, ⟨-, c', -, -, rfl⟩ | ⟨-, -, w, env, extra, extraArgs, rest, -, -, rfl⟩⟩ :=
    Machine.handleReturn_cases h <;> rfl

theorem exec_sameThreshold (hframed : inst.framedArgs = none) (htail : inst.tailOperands = none)
    (h : s.exec rt inst = some (.running s')) :
    s'.machine.camlStackThreshold = s.machine.camlStackThreshold := by
  unfold exec at h
  split at h
  · split at h
    · cases h
      rfl
    · split at h
      · cases h
      · obtain ⟨m', hrestart, heq⟩ := Option.bind_eq_some_iff.mp h
        obtain ⟨m₂, args, w, env, extra, extraArgs, rest, hreserve, -, -, -, rfl⟩ :=
          Machine.createRestartClosure_cases hrestart
        have hsame := leave_threshold (Option.some.inj heq)
        exact hsame.trans (Machine.threshold_reserve hreserve :)
  · obtain ⟨⟨m₁, c⟩, happly, h⟩ := Option.bind_eq_some_iff.mp h
    obtain ⟨s₁, hcall, heq⟩ := Option.bind_eq_some_iff.mp h
    cases heq
    obtain ⟨rfl, -⟩ := Machine.apply_eq_some happly
    exact (enter_threshold hcall :)
  · next hop => simp only [ZInstruction.framedArgs, hop, reduceCtorEq] at hframed
  · next hop => simp only [ZInstruction.framedArgs, hop, reduceCtorEq] at hframed
  · next hop => simp only [ZInstruction.framedArgs, hop, reduceCtorEq] at hframed
  · next hop =>
      obtain ⟨n, hn, h⟩ := Option.bind_eq_some_iff.mp h
      obtain ⟨slotsize, hsize, -⟩ := Option.bind_eq_some_iff.mp h
      simp [ZInstruction.tailOperands, hop, hn, hsize] at htail
  · next hop =>
      obtain ⟨slotsize, hsize, -⟩ := Option.bind_eq_some_iff.mp h
      simp [ZInstruction.tailOperands, hop, hsize] at htail
  · next hop =>
      obtain ⟨slotsize, hsize, -⟩ := Option.bind_eq_some_iff.mp h
      simp [ZInstruction.tailOperands, hop, hsize] at htail
  · next hop =>
      obtain ⟨slotsize, hsize, -⟩ := Option.bind_eq_some_iff.mp h
      simp [ZInstruction.tailOperands, hop, hsize] at htail
  · obtain ⟨n, hn, h⟩ := Option.bind_eq_some_iff.mp h
    obtain ⟨⟨m, c⟩, hreturn, h⟩ := Option.bind_eq_some_iff.mp h
    have hsame := handleReturn_threshold hreturn
    cases c with
    | none => exact (leave_threshold (Option.some.inj h)).trans hsame
    | some code =>
        obtain ⟨s₁, henter, heq⟩ := Option.bind_eq_some_iff.mp h
        cases heq
        exact (enter_threshold henter).trans hsame
  · exact leave_threshold (Option.some.inj h)
  · obtain ⟨⟨i, m₁⟩, hbuffer, h⟩ := Option.bind_eq_some_iff.mp h
    obtain ⟨m₂, hpush, h⟩ := Option.bind_eq_some_iff.mp h
    cases h
    cases hpush
    obtain ⟨-, -, rfl⟩ := Machine.getNewBuffer_eq_some hbuffer
    rfl
  · obtain ⟨m₁, hremove, h⟩ := Option.bind_eq_some_iff.mp h
    obtain ⟨m₂, hpop, h⟩ := Option.bind_eq_some_iff.mp h
    cases h
    obtain ⟨context, -, rfl⟩ := Machine.removeExceptionContext_eq_some hremove
    obtain ⟨link, -, -, rfl⟩ := Machine.popTrap_eq_some hpop
    rfl
  · obtain ⟨a, heq, -⟩ | ⟨i, m, heq, hland⟩ := settle_eq_running h
    · cases heq
    · unfold Machine.throwException at heq
      split at heq
      · cases heq
      · cases heq
        exact (land_threshold hland :)
  all_goals try
    cases h
    rfl
  obtain ⟨cs, hcs, h⟩ := Option.bind_eq_some_iff.mp h
  obtain ⟨o, ho, h⟩ := Option.bind_eq_some_iff.mp h
  obtain ⟨hnext, hjump⟩ := RuntimeCall.runAll_threshold ho
  obtain ⟨m', rfl, hgo⟩ | ⟨i, m₁, rfl, hland⟩ := settle_eq_running h
  · cases hgo
    exact hnext m' rfl
  · exact (land_threshold hland).trans (hjump i m₁ rfl)

/-- The library function of `APPLY1` to `APPLY3` and of the tail calls, and what follows it. -/
theorem exec_checked (hcall : inst.framedArgs.isSome ∨ inst.tailOperands.isSome)
    (h : s.exec rt inst = some (.running s')) :
    ∃ o, inst.handsOver rt s.machine = handed o ∧ s.machine.EndsWithCheck rt o ∧
      (s.callBy o = some (.running s') ∨ s.tailCallBy o = some (.running s')) := by
  cases hop : inst.opNum <;>
    simp only [ZInstruction.framedArgs, ZInstruction.tailOperands, hop, Option.isSome_none,
      Option.isSome_some, Bool.false_eq_true, or_self] at hcall <;>
    simp only [exec, hop] at h <;> simp only [ZInstruction.handsOver, hop]
  case apply1 => exact ⟨_, rfl, s.machine.endsWithCheck_applyArgs 1, .inl h⟩
  case apply2 => exact ⟨_, rfl, s.machine.endsWithCheck_applyArgs 2, .inl h⟩
  case apply3 => exact ⟨_, rfl, s.machine.endsWithCheck_applyArgs 3, .inl h⟩
  case appterm =>
    obtain ⟨n, hn, h⟩ := Option.bind_eq_some_iff.mp h
    obtain ⟨slotsize, hsize, h⟩ := Option.bind_eq_some_iff.mp h
    rw [hn, hsize]
    exact ⟨_, rfl, s.machine.endsWithCheck_appterm n slotsize, .inr h⟩
  all_goals
    obtain ⟨slotsize, hsize, h⟩ := Option.bind_eq_some_iff.mp h
    rw [hsize]
    exact ⟨_, rfl, s.machine.endsWithCheck_apptermArgs _ slotsize, .inr h⟩

/-- The other instructions are not handed a callee's code, except that `APPLY` is handed it without
a change to the stack. -/
theorem handsOver_unchecked (hframed : inst.framedArgs = none) (htail : inst.tailOperands = none)
    (h : inst.handsOver rt s.machine = some m) :
    inst.opNum = .apply ∧ m.stack = s.machine.stack ∧
      m.camlStackThreshold = s.machine.camlStackThreshold := by
  unfold ZInstruction.handsOver at h
  split at h
  · next hop =>
      obtain ⟨⟨m', c⟩, happly, rfl⟩ := Option.map_eq_some_iff.mp h
      obtain ⟨rfl, -⟩ := Machine.apply_eq_some happly
      exact ⟨hop, rfl, rfl⟩
  · next hop => simp only [ZInstruction.framedArgs, hop, reduceCtorEq] at hframed
  · next hop => simp only [ZInstruction.framedArgs, hop, reduceCtorEq] at hframed
  · next hop => simp only [ZInstruction.framedArgs, hop, reduceCtorEq] at hframed
  · next hop =>
      obtain ⟨n, hn, h⟩ := Option.bind_eq_some_iff.mp h
      obtain ⟨slotsize, hsize, -⟩ := Option.bind_eq_some_iff.mp h
      simp [ZInstruction.tailOperands, hop, hn, hsize] at htail
  · next hop =>
      obtain ⟨slotsize, hsize, -⟩ := Option.bind_eq_some_iff.mp h
      simp [ZInstruction.tailOperands, hop, hsize] at htail
  · next hop =>
      obtain ⟨slotsize, hsize, -⟩ := Option.bind_eq_some_iff.mp h
      simp [ZInstruction.tailOperands, hop, hsize] at htail
  · next hop =>
      obtain ⟨slotsize, hsize, -⟩ := Option.bind_eq_some_iff.mp h
      simp [ZInstruction.tailOperands, hop, hsize] at htail
  · cases h

/-- A step does not lower the threshold, and the callee finds the threshold that the library function
has left. -/
theorem exec_threshold (hrt : rt.Reestablishes) (h : s.exec rt inst = some (.running s')) :
    s.machine.camlStackThreshold ≤ s'.machine.camlStackThreshold ∧
      ∀ m, inst.handsOver rt s.machine = some m →
        m.camlStackThreshold ≤ s'.machine.camlStackThreshold := by
  by_cases hcall : inst.framedArgs.isSome ∨ inst.tailOperands.isSome
  · obtain ⟨o, hhanded, ho, hexec | hexec⟩ := exec_checked hcall h
    · rw [hhanded]
      exact callBy_threshold hrt ho hexec
    · rw [hhanded]
      exact tailCallBy_threshold hrt ho hexec
  · rw [not_or, Option.not_isSome_iff_eq_none, Option.not_isSome_iff_eq_none] at hcall
    have hsame := exec_sameThreshold hcall.1 hcall.2 h
    refine ⟨hsame.ge, fun m hm => ?_⟩
    obtain ⟨-, -, hthreshold⟩ := handsOver_unchecked hcall.1 hcall.2 hm
    exact hthreshold.trans_le hsame.ge

/-- The machine that is handed over has headroom, or the instruction is an `APPLY` that has been
executed without headroom. -/
theorem handsOver_headroom (hrt : rt.Reestablishes) (h : s.exec rt inst = some (.running s'))
    (hm : inst.handsOver rt s.machine = some m)
    (happly : inst.opNum = .apply → s.machine.Headroom) : m.Headroom := by
  by_cases hcall : inst.framedArgs.isSome ∨ inst.tailOperands.isSome
  · obtain ⟨o, hhanded, ho, -⟩ := exec_checked hcall h
    rw [hhanded] at hm
    cases o with
    | none => cases hm
    | some o' =>
        cases o' with
        | jump j => cases hm
        | next a =>
            cases hm
            exact (ho.headroom hrt rfl).1
  · rw [not_or, Option.not_isSome_iff_eq_none, Option.not_isSome_iff_eq_none] at hcall
    obtain ⟨hop, hstack, hthreshold⟩ := handsOver_unchecked hcall.1 hcall.2 hm
    have hroom := happly hop
    rw [Machine.Headroom, hstack, hthreshold]
    exact hroom

theorem step_eq_some (h : s.step rt inst = some s') : s.exec rt inst = some (.running s') := by
  unfold step at h
  split at h
  · next hexec =>
      cases h
      exact hexec
  · cases h

/-- A step of `APPLY` hands over a machine with the stack and the threshold that it finds. -/
theorem handsOver_apply (hop : inst.opNum = .apply) (h : s.step rt inst = some s') :
    ∃ m, inst.handsOver rt s.machine = some m ∧ m.stack = s.machine.stack ∧
      m.camlStackThreshold = s.machine.camlStackThreshold := by
  have hexec := step_eq_some h
  simp only [exec, hop] at hexec
  obtain ⟨⟨m, c⟩, happly, -⟩ := Option.bind_eq_some_iff.mp hexec
  refine ⟨m, ?_, ?_⟩
  · simp only [ZInstruction.handsOver, hop, happly, Option.map_some]
  · obtain ⟨rfl, -⟩ := Machine.apply_eq_some happly
    exact ⟨rfl, rfl⟩

end Exec

variable {rt : Runtime} {s : Exec} {run : List (ZInstruction × Exec)}

theorem threshold_le_run (hrt : rt.Reestablishes) (hrun : IsRun (Exec.step rt) s run)
    {threshold : Nat} (hs : threshold ≤ s.machine.camlStackThreshold) :
    AllStates (fun s => threshold ≤ s.machine.camlStackThreshold) s run := by
  refine allStates_of_invariant (fun s inst s' hs hstep => ?_) hrun hs
  exact hs.trans (Exec.exec_threshold hrt (Exec.step_eq_some hstep)).1

/-- Every entry of a callee has headroom exactly if every `APPLY` is executed with headroom. -/
theorem entriesHaveHeadroom_iff (hrt : rt.Reestablishes) (headroom : Nat)
    (hrun : IsRun (Exec.step rt) s run) :
    EntriesHaveHeadroom rt headroom s run ↔
      AllSteps (fun s inst _ => inst.opNum = .apply → s.machine.Headroom) s run := by
  rw [allSteps_iff_split]
  constructor
  · intro hall before inst s' body heq hop
    subst heq
    have hstep := (isRun_append.mp hrun).2.1
    obtain ⟨m, hm, hstack, hthreshold⟩ := Exec.handsOver_apply hop hstep
    have hroom := (hall before inst s' body m rfl hm).1
    rwa [Machine.Headroom, hstack, hthreshold] at hroom
  · intro hcond before inst s' body m heq hm
    subst heq
    obtain ⟨hstep, hbody⟩ := (isRun_append.mp hrun).2
    have hexec := Exec.step_eq_some hstep
    have hroom := Exec.handsOver_headroom hrt hexec hm (hcond before inst s' body rfl)
    refine ⟨hroom, fun e he pushed hpushed => ?_⟩
    have hentry := (Exec.exec_threshold hrt hexec).2 m hm
    have hlater := threshold_le_run hrt hbody hentry
    have hthreshold : m.camlStackThreshold ≤ e.2.machine.camlStackThreshold := by
      rcases List.mem_cons.mp he with rfl | he
      · exact hentry
      · exact hlater.2 e he
    exact Nat.add_le_add (hroom.trans hthreshold) hpushed

/-- A call of a function of four arguments, as `APPLY` is used for. -/
def callOfFour : List ZInstruction :=
  [.blank .pushRetAddr, .blank .const0, .blank .push, .blank .push, .blank .push, .blank .push,
    .ofArgs .closure 0 7, .ofArgs .apply 4 0]

theorem Runtime.idle_reestablishes : Runtime.idle.Reestablishes := by
  intro size threshold h
  cases h
  exact Nat.le_refl _

theorem entriesHaveHeadroom_iff_callOfFour :
    EntriesHaveHeadroom .idle 256 (.start (.start [] .unit 100))
        (trace (Exec.step .idle) (.start (.start [] .unit 100)) callOfFour) ↔
      AllSteps (fun s inst _ => inst.opNum = .apply → s.machine.Headroom)
        (.start (.start [] .unit 100))
        (trace (Exec.step .idle) (.start (.start [] .unit 100)) callOfFour) :=
  entriesHaveHeadroom_iff Runtime.idle_reestablishes 256 (isRun_trace _ _ _)

/-- With seven words on a stack whose threshold is at the sixth, `APPLY` enters the function below
the threshold. -/
theorem not_entriesHaveHeadroom_callOfFour :
    ¬EntriesHaveHeadroom .idle 256 (.start (.start [] .unit 6))
      (trace (Exec.step .idle) (.start (.start [] .unit 6)) callOfFour) := by
  intro hall
  have hentry := hall
    (trace (Exec.step .idle) (.start (.start [] .unit 6)) (callOfFour.take 7))
    (.ofArgs .apply 4 0)
    (last (.start (.start [] .unit 6))
      (trace (Exec.step .idle) (.start (.start [] .unit 6)) callOfFour))
    [] _ rfl rfl
  have hlow : 7 ≤ 6 := hentry.1
  omega

end CamllVM
