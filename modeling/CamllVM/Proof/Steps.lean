import CamllVM.Exec
import CamllVM.Proof.Calls

/-!
# What a step of the generated code does

`ExecStep` lists the ways in which the code of an instruction can go, each with the state it leads
to. The invariants of runs are proved by cases on it.
-/

namespace CamllVM

open RuntimeCall

namespace ZInstruction

def isBranch (inst : ZInstruction) : Bool := inst.isJumpInst || inst.isSwitch

/-- The number of arguments that `APPLY1` to `APPLY3` put above a new frame. -/
def framedArgs (inst : ZInstruction) : Option Nat :=
  match inst.opNum with
  | .apply1 => some 1
  | .apply2 => some 2
  | .apply3 => some 3
  | _ => none

/-- The number of arguments and the slot size of a tail call. -/
def tailOperands (inst : ZInstruction) : Option (Nat × Nat) :=
  match inst.opNum with
  | .appterm => do return (← inst.countArg 0, ← inst.countArg 1)
  | .appterm1 => do return (1, ← inst.countArg 0)
  | .appterm2 => do return (2, ← inst.countArg 0)
  | .appterm3 => do return (3, ← inst.countArg 0)
  | _ => none

/-- The top words of the stack that an instruction may have changed when an exception is raised in
it. -/
def touches (inst : ZInstruction) : Nat :=
  match inst.runtimeCalls, inst.framedArgs, inst.tailOperands with
  | some cs, _, _ => (reach cs).1
  | none, some n, _ => n
  | none, none, some (_, slotsize) => slotsize
  | none, none, none => 0

theorem nestedClosures_assign {inst : ZInstruction} {i n k : Nat} {cs : List RuntimeCall}
    (h : inst.nestedClosures i n = some cs) : .assign k ∉ cs := by
  induction n generalizing i cs with
  | zero => cases h; exact List.not_mem_nil
  | succ n ih =>
      unfold nestedClosures at h
      split at h
      · obtain ⟨rest, hrest, heq⟩ := Option.bind_eq_some_iff.mp h
        cases heq
        intro hmem
        rcases List.mem_cons.mp hmem with heq | hmem
        · cases heq
        · exact ih hrest hmem
      · cases h

theorem runtimeCalls_assign {inst : ZInstruction} {cs : List RuntimeCall}
    (h : inst.runtimeCalls = some cs) :
    (∃ n, cs = [.assign n] ∧ inst.opNum = .assign ∧ inst.countArg 0 = some n) ∨
      ∀ n, .assign n ∉ cs := by
  cases hop : inst.opNum
  case assign =>
    simp only [runtimeCalls, hop, Option.bind_eq_bind, Option.bind_eq_some_iff] at h
    obtain ⟨n, hn, heq⟩ := h
    cases heq
    exact .inl ⟨n, rfl, rfl, hn⟩
  case closureRec =>
    simp only [runtimeCalls, hop, Option.bind_eq_bind, Option.bind_eq_some_iff] at h
    obtain ⟨nfuncs, -, rest, hrest, nvars, -, heq⟩ := h
    cases heq
    refine .inr fun n hmem => ?_
    rcases List.mem_cons.mp hmem with heq | hmem
    · cases heq
    · exact nestedClosures_assign hrest hmem
  all_goals
    refine .inr fun n hmem => ?_
    simp only [runtimeCalls, hop, Option.bind_eq_bind, Option.bind_eq_some_iff, Option.pure_def,
      Option.some.injEq, reduceCtorEq] at h <;>
    first
      | (subst h; simp at hmem)
      | (obtain ⟨k, -, rfl⟩ := h; simp at hmem)
      | (obtain ⟨k, -, l, -, rfl⟩ := h; simp at hmem)

end ZInstruction

/-- The machine before a native call by `APPLY` and the code that is called. -/
inductive Applies (inst : ZInstruction) (m : Machine) : Machine → CodePtr → Prop
  | apply {c : CodePtr} : inst.opNum = .apply → m.codeVal m.accu = some c →
      Applies inst m { m with extraArgs := inst.arg 0 - 1, env := m.accu } c
  | framed {args : List Value} {w : Option Value} {m₁ : Machine} {c : CodePtr} :
      inst.framedArgs = some args.length →
      m.stack = args.map some ++ m.stack.drop args.length →
      (3 ≤ args.length → w.isSome) → (args.length < 3 → w = none) →
      (m.framed args w).Checked m₁ → m.codeVal m.accu = some c → Applies inst m m₁ c

/-- The machine before a native tail call and the code that is called. -/
inductive TailCalls (inst : ZInstruction) (m : Machine) : Machine → CodePtr → Prop
  | appterm {args : List Value} {slotsize : Nat} {m₁ : Machine} {c : CodePtr} :
      inst.tailOperands = some (args.length, slotsize) →
      m.stack = args.map some ++ m.stack.drop args.length → args.length ≤ slotsize →
      slotsize ≤ m.stack.length → (m.tailFramed args slotsize).Checked m₁ →
      m.codeVal m.accu = some c → TailCalls inst m m₁ c
  | return_ {n : Nat} {c : CodePtr} : inst.opNum = .return_ → inst.countArg 0 = some n →
      n ≤ m.stack.length → 0 < m.extraArgs → m.codeVal m.accu = some c →
      TailCalls inst m
        { m with stack := m.stack.drop n, extraArgs := m.extraArgs - 1, env := m.accu } c

/-- An exception raised by an instruction: its value, the context it jumps to and the machine then.
It is raised by `RAISE`, by a primitive or because the stack cannot grow. -/
inductive Raises (rt : Runtime) (inst : ZInstruction) (m : Machine) : Value → Nat → Machine → Prop
  | raise {i : Nat} : inst.opNum = .raise → m.nextExceptionContext = some i →
      Raises rt inst m m.accu i { m with camlExnBucket := m.accu }
  | primitive {cs : List RuntimeCall} {c : RuntimeCall} {p : Int} {exn : Value} {args : PrimArgs}
      {st : PrimState} {done : PrimEnd} {i : Nat} {m₁ : Machine} :
      inst.runtimeCalls = some cs → c ∈ cs → c.prim = some p →
      rt.primitive p args st = some done → done.result = .raise exn →
      Machine.Raised rt inst.touches exn m (.longjmp i m₁) → Raises rt inst m exn i m₁
  | overflow {size : Nat} {exn : Value} {i : Nat} {m₁ : Machine} :
      inst.framedArgs.isSome ∨ inst.tailOperands.isSome →
      rt.camlReallocStack size = .raise exn →
      Machine.Raised rt inst.touches exn m (.longjmp i m₁) → Raises rt inst m exn i m₁

/-- The step of an instruction. -/
inductive ExecStep (rt : Runtime) (inst : ZInstruction) (s : Exec) : Exec → Prop
  | straight {cs : List RuntimeCall} {m' : Machine} : inst.runtimeCalls = some cs →
      (∀ n, .assign n ∉ cs) → Effect rt (reach cs).1 (reach cs).2 s.machine m' →
      ExecStep rt inst s { s with machine := m', control := .inside }
  | assign {n : Nat} {m' : Machine} : inst.opNum = .assign → inst.countArg 0 = some n →
      s.machine.assign n = some m' →
      ExecStep rt inst s { s with machine := m', control := .inside }
  | branch : inst.isBranch = true → ExecStep rt inst s { s with control := .inside }
  | grab : inst.opNum = .grab → inst.arg 0 ≤ s.machine.extraArgs →
      ExecStep rt inst s
        { s with machine := s.machine.substractExtraArgs (inst.arg 0), control := .inside }
  | partialCall {m' : Machine} {fn : Int} {callers : List Int} : inst.opNum = .grab →
      s.machine.extraArgs < inst.arg 0 →
      s.machine.createRestartClosure rt (.restart s.fn) = some m' → s.callers = fn :: callers →
      ExecStep rt inst s
        { s with machine := m', fn := fn, callers := callers, control := .inside }
  | call {m₁ : Machine} {c : CodePtr} {s' : Exec} : Applies inst s.machine m₁ c →
      s.call m₁ c = some s' → ExecStep rt inst s s'
  | tailCall {m₁ : Machine} {c : CodePtr} {s' : Exec} : TailCalls inst s.machine m₁ c →
      s.enter m₁ c = some s' → ExecStep rt inst s s'
  | return_ {n : Nat} {w : Option Value} {env extra : Value} {extraArgs : Int} {rest : StackWords}
      {fn : Int} {callers : List Int} : inst.opNum = .return_ → inst.countArg 0 = some n →
      n ≤ s.machine.stack.length → s.machine.extraArgs ≤ 0 →
      s.machine.stack.drop n = w :: some env :: some extra :: rest →
      extra.longVal = some extraArgs → s.callers = fn :: callers →
      ExecStep rt inst s { s with
        machine := { s.machine with stack := rest, env := env, extraArgs := extraArgs }
        fn := fn, callers := callers, control := .inside }
  | stop {fn : Int} {callers : List Int} : inst.opNum = .stop → s.callers = fn :: callers →
      ExecStep rt inst s { s with fn := fn, callers := callers, control := .inside }
  | pushTrap {i : Nat} {m₁ m₂ : Machine} : inst.opNum = .pushTrap →
      s.machine.getNewBuffer = some (i, m₁) → m₁.pushTrap = some m₂ →
      ExecStep rt inst s { s with
        machine := m₂, control := .inside
        jmpBufs := fun k =>
          if k = i then some ⟨s.fn, s.callers, inst.arg 0⟩ else s.jmpBufs k }
  | popTrap {m₁ m₂ : Machine} : inst.opNum = .popTrap →
      s.machine.removeExceptionContext = some m₁ → m₁.popTrap = some m₂ →
      ExecStep rt inst s { s with machine := m₂, control := .inside }
  | land {exn : Value} {i : Nat} {m₁ : Machine} {s' : Exec} : Raises rt inst s.machine exn i m₁ →
      s.land i m₁ = some s' → ExecStep rt inst s s'

namespace Exec

variable {rt : Runtime} {inst : ZInstruction} {s s' : Exec}

theorem leave_eq_running {m : Machine} (h : s.leave m = .running s') :
    ∃ fn callers, s.callers = fn :: callers ∧
      s' = { s with machine := m, fn := fn, callers := callers, control := .inside } := by
  unfold leave at h
  split at h
  · cases h
  · next fn callers hcallers =>
      cases h
      exact ⟨fn, callers, hcallers, rfl⟩

theorem settle_eq_running {α : Type} {o : Outcome α} {next : α → Option Stepped}
    (h : s.settle o next = some (.running s')) :
    (∃ a, o = .next a ∧ next a = some (.running s')) ∨
      ∃ i m, o = .jump (.longjmp i m) ∧ s.land i m = some s' := by
  unfold settle at h
  split at h
  · next a => exact .inl ⟨a, rfl, h⟩
  · cases h
  · next i m =>
      obtain ⟨s₁, hland, heq⟩ := Option.map_eq_some_iff.mp h
      cases heq
      exact .inr ⟨i, m, rfl, hland⟩

theorem runtimeCalls_of_framedArgs {n : Nat} (h : inst.framedArgs = some n) :
    inst.runtimeCalls = none := by
  unfold ZInstruction.framedArgs at h
  split at h
  · next hop => simp only [ZInstruction.runtimeCalls, hop]
  · next hop => simp only [ZInstruction.runtimeCalls, hop]
  · next hop => simp only [ZInstruction.runtimeCalls, hop]
  · cases h

theorem touches_of_framedArgs {n : Nat} (h : inst.framedArgs = some n) : inst.touches = n := by
  simp only [ZInstruction.touches, runtimeCalls_of_framedArgs h, h]

theorem touches_of_runtimeCalls {cs : List RuntimeCall} (h : inst.runtimeCalls = some cs) :
    inst.touches = (reach cs).1 := by
  simp only [ZInstruction.touches, h]

theorem touches_of_tailOperands {n slotsize : Nat} (h : inst.tailOperands = some (n, slotsize)) :
    inst.touches = slotsize := by
  have hnone : inst.runtimeCalls = none ∧ inst.framedArgs = none := by
    unfold ZInstruction.tailOperands at h
    split at h
    · next hop => simp only [ZInstruction.runtimeCalls, ZInstruction.framedArgs, hop, and_self]
    · next hop => simp only [ZInstruction.runtimeCalls, ZInstruction.framedArgs, hop, and_self]
    · next hop => simp only [ZInstruction.runtimeCalls, ZInstruction.framedArgs, hop, and_self]
    · next hop => simp only [ZInstruction.runtimeCalls, ZInstruction.framedArgs, hop, and_self]
    · cases h
  simp only [ZInstruction.touches, hnone.1, hnone.2, h]

theorem execStep_applyArgs {n : Nat} (hframed : inst.framedArgs = some n)
    (h : s.callBy (s.machine.applyArgs rt n) = some (.running s')) : ExecStep rt inst s s' := by
  obtain ⟨o, ho, hsettle⟩ := Option.bind_eq_some_iff.mp h
  obtain ⟨args, w, rfl, hstack, hsome, hnone, hchecked⟩ := Machine.applyArgs_eq_some ho
  rcases Machine.checkedCall_cases hchecked with ⟨m₁, c, hm₁, hcode, rfl⟩ |
    ⟨size, exn, j, hrealloc, hraised, rfl⟩
  · obtain ⟨⟨m, c'⟩, heq, hcall⟩ | ⟨i, m, heq, -⟩ := settle_eq_running hsettle
    · cases heq
      obtain ⟨s₁, hcall, heq⟩ := Option.map_eq_some_iff.mp hcall
      cases heq
      exact .call (.framed hframed hstack hsome hnone hm₁ hcode) hcall
    · cases heq
  · obtain ⟨a, heq, -⟩ | ⟨i, m, heq, hland⟩ := settle_eq_running hsettle
    · cases heq
    · cases heq
      have hreplaces : Replaces rt args.length _ s.machine (s.machine.framed args w) :=
        .of_stack (args.map some ++ [w, some s.machine.env, some (.int s.machine.extraArgs)])
          (by rw [hstack]; simp) (by simp [Machine.framed]) ⟨rfl, rfl, rfl, rfl, rfl⟩ rfl
      have htouches := touches_of_framedArgs hframed
      refine .land (.overflow (.inl (by rw [hframed]; rfl)) hrealloc ?_) hland
      rw [htouches]
      exact (Machine.Raised.after hreplaces hraised).mono (by omega)

theorem execStep_appterm {n slotsize : Nat} {o : Option (Outcome (Machine × CodePtr))}
    (htail : inst.tailOperands = some (n, slotsize))
    (hspec : ∀ o', o = some o' → ∃ args : List Value, args.length = n ∧
      s.machine.stack = args.map some ++ s.machine.stack.drop n ∧ n ≤ slotsize ∧
      slotsize ≤ s.machine.stack.length ∧
      (s.machine.tailFramed args slotsize).checkedCall rt = some o')
    (h : s.tailCallBy o = some (.running s')) : ExecStep rt inst s s' := by
  obtain ⟨o, ho, hsettle⟩ := Option.bind_eq_some_iff.mp h
  obtain ⟨args, rfl, hstack, hle, hsize, hchecked⟩ := hspec o ho
  rcases Machine.checkedCall_cases hchecked with ⟨m₁, c, hm₁, hcode, rfl⟩ |
    ⟨size, exn, j, hrealloc, hraised, rfl⟩
  · obtain ⟨⟨m, c'⟩, heq, hcall⟩ | ⟨i, m, heq, -⟩ := settle_eq_running hsettle
    · cases heq
      obtain ⟨s₁, hcall, heq⟩ := Option.map_eq_some_iff.mp hcall
      cases heq
      exact .tailCall (.appterm htail hstack hle hsize hm₁ hcode) hcall
    · cases heq
  · obtain ⟨a, heq, -⟩ | ⟨i, m, heq, hland⟩ := settle_eq_running hsettle
    · cases heq
    · cases heq
      have hreplaces : Replaces rt slotsize _ s.machine (s.machine.tailFramed args slotsize) :=
        .of_stack (args.map some) hsize rfl ⟨rfl, rfl, rfl, rfl, rfl⟩ rfl
      have htouches := touches_of_tailOperands htail
      refine .land (.overflow (.inr (by rw [htail]; rfl)) hrealloc ?_) hland
      rw [htouches]
      exact (Machine.Raised.after hreplaces hraised).mono (by omega)

theorem execStep_calls (hkeep : rt.KeepsStack) {cs : List RuntimeCall}
    (hcs : inst.runtimeCalls = some cs) {o : Outcome Machine}
    (ho : runAll rt cs s.machine = some o) (h : s.settle o s.goOn = some (.running s')) :
    ExecStep rt inst s s' := by
  obtain ⟨m', rfl, hgo⟩ | ⟨i, m₁, rfl, hland⟩ := settle_eq_running h
  · cases hgo
    rcases ZInstruction.runtimeCalls_assign hcs with ⟨n, rfl, hop, hn⟩ | hassign
    · obtain ⟨o', hrun, heq⟩ := Option.bind_eq_some_iff.mp ho
      cases o' with
      | jump j => exact absurd hrun plain_ne_jump
      | next m₁ =>
          cases heq
          exact .assign hop hn (of_plain hrun)
    · exact .straight hcs hassign (runAll_effect hkeep hassign ho)
  · rcases ZInstruction.runtimeCalls_assign hcs with ⟨n, rfl, -, -⟩ | hassign
    · obtain ⟨o', hrun, heq⟩ := Option.bind_eq_some_iff.mp ho
      cases o' with
      | jump j => exact absurd hrun plain_ne_jump
      | next m₁ => cases heq
    · obtain ⟨c, hc, p, exn, args, st, done, hprim, hdone, hraise, hraised⟩ :=
        runAll_raised hkeep hassign ho
      refine .land (.primitive hcs hc hprim hdone hraise ?_) hland
      rwa [touches_of_runtimeCalls hcs]

theorem execStep_return {n : Nat} {m : Machine} {c : Option CodePtr} (hop : inst.opNum = .return_)
    (hn : inst.countArg 0 = some n) (hreturn : s.machine.handleReturn n = some (m, c))
    (h : (match c with
      | some code => (s.enter m code).map .running
      | none => some (s.leave m)) = some (.running s')) : ExecStep rt inst s s' := by
  obtain ⟨hle, ⟨hpos, c', rfl, hcode, rfl⟩ |
    ⟨hneg, rfl, w, env, extra, extraArgs, rest, hdrop, hlong, rfl⟩⟩ :=
      Machine.handleReturn_cases hreturn
  · obtain ⟨s₁, henter, heq⟩ := Option.map_eq_some_iff.mp h
    cases heq
    exact .tailCall (.return_ hop hn hle hpos hcode) henter
  · obtain ⟨fn, callers, hcallers, rfl⟩ := leave_eq_running (Option.some.inj h)
    exact .return_ hop hn hle hneg hdrop hlong hcallers

theorem exec_cases (hkeep : rt.KeepsStack) (h : s.exec rt inst = some (.running s')) :
    ExecStep rt inst s s' := by
  unfold exec at h
  split at h
  · next hop =>
      split at h
      · next hgrab =>
          cases h
          exact .grab hop (of_decide_eq_true hgrab)
      · next hgrab =>
          split at h
          · cases h
          · obtain ⟨m', hrestart, heq⟩ := Option.bind_eq_some_iff.mp h
            obtain ⟨fn, callers, hcallers, rfl⟩ := leave_eq_running (Option.some.inj heq)
            refine .partialCall hop (Int.not_le.mp fun hle => hgrab ?_) hrestart hcallers
            exact decide_eq_true hle
  · next hop =>
      obtain ⟨⟨m₁, c⟩, happly, h⟩ := Option.bind_eq_some_iff.mp h
      obtain ⟨s₁, hcall, heq⟩ := Option.bind_eq_some_iff.mp h
      cases heq
      obtain ⟨rfl, hcode⟩ := Machine.apply_eq_some happly
      exact .call (.apply hop hcode) hcall
  · next hop => exact execStep_applyArgs (by simp only [ZInstruction.framedArgs, hop]) h
  · next hop => exact execStep_applyArgs (by simp only [ZInstruction.framedArgs, hop]) h
  · next hop => exact execStep_applyArgs (by simp only [ZInstruction.framedArgs, hop]) h
  · next hop =>
      obtain ⟨n, hn, h⟩ := Option.bind_eq_some_iff.mp h
      obtain ⟨slotsize, hsize, h⟩ := Option.bind_eq_some_iff.mp h
      have htail : inst.tailOperands = some (n, slotsize) := by
        simp only [ZInstruction.tailOperands, hop, hn, hsize, Option.bind_eq_bind, Option.bind_some,
          Option.pure_def]
      exact execStep_appterm htail (fun _ ho => Machine.appterm_eq_some ho) h
  · next hop =>
      obtain ⟨slotsize, hsize, h⟩ := Option.bind_eq_some_iff.mp h
      have htail : inst.tailOperands = some (1, slotsize) := by
        simp only [ZInstruction.tailOperands, hop, hsize, Option.bind_eq_bind, Option.bind_some,
          Option.pure_def]
      exact execStep_appterm htail (fun _ ho => Machine.apptermArgs_eq_some ho) h
  · next hop =>
      obtain ⟨slotsize, hsize, h⟩ := Option.bind_eq_some_iff.mp h
      have htail : inst.tailOperands = some (2, slotsize) := by
        simp only [ZInstruction.tailOperands, hop, hsize, Option.bind_eq_bind, Option.bind_some,
          Option.pure_def]
      exact execStep_appterm htail (fun _ ho => Machine.apptermArgs_eq_some ho) h
  · next hop =>
      obtain ⟨slotsize, hsize, h⟩ := Option.bind_eq_some_iff.mp h
      have htail : inst.tailOperands = some (3, slotsize) := by
        simp only [ZInstruction.tailOperands, hop, hsize, Option.bind_eq_bind, Option.bind_some,
          Option.pure_def]
      exact execStep_appterm htail (fun _ ho => Machine.apptermArgs_eq_some ho) h
  · next hop =>
      obtain ⟨n, hn, h⟩ := Option.bind_eq_some_iff.mp h
      obtain ⟨⟨m, c⟩, hreturn, h⟩ := Option.bind_eq_some_iff.mp h
      refine execStep_return hop hn hreturn ?_
      cases c with
      | none => exact h
      | some code =>
          obtain ⟨s₁, henter, heq⟩ := Option.bind_eq_some_iff.mp h
          exact Option.map_eq_some_iff.mpr ⟨s₁, henter, Option.some.inj heq⟩
  · next hop =>
      obtain ⟨fn, callers, hcallers, rfl⟩ := leave_eq_running (Option.some.inj h)
      exact .stop hop hcallers
  · next hop =>
      obtain ⟨⟨i, m₁⟩, hbuffer, h⟩ := Option.bind_eq_some_iff.mp h
      obtain ⟨m₂, hpush, h⟩ := Option.bind_eq_some_iff.mp h
      cases h
      exact .pushTrap hop hbuffer hpush
  · next hop =>
      obtain ⟨m₁, hremove, h⟩ := Option.bind_eq_some_iff.mp h
      obtain ⟨m₂, hpop, h⟩ := Option.bind_eq_some_iff.mp h
      cases h
      exact .popTrap hop hremove hpop
  · next hop =>
      obtain ⟨a, heq, -⟩ | ⟨i, m, heq, hland⟩ := settle_eq_running h
      · cases heq
      · unfold Machine.throwException at heq
        split at heq
        · cases heq
        · next hcontext =>
            cases heq
            exact .land (.raise hop hcontext) hland
  all_goals try
    next hop =>
      cases h
      exact .branch (by simp only [ZInstruction.isBranch, ZInstruction.isJumpInst,
        ZInstruction.isSwitch, hop]; rfl)
  obtain ⟨cs, hcs, h⟩ := Option.bind_eq_some_iff.mp h
  obtain ⟨o, ho, h⟩ := Option.bind_eq_some_iff.mp h
  exact execStep_calls hkeep hcs ho h

theorem step_cases (hkeep : rt.KeepsStack) (h : s.step rt inst = some s') :
    ExecStep rt inst s s' := by
  unfold step at h
  split at h
  · next hexec =>
      cases h
      exact exec_cases hkeep hexec
  · cases h

theorem land_eq_some {i : Nat} {m : Machine} (h : s.land i m = some s') :
    ∃ buf m₁ m₂, s.jmpBufs i = some buf ∧ buf.fn :: buf.callers <:+ s.fn :: s.callers ∧
      m.getExceptionValue = some m₁ ∧ m₁.removeExceptionContext = some m₂ ∧
      s' = { s with
        machine := m₂, fn := buf.fn, callers := buf.callers, control := .handler buf.handler } := by
  simp only [land, Option.bind_eq_bind, Option.bind_eq_some_iff] at h
  obtain ⟨buf, hbuf, h⟩ := h
  split at h
  · next hlive =>
      obtain ⟨m₁, hvalue, h⟩ := Option.bind_eq_some_iff.mp h
      obtain ⟨m₂, hremove, h⟩ := Option.bind_eq_some_iff.mp h
      exact ⟨buf, m₁, m₂, hbuf, hlive, hvalue, hremove, (Option.some.inj h).symm⟩
  · cases h

theorem enter_cases {m : Machine} {c : CodePtr} (h : s.enter m c = some s') :
    ∃ id m', s' = { s with machine := m', fn := id, control := .entry } ∧
      ((c = .fn id ∧ m' = m.scan) ∨
        c = .restart id ∧ ∃ vs env, m' = (m.scan.restarted vs env).scan) := by
  cases c with
  | fn id => exact ⟨id, m.scan, (Option.some.inj h).symm, .inl ⟨rfl, rfl⟩⟩
  | restart id =>
      obtain ⟨m₁, hrestart, heq⟩ := Option.bind_eq_some_iff.mp h
      obtain ⟨vs, env, rfl⟩ := Machine.restart_cases hrestart
      exact ⟨id, _, (Option.some.inj heq).symm, .inr ⟨rfl, vs, env, rfl⟩⟩

theorem enter_sameHandlers {m : Machine} {c : CodePtr} (h : s.enter m c = some s') :
    SameHandlers m s'.machine ∧ s'.jmpBufs = s.jmpBufs ∧ s'.control = .entry := by
  obtain ⟨id, m', rfl, ⟨-, rfl⟩ | ⟨-, vs, env, rfl⟩⟩ := enter_cases h
  · exact ⟨⟨rfl, rfl, rfl, rfl, rfl⟩, rfl, rfl⟩
  · exact ⟨⟨rfl, rfl, rfl, rfl, rfl⟩, rfl, rfl⟩

end Exec

variable {rt : Runtime} {inst : ZInstruction} {s s' : Exec} {m m₁ : Machine} {c : CodePtr}

theorem Applies.sameHandlers (h : Applies inst m m₁ c) : SameHandlers m m₁ := by
  cases h with
  | apply => exact ⟨rfl, rfl, rfl, rfl, rfl⟩
  | framed _ _ _ _ hchecked =>
      obtain ⟨sp, threshold, rfl⟩ := hchecked
      exact ⟨rfl, rfl, rfl, rfl, rfl⟩

theorem TailCalls.sameHandlers (h : TailCalls inst m m₁ c) : SameHandlers m m₁ := by
  cases h with
  | appterm _ _ _ _ hchecked =>
      obtain ⟨sp, threshold, rfl⟩ := hchecked
      exact ⟨rfl, rfl, rfl, rfl, rfl⟩
  | return_ => exact ⟨rfl, rfl, rfl, rfl, rfl⟩

/-- An exception finds the handlers as they were before the instruction that raises it. -/
theorem Raises.sameHandlers {exn : Value} {i : Nat} (h : Raises rt inst m exn i m₁) :
    SameHandlers m m₁ := by
  cases h with
  | raise => exact ⟨rfl, rfl, rfl, rfl, rfl⟩
  | primitive _ _ _ _ _ hraised => cases hraised with | longjmp _ _ _ h => exact h.handlers
  | overflow _ _ hraised => cases hraised with | longjmp _ _ _ h => exact h.handlers

theorem sameHandlers_createRestartClosure {code : CodePtr}
    (h : m.createRestartClosure rt code = some m₁) : SameHandlers m m₁ := by
  obtain ⟨m₂, args, w, env, extra, extraArgs, rest, hreserve, -, -, -, rfl⟩ :=
    Machine.createRestartClosure_cases h
  obtain ⟨h₁, h₂, h₃, h₄, h₅⟩ := (Machine.effect_reserve hreserve).handlers
  exact ⟨h₁, h₂, h₃, h₄, h₅⟩

/-! ### The words that a control transfer replaces -/

theorem Machine.replaces_createRestartClosure {code : CodePtr}
    (h : m.createRestartClosure rt code = some m₁) :
    Replaces rt ((1 + m.extraArgs).toNat + 3) 0 m m₁ := by
  obtain ⟨m₂, args, w, env, extra, extraArgs, rest, hreserve, hargs, hstack, -, rfl⟩ :=
    createRestartClosure_cases h
  have hpop : Replaces rt (args.length + 3) 0 m₂
      (m₂.partiallyApplied code args env extraArgs rest) :=
    .of_stack [] (by rw [hstack]; simp)
      (by
        rw [hstack, ← List.drop_drop, List.drop_left' (List.length_map _)]
        rfl)
      ⟨rfl, rfl, rfl, rfl, rfl⟩ rfl
  have hboth := (effect_reserve hreserve).toReplaces.trans hpop
  rw [hargs]
  simpa using hboth

theorem Exec.enter_replaces (h : s.enter m c = some s') : ∃ j, Replaces rt 0 j m s'.machine := by
  obtain ⟨id, m', rfl, ⟨-, rfl⟩ | ⟨-, vs, env, rfl⟩⟩ := enter_cases h
  · exact ⟨0, .of_eq rfl ⟨rfl, rfl, rfl, rfl, rfl⟩ rfl⟩
  · exact ⟨_, .of_stack (vs.map some) (Nat.zero_le _) rfl ⟨rfl, rfl, rfl, rfl, rfl⟩ rfl⟩

theorem Applies.replaces (h : Applies inst m m₁ c) : ∃ j, Replaces rt inst.touches j m m₁ := by
  cases h with
  | apply hop =>
      have htouches : inst.touches = 0 := by
        simp [ZInstruction.touches, ZInstruction.runtimeCalls, ZInstruction.framedArgs,
          ZInstruction.tailOperands, hop]
      rw [htouches]
      exact ⟨0, .of_eq rfl ⟨rfl, rfl, rfl, rfl, rfl⟩ rfl⟩
  | @framed args w _ _ hargs hstack _ _ hchecked =>
      obtain ⟨sp, threshold, rfl⟩ := hchecked
      rw [Exec.touches_of_framedArgs hargs]
      exact ⟨_, .of_stack (args.map some ++ [w, some m.env, some (.int m.extraArgs)])
        (by rw [hstack]; simp) (by simp [Machine.framed]) ⟨rfl, rfl, rfl, rfl, rfl⟩ rfl⟩

theorem Raises.replaces {exn : Value} {i : Nat} (h : Raises rt inst m exn i m₁) :
    m₁.camlExnBucket = exn ∧ ∃ k j, k ≤ inst.touches ∧ Replaces rt k j m m₁ := by
  cases h with
  | raise => exact ⟨rfl, 0, 0, Nat.zero_le _, .of_eq rfl ⟨rfl, rfl, rfl, rfl, rfl⟩ rfl⟩
  | primitive _ _ _ _ _ hraised =>
      cases hraised with
      | longjmp hbuf hexn hle hreplaces => exact ⟨hexn, _, _, hle, hreplaces⟩
  | overflow _ _ hraised =>
      cases hraised with
      | longjmp hbuf hexn hle hreplaces => exact ⟨hexn, _, _, hle, hreplaces⟩

def ZInstruction.IsTrap (inst : ZInstruction) : Prop :=
  inst.opNum = .pushTrap ∨ inst.opNum = .popTrap

theorem ZInstruction.IsTrap.not_other (h : inst.IsTrap) :
    inst.runtimeCalls = none ∧ inst.framedArgs = none ∧ inst.tailOperands = none ∧
      inst.isBranch = false ∧
      ∀ op ∈ [OpCode.assign, .grab, .apply, .return_, .stop], inst.opNum ≠ op := by
  rcases h with hop | hop <;>
    simp [runtimeCalls, framedArgs, tailOperands, isBranch, isJumpInst, isSwitch, hop]

/-- A step that leaves the handlers alone. -/
structure KeepsHandlers (inst : ZInstruction) (s s' : Exec) : Prop where
  machine : SameHandlers s.machine s'.machine
  jmpBufs : s'.jmpBufs = s.jmpBufs
  control : ∀ b, s'.control ≠ .handler b
  notTrap : ¬inst.IsTrap

theorem Applies.not_isTrap (h : Applies inst m m₁ c) : ¬inst.IsTrap := by
  intro htrap
  cases h with
  | apply hop => exact htrap.not_other.2.2.2.2 _ (by simp) hop
  | framed hargs => cases htrap.not_other.2.1.symm.trans hargs

theorem TailCalls.not_isTrap (h : TailCalls inst m m₁ c) : ¬inst.IsTrap := by
  intro htrap
  cases h with
  | appterm htail => cases htrap.not_other.2.2.1.symm.trans htail
  | return_ hop => exact htrap.not_other.2.2.2.2 _ (by simp) hop

/-- The handlers are changed by `PUSHTRAP`, by `POPTRAP` and where a handler is entered. -/
theorem ExecStep.keepsHandlers_or (h : ExecStep rt inst s s') :
    KeepsHandlers inst s s' ∨
      (∃ i m₁ m₂, inst.opNum = .pushTrap ∧ s.machine.getNewBuffer = some (i, m₁) ∧
        m₁.pushTrap = some m₂ ∧ s' = { s with
          machine := m₂, control := .inside
          jmpBufs := fun k =>
            if k = i then some ⟨s.fn, s.callers, inst.arg 0⟩ else s.jmpBufs k }) ∨
      (∃ m₁ m₂, inst.opNum = .popTrap ∧ s.machine.removeExceptionContext = some m₁ ∧
        m₁.popTrap = some m₂ ∧ s' = { s with machine := m₂, control := .inside }) ∨
      ∃ exn i m₁, Raises rt inst s.machine exn i m₁ ∧ s.land i m₁ = some s' := by
  have hinside : ∀ b, Control.inside ≠ .handler b := fun _ => Control.noConfusion
  have hentry : ∀ b, Control.entry ≠ .handler b := fun _ => Control.noConfusion
  cases h with
  | straight hcs hassign heffect =>
      exact .inl ⟨heffect.handlers, rfl, hinside,
        fun htrap => by cases htrap.not_other.1.symm.trans hcs⟩
  | assign hop hn hassign =>
      obtain ⟨-, rfl⟩ := Machine.assign_eq hassign
      exact .inl ⟨⟨rfl, rfl, rfl, rfl, rfl⟩, rfl, hinside,
        fun htrap => htrap.not_other.2.2.2.2 _ (by simp) hop⟩
  | branch hbranch =>
      exact .inl ⟨⟨rfl, rfl, rfl, rfl, rfl⟩, rfl, hinside,
        fun htrap => by cases htrap.not_other.2.2.2.1.symm.trans hbranch⟩
  | grab hop | stop hop | return_ hop =>
      exact .inl ⟨⟨rfl, rfl, rfl, rfl, rfl⟩, rfl, hinside,
        fun htrap => htrap.not_other.2.2.2.2 _ (by simp) hop⟩
  | partialCall hop hlt hrestart hcallers =>
      exact .inl ⟨sameHandlers_createRestartClosure hrestart, rfl, hinside,
        fun htrap => htrap.not_other.2.2.2.2 _ (by simp) hop⟩
  | call happlies hcall =>
      obtain ⟨hsame, hbufs, hcontrol⟩ := Exec.enter_sameHandlers hcall
      exact .inl ⟨happlies.sameHandlers.trans hsame, hbufs, hcontrol ▸ hentry,
        happlies.not_isTrap⟩
  | tailCall htail henter =>
      obtain ⟨hsame, hbufs, hcontrol⟩ := Exec.enter_sameHandlers henter
      exact .inl ⟨htail.sameHandlers.trans hsame, hbufs, hcontrol ▸ hentry, htail.not_isTrap⟩
  | pushTrap hop hbuffer hpush => exact .inr (.inl ⟨_, _, _, hop, hbuffer, hpush, rfl⟩)
  | popTrap hop hremove hpop => exact .inr (.inr (.inl ⟨_, _, hop, hremove, hpop, rfl⟩))
  | land hraises hland => exact .inr (.inr (.inr ⟨_, _, _, hraises, hland⟩))

end CamllVM
