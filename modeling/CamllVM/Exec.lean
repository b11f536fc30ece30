import CamllVM.RuntimeCall

/-!
# Runs of the generated code

A step is the code generated for one instruction. The native calls and returns of that code are a
list of suspended functions beside the machine. The branches between the blocks of a function change
nothing in the state, and they are left open: after a step any instruction may come next, so that
every sequence of instructions that the generated code goes through is a run.
-/

namespace CamllVM

def mainFunctionId : Int := 0

/-- What `__sigsetjmp` saves: the native frame it is called in, with those below it, and the block
that the generated code goes to when the call returns for the second time. -/
structure JmpBuf where
  fn : Int
  callers : List Int
  handler : Int
  deriving DecidableEq, Repr

/-- Where control is. -/
inductive Control where
  | inside
  | entry
  | handler (block : Int)
  deriving DecidableEq, Repr

/-- The machine, the function that is running and those that wait for it to return. -/
structure Exec where
  machine : Machine
  fn : Int
  callers : List Int
  jmpBufs : Nat → Option JmpBuf
  control : Control

/-- What a step leads to. -/
inductive Stepped where
  | running (s : Exec)
  | finished

namespace Exec

/-- The main function, about to execute its first instruction. -/
def start (m : Machine) : Exec where
  machine := m
  fn := mainFunctionId
  callers := []
  jmpBufs _ := none
  control := .entry

/-- The machine at the entry of a function. The restart function of a closure with too few arguments
puts these back on the stack and enters the function itself. -/
def enter (s : Exec) (m : Machine) : CodePtr → Option Exec
  | .fn id => some { s with machine := m.scan, fn := id, control := .entry }
  | .restart id => do
      let m ← m.scan.restart
      return { s with machine := m.scan, fn := id, control := .entry }

def call (s : Exec) (m : Machine) (code : CodePtr) : Option Exec :=
  { s with callers := s.fn :: s.callers }.enter m code

def leave (s : Exec) (m : Machine) : Stepped :=
  match s.callers with
  | [] => .finished
  | fn :: callers => .running { s with machine := m, fn := fn, callers := callers, control := .inside }

/-- The second return of `__sigsetjmp`, with the code at the beginning of the handler. The jump is
defined only while the frame that called `__sigsetjmp` has not been left. -/
def land (s : Exec) (i : Nat) (m : Machine) : Option Exec := do
  let buf ← s.jmpBufs i
  if buf.fn :: buf.callers <:+ s.fn :: s.callers then
    let m ← m.getExceptionValue
    let m ← m.removeExceptionContext
    return { s with
      machine := m, fn := buf.fn, callers := buf.callers, control := .handler buf.handler }
  else
    none

/-- The step of a function that may raise an exception. -/
def settle {α : Type} (s : Exec) (o : Outcome α) (next : α → Option Stepped) : Option Stepped :=
  match o with
  | .next a => next a
  | .jump .exit => some .finished
  | .jump (.longjmp i m) => (s.land i m).map .running

def goOn (s : Exec) (m : Machine) : Option Stepped :=
  some (.running { s with machine := m, control := .inside })

/-- `APPLY1` to `APPLY3`: a call of the code that the library function returns. -/
def callBy (s : Exec) (o : Option (Outcome (Machine × CodePtr))) : Option Stepped := do
  s.settle (← o) fun (m, code) => (s.call m code).map .running

/-- `APPTERM1` to `APPTERM`: a tail call of that code. -/
def tailCallBy (s : Exec) (o : Option (Outcome (Machine × CodePtr))) : Option Stepped := do
  s.settle (← o) fun (m, code) => (s.enter m code).map .running

/-- The code generated for an instruction. -/
def exec (rt : Runtime) (inst : ZInstruction) (s : Exec) : Option Stepped :=
  match inst.opNum with
  | .grab =>
      if s.machine.checkGrab (inst.arg 0) then
        s.goOn (s.machine.substractExtraArgs (inst.arg 0))
      else if s.fn = mainFunctionId then
        none
      else do
        let m ← s.machine.createRestartClosure rt (.restart s.fn)
        return s.leave m
  | .apply => do
      let (m, code) ← s.machine.apply (inst.arg 0)
      return .running (← s.call m code)
  | .apply1 => s.callBy (s.machine.apply1 rt)
  | .apply2 => s.callBy (s.machine.apply2 rt)
  | .apply3 => s.callBy (s.machine.apply3 rt)
  | .appterm => do
      s.tailCallBy (s.machine.appterm rt (← inst.countArg 0) (← inst.countArg 1))
  | .appterm1 => do s.tailCallBy (s.machine.appterm1 rt (← inst.countArg 0))
  | .appterm2 => do s.tailCallBy (s.machine.appterm2 rt (← inst.countArg 0))
  | .appterm3 => do s.tailCallBy (s.machine.appterm3 rt (← inst.countArg 0))
  | .return_ => do
      match ← s.machine.handleReturn (← inst.countArg 0) with
      | (m, some code) => return .running (← s.enter m code)
      | (m, none) => return s.leave m
  | .stop => some (s.leave s.machine)
  | .pushTrap => do
      let (i, m) ← s.machine.getNewBuffer
      let m ← m.pushTrap
      { s with
        jmpBufs := fun k =>
          if k = i then some ⟨s.fn, s.callers, inst.arg 0⟩ else s.jmpBufs k }.goOn m
  | .popTrap => do
      let m ← s.machine.removeExceptionContext
      s.goOn (← m.popTrap)
  | .raise => s.settle (.jump (s.machine.throwException s.machine.accu)) s.goOn
  | .branch | .branchIf | .branchIfNot | .switch | .beq | .bneq | .bltInt | .bleInt | .bgtInt
  | .bgeInt | .bultInt | .bugeInt => s.goOn s.machine
  | _ => do
      s.settle (← RuntimeCall.runAll rt (← inst.runtimeCalls) s.machine) s.goOn

/-- The step to a state in which the program is still running. -/
def step (rt : Runtime) (inst : ZInstruction) (s : Exec) : Option Exec :=
  match s.exec rt inst with
  | some (.running s') => some s'
  | _ => none

section

variable {rt : Runtime} {inst : ZInstruction} {s : Exec}

theorem exec_of_runtimeCalls {cs : List RuntimeCall} (h : inst.runtimeCalls = some cs) :
    s.exec rt inst = (RuntimeCall.runAll rt cs s.machine).bind (s.settle · s.goOn) := by
  unfold exec
  split
  case h_27 => rw [h]; rfl
  all_goals
    next hop => simp [ZInstruction.runtimeCalls, hop] at h

theorem step_of_run {c : RuntimeCall} {m : Machine} (hcall : inst.runtimeCalls = some [c])
    (hrun : c.run rt s.machine = some (.next m)) :
    s.step rt inst = some { s with machine := m, control := .inside } := by
  rw [step, exec_of_runtimeCalls hcall, RuntimeCall.runAll_singleton, hrun]
  rfl

end

end Exec

end CamllVM
