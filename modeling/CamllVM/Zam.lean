import CamllVM.Native

/-!
# Runs of the bytecode

The machine that the bytecode is written for: the instruction with a number is executed, and the
number of the next one is known. The state of `Exec` is part of its state and the steps are those of
`Exec`; the return addresses of the functions that wait are kept beside it. It is what the LLVM code
is compared with.
-/

namespace CamllVM

open Simulation

/-- The number of the instruction that control goes on to from one that makes no call, does not
return and raises no exception. A number without an entry in the table is undefined. -/
def ZInstruction.next (inst : ZInstruction) (m : Machine) : Option Int :=
  let choose (cond : BranchCond) (brIfTrue : Bool) : Option Int := do
    return if (← cond.test m) = brIfTrue then inst.getDestIdx else inst.idx + 1
  match inst.opNum with
  | .branch => some inst.getDestIdx
  | .branchIf => choose .accuIsTrue true
  | .branchIfNot => choose .accuIsTrue false
  | .beq | .bneq | .bltInt | .bleInt | .bgtInt | .bgeInt | .bultInt | .bugeInt =>
      choose (.compare inst.opNum (inst.arg 0)) true
  | .switch => do
      let v ← m.getSwitchOffset (inst.arg 0)
      if 0 ≤ v then inst.switchEntries[v.toNat]? else none
  | _ => some (inst.idx + 1)

/-- The state of a run, the number of the next instruction, and the return addresses of the
functions that wait. -/
structure Zam where
  exec : Exec
  pc : Int
  returns : List Int

namespace Zam

/-- The main function, about to execute instruction `pc`. -/
def start (m : Machine) (pc : Int) : Zam := ⟨.start m, pc, []⟩

/-- Where control is after a step. A function begins with the instruction whose number is its
`Id`, and a handler with the one that its trap names. -/
def follow (z : Zam) (inst : ZInstruction) (s : Exec) : Option Zam :=
  match s.control with
  | .entry =>
      some ⟨s, s.fn,
        if z.exec.callers.length < s.callers.length then (inst.idx + 1) :: z.returns else z.returns⟩
  | .handler block => some ⟨s, block, z.returns.drop (z.returns.length - s.callers.length)⟩
  | .inside =>
      if s.callers.length < z.exec.callers.length then
        match z.returns with
        | [] => none
        | pc :: returns => some ⟨s, pc, returns⟩
      else do
        return ⟨s, ← inst.next z.exec.machine, z.returns⟩

/-- The instruction with the number `pc`. -/
def fetch (prog : List ZInstruction) (pc : Int) : Option ZInstruction :=
  if 0 ≤ pc then prog[pc.toNat]? else none

def step (prog : List ZInstruction) (rt : Runtime) (z : Zam) : Option (Next Zam) := do
  let inst ← fetch prog z.pc
  match ← z.exec.exec rt inst with
  | .finished => return .finished
  | .running s => return .running (← z.follow inst s)

end Zam

end CamllVM
