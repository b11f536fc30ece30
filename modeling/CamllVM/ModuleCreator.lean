import CamllVM.Decode

/-!
# Splitting the program into functions

`generate` takes the instructions of the program off a queue. One that starts a function is taken
together with the whole body, whose end `initFunction` has to guess; the others make up the main
stream, which `removeDeadInstructions` filters.
-/

namespace CamllVM

structure Watermarks where
  maxBranch : Int
  smallestCondBranch : Int
  deriving DecidableEq, Repr

namespace Watermarks

/-- The test that an instruction has to pass in order to be kept. -/
def keeps (w : Watermarks) (inst : ZInstruction) : Bool :=
  w.maxBranch ≤ inst.idx || (w.smallestCondBranch ≤ inst.idx && 0 < w.smallestCondBranch)

/-- The watermarks after an instruction that is kept. -/
def update (w : Watermarks) (inst : ZInstruction) : Watermarks where
  maxBranch := if inst.opNum = .branch then inst.arg 0 else w.maxBranch
  smallestCondBranch :=
    if (inst.isCondJump || inst.isPushTrap) &&
        (inst.getDestIdx < w.smallestCondBranch || w.smallestCondBranch = 0) then
      inst.getDestIdx
    else
      w.smallestCondBranch

end Watermarks

def removeDeadInstructionsFrom : Watermarks → List ZInstruction → List ZInstruction
  | _, [] => []
  | w, inst :: insts =>
      if w.keeps inst then inst :: removeDeadInstructionsFrom (w.update inst) insts
      else removeDeadInstructionsFrom w insts

def removeDeadInstructions (insts : List ZInstruction) : List ZInstruction :=
  removeDeadInstructionsFrom ⟨0, 0⟩ insts

/-- `MaxInstIdx` after an instruction. `SwitchEntries.back()` of an empty table is undefined. -/
def ZInstruction.trackMax (maxInstIdx : Int) (inst : ZInstruction) : Option Int :=
  let maxInstIdx :=
    if inst.isJumpInst || inst.isPushTrap then max maxInstIdx inst.getDestIdx else maxInstIdx
  if inst.isSwitch then do
    let back ← inst.switchEntries.getLast?
    return max maxInstIdx back
  else
    return maxInstIdx

/-- The loop of `initFunction`: the instructions of the function and the rest of the queue. Running
off the end of the queue throws. -/
def takeFunction : Int → List ZInstruction → Option (List ZInstruction × List ZInstruction)
  | _, [] => none
  | maxInstIdx, inst :: insts => do
      let maxInstIdx ← inst.trackMax maxInstIdx
      if inst.isReturn && maxInstIdx ≤ inst.idx then
        return ([inst], insts)
      else
        let (body, rest) ← takeFunction maxInstIdx insts
        return (inst :: body, rest)

/-- What `initFunction` leaves of a function: its `Id`, its `Arity` and `FuncInsts`. -/
structure FuncInsts where
  id : Int
  arity : Int
  insts : List ZInstruction
  deriving DecidableEq, Repr

def initFunction : List ZInstruction → Option (FuncInsts × List ZInstruction)
  | [] => none
  | firstInst :: insts => do
      let arity := if firstInst.opNum = .grab then firstInst.arg 0 + 1 else 1
      let (body, rest) ← takeFunction 0 (firstInst :: insts)
      return (⟨firstInst.idx, arity, body⟩, rest)

theorem takeFunction_length {maxInstIdx : Int} {insts body rest : List ZInstruction}
    (h : takeFunction maxInstIdx insts = some (body, rest)) : rest.length < insts.length := by
  induction insts generalizing maxInstIdx body with
  | nil => cases h
  | cons inst insts ih =>
      simp only [takeFunction, Option.bind_eq_bind, Option.bind_eq_some_iff] at h
      obtain ⟨m, -, h⟩ := h
      split at h
      · cases h
        exact Nat.lt_succ_self _
      · rw [Option.bind_eq_some_iff] at h
        obtain ⟨⟨body', rest'⟩, htake, h⟩ := h
        cases h
        exact Nat.lt_succ_of_lt (ih htake)

theorem initFunction_length {insts rest : List ZInstruction} {f : FuncInsts}
    (h : initFunction insts = some (f, rest)) : rest.length < insts.length := by
  cases insts with
  | nil => cases h
  | cons inst insts =>
      simp only [initFunction, Option.bind_eq_bind, Option.bind_eq_some_iff] at h
      obtain ⟨⟨body, rest'⟩, htake, h⟩ := h
      cases h
      exact takeFunction_length htake

/-- The functions, in the order in which they are created, and `MainBlockInsts`. -/
structure SplitInsts where
  functions : List FuncInsts
  mainBlockInsts : List ZInstruction
  deriving DecidableEq, Repr

/-- The loop of `generate` that empties the queue. -/
def splitInstructions (qInstructions : List ZInstruction) : Option SplitInsts :=
  match qInstructions with
  | [] => some ⟨[], []⟩
  | inst :: insts =>
      if inst.annotation = .functionStart then
        match _h : initFunction (inst :: insts) with
        | none => none
        | some (f, rest) => do
            let s ← splitInstructions rest
            return { s with functions := f :: s.functions }
      else do
        let s ← splitInstructions insts
        if inst.opNum != .restart then
          return { s with mainBlockInsts := inst :: s.mainBlockInsts }
        else
          return s
termination_by qInstructions.length
decreasing_by
  · exact initFunction_length _h
  · exact Nat.lt_succ_self _

/-- `QInstructions`: the instructions from `firstInst` up to `lastInst`, which counts from the end
if it is not positive. `at` throws outside the list. -/
def queueInstructions (insts : List ZInstruction) (firstInst lastInst : Int) :
    Option (List ZInstruction) :=
  let lastInst : Int :=
    if lastInst = 0 then insts.length - 1
    else if lastInst < 0 then insts.length + lastInst
    else lastInst
  (List.range (lastInst + 1 - firstInst).toNat).mapM fun k : Nat =>
    if 0 ≤ firstInst + k then insts[(firstInst + k).toNat]? else none

end CamllVM
