import CamllVM.OpCode

/-!
# Decoded instructions

`ZInstruction` is the record that the decoder fills and every later pass reads. Destinations are
stored in it as indices of instructions, once `readInstructions` has resolved them.
-/

namespace CamllVM

def toInt32 (x : Int) : Int := x.bmod 4294967296

def toUInt32 (x : Int) : Int := x % 4294967296

theorem toInt32_of_small {x : Int} (hlow : -2147483648 ≤ x) (hhigh : x < 2147483648) :
    toInt32 x = x := by
  exact Int.bmod_eq_of_le (by omega) (by omega)

theorem toUInt32_of_small {x : Int} (hlow : 0 ≤ x) (hhigh : x < 4294967296) : toUInt32 x = x :=
  Int.emod_eq_of_lt hlow hhigh

inductive InstrAnnotation where
  | nothing | functionStart | blockStart
  deriving DecidableEq, Repr

structure ZInstruction where
  opNum : OpCode
  args : Vector Int 4
  idx : Int
  origIdx : Int
  closureRecFns : Vector Int 32
  switchEntries : List Int
  annotation : InstrAnnotation
  deriving DecidableEq, Repr

instance four_neZero : NeZero 4 := ⟨by decide⟩

/-- `CodeOffsetArgs`: the operand of an opcode that is a code offset. -/
def codeOffsetArgs : OpCode → Option (Fin 4)
  | .pushRetAddr | .branch | .branchIf | .branchIfNot | .pushTrap => some 0
  | .closure | .beq | .bneq | .bltInt | .bleInt | .bgtInt | .bgeInt | .bultInt | .bugeInt => some 1
  | _ => none

/-- A code offset is always the last operand. -/
theorem arity_of_codeOffsetArgs {op : OpCode} {k : Fin 4} (h : codeOffsetArgs op = some k) :
    op.arity = k + 1 := by
  cases op <;> simp only [codeOffsetArgs, reduceCtorEq, Option.some.injEq] at h <;> subst h <;> rfl

namespace ZInstruction

/-- `new ZInstruction()`: every field of the record is zero. -/
def blank (opNum : OpCode) : ZInstruction where
  opNum := opNum
  args := Vector.replicate 4 0
  idx := 0
  origIdx := 0
  closureRecFns := Vector.replicate 32 0
  switchEntries := []
  annotation := .nothing

/-- A record with two operands. -/
def ofArgs (op : OpCode) (a b : Int) : ZInstruction :=
  { blank op with args := #v[a, b, 0, 0] }

@[simp]
theorem blank_opNum (opNum : OpCode) : (blank opNum).opNum = opNum := rfl

def isJumpInst (inst : ZInstruction) : Bool :=
  match inst.opNum with
  | .branch | .branchIf | .branchIfNot | .beq | .bneq | .bltInt | .bleInt | .bgtInt | .bgeInt
  | .bultInt | .bugeInt => true
  | _ => false

def isCondJump (inst : ZInstruction) : Bool := inst.isJumpInst && inst.opNum != .branch

def isUncondJump (inst : ZInstruction) : Bool := inst.opNum == .branch

def isClosure (inst : ZInstruction) : Bool := inst.opNum == .closure

def isClosureRec (inst : ZInstruction) : Bool := inst.opNum == .closureRec

def isSwitch (inst : ZInstruction) : Bool := inst.opNum == .switch

def isPushTrap (inst : ZInstruction) : Bool := inst.opNum == .pushTrap

def isReturn (inst : ZInstruction) : Bool :=
  match inst.opNum with
  | .raise | .appterm | .appterm1 | .appterm2 | .appterm3 | .stop | .return_ => true
  | _ => false

def arg (inst : ZInstruction) (j : Fin 4) : Int := inst.args[j]

/-- `CodeOffsetArgs[OpNum]` yields 0 for an opcode that has no entry. -/
def getDestIdx (inst : ZInstruction) : Int := inst.arg ((codeOffsetArgs inst.opNum).getD 0)

/-- The instructions that the jump, the handler or the table of an instruction names. -/
def dests (inst : ZInstruction) : List Int :=
  if inst.isJumpInst || inst.isPushTrap then [inst.getDestIdx]
  else if inst.isSwitch then inst.switchEntries
  else []

/-- Control can run on into the instruction that follows. -/
def fallsThrough (inst : ZInstruction) : Bool :=
  !(inst.isUncondJump || inst.isReturn || inst.isSwitch)

/-- The instructions that the `CLOSURE` or `CLOSUREREC` operands of an instruction name. -/
def closureTargets (inst : ZInstruction) : List Int :=
  if inst.isClosure then [inst.getDestIdx]
  else if inst.isClosureRec then inst.closureRecFns.toList.take (inst.arg 0).toNat
  else []

end ZInstruction

end CamllVM
