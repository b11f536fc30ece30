import Mathlib

/-!
# The instruction set

The opcodes of the OCaml bytecode machine in the order of `OPCODE_NODE_LIST`, which is the order of
their numbers, with the number of operand words that follows each of them in a bytecode file.
-/

namespace CamllVM

/-- `enum OpCodes`. -/
inductive OpCode where
  | acc0 | acc1 | acc2 | acc3 | acc4 | acc5 | acc6 | acc7 | acc | push | pushAcc0 | pushAcc1
  | pushAcc2 | pushAcc3 | pushAcc4 | pushAcc5 | pushAcc6 | pushAcc7 | pushAcc | pop | assign
  | envAcc1 | envAcc2 | envAcc3 | envAcc4 | envAcc | pushEnvAcc1 | pushEnvAcc2 | pushEnvAcc3
  | pushEnvAcc4 | pushEnvAcc | pushRetAddr | apply | apply1 | apply2 | apply3 | appterm
  | appterm1 | appterm2 | appterm3 | return_ | restart | grab | closure | closureRec
  | offsetClosureM2 | offsetClosure0 | offsetClosure2 | offsetClosure | pushOffsetClosureM2
  | pushOffsetClosure0 | pushOffsetClosure2 | pushOffsetClosure | getGlobal | pushGetGlobal
  | getGlobalField | pushGetGlobalField | setGlobal | atom0 | atom | pushAtom0 | pushAtom
  | makeBlock | makeBlock1 | makeBlock2 | makeBlock3 | makeFloatBlock | getField0 | getField1
  | getField2 | getField3 | getField | getFloatField | setField0 | setField1 | setField2
  | setField3 | setField | setFloatField | vectLength | getVectItem | setVectItem | getStringChar
  | setStringChar | branch | branchIf | branchIfNot | switch | boolNot | pushTrap | popTrap
  | raise | checkSignals | cCall1 | cCall2 | cCall3 | cCall4 | cCall5 | cCallN | const0 | const1
  | const2 | const3 | constInt | pushConst0 | pushConst1 | pushConst2 | pushConst3 | pushConstInt
  | negInt | addInt | subInt | mulInt | divInt | modInt | andInt | orInt | xorInt | lslInt
  | lsrInt | asrInt | eq | neq | ltInt | leInt | gtInt | geInt | offsetInt | offsetRef | isInt
  | getMethod | beq | bneq | bltInt | bleInt | bgtInt | bgeInt | ultInt | ugeInt | bultInt
  | bugeInt | getPubMet | getDynMet | stop | event | break_
  deriving DecidableEq, Repr

/-- `AllOpCodes`: the opcodes by number. -/
def allOpCodes : List OpCode :=
  [.acc0, .acc1, .acc2, .acc3, .acc4, .acc5, .acc6, .acc7, .acc, .push, .pushAcc0, .pushAcc1,
   .pushAcc2, .pushAcc3, .pushAcc4, .pushAcc5, .pushAcc6, .pushAcc7, .pushAcc, .pop, .assign,
   .envAcc1, .envAcc2, .envAcc3, .envAcc4, .envAcc, .pushEnvAcc1, .pushEnvAcc2, .pushEnvAcc3,
   .pushEnvAcc4, .pushEnvAcc, .pushRetAddr, .apply, .apply1, .apply2, .apply3, .appterm,
   .appterm1, .appterm2, .appterm3, .return_, .restart, .grab, .closure, .closureRec,
   .offsetClosureM2, .offsetClosure0, .offsetClosure2, .offsetClosure, .pushOffsetClosureM2,
   .pushOffsetClosure0, .pushOffsetClosure2, .pushOffsetClosure, .getGlobal, .pushGetGlobal,
   .getGlobalField, .pushGetGlobalField, .setGlobal, .atom0, .atom, .pushAtom0, .pushAtom,
   .makeBlock, .makeBlock1, .makeBlock2, .makeBlock3, .makeFloatBlock, .getField0, .getField1,
   .getField2, .getField3, .getField, .getFloatField, .setField0, .setField1, .setField2,
   .setField3, .setField, .setFloatField, .vectLength, .getVectItem, .setVectItem,
   .getStringChar, .setStringChar, .branch, .branchIf, .branchIfNot, .switch, .boolNot,
   .pushTrap, .popTrap, .raise, .checkSignals, .cCall1, .cCall2, .cCall3, .cCall4, .cCall5,
   .cCallN, .const0, .const1, .const2, .const3, .constInt, .pushConst0, .pushConst1, .pushConst2,
   .pushConst3, .pushConstInt, .negInt, .addInt, .subInt, .mulInt, .divInt, .modInt, .andInt,
   .orInt, .xorInt, .lslInt, .lsrInt, .asrInt, .eq, .neq, .ltInt, .leInt, .gtInt, .geInt,
   .offsetInt, .offsetRef, .isInt, .getMethod, .beq, .bneq, .bltInt, .bleInt, .bgtInt, .bgeInt,
   .ultInt, .ugeInt, .bultInt, .bugeInt, .getPubMet, .getDynMet, .stop, .event, .break_]

namespace OpCode

/-- `OpCode::Arity`. `CLOSUREREC` and `SWITCH` carry a table after these operands. -/
def arity : OpCode → Nat
  | .acc | .pushAcc | .pop | .assign | .envAcc | .pushEnvAcc | .pushRetAddr | .apply | .appterm1
  | .appterm2 | .appterm3 | .return_ | .grab | .offsetClosure | .pushOffsetClosure | .getGlobal
  | .pushGetGlobal | .setGlobal | .atom | .pushAtom | .makeBlock1 | .makeBlock2 | .makeBlock3
  | .makeFloatBlock | .getField | .getFloatField | .setField | .setFloatField | .branch
  | .branchIf | .branchIfNot | .switch | .pushTrap | .cCall1 | .cCall2 | .cCall3 | .cCall4
  | .cCall5 | .constInt | .pushConstInt | .offsetInt | .offsetRef => 1
  | .appterm | .closure | .closureRec | .getGlobalField | .pushGetGlobalField | .makeBlock
  | .cCallN | .beq | .bneq | .bltInt | .bleInt | .bgtInt | .bgeInt | .bultInt | .bugeInt
  | .getPubMet => 2
  | _ => 0

/-- The number that stands for an opcode in a bytecode file. -/
def num (op : OpCode) : Nat := op.ctorIdx

/-- An opcode word read back. The table lookup of the source has no value outside the table. -/
def ofNum? (n : Int) : Option OpCode :=
  if 0 ≤ n then allOpCodes[n.toNat]? else none

theorem allOpCodes_num (op : OpCode) : allOpCodes[op.num]? = some op := by
  cases op <;> rfl

@[simp]
theorem ofNum?_num (op : OpCode) : ofNum? op.num = some op := by
  rw [ofNum?, if_pos (Int.natCast_nonneg _), Int.toNat_natCast, allOpCodes_num]

theorem arity_le_two (op : OpCode) : op.arity ≤ 2 := by
  cases op <;> decide

end OpCode

end CamllVM
