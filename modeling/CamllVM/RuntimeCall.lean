import CamllVM.Runtime.StdLib

/-!
# The runtime calls of an instruction

The code of most instructions is a sequence of calls of functions of the standard library, with
constant operands. `runtimeCalls` is the part of `GenCodeForInst` that emits these.
-/

namespace CamllVM

/-- A call of a function without a result. -/
inductive RuntimeCall where
  | constInt (ci : Value) | push | pop (n : Nat) | pushRetAddr | acc (n : Nat) | envAcc (n : Int)
  | addInt | negInt | subInt | mulInt | divInt | modInt | offsetInt (n : Int) | andInt | orInt
  | xorInt | lslInt | lsrInt | asrInt | boolNot | isInt | offsetRef (offset : Int)
  | geInt | ltInt | leInt | ultInt | ugeInt | gtInt | cmpNeq | cmpEq | assign (n : Nat)
  | getGlobal (idx : Int) | setGlobal (idx : Int) | getField (idx : Int) | setField (idx : Int)
  | getAtom (idx : Nat) | makeBlock1 (tag : Nat) | makeBlock2 (tag : Nat) | makeBlock3 (tag : Nat)
  | makeBlock (tag wosize : Nat) | makeFloatBlock (size : Nat) | storeDoubleField (idx : Int)
  | getDoubleField (idx : Int) | vectLength | getVectItem | setVectItem | getStringChar
  | setStringChar | closureRec (nfuncs nvars : Nat) (codePtr : CodePtr)
  | setClosureRecNestedClos (idx : Nat) (codePtr : CodePtr)
  | closure (nvars : Nat) (codePtr : CodePtr) | offsetClosure (offset : Int)
  | getMethod | getPubMet (met : Int) | getDynMet
  | cCall1 (prim : Int) | cCall2 (prim : Int) | cCall3 (prim : Int) | cCall4 (prim : Int)
  | cCall5 (prim : Int) | cCallN (prim nargs : Int)
  deriving DecidableEq, Repr

namespace RuntimeCall

/-- The effect of a function that cannot raise an exception. -/
def plain (m : Option Machine) : Option (Outcome Machine) := m.map .next

def run (rt : Runtime) (m : Machine) : RuntimeCall → Option (Outcome Machine)
  | constInt ci => plain (some (m.constInt ci))
  | push => plain (some m.push)
  | pop n => plain (m.pop n)
  | pushRetAddr => plain m.pushRetAddr
  | acc n => plain (m.acc n)
  | envAcc n => plain (m.envAcc n)
  | addInt => plain m.addInt
  | negInt => plain m.negInt
  | subInt => plain m.subInt
  | mulInt => plain m.mulInt
  | divInt => plain m.divInt
  | modInt => plain m.modInt
  | offsetInt n => plain (m.offsetInt n)
  | andInt => plain m.andInt
  | orInt => plain m.orInt
  | xorInt => plain m.xorInt
  | lslInt => plain m.lslInt
  | lsrInt => plain m.lsrInt
  | asrInt => plain m.asrInt
  | boolNot => plain m.boolNot
  | isInt => plain (some m.isInt)
  | offsetRef offset => plain (m.offsetRef offset)
  | geInt => plain m.geInt
  | ltInt => plain m.ltInt
  | leInt => plain m.leInt
  | ultInt => plain m.ultInt
  | ugeInt => plain m.ugeInt
  | gtInt => plain m.gtInt
  | cmpNeq => plain m.cmpNeq
  | cmpEq => plain m.cmpEq
  | assign n => plain (m.assign n)
  | getGlobal idx => plain (m.getGlobal idx)
  | setGlobal idx => plain (m.setGlobal idx)
  | getField idx => plain (m.getField idx)
  | setField idx => plain (m.storeField idx)
  | getAtom idx => plain (some (m.getAtom idx))
  | makeBlock1 tag => plain (m.makeBlock1 rt tag)
  | makeBlock2 tag => plain (m.makeBlock2 rt tag)
  | makeBlock3 tag => plain (m.makeBlock3 rt tag)
  | makeBlock tag wosize => plain (m.makeBlock rt tag wosize)
  | makeFloatBlock size => plain (m.makeFloatBlock rt size)
  | storeDoubleField idx => plain (m.storeDoubleField idx)
  | getDoubleField idx => plain (m.getDoubleField rt idx)
  | vectLength => plain m.vectLength
  | getVectItem => plain m.getVectItem
  | setVectItem => plain m.setVectItem
  | getStringChar => plain m.getStringChar
  | setStringChar => plain m.setStringChar
  | closureRec nfuncs nvars codePtr => plain (m.closureRec rt nfuncs nvars codePtr)
  | setClosureRecNestedClos idx codePtr => plain (m.setClosureRecNestedClos idx codePtr)
  | closure nvars codePtr => plain (m.closure rt nvars codePtr)
  | offsetClosure offset => plain (m.offsetClosure offset)
  | getMethod => plain m.getMethod
  | getPubMet met => plain (m.getPubMet met)
  | getDynMet => plain m.getDynMet
  | cCall1 prim => m.cCall1 rt prim
  | cCall2 prim => m.cCall2 rt prim
  | cCall3 prim => m.cCall3 rt prim
  | cCall4 prim => m.cCall4 rt prim
  | cCall5 prim => m.cCall5 rt prim
  | cCallN prim nargs => m.cCallN rt prim nargs

/-- A sequence of calls, which an exception cuts short. -/
def runAll (rt : Runtime) : List RuntimeCall → Machine → Option (Outcome Machine)
  | [], m => some (.next m)
  | c :: cs, m => do
      match ← c.run rt m with
      | .next m => runAll rt cs m
      | .jump j => return .jump j

theorem runAll_singleton (rt : Runtime) (m : Machine) (c : RuntimeCall) :
    runAll rt [c] m = c.run rt m := by
  rw [runAll]
  cases c.run rt m with
  | none => rfl
  | some o => cases o <;> rfl

end RuntimeCall

namespace ZInstruction

/-- An operand that counts words. The bytecode compiler emits no negative ones. -/
def countArg (inst : ZInstruction) (j : Fin 4) : Option Nat :=
  if 0 ≤ inst.arg j then some (inst.arg j).toNat else none

/-- The calls for the functions of `CLOSUREREC` but the first, from function `i` on. -/
def nestedClosures (inst : ZInstruction) (i : Nat) : Nat → Option (List RuntimeCall)
  | 0 => some []
  | n + 1 =>
      if h : i < 32 then do
        let rest ← nestedClosures inst (i + 1) n
        return .setClosureRecNestedClos i (.fn inst.closureRecFns[i]) :: rest
      else
        none

/-- The calls that `GenCodeForInst` emits for an instruction that does not transfer control. An
instruction with a control transfer of its own, and one that is not handled, has none. -/
def runtimeCalls (inst : ZInstruction) : Option (List RuntimeCall) :=
  match inst.opNum with
  | .const0 => some [.constInt (.int 0)]
  | .const1 => some [.constInt (.int 1)]
  | .const2 => some [.constInt (.int 2)]
  | .const3 => some [.constInt (.int 3)]
  | .constInt => some [.constInt (.int (inst.arg 0))]
  | .pushConst0 => some [.push, .constInt (.int 0)]
  | .pushConst1 => some [.push, .constInt (.int 1)]
  | .pushConst2 => some [.push, .constInt (.int 2)]
  | .pushConst3 => some [.push, .constInt (.int 3)]
  | .pushConstInt => some [.push, .constInt (.int (inst.arg 0))]
  | .pop => do return [.pop (← inst.countArg 0)]
  | .push => some [.push]
  | .pushRetAddr => some [.pushRetAddr]
  | .acc0 => some [.acc 0]
  | .acc1 => some [.acc 1]
  | .acc2 => some [.acc 2]
  | .acc3 => some [.acc 3]
  | .acc4 => some [.acc 4]
  | .acc5 => some [.acc 5]
  | .acc6 => some [.acc 6]
  | .acc7 => some [.acc 7]
  | .acc => do return [.acc (← inst.countArg 0)]
  | .pushAcc0 => some [.push, .acc 0]
  | .pushAcc1 => some [.push, .acc 1]
  | .pushAcc2 => some [.push, .acc 2]
  | .pushAcc3 => some [.push, .acc 3]
  | .pushAcc4 => some [.push, .acc 4]
  | .pushAcc5 => some [.push, .acc 5]
  | .pushAcc6 => some [.push, .acc 6]
  | .pushAcc7 => some [.push, .acc 7]
  | .pushAcc => do return [.push, .acc (← inst.countArg 0)]
  | .envAcc1 => some [.envAcc 1]
  | .envAcc2 => some [.envAcc 2]
  | .envAcc3 => some [.envAcc 3]
  | .envAcc4 => some [.envAcc 4]
  | .envAcc => some [.envAcc (inst.arg 0)]
  | .pushEnvAcc1 => some [.push, .envAcc 1]
  | .pushEnvAcc2 => some [.push, .envAcc 2]
  | .pushEnvAcc3 => some [.push, .envAcc 3]
  | .pushEnvAcc4 => some [.push, .envAcc 4]
  | .pushEnvAcc => some [.push, .envAcc (inst.arg 0)]
  | .addInt => some [.addInt]
  | .negInt => some [.negInt]
  | .subInt => some [.subInt]
  | .mulInt => some [.mulInt]
  | .divInt => some [.divInt]
  | .modInt => some [.modInt]
  | .offsetInt => some [.offsetInt (toInt32 (2 * inst.arg 0))]
  | .andInt => some [.andInt]
  | .orInt => some [.orInt]
  | .xorInt => some [.xorInt]
  | .lslInt => some [.lslInt]
  | .lsrInt => some [.lsrInt]
  | .asrInt => some [.asrInt]
  | .boolNot => some [.boolNot]
  | .isInt => some [.isInt]
  | .offsetRef => some [.offsetRef (inst.arg 0)]
  | .geInt => some [.geInt]
  | .ltInt => some [.ltInt]
  | .leInt => some [.leInt]
  | .ultInt => some [.ultInt]
  | .ugeInt => some [.ugeInt]
  | .gtInt => some [.gtInt]
  | .neq => some [.cmpNeq]
  | .eq => some [.cmpEq]
  | .assign => do return [.assign (← inst.countArg 0)]
  | .pushGetGlobal => some [.push, .getGlobal (inst.arg 0)]
  | .getGlobal => some [.getGlobal (inst.arg 0)]
  | .setGlobal => some [.setGlobal (inst.arg 0)]
  | .pushGetGlobalField => some [.push, .getGlobal (inst.arg 0), .getField (inst.arg 1)]
  | .getGlobalField => some [.getGlobal (inst.arg 0), .getField (inst.arg 1)]
  | .pushAtom0 => some [.push, .getAtom 0]
  | .atom0 => some [.getAtom 0]
  | .pushAtom => do return [.push, .getAtom (← inst.countArg 0)]
  | .atom => do return [.getAtom (← inst.countArg 0)]
  | .makeBlock1 => do return [.makeBlock1 (← inst.countArg 0)]
  | .makeBlock2 => do return [.makeBlock2 (← inst.countArg 0)]
  | .makeBlock3 => do return [.makeBlock3 (← inst.countArg 0)]
  | .makeBlock => do return [.makeBlock (← inst.countArg 1) (← inst.countArg 0)]
  | .makeFloatBlock => do return [.makeFloatBlock (← inst.countArg 0)]
  | .setField0 => some [.setField 0]
  | .setField1 => some [.setField 1]
  | .setField2 => some [.setField 2]
  | .setField3 => some [.setField 3]
  | .setField => some [.setField (inst.arg 0)]
  | .setFloatField => some [.storeDoubleField (inst.arg 0)]
  | .getField0 => some [.getField 0]
  | .getField1 => some [.getField 1]
  | .getField2 => some [.getField 2]
  | .getField3 => some [.getField 3]
  | .getField => some [.getField (inst.arg 0)]
  | .getFloatField => some [.getDoubleField (inst.arg 0)]
  | .vectLength => some [.vectLength]
  | .getVectItem => some [.getVectItem]
  | .setVectItem => some [.setVectItem]
  | .getStringChar => some [.getStringChar]
  | .setStringChar => some [.setStringChar]
  | .closureRec => do
      let nfuncs ← inst.countArg 0
      let rest ← inst.nestedClosures 1 (nfuncs - 1)
      return .closureRec nfuncs (← inst.countArg 1) (.fn inst.closureRecFns[0]) :: rest
  | .closure => do return [.closure (← inst.countArg 0) (.fn (inst.arg 1))]
  | .pushOffsetClosure => some [.push, .offsetClosure (inst.arg 0)]
  | .offsetClosure => some [.offsetClosure (inst.arg 0)]
  | .pushOffsetClosureM2 => some [.push, .offsetClosure (-2)]
  | .offsetClosureM2 => some [.offsetClosure (-2)]
  | .pushOffsetClosure0 => some [.push, .offsetClosure 0]
  | .offsetClosure0 => some [.offsetClosure 0]
  | .pushOffsetClosure2 => some [.push, .offsetClosure 2]
  | .offsetClosure2 => some [.offsetClosure 2]
  | .getMethod => some [.getMethod]
  | .getPubMet => some [.getPubMet (inst.arg 0)]
  | .getDynMet => some [.getDynMet]
  | .cCall1 => some [.cCall1 (inst.arg 0)]
  | .cCall2 => some [.cCall2 (inst.arg 0)]
  | .cCall3 => some [.cCall3 (inst.arg 0)]
  | .cCall4 => some [.cCall4 (inst.arg 0)]
  | .cCall5 => some [.cCall5 (inst.arg 0)]
  | .cCallN => some [.cCallN (inst.arg 0) (inst.arg 1)]
  | .checkSignals => some []
  | _ => none

end ZInstruction

end CamllVM
