import CamllVM.Exec
import CamllVM.GenFunction

/-!
# Code generation

`CodeGen` creates the LLVM code of a function block by block. One `Builder` serves the whole module:
it inserts at the end of the LLVM block that it was last set to, and the code of another function may
be generated in the middle of an instruction that refers to it.

Pointers that were never set, blocks that do not exist and instructions that are not handled give
`none`.
-/

namespace CamllVM

instance thirtyTwo_neZero : NeZero 32 := ⟨by decide⟩

/-- `ClosureRecFns[j]`. -/
def ZInstruction.closureRecFn (inst : ZInstruction) (j : Fin 32) : Int := inst.closureRecFns[j]

/-- A `GenFunction` of a module: the main function, or the one with a key in `Functions`. -/
inductive FnRef where
  | main
  | closure (id : Int)
  deriving DecidableEq, Repr

structure GenModule where
  functions : List GenFunction
  mainFunction : GenFunction

/-- `Functions[id]` -/
def GenModule.find (M : GenModule) (id : Int) : Option GenFunction :=
  M.functions.find? fun f => f.id = id

/-- `Functions[f.id] = f` -/
def GenModule.add (M : GenModule) (f : GenFunction) : GenModule :=
  { M with functions := f :: M.functions.filter fun g => g.id ≠ f.id }

/-- `GenModuleCreator::generate` -/
def generate (insts : List ZInstruction) (firstInst lastInst : Int) : Option GenModule := do
  let split ← splitInstructions (← queueInstructions insts firstInst lastInst)
  let functions ← split.functions.mapM fun f => generateFunction (.new f.id f.arity) f.insts
  let main ← generateFunction (.new mainFunctionId 0) (removeDeadInstructions split.mainBlockInsts)
  return functions.foldl .add ⟨[], main.removeUnusedBlocks⟩

/-- A `BasicBlock`: one of the `LlvmBlocks` of a `GenBlock`, or the block of a restart function. -/
inductive BasicBlock where
  | ofBlock (fn : FnRef) (block : Int) (index : Nat)
  | ofRestart (fn : FnRef)
  deriving DecidableEq, Repr

/-- A library function that is called by the code of an instruction with a control transfer or with a
reference to a function. -/
inductive LibCall where
  | init | restart
  | getNewBuffer | sigsetjmp | getExceptionValue | removeExceptionContext | pushTrap | popTrap
  | throwException
  | checkGrab (required : Int) | createRestartClosure (fn : FnRef) | substractExtraArgs (required : Int)
  | apply1 | apply2 | apply3 | apply (n : Int)
  | appterm1 (slotsize : Int) | appterm2 (slotsize : Int) | appterm3 (slotsize : Int)
  | appterm (nargs slotsize : Int)
  | handleReturn (stsz : Int)
  | getSwitchOffset (sizes : Int)
  | closureRec (nfuncs nvars : Int) (mainCodePtr : FnRef)
  | setClosureRecNestedClos (idx : Int) (codePtr : FnRef)
  | closure (nvars : Int) (codePtr : FnRef)
  deriving DecidableEq, Repr

/-- The bit that a conditional branch tests. -/
inductive BranchCond where
  | setJmpRes | checkGrab | handleReturn | accuIsTrue
  | compare (op : OpCode) (k : Int)
  deriving DecidableEq, Repr

/-- An LLVM instruction. The calls of an instruction without a control transfer are taken together:
they are those of `ZInstruction.runtimeCalls`. `handlerCall` is a call that `PUSHTRAP` inserts in the
block of its handler. -/
inductive LlvmInst where
  | instCalls (inst : ZInstruction)
  | libCall (c : LibCall)
  | handlerCall (c : LibCall)
  | callPtr (isTailCall : Bool)
  | callFn (fn : FnRef)
  | retVoid
  | br (target : BasicBlock)
  | condBr (cond : BranchCond) (ifTrue ifFalse : BasicBlock)
  | switch (default : BasicBlock) (cases : List BasicBlock)
  deriving DecidableEq, Repr

/-- The state of code generation. `log` holds the instructions in the order in which they are
created, each with the block at whose end it is inserted; `generated` the functions whose `LlvmFunc`
is set, the latest first; `body` the blocks that have been put into an LLVM function. -/
structure GenState where
  graph : FnRef → GenFunction
  llvmBlocks : FnRef → Int → Nat
  insertPoint : Option BasicBlock
  log : List (BasicBlock × LlvmInst)
  generated : List FnRef
  body : FnRef → List BasicBlock

namespace GenState

/-- Before code is generated every `GenBlock` has the LLVM block of its constructor. -/
def start (M : GenModule) : GenState where
  graph
    | .main => M.mainFunction
    | .closure id => (M.find id).getD (.new id 1)
  llvmBlocks _ _ := 1
  insertPoint := none
  log := []
  generated := []
  body _ := []

/-- The instructions of an LLVM block. -/
def code (s : GenState) (b : BasicBlock) : List LlvmInst :=
  (s.log.filter fun e => e.1 = b).map Prod.snd

/-- `LlvmBlock` of a `GenBlock`: the one that was added last. -/
def llvmBlock (s : GenState) (fn : FnRef) (k : Int) : BasicBlock :=
  .ofBlock fn k (s.llvmBlocks fn k - 1)

def setInsertPoint (s : GenState) (b : BasicBlock) : GenState := { s with insertPoint := some b }

/-- `Builder->Create…` -/
def emit (s : GenState) (inst : LlvmInst) : Option GenState := do
  let b ← s.insertPoint
  return { s with log := s.log ++ [(b, inst)] }

def emitAll (s : GenState) : List LlvmInst → Option GenState
  | [] => some s
  | inst :: insts => do
      let s ← s.emit inst
      s.emitAll insts

/-- `addBlock`: the new block becomes `LlvmBlock`. -/
def addBlock (s : GenState) (fn : FnRef) (k : Int) : GenState :=
  { s with
    llvmBlocks := fun fn' k' => if fn' = fn ∧ k' = k then s.llvmBlocks fn k + 1
      else s.llvmBlocks fn' k' }

def block (s : GenState) (fn : FnRef) (k : Int) : GenBlock := (s.graph fn).block k

def findBlock (s : GenState) (fn : FnRef) (k : Int) : Option Int := (s.graph fn).find k

/-- `setNext` of a block while code is generated. -/
def setNext (s : GenState) (fn : FnRef) (k next : Int) (isBrBlock : Bool) : GenState :=
  { s with graph := Function.update s.graph fn ((s.graph fn).setNext k next isBrBlock) }

end GenState

section

variable (M : GenModule) (gen : FnRef → GenState → Option GenState) (fn : FnRef) (k : Int)

/-- `getPtrToFunc` of a block. `gen` is `CodeGen` of a function. -/
def getPtrToFunc (fnId : Int) (s : GenState) : Option GenState := do
  let _ ← M.find fnId
  let s ← if .closure fnId ∈ s.generated then some s else gen (.closure fnId) s
  return s.setInsertPoint (s.llvmBlock fn k)

/-- `CLOSUREREC`: the functions but the first, from function `i` on. -/
def genNestedClosures (inst : ZInstruction) (i : Nat) : Nat → GenState → Option GenState
  | 0, s => some s
  | n + 1, s =>
      if h : i < 32 then do
        let s ← getPtrToFunc M gen fn k inst.closureRecFns[i] s
        let s ← s.emit (.libCall (.setClosureRecNestedClos i (.closure inst.closureRecFns[i])))
        genNestedClosures inst (i + 1) n s
      else
        none

def genPushTrap (handler : Int) (s : GenState) : Option GenState := do
  let s ← s.emitAll [.libCall .getNewBuffer, .libCall .sigsetjmp]
  let s := s.addBlock fn k
  let second := s.llvmBlock fn k
  let trapBlock ← s.findBlock fn handler
  let s ← s.emit (.condBr .setJmpRes (.ofBlock fn trapBlock 0) second)
  let s := s.setInsertPoint (s.llvmBlock fn trapBlock)
  let s ← s.emitAll [.handlerCall .getExceptionValue, .handlerCall .removeExceptionContext]
  let s := s.setInsertPoint second
  s.emit (.libCall .pushTrap)

/-- `GRAB`. Only a function that is not the main one has a restart function. -/
def genGrab (required : Int) (s : GenState) : Option GenState := do
  let s ← s.emit (.libCall (.checkGrab required))
  let s := s.addBlock fn k
  let blockReturn := s.llvmBlock fn k
  let s := s.addBlock fn k
  let blockContinue := s.llvmBlock fn k
  let s ← s.emit (.condBr .checkGrab blockContinue blockReturn)
  let s := s.setInsertPoint blockReturn
  if (s.graph fn).id = mainFunctionId then
    none
  else
    let s ← s.emitAll [.libCall (.createRestartClosure fn), .retVoid]
    let s := s.setInsertPoint blockContinue
    s.emit (.libCall (.substractExtraArgs required))

def genReturn (stsz : Int) (s : GenState) : Option GenState := do
  let s ← s.emit (.libCall (.handleReturn stsz))
  let s := s.addBlock fn k
  let blockInvoke := s.llvmBlock fn k
  let s := s.addBlock fn k
  let blockReturn := s.llvmBlock fn k
  let s ← s.emit (.condBr .handleReturn blockInvoke blockReturn)
  let s := s.setInsertPoint blockInvoke
  let s ← s.emitAll [.callPtr true, .retVoid]
  let s := s.setInsertPoint blockReturn
  s.emit .retVoid

def genSwitch (inst : ZInstruction) (s : GenState) : Option GenState := do
  let s ← s.emit (.libCall (.getSwitchOffset (inst.arg 0)))
  let defaultBlock ← s.findBlock fn (← inst.switchEntries.head?)
  let s := s.setNext fn k defaultBlock false
  let cases ← inst.switchEntries.mapM (s.findBlock fn)
  s.emit (.switch (s.llvmBlock fn defaultBlock) (cases.map (s.llvmBlock fn)))

/-- The conditional branch to the first blocks of `BrBlock` and `NoBrBlock`, or the other way
round. -/
def genCondBr (cond : BranchCond) (brIfTrue : Bool) (s : GenState) : Option GenState := do
  let br ← (s.block fn k).brBlock
  let noBr ← (s.block fn k).noBrBlock
  if brIfTrue then s.emit (.condBr cond (.ofBlock fn br 0) (.ofBlock fn noBr 0))
  else s.emit (.condBr cond (.ofBlock fn noBr 0) (.ofBlock fn br 0))

def genCodeForInst (inst : ZInstruction) (s : GenState) : Option GenState :=
  match inst.opNum with
  | .pushTrap => genPushTrap fn k (inst.arg 0) s
  | .popTrap => s.emitAll [.libCall .removeExceptionContext, .libCall .popTrap]
  | .raise => s.emitAll [.libCall .throwException, .retVoid]
  | .closureRec => do
      let s ← getPtrToFunc M gen fn k (inst.closureRecFn 0) s
      let s ← s.emit (.libCall
        (.closureRec (inst.arg 0) (inst.arg 1) (.closure (inst.closureRecFn 0))))
      genNestedClosures M gen fn k inst 1 ((inst.arg 0).toNat - 1) s
  | .closure => do
      let s ← getPtrToFunc M gen fn k (inst.arg 1) s
      s.emit (.libCall (.closure (inst.arg 0) (.closure (inst.arg 1))))
  | .grab => genGrab fn k (inst.arg 0) s
  | .apply1 => s.emitAll [.libCall .apply1, .callPtr false]
  | .apply2 => s.emitAll [.libCall .apply2, .callPtr false]
  | .apply3 => s.emitAll [.libCall .apply3, .callPtr false]
  | .apply => s.emitAll [.libCall (.apply (inst.arg 0)), .callPtr false]
  | .appterm1 => s.emitAll [.libCall (.appterm1 (inst.arg 0)), .callPtr true, .retVoid]
  | .appterm2 => s.emitAll [.libCall (.appterm2 (inst.arg 0)), .callPtr true, .retVoid]
  | .appterm3 => s.emitAll [.libCall (.appterm3 (inst.arg 0)), .callPtr true, .retVoid]
  | .appterm => s.emitAll
      [.libCall (.appterm (inst.arg 0) (inst.arg 1)), .callPtr true, .retVoid]
  | .stop => s.emit .retVoid
  | .return_ => genReturn fn k (inst.arg 0) s
  | .branch => do
      let br ← (s.block fn k).brBlock
      s.emit (.br (s.llvmBlock fn br))
  | .branchIf => genCondBr fn k .accuIsTrue true s
  | .branchIfNot => genCondBr fn k .accuIsTrue false s
  | .switch => genSwitch fn k inst s
  | .beq | .bneq | .bltInt | .bleInt | .bgtInt | .bgeInt | .bultInt | .bugeInt =>
      genCondBr fn k (.compare inst.opNum (inst.arg 0)) true s
  | .restart | .event | .break_ => none
  | .checkSignals => some s
  | _ => s.emit (.instCalls inst)

def genCodeForInsts : List ZInstruction → GenState → Option GenState
  | [], s => some s
  | inst :: insts, s => do
      let s ← genCodeForInst M gen fn k inst s
      genCodeForInsts insts s

/-- `CodeGen` of a block. -/
def codeGenBlock (s : GenState) : Option GenState := do
  let s := s.setInsertPoint (s.llvmBlock fn k)
  let s ←
    if (s.graph fn).id = mainFunctionId ∧ (s.block fn k).previousBlocks = [] then
      s.emit (.libCall .init)
    else
      some s
  genCodeForInsts M gen fn k (s.block fn k).instructions s

def genTermInst (s : GenState) : Option GenState := do
  let s := s.setInsertPoint (s.llvmBlock fn k)
  let inst ← (s.block fn k).instructions.getLast?
  if inst.isJumpInst || inst.isReturn || inst.isSwitch then
    return s
  else
    let next ← (s.block fn k).nextBlocks.head?
    s.emit (.br (s.llvmBlock fn next))

/-- The LLVM blocks of a block are put into the LLVM function. -/
def pushBlocks (s : GenState) : GenState :=
  { s with
    body := Function.update s.body fn
      (s.body fn ++ (List.range (s.llvmBlocks fn k)).map (.ofBlock fn k)) }

/-- The loop of `CodeGen` of a function. -/
def codeGenBlocks : List Int → GenState → Option GenState
  | [], s => some s
  | k :: ks, s => do
      let s ← codeGenBlock M gen fn k s
      let s ← genTermInst fn k s
      codeGenBlocks ks (pushBlocks fn k s)

def generateRestartFunction (s : GenState) : Option GenState :=
  (s.setInsertPoint (.ofRestart fn)).emitAll [.libCall .restart, .callFn fn, .retVoid]

/-- `CodeGen` of a function, with `gen` for the functions that it refers to. -/
def codeGenFunction (s : GenState) : Option GenState := do
  let s := { s with generated := fn :: s.generated }
  let s ← if (s.graph fn).id ≠ mainFunctionId then generateRestartFunction fn s else some s
  codeGenBlocks M gen fn (s.graph fn).blocks s

end

/-- `CodeGen` of a function, with calls of itself up to a depth. -/
def codeGen (M : GenModule) : Nat → FnRef → GenState → Option GenState
  | 0, _, _ => none
  | depth + 1, fn, s => codeGenFunction M (codeGen M depth) fn s

end CamllVM
