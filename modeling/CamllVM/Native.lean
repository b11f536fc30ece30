import CamllVM.Proof.Branches
import CamllVM.Proof.Switches
import CamllVM.Lib.Simulation

/-!
# Runs of the LLVM code

A step is one LLVM instruction. What a run of the instructions leaves open is fixed here: a branch
goes to the start of an LLVM block, a call to the first block of a function, a return to the
instruction behind the call, and the second return of `__sigsetjmp` to the instruction behind its
own call.
-/

namespace CamllVM

open Simulation

/-- The result of a call, for the instructions that come right behind it. -/
inductive Register where
  | void
  | jmpBuf (context : Nat)
  | bit (b : Bool)
  | code (c : Option CodePtr)
  | offset (v : Int)
  deriving DecidableEq, Repr

/-- A native frame: its function, and what is left to be executed of the LLVM block it is in. -/
structure LlvmFrame where
  fn : FnRef
  rest : List LlvmInst
  deriving DecidableEq, Repr

/-- What `__sigsetjmp` saves: the frame with the instructions behind the call, and the functions of
the frames below it. -/
structure SavedFrame where
  frame : LlvmFrame
  callers : List FnRef

structure Native where
  machine : Machine
  register : Register
  frame : LlvmFrame
  callers : List LlvmFrame
  jmpBufs : Nat → Option SavedFrame

/-- The value that the code of an instruction passes for a reference to a function. -/
def FnRef.address : FnRef → Option CodePtr
  | .main => none
  | .closure id => some (.fn id)

/-- The value of `RestartFunction`. -/
def FnRef.restartAddress : FnRef → Option CodePtr
  | .main => none
  | .closure id => some (.restart id)

/-- An operand that counts words. -/
def countOf (x : Int) : Option Nat := if 0 ≤ x then some x.toNat else none

namespace LibCall

def plain (m : Option Machine) : Option (Outcome (Machine × Register)) :=
  m.map fun m => .next (m, .void)

/-- The code of a function that is called next. -/
def callee (o : Option (Outcome (Machine × CodePtr))) : Option (Outcome (Machine × Register)) := do
  (← o).andThen fun (m, c) => some (m, .code (some c))

/-- A library function. `__sigsetjmp` also needs the frame that it is called in. -/
def run (rt : Runtime) (m : Machine) : LibCall → Option (Outcome (Machine × Register))
  | init => plain (some m.init)
  | restart => plain m.restart
  | getNewBuffer => do
      let (i, m) ← m.getNewBuffer
      return .next (m, .jmpBuf i)
  | sigsetjmp => none
  | getExceptionValue => plain m.getExceptionValue
  | removeExceptionContext => plain m.removeExceptionContext
  | pushTrap => plain m.pushTrap
  | popTrap => plain m.popTrap
  | throwException => some (.jump (m.throwException m.accu))
  | checkGrab required => some (.next (m, .bit (m.checkGrab required)))
  | createRestartClosure fn => do plain (m.createRestartClosure rt (← fn.restartAddress))
  | substractExtraArgs required => plain (some (m.substractExtraArgs required))
  | apply1 => callee (m.apply1 rt)
  | apply2 => callee (m.apply2 rt)
  | apply3 => callee (m.apply3 rt)
  | apply n => callee ((m.apply n).map .next)
  | appterm1 slotsize => do callee (m.appterm1 rt (← countOf slotsize))
  | appterm2 slotsize => do callee (m.appterm2 rt (← countOf slotsize))
  | appterm3 slotsize => do callee (m.appterm3 rt (← countOf slotsize))
  | appterm nargs slotsize => do callee (m.appterm rt (← countOf nargs) (← countOf slotsize))
  | handleReturn stsz => do
      let (m, c) ← m.handleReturn (← countOf stsz)
      return .next (m, .code c)
  | getSwitchOffset sizes => do return .next (m, .offset (← m.getSwitchOffset sizes))
  | closureRec nfuncs nvars mainCodePtr => do
      plain (m.closureRec rt (← countOf nfuncs) (← countOf nvars) (← mainCodePtr.address))
  | setClosureRecNestedClos idx codePtr => do
      plain (m.setClosureRecNestedClos (← countOf idx) (← codePtr.address))
  | closure nvars codePtr => do plain (m.closure rt (← countOf nvars) (← codePtr.address))

end LibCall

/-- The frame of a function that is entered. -/
def GenState.entryFrame (S : GenState) (fn : FnRef) : Option LlvmFrame := do
  let b ← (S.body fn).head?
  return ⟨fn, S.code b⟩

/-- The frame of the code at an address. -/
def GenState.frameAt (S : GenState) : CodePtr → Option LlvmFrame
  | .fn id => S.entryFrame (.closure id)
  | .restart id =>
      if .closure id ∈ S.generated then
        some ⟨.closure id, S.code (.ofRestart (.closure id))⟩
      else
        none

namespace Native

/-- The call of the main function. -/
def start (S : GenState) (m : Machine) : Option Native := do
  return {
    machine := m
    register := .void
    frame := ← S.entryFrame .main
    callers := []
    jmpBufs := fun _ => none }

/-- A branch to an LLVM block, which has to be in the function. -/
def goTo (S : GenState) (n : Native) (b : BasicBlock) : Option (Next Native) :=
  if b ∈ S.body n.frame.fn then
    some (.running { n with frame := { n.frame with rest := S.code b } })
  else
    none

def leave (n : Native) : Next Native :=
  match n.callers with
  | [] => .finished
  | frame :: callers => .running { n with register := .void, frame := frame, callers := callers }

/-- The second return of `__sigsetjmp`. The jump is defined only while the frame that made the call
has not been left. -/
def land (n : Native) (i : Nat) (m : Machine) : Option Native := do
  let buf ← n.jmpBufs i
  if buf.frame.fn :: buf.callers <:+ n.frame.fn :: n.callers.map LlvmFrame.fn then
    return { n with
      machine := m
      register := .bit true
      frame := buf.frame
      callers := n.callers.drop (n.callers.length - buf.callers.length) }
  else
    none

/-- The call of a function that may raise an exception. -/
def settle {α : Type} (n : Native) (o : Outcome α) (next : α → Native) : Option (Next Native) :=
  match o with
  | .next a => some (.running (next a))
  | .jump .exit => some .finished
  | .jump (.longjmp i m) => (n.land i m).map .running

/-- The bit that a conditional branch tests. -/
def test (n : Native) (cond : BranchCond) : Option Bool :=
  match cond, n.register with
  | .setJmpRes, .bit b => some b
  | .checkGrab, .bit b => some b
  | .handleReturn, .code c => some c.isSome
  | cond, _ => cond.test n.machine

/-- An LLVM instruction, in the state in which control is already behind it. A tail call gives its
frame to the function that it calls. -/
def execInst (S : GenState) (rt : Runtime) (n : Native) : LlvmInst → Option (Next Native)
  | .instCalls inst => do
      n.settle (← RuntimeCall.runAll rt (← inst.runtimeCalls) n.machine) fun m =>
        { n with machine := m }
  | .libCall .sigsetjmp => do
      match n.register with
      | .jmpBuf i =>
          return .running { n with
            register := .bit false
            jmpBufs := fun k =>
              if k = i then some ⟨n.frame, n.callers.map LlvmFrame.fn⟩ else n.jmpBufs k }
      | _ => none
  | .libCall c | .handlerCall c => do
      n.settle (← c.run rt n.machine) fun (m, r) => { n with machine := m, register := r }
  | .callPtr isTailCall => do
      match n.register with
      | .code (some c) =>
          return .running { n with
            machine := n.machine.scan
            register := .void
            frame := ← S.frameAt c
            callers := if isTailCall then n.callers else n.frame :: n.callers }
      | _ => none
  | .callFn fn => do
      return .running { n with
        machine := n.machine.scan, register := .void, frame := ← S.entryFrame fn }
  | .retVoid => some n.leave
  | .br target => n.goTo S target
  | .condBr cond ifTrue ifFalse => do n.goTo S (if ← n.test cond then ifTrue else ifFalse)
  | .switch default cases =>
      match n.register with
      | .offset v => n.goTo S (switchTarget default cases v)
      | _ => none

/-- The first of the instructions that are left. -/
def step (S : GenState) (rt : Runtime) (n : Native) : Option (Next Native) :=
  match n.frame.rest with
  | [] => none
  | inst :: rest => { n with frame := { n.frame with rest := rest } }.execInst S rt inst

end Native

end CamllVM
