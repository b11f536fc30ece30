import CamllVM.Instruction
import CamllVM.Runtime.Machine

/-!
# The standard library of the generated code

The functions that the generated code calls, under the names and in the order of the C source.
-/

namespace CamllVM

/-- A transfer of control by `siglongjmp`, or the end of the process for want of a handler. -/
inductive Jump where
  | exit
  | longjmp (context : Nat) (m : Machine)

/-- How a function ends that may raise an exception. -/
inductive Outcome (α : Type) where
  | next (a : α)
  | jump (j : Jump)

/-- Going on with the result of a function that has returned. -/
def Outcome.andThen {α β : Type} (x : Outcome α) (f : α → Option β) : Option (Outcome β) :=
  match x with
  | next a => (f a).map next
  | jump j => some (jump j)

namespace Machine

variable (rt : Runtime)

/-! ### Fields and blocks -/

def getField (m : Machine) (idx : Int) : Option Machine := do
  let accu ← m.heap.field m.accu idx
  return { m with accu := accu }

/-- `setField` of the library. `setField` of this file is the assignment to a field. -/
def storeField (m : Machine) (idx : Int) : Option Machine := do
  let newVal ← m.slot 0
  let m ← m.raiseSp 1
  let m ← m.setField m.accu idx newVal
  return { m with accu := .unit }

def getAtom (m : Machine) (idx : Nat) : Machine := { m with accu := .atom idx }

/-- The assignments `Field(block, i) = StackPointer[i - 1]` for the `n` fields from `i` on. -/
def fillFromStack (m : Machine) (block : Value) (i : Nat) : Nat → Option Machine
  | 0 => some m
  | n + 1 => do
      let v ← m.slot 0
      let m ← m.setField block i v
      let m ← m.raiseSp 1
      fillFromStack m block (i + 1) n

def makeBlock1 (m : Machine) (tag : Nat) : Option Machine := do
  let (block, m) ← m.allocSmall rt 1 tag
  let m ← m.setField block 0 m.accu
  return { m with accu := block }

def makeBlock2 (m : Machine) (tag : Nat) : Option Machine := do
  let (block, m) ← m.allocSmall rt 2 tag
  let m ← m.setField block 0 m.accu
  let m ← m.setField block 1 (← m.slot 0)
  let m ← m.raiseSp 1
  return { m with accu := block }

def makeBlock3 (m : Machine) (tag : Nat) : Option Machine := do
  let (block, m) ← m.allocSmall rt 3 tag
  let m ← m.setField block 0 m.accu
  let m ← m.setField block 1 (← m.slot 0)
  let m ← m.setField block 2 (← m.slot 1)
  let m ← m.raiseSp 2
  return { m with accu := block }

/-- A block in the minor heap if it is small enough, else in the major heap. -/
def allocBlock (m : Machine) (wosize tag : Nat) : Option (Value × Machine) :=
  if wosize ≤ maxYoungWosize then m.allocSmall rt wosize tag else some (m.allocate wosize tag)

def makeBlock (m : Machine) (tag wosize : Nat) : Option Machine := do
  let (block, m) ← m.allocBlock rt wosize tag
  let m ← m.setField block 0 m.accu
  let m ← m.fillFromStack block 1 (wosize - 1)
  return { m with accu := block }

/-- The loop of `makeFloatBlock`. -/
def fillDoubles (m : Machine) (block : Value) (i : Nat) : Nat → Option Machine
  | 0 => some m
  | n + 1 => do
      let d ← m.heap.doubleVal (← m.slot 0)
      let m ← m.setField block i (.raw d)
      let m ← m.raiseSp 1
      fillDoubles m block (i + 1) n

def makeFloatBlock (m : Machine) (size : Nat) : Option Machine := do
  let (block, m) ← m.allocBlock rt size doubleArrayTag
  let m ← m.setField block 0 (.raw (← m.heap.doubleVal m.accu))
  let m ← m.fillDoubles block 1 (size - 1)
  return { m with accu := block }

def storeDoubleField (m : Machine) (idx : Int) : Option Machine := do
  let d ← m.heap.doubleVal (← m.slot 0)
  let m ← m.setField m.accu idx (.raw d)
  { m with accu := .unit }.raiseSp 1

def getDoubleField (m : Machine) (idx : Int) : Option Machine := do
  match ← m.heap.field m.accu idx with
  | .raw d =>
      let (block, m) ← m.allocSmall rt 1 doubleTag
      let m ← m.setField block 0 (.raw d)
      return { m with accu := block }
  | _ => none

def getGlobal (m : Machine) (idx : Int) : Option Machine := do
  let accu ← m.heap.field m.camlGlobalData idx
  return { m with accu := accu }

def setGlobal (m : Machine) (idx : Int) : Option Machine := m.setField m.camlGlobalData idx m.accu

/-! ### Exception handling -/

/-- The size of `Buffers`. -/
def numBuffers : Nat := 2048

/-- `getNewBuffer`, with the index of the new context instead of the address of its buffer. -/
def getNewBuffer (m : Machine) : Option (Nat × Machine) :=
  let i := m.currentBufferIndex
  if i < numBuffers then
    some (i,
      { m with
        currentBufferIndex := i + 1
        buffers := fun k => if k = i then m.nextExceptionContext else m.buffers k
        nextExceptionContext := some i
        camlExternalRaise := .jmpBuf i })
  else
    none

def trapLink (m : Machine) : Option Nat := do
  match ← m.slot 1 with
  | .slot depth => some depth
  | _ => none

def getExceptionValue (m : Machine) : Option Machine := do
  let m := m.setSp m.camlTrapsp
  let env ← m.slot 2
  let link ← m.trapLink
  let extraArgs ← (← m.slot 3).longVal
  let m ← m.raiseSp 4
  return { m with env := env, camlTrapsp := link, extraArgs := extraArgs, accu := m.camlExnBucket }

/-- The index is a `size_t`: it wraps around below zero. -/
def removeExceptionContext (m : Machine) : Option Machine := do
  let context ← m.nextExceptionContext
  let next := m.buffers context
  return { m with
    nextExceptionContext := next
    currentBufferIndex := (m.currentBufferIndex + (2 ^ 64 - 1)) % 2 ^ 64
    camlExternalRaise := match next with
      | some i => .jmpBuf i
      | none => .jmpBufOfNull }

def throwException (m : Machine) (excVal : Value) : Jump :=
  match m.nextExceptionContext with
  | none => .exit
  | some i => .longjmp i { m with camlExnBucket := excVal }

/-- `caml_raise` of the OCaml runtime, which the primitives use. The stack memory is now the one
that `caml_extern_sp` points into. `StackPointer` is set anew at the place of the jump. -/
def camlRaise (m : Machine) (excVal : Value) : Option Jump :=
  let m := { m with camlExnBucket := excVal, stack := m.camlExternSp }
  match m.camlExternalRaise with
  | .null => some .exit
  | .jmpBuf i => some (.longjmp i m)
  | .jmpBufOfNull => none

/-! ### Vectors, strings and objects -/

def vectLength (m : Machine) : Option Machine := do
  let size ← m.heap.wosizeVal m.accu
  return { m with accu := .int size }

def getVectItem (m : Machine) : Option Machine := do
  let accu ← m.heap.field m.accu (← (← m.slot 0).longVal)
  let m ← m.raiseSp 1
  return { m with accu := accu }

def setVectItem (m : Machine) : Option Machine := do
  let idx ← (← m.slot 0).longVal
  let newVal ← m.slot 1
  let m ← m.raiseSp 2
  let m ← m.setField m.accu idx newVal
  return { m with accu := .unit }

def getStringChar (m : Machine) : Option Machine := do
  let c ← m.heap.byteU m.accu (← (← m.slot 0).longVal)
  let m ← m.raiseSp 1
  return { m with accu := .int c }

def setStringChar (m : Machine) : Option Machine := do
  let heap ← m.heap.setByteU m.accu (← (← m.slot 0).longVal) (← (← m.slot 1).longVal)
  let m ← { m with heap := heap }.raiseSp 2
  return { m with accu := .unit }

def getMethod (m : Machine) : Option Machine := do
  let meths ← m.heap.field (← m.slot 0) 0
  let accu ← m.heap.field meths (toInt32 (← m.accu.longVal))
  return { m with accu := accu }

/-- `((li + hi) >> 1) | 1` -/
def middle (li hi : Int) : Int :=
  if (li + hi) / 2 % 2 = 0 then (li + hi) / 2 + 1 else (li + hi) / 2

/-- The search of `getDynMet`: the final `li`. A round that does not narrow the interval is
repeated for ever. -/
def searchMethod (heap : Heap) (meths : Value) (tag : BitVec 64) (li hi : Int) : Option Int :=
  if li < hi then
    match (heap.field meths (middle li hi)).bind Value.toWord with
    | none => none
    | some word =>
        if tag.slt word then
          if _h : middle li hi - 2 < hi then searchMethod heap meths tag li (middle li hi - 2)
          else none
        else
          if _h : li < middle li hi then searchMethod heap meths tag (middle li hi) hi
          else none
  else
    some li
termination_by (hi - li).toNat

def getDynMet (m : Machine) : Option Machine := do
  let meths ← m.heap.field (← m.slot 0) 0
  let hi ← (← m.heap.field meths 0).toWord
  let li ← searchMethod m.heap meths (← m.accu.toWord) 3 (toInt32 hi.toInt)
  let accu ← m.heap.field meths (li - 1)
  return { m with accu := accu }

def getPubMet (m : Machine) (met : Int) : Option Machine :=
  { m.pushWord m.accu with accu := .int met }.getDynMet

/-- The number of the case of a `SWITCH`. It is kept in an `int`. -/
def getSwitchOffset (m : Machine) (switchArg : Int) : Option Int :=
  if m.accu.lowBit then do
    return toInt32 (← m.accu.longVal)
  else do
    return switchArg % 2 ^ 16 + toInt32 (← m.heap.tagVal m.accu)

def offsetRef (m : Machine) (offset : Int) : Option Machine := do
  let w ← (← m.heap.field m.accu 0).toWord
  let m ← m.setField m.accu 0 (.ofWord (w + BitVec.ofInt 64 (2 * offset)))
  return { m with accu := .unit }

/-! ### The stack -/

def init (m : Machine) : Machine := { m with stack := m.camlExternSp }

def constInt (m : Machine) (ci : Value) : Machine := { m with accu := ci }

def push (m : Machine) : Machine := m.pushWord m.accu

def pop (m : Machine) (n : Nat) : Option Machine := m.raiseSp n

def acc (m : Machine) (n : Nat) : Option Machine := do
  let accu ← m.slot n
  return { m with accu := accu }

def envAcc (m : Machine) (n : Int) : Option Machine := do
  let accu ← m.heap.field m.env n
  return { m with accu := accu }

def assign (m : Machine) (n : Nat) : Option Machine := do
  let m ← m.setSlot n m.accu
  return { m with accu := .unit }

/-! ### Arithmetic -/

/-- An operation on the bits of the accumulator and of `*StackPointer++`. -/
def wordOp (f : BitVec 64 → BitVec 64 → Option Value) (m : Machine) : Option Machine := do
  let a ← m.accu.toWord
  let b ← (← m.slot 0).toWord
  let accu ← f a b
  let m ← m.raiseSp 1
  return { m with accu := accu }

/-- `Long_val` and `Val_long` on bits. -/
def longOfWord (w : BitVec 64) : BitVec 64 := w.sshiftRight 1

def wordOfLong (x : BitVec 64) : BitVec 64 := x <<< 1 + 1

def addInt : Machine → Option Machine := wordOp fun a b => some (.ofWord (a + b - 1))

def negInt (m : Machine) : Option Machine := do
  return { m with accu := .ofWord (2 - (← m.accu.toWord)) }

def subInt : Machine → Option Machine := wordOp fun a b => some (.ofWord (a - b + 1))

def mulInt : Machine → Option Machine :=
  wordOp fun a b => some (.ofWord (wordOfLong (longOfWord a * longOfWord b)))

/-- A division by zero is undefined. -/
def divInt : Machine → Option Machine := wordOp fun a b =>
  if longOfWord b = 0 then none
  else some (.ofWord (wordOfLong ((longOfWord a).sdiv (longOfWord b))))

def modInt : Machine → Option Machine := wordOp fun a b =>
  if longOfWord b = 0 then none
  else some (.ofWord (wordOfLong ((longOfWord a).srem (longOfWord b))))

def offsetInt (m : Machine) (n : Int) : Option Machine := do
  return { m with accu := .ofWord ((← m.accu.toWord) + BitVec.ofInt 64 n) }

def andInt : Machine → Option Machine := wordOp fun a b => some (.ofWord (a &&& b))

def orInt : Machine → Option Machine := wordOp fun a b => some (.ofWord (a ||| b))

def xorInt : Machine → Option Machine := wordOp fun a b => some (.ofWord ((a ^^^ b) ||| 1))

/-- A shift by a negative number or by 64 and more is undefined. -/
def shiftOp (f : BitVec 64 → Nat → BitVec 64) : Machine → Option Machine := wordOp fun a b =>
  if 0 ≤ (longOfWord b).toInt ∧ (longOfWord b).toInt < 64 then
    some (.ofWord (f (a - 1) (longOfWord b).toNat))
  else
    none

def lslInt : Machine → Option Machine := shiftOp fun a n => a <<< n + 1

def lsrInt : Machine → Option Machine := shiftOp fun a n => (a >>> n) ||| 1

def asrInt : Machine → Option Machine := shiftOp fun a n => a.sshiftRight n ||| 1

def isInt (m : Machine) : Machine := { m with accu := .bool m.accu.lowBit }

def boolNot (m : Machine) : Option Machine := do
  return { m with accu := .ofWord (4 - (← m.accu.toWord)) }

/-- Words of every kind can be compared for equality. -/
def cmpEq (m : Machine) : Option Machine := do
  let b ← m.slot 0
  let m ← m.raiseSp 1
  return { m with accu := .bool (m.accu.sameWord b) }

def cmpNeq (m : Machine) : Option Machine := do
  let b ← m.slot 0
  let m ← m.raiseSp 1
  return { m with accu := .bool (!m.accu.sameWord b) }

def ltInt : Machine → Option Machine := wordOp fun a b => some (.bool (a.slt b))

def leInt : Machine → Option Machine := wordOp fun a b => some (.bool (a.sle b))

def gtInt : Machine → Option Machine := wordOp fun a b => some (.bool (b.slt a))

def geInt : Machine → Option Machine := wordOp fun a b => some (.bool (b.sle a))

def ultInt : Machine → Option Machine := wordOp fun a b => some (.bool (a.ult b))

def ugeInt : Machine → Option Machine := wordOp fun a b => some (.bool (b.ule a))

/-! ### Closures -/

/-- The assignments `Field(block, i + j) = StackPointer[j]` for `j` from `j` on. -/
def copySlots (m : Machine) (block : Value) (i j : Nat) : Nat → Option Machine
  | 0 => some m
  | n + 1 => do
      let m ← m.setField block (i + j) (← m.slot j)
      copySlots m block i (j + 1) n

def closureRec (m : Machine) (nfuncs nvars : Nat) (mainCodePtr : CodePtr) : Option Machine := do
  let m := if 0 < nvars then m.pushWord m.accu else m
  let (block, m) ← m.allocSmall rt (nfuncs * 2 - 1 + nvars) closureTag
  let m ← { m with accu := block }.copySlots block (nfuncs * 2 - 1) 0 nvars
  let m ← m.raiseSp nvars
  let m ← m.setField block 0 (.code mainCodePtr)
  return m.pushWord block

/-- `v + offset * sizeof(value)` -/
def shiftPtr : Value → Int → Option Value
  | .ptr b o, offset => some (.ptr b (o + offset))
  | _, _ => none

def setClosureRecNestedClos (m : Machine) (idx : Nat) (codePtr : CodePtr) : Option Machine := do
  let m ← m.setField m.accu (2 * idx - 1) (.header (idx * 2) infixTag)
  let m ← m.setField m.accu (2 * idx) (.code codePtr)
  return m.pushWord (← shiftPtr m.accu (2 * idx))

def closure (m : Machine) (nvars : Nat) (codePtr : CodePtr) : Option Machine := do
  let m := if 0 < nvars then m.pushWord m.accu else m
  let (block, m) ← m.allocSmall rt (1 + nvars) closureTag
  let m ← { m with accu := block }.setField block 0 (.code codePtr)
  let m ← m.copySlots block 1 0 nvars
  m.raiseSp nvars

def offsetClosure (m : Machine) (offset : Int) : Option Machine := do
  return { m with accu := ← shiftPtr m.env offset }

/-! ### Function calls -/

def checkGrab (m : Machine) (required : Int) : Bool := required ≤ m.extraArgs

def createRestartClosure (m : Machine) (codePtr : CodePtr) : Option Machine := do
  let numArgs := (1 + m.extraArgs).toNat
  let (block, m) ← m.allocSmall rt (numArgs + 2) closureTag
  let m ← { m with accu := block }.setField block 1 m.env
  let m ← m.copySlots block 2 0 numArgs
  let m ← m.setField block 0 (.code codePtr)
  let m ← m.raiseSp numArgs
  let env ← m.slot 1
  let extraArgs ← (← m.slot 2).longVal
  let m ← m.raiseSp 3
  return { m with env := env, extraArgs := extraArgs }

def substractExtraArgs (m : Machine) (required : Int) : Machine :=
  { m with extraArgs := m.extraArgs - required }

/-- The assignments `StackPointer[i] = Field(Env, i + 2)` for `i` from `i` on. -/
def copyArgs (m : Machine) (i : Nat) : Nat → Option Machine
  | 0 => some m
  | n + 1 => do
      let m ← m.setSlot i (← m.heap.field m.env (i + 2))
      copyArgs m (i + 1) n

def restart (m : Machine) : Option Machine := do
  let numArgs := (← m.heap.wosizeVal m.env) - 2
  let m ← (m.lowerSp numArgs).copyArgs 0 numArgs
  let env ← m.heap.field m.env 1
  return { m with env := env, extraArgs := m.extraArgs + numArgs }

def checkStacks (m : Machine) : Option (Outcome Machine) :=
  if m.camlStackThreshold < m.stack.length then
    let m := { m with camlExternSp := m.stack }
    match rt.camlReallocStack m.stack.length with
    | .ret threshold =>
        some (.next { m with stack := m.camlExternSp, camlStackThreshold := threshold })
    | .raise exn => (m.camlRaise exn).map .jump
  else
    some (.next m)

def codeVal (m : Machine) (v : Value) : Option CodePtr := do
  match ← m.heap.field v 0 with
  | .code c => some c
  | _ => none

/-- The code of the closure in the accumulator, which is called next. -/
def calling (m : Machine) : Option (Machine × CodePtr) := do
  return (m, ← m.codeVal m.accu)

def apply (m : Machine) (n : Int) : Option (Machine × CodePtr) :=
  { m with extraArgs := n - 1, env := m.accu }.calling

/-- `CHECK_STACKS` and the end of the functions that contain it. -/
def checkedCall (m : Machine) : Option (Outcome (Machine × CodePtr)) := do
  (← m.checkStacks rt).andThen calling

/-- The words `StackPointer[i]` for `n` indices from `i` on. -/
def slots (m : Machine) (i : Nat) : Nat → Option (List Value)
  | 0 => some []
  | n + 1 => do
      let v ← m.slot i
      return v :: (← m.slots (i + 1) n)

/-- The assignments of the words `vs` to `StackPointer[i]` and the words above it. -/
def setSlots (m : Machine) (i : Nat) : List Value → Option Machine
  | [] => some m
  | v :: vs => do
      let m ← m.setSlot i v
      setSlots m (i + 1) vs

/-- `apply1` to `apply3`: the `n` arguments are moved down and a frame is put between them and the
words above them. -/
def applyArgs (m : Machine) (n : Nat) : Option (Outcome (Machine × CodePtr)) := do
  let args ← m.slots 0 n
  let env := m.env
  let extraArgs := m.extraArgs
  let m := m.lowerSp 3
  let m ← m.setSlots 0 args
  let m ← m.setSlot (n + 1) env
  let m ← m.setSlot (n + 2) (.int extraArgs)
  { m with env := m.accu, extraArgs := n - 1 }.checkedCall rt

def apply1 (m : Machine) : Option (Outcome (Machine × CodePtr)) := m.applyArgs rt 1
def apply2 (m : Machine) : Option (Outcome (Machine × CodePtr)) := m.applyArgs rt 2
def apply3 (m : Machine) : Option (Outcome (Machine × CodePtr)) := m.applyArgs rt 3

/-- The assignments `newsp[i] = StackPointer[i]` from `i = n - 1` down, where `newsp` is `distance`
words above `StackPointer`. -/
def slideArgs (m : Machine) (distance : Nat) : Nat → Option Machine
  | 0 => some m
  | i + 1 => do
      let m ← m.setSlot (distance + i) (← m.slot i)
      slideArgs m distance i

/-- `StackPointer += slotsize - nargs` -/
def dropFrame (m : Machine) (slotsize nargs : Nat) : Option Machine :=
  if nargs ≤ slotsize then m.raiseSp (slotsize - nargs) else none

def appterm (m : Machine) (nargs slotsize : Nat) : Option (Outcome (Machine × CodePtr)) := do
  let m ← m.slideArgs (slotsize - nargs) nargs
  let m ← m.dropFrame slotsize nargs
  { m with env := m.accu, extraArgs := m.extraArgs + (nargs - 1) }.checkedCall rt

/-- `appterm1` to `appterm3`. -/
def apptermArgs (m : Machine) (n slotsize : Nat) : Option (Outcome (Machine × CodePtr)) := do
  let args ← m.slots 0 n
  let m ← m.dropFrame slotsize n
  let m ← m.setSlots 0 args
  { m with env := m.accu, extraArgs := m.extraArgs + (n - 1) }.checkedCall rt

def appterm1 (m : Machine) (slotsize : Nat) : Option (Outcome (Machine × CodePtr)) :=
  m.apptermArgs rt 1 slotsize

def appterm2 (m : Machine) (slotsize : Nat) : Option (Outcome (Machine × CodePtr)) :=
  m.apptermArgs rt 2 slotsize

def appterm3 (m : Machine) (slotsize : Nat) : Option (Outcome (Machine × CodePtr)) :=
  m.apptermArgs rt 3 slotsize

/-- The code to call next, or `none` for the null pointer. -/
def handleReturn (m : Machine) (stsz : Nat) : Option (Machine × Option CodePtr) := do
  let m ← m.raiseSp stsz
  if 0 < m.extraArgs then
    let m := { m with extraArgs := m.extraArgs - 1, env := m.accu }
    return (m, some (← m.codeVal m.accu))
  else
    let env ← m.slot 1
    let extraArgs ← (← m.slot 2).longVal
    let m ← m.raiseSp 3
    return ({ m with env := env, extraArgs := extraArgs }, none)

def pushTrap (m : Machine) : Option Machine := do
  let m := m.lowerSp 4
  let m ← m.setSlot 1 (.slot m.camlTrapsp)
  let m ← m.setSlot 2 m.env
  let m ← m.setSlot 3 (.int m.extraArgs)
  return { m with camlTrapsp := m.stack.length }

def popTrap (m : Machine) : Option Machine := do
  let link ← m.trapLink
  let m := { m with camlTrapsp := link }
  m.raiseSp 4

/-! ### Calls of C primitives -/

/-- The state at the end of a primitive. What `StackPointer` points at may have been moved away. -/
def afterPrimitive (m : Machine) (done : PrimEnd) : Machine :=
  { m with
    stack := []
    heap := done.state.heap
    camlExternSp := done.state.camlExternSp
    camlGlobalData := done.state.camlGlobalData
    moves := done.move :: m.moves }

/-- The call of a primitive between `Setup_for_c_call` and `Restore_after_c_call`. -/
def primitive (m : Machine) (prim : Int) (args : PrimArgs) : Option (Outcome Machine) := do
  let m := m.scan
  let done ← rt.primitive prim args ⟨m.heap, m.camlExternSp, m.camlGlobalData⟩
  match done.result with
  | .ret v => return .next { m.afterPrimitive done with accu := v }
  | .raise exn => ((m.afterPrimitive done).camlRaise exn).map .jump

/-- `c_call1` to `c_call5`, with `extra` arguments on the stack. -/
def cCall (m : Machine) (extra : Nat) (prim : Int) : Option (Outcome Machine) := do
  let m := m.setupForCCall
  let args ← m.slots 1 extra
  (← m.primitive rt prim (.direct (m.accu :: args))).andThen fun m => do
    let m ← m.restoreAfterCCall
    m.raiseSp extra

def cCall1 (m : Machine) (prim : Int) : Option (Outcome Machine) := m.cCall rt 0 prim
def cCall2 (m : Machine) (prim : Int) : Option (Outcome Machine) := m.cCall rt 1 prim
def cCall3 (m : Machine) (prim : Int) : Option (Outcome Machine) := m.cCall rt 2 prim
def cCall4 (m : Machine) (prim : Int) : Option (Outcome Machine) := m.cCall rt 3 prim
def cCall5 (m : Machine) (prim : Int) : Option (Outcome Machine) := m.cCall rt 4 prim

def cCallN (m : Machine) (prim nargs : Int) : Option (Outcome Machine) := do
  let m := (m.pushWord m.accu).setupForCCall
  (← m.primitive rt prim (.array (m.stack.drop 1) nargs)).andThen fun m => do
    let m ← m.restoreAfterCCall
    if 0 ≤ nargs then m.raiseSp nargs.toNat else none

def pushRetAddr (m : Machine) : Option Machine := do
  let m := m.lowerSp 3
  let m ← m.setSlot 0 .unit
  let m ← m.setSlot 1 m.env
  m.setSlot 2 (.int m.extraArgs)

end Machine

end CamllVM
