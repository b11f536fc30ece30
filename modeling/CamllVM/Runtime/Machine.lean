import CamllVM.Runtime.Value

/-!
# The state of the runtime

The global variables of the standard library of the generated code and the part of the OCaml
runtime that it works on. A pointer into the stack is the list of the words from it up to the stack
base. A word that the stack pointer has moved over without writing it is `none`: the memory holds
some old word there, and reading it has no defined result.

The operations that C leaves undefined, and those that end the process, give `none`.
-/

namespace CamllVM

/-- The words from a stack pointer up to the stack base. -/
abbrev StackWords := List (Option Value)

/-- The words after a collection. -/
def StackWords.relocate (move : Nat → Nat) (stack : StackWords) : StackWords :=
  stack.map (Option.map (Value.relocate move))

/-- Where a sequence of collections, the latest first, has moved the blocks. -/
def moveAll : List (Nat → Nat) → Nat → Nat
  | [] => id
  | move :: moves => move ∘ moveAll moves

theorem moveAll_append (moves moves' : List (Nat → Nat)) :
    moveAll (moves ++ moves') = moveAll moves ∘ moveAll moves' := by
  induction moves with
  | nil => rfl
  | cons move moves ih =>
      rw [List.cons_append, moveAll, ih]
      rfl

theorem Value.relocate_relocate (v : Value) (move move' : Nat → Nat) :
    (v.relocate move).relocate move' = v.relocate (move' ∘ move) := by cases v <;> rfl

namespace StackWords

@[simp]
theorem relocate_id (stack : StackWords) : stack.relocate id = stack := by
  rw [relocate, show Value.relocate id = id from funext Value.relocate_id, Option.map_id, List.map_id]

theorem relocate_relocate (stack : StackWords) (move move' : Nat → Nat) :
    StackWords.relocate move' (stack.relocate move) = stack.relocate (move' ∘ move) := by
  simp only [relocate, List.map_map, Function.comp_def, Option.map_map, Value.relocate_relocate]

@[simp]
theorem length_relocate (move : Nat → Nat) (stack : StackWords) :
    (stack.relocate move).length = stack.length := List.length_map _

theorem relocate_append (move : Nat → Nat) (s t : StackWords) :
    StackWords.relocate move (s ++ t) = s.relocate move ++ t.relocate move := List.map_append

theorem relocate_drop (move : Nat → Nat) (n : Nat) (stack : StackWords) :
    StackWords.relocate move (stack.drop n) = (stack.relocate move).drop n := List.map_drop

end StackWords

/-- `caml_external_raise`: null, the `JmpBuf` of an element of `Buffers`, or the address of the
`JmpBuf` of the null context, which is not null. -/
inductive ExternalRaise where
  | null
  | jmpBuf (context : Nat)
  | jmpBufOfNull
  deriving DecidableEq, Repr

/-- The global variables. Two fields are no variables of the program: `scans` records the stack at
every point at which the collector may scan it, and `moves` says how the collections so far have
moved the blocks, the latest first. -/
structure Machine where
  accu : Value
  env : Value
  extraArgs : Int
  stack : StackWords
  camlExternSp : StackWords
  camlTrapsp : Nat
  camlStackThreshold : Nat
  heap : Heap
  camlGlobalData : Value
  camlExnBucket : Value
  nextExceptionContext : Option Nat
  buffers : Nat → Option Nat
  currentBufferIndex : Nat
  camlExternalRaise : ExternalRaise
  scans : List StackWords
  moves : List (Nat → Nat)

/-- What a minor collection does: block `b` is moved to `move b` in the new heap. -/
structure Collection where
  move : Nat → Nat
  heap : Heap

/-- The part of the state that a C primitive works on. -/
structure PrimState where
  heap : Heap
  camlExternSp : StackWords
  camlGlobalData : Value

/-- The arguments of a C primitive: words, or a pointer to words and a count. -/
inductive PrimArgs where
  | direct (args : List Value)
  | array (words : StackWords) (nargs : Int)

/-- How a C function of the runtime ends. -/
inductive Result (α : Type) where
  | ret (a : α)
  | raise (exn : Value)

/-- The end of a C primitive: the state it leaves, how the collections during its run have moved the
blocks, and its result. -/
structure PrimEnd where
  state : PrimState
  move : Nat → Nat
  result : Result Value

/-- The OCaml runtime: when a collection takes place, the table of the primitives, and what
`caml_realloc_stack` does with a stack of a given number of words: it gives the new threshold or
raises `Stack_overflow`. -/
structure Runtime where
  collect : Machine → Option Collection
  primitive : Int → PrimArgs → PrimState → Option PrimEnd
  camlReallocStack : Nat → Result Nat

/-- A runtime without primitives that never collects and whose stack can always grow. -/
def Runtime.idle : Runtime where
  collect _ := none
  primitive _ _ _ := none
  camlReallocStack := .ret

namespace Machine

/-- The variables at the start of the main function, behind its call of `init`. -/
def start (heap : Heap) (globalData : Value) (threshold : Nat) : Machine where
  accu := .raw 0
  env := .raw 0
  extraArgs := 0
  stack := []
  camlExternSp := []
  camlTrapsp := 0
  camlStackThreshold := threshold
  heap := heap
  camlGlobalData := globalData
  camlExnBucket := .unit
  nextExceptionContext := none
  buffers := fun _ => none
  currentBufferIndex := 0
  camlExternalRaise := .null
  scans := []
  moves := []

/-- `StackPointer[i]` -/
def slot (m : Machine) (i : Nat) : Option Value := (m.stack[i]?).join

/-- `StackPointer[i] = v` -/
def setSlot (m : Machine) (i : Nat) (v : Value) : Option Machine :=
  if i < m.stack.length then some { m with stack := m.stack.set i (some v) } else none

/-- `*--StackPointer = v` -/
def pushWord (m : Machine) (v : Value) : Machine := { m with stack := some v :: m.stack }

/-- `StackPointer -= n` -/
def lowerSp (m : Machine) (n : Nat) : Machine :=
  { m with stack := List.replicate n none ++ m.stack }

/-- `StackPointer += n` -/
def raiseSp (m : Machine) (n : Nat) : Option Machine :=
  if n ≤ m.stack.length then some { m with stack := m.stack.drop n } else none

/-- `StackPointer` set to the word at a distance of `depth` words from the stack base. -/
def setSp (m : Machine) (depth : Nat) : Machine :=
  { m with
    stack := List.replicate (depth - m.stack.length) none ++
      m.stack.drop (m.stack.length - depth) }

/-- The collector reads the stack here. -/
def scan (m : Machine) : Machine := { m with scans := m.stack :: m.scans }

def setupForGc (m : Machine) : Machine :=
  let stack := some m.accu :: some m.env :: m.stack
  { m with stack := stack, camlExternSp := stack }

def restoreAfterGc (m : Machine) : Option Machine := do
  let accu ← m.slot 0
  let env ← m.slot 1
  let m ← m.raiseSp 2
  return { m with accu := accu, env := env }

/-- `caml_minor_collection`: the roots on the stack and in the global data are moved. -/
def minorCollection (m : Machine) (c : Collection) : Machine :=
  { m with
    stack := m.stack.relocate c.move
    camlExternSp := m.camlExternSp.relocate c.move
    heap := c.heap
    camlGlobalData := m.camlGlobalData.relocate c.move
    moves := c.move :: m.moves }

/-- The collection that `Alloc_small` makes if the minor heap is full. -/
def reserve (rt : Runtime) (m : Machine) : Option Machine :=
  match rt.collect m.setupForGc with
  | none => some { m with scans := m.setupForGc.stack :: m.scans }
  | some c => (m.setupForGc.scan.minorCollection c).restoreAfterGc

/-- `Alloc_small` and `caml_alloc_shr` behind their calls of the collector. -/
def allocate (m : Machine) (wosize tag : Nat) : Value × Machine :=
  (.ptr m.heap.length 0,
    { m with heap := m.heap ++ [⟨tag, List.replicate wosize none⟩] })

def allocSmall (rt : Runtime) (m : Machine) (wosize tag : Nat) : Option (Value × Machine) := do
  let m ← m.reserve rt
  return m.allocate wosize tag

def setupForCCall (m : Machine) : Machine :=
  let stack := some m.env :: m.stack
  { m with stack := stack, camlExternSp := stack }

def restoreAfterCCall (m : Machine) : Option Machine := do
  let m := { m with stack := m.camlExternSp }
  let env ← m.slot 0
  let m ← m.raiseSp 1
  return { m with env := env }

/-- `Field(v, i) = w` -/
def setField (m : Machine) (v : Value) (i : Int) (w : Value) : Option Machine := do
  let heap ← m.heap.setField v i w
  return { m with heap := heap }

end Machine

end CamllVM
