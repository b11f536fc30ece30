import Mathlib

/-!
# Values and blocks

A word of the heap or of the stack. Addresses are symbolic: a block and a number of words from its
first field, a static atom, the code of a function, or a word of the stack, which is named by its
distance from the stack base so that it keeps its name when the stack is moved.
-/

namespace CamllVM

/-- The address of generated code: the function of a `GenFunction`, or its restart function. -/
inductive CodePtr where
  | fn (id : Int)
  | restart (id : Int)
  deriving DecidableEq, Repr

/-- A word. `int n` is the immediate `Val_long(n)`; `raw` is a word of a string or of a double. -/
inductive Value where
  | int (n : Int)
  | raw (w : BitVec 64)
  | header (wosize tag : Nat)
  | ptr (block : Nat) (offset : Int)
  | atom (tag : Nat)
  | code (c : CodePtr)
  | slot (depth : Nat)
  deriving DecidableEq, Repr

namespace Value

def unit : Value := int 0

/-- `Val_bool`, and `Val_int` of a C comparison. -/
def bool (b : Bool) : Value := int b.toInt

/-- The bits of a word that is not an address. -/
def toWord : Value → Option (BitVec 64)
  | int n => some (BitVec.ofInt 64 (2 * n + 1))
  | raw w => some w
  | _ => none

def ofWord (w : BitVec 64) : Value :=
  if w.getLsbD 0 then int (w.sshiftRight 1).toInt else raw w

def longVal : Value → Option Int
  | int n => some n
  | raw w => some (w.sshiftRight 1).toInt
  | _ => none

def sameWord (a b : Value) : Bool :=
  match a.toWord, b.toWord with
  | some x, some y => x == y
  | _, _ => a == b

/-- The lowest bit. Addresses are even. -/
def lowBit : Value → Bool
  | int _ => true
  | raw w => w.getLsbD 0
  | _ => false

/-- A pointer after a collection that has moved block `b` to block `move b`. -/
def relocate (move : Nat → Nat) : Value → Value
  | ptr b offset => ptr (move b) offset
  | v => v

@[simp]
theorem relocate_int (move : Nat → Nat) (n : Int) : (int n).relocate move = int n := rfl

@[simp]
theorem relocate_code (move : Nat → Nat) (c : CodePtr) : (code c).relocate move = code c := rfl

@[simp]
theorem relocate_slot (move : Nat → Nat) (d : Nat) : (slot d).relocate move = slot d := rfl

@[simp]
theorem relocate_id (v : Value) : v.relocate id = v := by cases v <;> rfl

end Value

def closureTag : Nat := 247
def infixTag : Nat := 249
def doubleTag : Nat := 253
def doubleArrayTag : Nat := 254
def maxYoungWosize : Nat := 256

/-- A heap block. A field that has not been written since the allocation is `none`. -/
structure Block where
  tag : Nat
  fields : List (Option Value)
  deriving DecidableEq, Repr

abbrev Heap := List Block

namespace Heap

/-- `Field(v, i)` -/
def field (heap : Heap) (v : Value) (i : Int) : Option Value :=
  match v with
  | .ptr b offset =>
      if 0 ≤ offset + i then do
        let block ← heap[b]?
        (block.fields[(offset + i).toNat]?).join
      else
        none
  | _ => none

/-- `Field(v, i) = w` -/
def setField (heap : Heap) (v : Value) (i : Int) (w : Value) : Option Heap :=
  match v with
  | .ptr b offset => do
      let block ← heap[b]?
      if 0 ≤ offset + i ∧ (offset + i).toNat < block.fields.length then
        return heap.set b { block with fields := block.fields.set (offset + i).toNat (some w) }
      else
        none
  | _ => none

/-- The size and the tag in the header of a block. A closure inside a block has a header of its
own in the field before it. -/
def headerVal (heap : Heap) (v : Value) : Option (Nat × Nat) :=
  match v with
  | .atom tag => some (0, tag)
  | .ptr b 0 => do
      let block ← heap[b]?
      return (block.fields.length, block.tag)
  | .ptr _ _ => do
      match ← heap.field v (-1) with
      | .header wosize tag => some (wosize, tag)
      | _ => none
  | _ => none

def wosizeVal (heap : Heap) (v : Value) : Option Nat := (heap.headerVal v).map Prod.fst

def tagVal (heap : Heap) (v : Value) : Option Nat := (heap.headerVal v).map Prod.snd

/-- The word of byte `i` and the position of the byte's lowest bit in it. -/
def byteWord (heap : Heap) (v : Value) (i : Int) : Option (BitVec 64 × Nat) := do
  let word ← heap.field v (i / 8)
  let bits ← word.toWord
  return (bits, 8 * (i % 8).toNat)

def byteU (heap : Heap) (v : Value) (i : Int) : Option Int := do
  let (bits, shift) ← heap.byteWord v i
  return ((bits >>> shift) &&& 255).toNat

/-- `Byte_u(v, i) = c` -/
def setByteU (heap : Heap) (v : Value) (i c : Int) : Option Heap := do
  let (bits, shift) ← heap.byteWord v i
  let cleared := bits &&& ~~~((255 : BitVec 64) <<< shift)
  heap.setField v (i / 8) (.raw (cleared ||| ((BitVec.ofInt 64 c &&& 255) <<< shift)))

def doubleVal (heap : Heap) (v : Value) : Option (BitVec 64) := do
  match ← heap.field v 0 with
  | .raw w => some w
  | _ => none

end Heap

end CamllVM
