import CamllVM.ModuleCreator

/-!
# The control-flow graph of a function

`generateFunction` cuts the instructions of a function into blocks and connects them, and
`removeUnusedBlocks` takes out the blocks that no other block leads to. A block is named by its
`Id`, which is its key in `Blocks`: the objects are never freed, so that a pointer to a block stays
valid when the block is erased from the map.
-/

namespace CamllVM

/-- The part of a `GenBlock` that is there before code is generated. `BrBlock` and `NoBrBlock` are
not initialised. -/
structure GenBlock where
  previousBlocks : List Int
  nextBlocks : List Int
  brBlock : Option Int
  noBrBlock : Option Int
  instructions : List ZInstruction
  deriving DecidableEq, Repr

def GenBlock.empty : GenBlock := ⟨[], [], none, none, []⟩

/-- A function: the keys of `Blocks` in ascending order, and the objects. -/
structure GenFunction where
  id : Int
  arity : Int
  blocks : List Int
  block : Int → GenBlock
  firstBlock : Option Int

namespace GenFunction

def new (id arity : Int) : GenFunction := ⟨id, arity, [], fun _ => .empty, none⟩

def modify (f : GenFunction) (k : Int) (g : GenBlock → GenBlock) : GenFunction :=
  { f with block := Function.update f.block k (g (f.block k)) }

/-- `Blocks[k]`, which is null if there is no such block. -/
def find (f : GenFunction) (k : Int) : Option Int := if k ∈ f.blocks then some k else none

/-- `Blocks[k] = new GenBlock(k, Function)` -/
def addBlock (f : GenFunction) (k : Int) : GenFunction :=
  { f with
    blocks := if k ∈ f.blocks then f.blocks else f.blocks.orderedInsert (· ≤ ·) k
    block := Function.update f.block k .empty }

def setNext (f : GenFunction) (k next : Int) (isBrBlock : Bool) : GenFunction :=
  let f := f.modify k fun b => { b with nextBlocks := b.nextBlocks ++ [next] }
  let f := f.modify next fun b => { b with previousBlocks := k :: b.previousBlocks }
  f.modify k fun b =>
    if isBrBlock then { b with brBlock := some next } else { b with noBrBlock := some next }

/-- The calls of `setNext` for a list of destinations, which have to exist. -/
def setNexts (f : GenFunction) (k : Int) (isBrBlock : Bool) : List Int → Option GenFunction
  | [] => some f
  | dest :: dests => do
      let next ← f.find dest
      setNexts (f.setNext k next isBrBlock) k isBrBlock dests

def makeBlocks (f : GenFunction) : List ZInstruction → GenFunction
  | [] => f
  | inst :: insts =>
      (if inst.annotation = .blockStart then f.addBlock inst.idx else f).makeBlocks insts

/-- The connection from the block before that of `inst`, if control can go on from its end. -/
def fallInto (f : GenFunction) (cBlock : Option Int) (inst : ZInstruction) : Option GenFunction :=
  match cBlock with
  | none => some f
  | some k => do
      let lastInst ← (f.block k).instructions.getLast?
      if lastInst.fallsThrough then
        return f.setNext k (← f.find inst.idx) false
      else
        return f

/-- What the loop of `generateFunction` does behind the switch to another block. -/
def appendInst (f : GenFunction) (k : Int) (inst : ZInstruction) : Option GenFunction := do
  let f := f.modify k fun b => { b with instructions := b.instructions ++ [inst] }
  let f ← if inst.isJumpInst || inst.isPushTrap then f.setNexts k true [inst.getDestIdx] else some f
  if inst.isSwitch then f.setNexts k false inst.switchEntries else some f

/-- The loop of `generateFunction`, with `CBlock`. -/
def connectBlocks (f : GenFunction) (cBlock : Option Int) : List ZInstruction → Option GenFunction
  | [] => some f
  | inst :: insts =>
      if inst.annotation = .blockStart then do
        let f ← f.fallInto cBlock inst
        let k ← f.find inst.idx
        connectBlocks (← f.appendInst k inst) (some k) insts
      else do
        let k ← cBlock
        connectBlocks (← f.appendInst k inst) (some k) insts

/-- `generateFunction` before it calls `removeUnusedBlocks`. -/
def buildBlocks (f : GenFunction) (insts : List ZInstruction) : Option GenFunction :=
  match insts with
  | [] => none
  | inst :: rest =>
      let insts := { inst with annotation := .blockStart } :: rest
      let f := f.makeBlocks insts
      { f with firstBlock := f.find inst.idx }.connectBlocks none insts

/-! ### Blocks without predecessors -/

def toRemoveBlocks (f : GenFunction) : List Int :=
  ((f.blocks.drop 1).filter fun k => (f.block k).previousBlocks.isEmpty).reverse

/-- The edges of block `k` to the blocks of a list are taken back. The flag is `restart`. -/
def removeEdges (k : Int) : List Int → GenFunction × Bool → GenFunction × Bool
  | [], s => s
  | next :: nexts, (f, restart) =>
      let f := f.modify next fun b => { b with previousBlocks := b.previousBlocks.filter (· != k) }
      removeEdges k nexts (f, restart || (f.block next).previousBlocks.isEmpty)

/-- The loop of `removeUnusedBlocks` over the blocks to be removed. -/
def eraseBlocks : List Int → GenFunction × Bool → GenFunction × Bool
  | [], s => s
  | k :: ks, s =>
      let (f, restart) := removeEdges k (s.1.block k).nextBlocks s
      eraseBlocks ks ({ f with blocks := f.blocks.filter (· != k) }, restart)

theorem removeEdges_blocks (k : Int) (nexts : List Int) (s : GenFunction × Bool) :
    (removeEdges k nexts s).1.blocks = s.1.blocks := by
  induction nexts generalizing s with
  | nil => rfl
  | cons next nexts ih => exact ih _

theorem eraseBlocks_blocks (ks : List Int) (s : GenFunction × Bool) :
    (eraseBlocks ks s).1.blocks = s.1.blocks.filter (· ∉ ks) := by
  induction ks generalizing s with
  | nil => simp [eraseBlocks]
  | cons k ks ih =>
      rw [eraseBlocks, ih]
      dsimp only
      rw [removeEdges_blocks, List.filter_filter]
      congr 1
      funext j
      by_cases hj : j = k <;> simp [hj]

theorem eraseBlocks_length {f f' : GenFunction}
    (h : eraseBlocks f.toRemoveBlocks (f, false) = (f', true)) :
    f'.blocks.length < f.blocks.length := by
  have hblocks := eraseBlocks_blocks f.toRemoveBlocks (f, false)
  rw [h] at hblocks
  rw [hblocks]
  cases hks : f.toRemoveBlocks with
  | nil =>
      rw [hks] at h
      cases h
  | cons k ks =>
      have hmem : k ∈ f.blocks := by
        have hk : k ∈ f.toRemoveBlocks := by rw [hks]; exact List.mem_cons_self
        exact List.mem_of_mem_drop (List.mem_of_mem_filter (List.mem_reverse.mp hk))
      exact List.length_filter_lt_length_iff_exists.mpr ⟨k, hmem, by simp⟩

def removeUnusedBlocks (f : GenFunction) : GenFunction :=
  match _h : eraseBlocks f.toRemoveBlocks (f, false) with
  | (f', true) => removeUnusedBlocks f'
  | (f', false) => f'
termination_by f.blocks.length
decreasing_by exact eraseBlocks_length _h

end GenFunction

def generateFunction (f : GenFunction) (insts : List ZInstruction) : Option GenFunction :=
  (f.buildBlocks insts).map .removeUnusedBlocks

end CamllVM
