import CamllVM.CodeGen
import CamllVM.Proof.Graph

/-!
# The code of one function

The code that a function gets is read off its own graph: `functionCode` lists the instructions in
the order in which they are created, each with its block. Between two of them the code of other
functions may be generated, which changes nothing that belongs to this one.
-/

namespace CamllVM

/-- The function whose code a block belongs to. -/
def BasicBlock.owner : BasicBlock → FnRef
  | .ofBlock fn _ _ => fn
  | .ofRestart fn => fn

/-- Instructions at the end of one block. -/
def placed (b : BasicBlock) (insts : List LlvmInst) : List (BasicBlock × LlvmInst) :=
  insts.map fun inst => (b, inst)

@[simp]
theorem placed_nil (b : BasicBlock) : placed b [] = [] := rfl

@[simp]
theorem placed_cons (b : BasicBlock) (inst : LlvmInst) (insts : List LlvmInst) :
    placed b (inst :: insts) = (b, inst) :: placed b insts := rfl

theorem mem_placed {b : BasicBlock} {insts : List LlvmInst} {e : BasicBlock × LlvmInst} :
    e ∈ placed b insts ↔ e.1 = b ∧ e.2 ∈ insts := by
  rw [placed, List.mem_map]
  constructor
  · rintro ⟨inst, hinst, rfl⟩
    exact ⟨rfl, hinst⟩
  · rintro ⟨rfl, hinst⟩
    exact ⟨e.2, hinst, rfl⟩

/-- What code generation of a function changes besides the code. -/
structure OwnState where
  graph : GenFunction
  llvmBlocks : Int → Nat

namespace OwnState

variable (L : OwnState) (fn : FnRef) (k : Int)

def start (F : GenFunction) : OwnState := ⟨F, fun _ => 1⟩

def last : BasicBlock := .ofBlock fn k (L.llvmBlocks k - 1)

def addBlock : OwnState := { L with llvmBlocks := Function.update L.llvmBlocks k (L.llvmBlocks k + 1) }

def setNext (next : Int) (isBrBlock : Bool) : OwnState :=
  { L with graph := L.graph.setNext k next isBrBlock }

@[simp]
theorem addBlock_graph : (L.addBlock k).graph = L.graph := rfl

@[simp]
theorem setNext_last (next : Int) (isBrBlock : Bool) :
    (L.setNext k next isBrBlock).last fn = L.last fn := rfl

def after (inst : ZInstruction) : OwnState :=
  match inst.opNum with
  | .pushTrap => L.addBlock k
  | .grab | .return_ => (L.addBlock k).addBlock k
  | .switch =>
      match inst.switchEntries.head? with
      | some next => L.setNext k next false
      | none => L
  | _ => L

def afterInsts (L : OwnState) (k : Int) : List ZInstruction → OwnState
  | [] => L
  | inst :: insts => (L.after k inst).afterInsts k insts

def afterBlock : OwnState := L.afterInsts k (L.graph.block k).instructions

end OwnState

/-- The calls for the functions of `CLOSUREREC` but the first. -/
def nestedClosures (inst : ZInstruction) (i : Nat) : Nat → List LlvmInst
  | 0 => []
  | n + 1 =>
      if h : i < 32 then
        .libCall (.setClosureRecNestedClos i (.closure inst.closureRecFns[i])) ::
          nestedClosures inst (i + 1) n
      else
        []

section

variable (L : OwnState) (fn : FnRef) (k : Int)

/-- What `PUSHTRAP` puts into the block of its handler. -/
def prologue : List LlvmInst :=
  [.handlerCall .getExceptionValue, .handlerCall .removeExceptionContext]

/-- The conditional branch of a block. -/
def condBrCode (cond : BranchCond) (brIfTrue : Bool) : List LlvmInst :=
  match (L.graph.block k).brBlock, (L.graph.block k).noBrBlock with
  | some br, some noBr =>
      if brIfTrue then [.condBr cond (.ofBlock fn br 0) (.ofBlock fn noBr 0)]
      else [.condBr cond (.ofBlock fn noBr 0) (.ofBlock fn br 0)]
  | _, _ => []

/-- The instructions for an instruction of block `k`. -/
def instCode (inst : ZInstruction) : List (BasicBlock × LlvmInst) :=
  let L' := L.addBlock k
  let L'' := L'.addBlock k
  match inst.opNum with
  | .pushTrap =>
      placed (L.last fn k) [.libCall .getNewBuffer, .libCall .sigsetjmp,
        .condBr .setJmpRes (.ofBlock fn (inst.arg 0) 0) (L'.last fn k)] ++
      placed (L'.last fn (inst.arg 0)) prologue ++
      placed (L'.last fn k) [.libCall .pushTrap]
  | .popTrap => placed (L.last fn k) [.libCall .removeExceptionContext, .libCall .popTrap]
  | .raise => placed (L.last fn k) [.libCall .throwException, .retVoid]
  | .closureRec => placed (L.last fn k)
      (.libCall (.closureRec (inst.arg 0) (inst.arg 1) (.closure (inst.closureRecFn 0))) ::
        nestedClosures inst 1 ((inst.arg 0).toNat - 1))
  | .closure => placed (L.last fn k) [.libCall (.closure (inst.arg 0) (.closure (inst.arg 1)))]
  | .grab =>
      placed (L.last fn k) [.libCall (.checkGrab (inst.arg 0)),
        .condBr .checkGrab (L''.last fn k) (L'.last fn k)] ++
      placed (L'.last fn k) [.libCall (.createRestartClosure fn), .retVoid] ++
      placed (L''.last fn k) [.libCall (.substractExtraArgs (inst.arg 0))]
  | .apply1 => placed (L.last fn k) [.libCall .apply1, .callPtr false]
  | .apply2 => placed (L.last fn k) [.libCall .apply2, .callPtr false]
  | .apply3 => placed (L.last fn k) [.libCall .apply3, .callPtr false]
  | .apply => placed (L.last fn k) [.libCall (.apply (inst.arg 0)), .callPtr false]
  | .appterm1 => placed (L.last fn k) [.libCall (.appterm1 (inst.arg 0)), .callPtr true, .retVoid]
  | .appterm2 => placed (L.last fn k) [.libCall (.appterm2 (inst.arg 0)), .callPtr true, .retVoid]
  | .appterm3 => placed (L.last fn k) [.libCall (.appterm3 (inst.arg 0)), .callPtr true, .retVoid]
  | .appterm => placed (L.last fn k)
      [.libCall (.appterm (inst.arg 0) (inst.arg 1)), .callPtr true, .retVoid]
  | .stop => placed (L.last fn k) [.retVoid]
  | .return_ =>
      placed (L.last fn k) [.libCall (.handleReturn (inst.arg 0)),
        .condBr .handleReturn (L'.last fn k) (L''.last fn k)] ++
      placed (L'.last fn k) [.callPtr true, .retVoid] ++
      placed (L''.last fn k) [.retVoid]
  | .branch => placed (L.last fn k)
      ((L.graph.block k).brBlock.toList.map fun br => .br (L.last fn br))
  | .branchIf => placed (L.last fn k) (condBrCode L fn k .accuIsTrue true)
  | .branchIfNot => placed (L.last fn k) (condBrCode L fn k .accuIsTrue false)
  | .switch => placed (L.last fn k) (.libCall (.getSwitchOffset (inst.arg 0)) ::
      inst.switchEntries.head?.toList.map fun next =>
        .switch (L.last fn next) (inst.switchEntries.map (L.last fn)))
  | .beq | .bneq | .bltInt | .bleInt | .bgtInt | .bgeInt | .bultInt | .bugeInt =>
      placed (L.last fn k) (condBrCode L fn k (.compare inst.opNum (inst.arg 0)) true)
  | .restart | .event | .break_ | .checkSignals => []
  | _ => placed (L.last fn k) [.instCalls inst]

def instsCode (L : OwnState) (fn : FnRef) (k : Int) :
    List ZInstruction → List (BasicBlock × LlvmInst)
  | [] => []
  | inst :: insts => instCode L fn k inst ++ instsCode (L.after k inst) fn k insts

/-- The call of `init` at the start of a block of the main function without predecessors. -/
def initCode : List (BasicBlock × LlvmInst) :=
  placed (L.last fn k)
    (if L.graph.id = mainFunctionId ∧ (L.graph.block k).previousBlocks = [] then [.libCall .init]
    else [])

def termCode : List (BasicBlock × LlvmInst) :=
  match (L.graph.block k).instructions.getLast? with
  | none => []
  | some inst =>
      if inst.isJumpInst || inst.isReturn || inst.isSwitch then []
      else placed (L.last fn k)
        ((L.graph.block k).nextBlocks.head?.toList.map fun next => .br (L.last fn next))

def blockCode : List (BasicBlock × LlvmInst) :=
  initCode L fn k ++ instsCode L fn k (L.graph.block k).instructions ++
    termCode (L.afterBlock k) fn k

def blocksCode (L : OwnState) (fn : FnRef) : List Int → List (BasicBlock × LlvmInst)
  | [] => []
  | k :: ks => blockCode L fn k ++ blocksCode (L.afterBlock k) fn ks

/-- The LLVM blocks that are put into the function. -/
def blocksBody (L : OwnState) (fn : FnRef) : List Int → List BasicBlock
  | [] => []
  | k :: ks =>
      (List.range ((L.afterBlock k).llvmBlocks k)).map (.ofBlock fn k) ++
        blocksBody (L.afterBlock k) fn ks

end

/-- The code of a restart function. -/
def restartCode (F : GenFunction) (fn : FnRef) : List (BasicBlock × LlvmInst) :=
  placed (.ofRestart fn)
    (if F.id ≠ mainFunctionId then [.libCall .restart, .callFn fn, .retVoid] else [])

def functionCode (F : GenFunction) (fn : FnRef) : List (BasicBlock × LlvmInst) :=
  restartCode F fn ++ blocksCode (.start F) fn F.blocks

def functionBody (F : GenFunction) (fn : FnRef) : List BasicBlock :=
  blocksBody (.start F) fn F.blocks

/-! ### The graph during code generation -/

/-- `G` is the graph `F` after code generation for some `SWITCH`. -/
structure GrownFrom (F G : GenFunction) : Prop where
  id : G.id = F.id
  blocks : G.blocks = F.blocks
  instructions : ∀ k, (G.block k).instructions = (F.block k).instructions
  brBlock : ∀ k, (G.block k).brBlock = (F.block k).brBlock
  noBrBlock : ∀ k, (F.block k).noBrBlock.isSome → (G.block k).noBrBlock.isSome
  nextBlocks : ∀ k, (F.block k).nextBlocks <+: (G.block k).nextBlocks

namespace GrownFrom

variable {F G H : GenFunction}

theorem refl (F : GenFunction) : GrownFrom F F :=
  ⟨rfl, rfl, fun _ => rfl, fun _ => rfl, fun _ h => h, fun _ => List.prefix_rfl⟩

theorem trans (h : GrownFrom F G) (h' : GrownFrom G H) : GrownFrom F H where
  id := h'.id.trans h.id
  blocks := h'.blocks.trans h.blocks
  instructions := fun k => (h'.instructions k).trans (h.instructions k)
  brBlock := fun k => (h'.brBlock k).trans (h.brBlock k)
  noBrBlock := fun k hk => h'.noBrBlock k (h.noBrBlock k hk)
  nextBlocks := fun k => (h.nextBlocks k).trans (h'.nextBlocks k)

theorem setNext (F : GenFunction) (k next : Int) : GrownFrom F (F.setNext k next false) where
  id := rfl
  blocks := rfl
  instructions := fun j => by rw [GenFunction.setNext_block]
  brBlock := fun j => by simp [GenFunction.setNext_block]
  noBrBlock := fun j hj => by
    rw [GenFunction.setNext_block]
    dsimp only
    split
    · rfl
    · exact hj
  nextBlocks := fun j => by
    rw [GenFunction.setNext_block]
    dsimp only
    split
    · exact List.prefix_append _ _
    · exact List.prefix_rfl

end GrownFrom

theorem OwnState.after_grown (L : OwnState) (k : Int) (inst : ZInstruction) :
    GrownFrom L.graph (L.after k inst).graph := by
  unfold OwnState.after
  split
  · exact .refl _
  · exact .refl _
  · exact .refl _
  · split
    · exact .setNext _ _ _
    · exact .refl _
  · exact .refl _

theorem OwnState.afterInsts_grown (L : OwnState) (k : Int) (insts : List ZInstruction) :
    GrownFrom L.graph (L.afterInsts k insts).graph := by
  induction insts generalizing L with
  | nil => exact .refl _
  | cons inst insts ih => exact (L.after_grown k inst).trans (ih _)

theorem OwnState.afterBlock_grown (L : OwnState) (k : Int) :
    GrownFrom L.graph (L.afterBlock k).graph := L.afterInsts_grown k _

end CamllVM
