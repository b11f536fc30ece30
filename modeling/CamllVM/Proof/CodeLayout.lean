import CamllVM.Proof.HandlerEntry
import CamllVM.Zam

/-!
# Where the code of an instruction stands

The code that is created from an instruction on to the end of its block begins in the LLVM block that
the builder is in, and goes on in those that it adds. So a place in a block of the graph has a place
in the LLVM code.
-/

namespace CamllVM

variable {S : GenState} {F : GenFunction} {L : OwnState} {fn : FnRef} {k : Int} {i : Nat}
  {inst : ZInstruction} {before after : List Int} {pre post insts : List ZInstruction}
  {b : BasicBlock}

/-- The LLVM function of `fn` has been generated from the graph `F`. -/
structure GeneratedFrom (S : GenState) (fn : FnRef) (F : GenFunction) : Prop where
  sorted : F.blocks.Pairwise (· < ·)
  owned : S.owned fn = functionCode F fn
  body : S.body fn = functionBody F fn
  generates : (OwnState.start F).GeneratesBlocks F.blocks

/-- What is created from the instructions `insts` on to the end of block `k`. -/
def codeFrom (L : OwnState) (fn : FnRef) (k : Int) (insts : List ZInstruction) :
    List (BasicBlock × LlvmInst) :=
  instsCode L fn k insts ++ termCode (L.afterInsts k insts) fn k

/-- What of it goes into the LLVM block that the builder is in. -/
def restFrom (L : OwnState) (fn : FnRef) (k : Int) (insts : List ZInstruction) : List LlvmInst :=
  codeAt (codeFrom L fn k insts) (L.last fn k)

theorem codeFrom_cons : codeFrom L fn k (inst :: insts) =
    instCode L fn k inst ++ codeFrom (L.after k inst) fn k insts := by
  rw [codeFrom, instsCode, OwnState.afterInsts, List.append_assoc, codeFrom]

theorem blockCode_split (hinsts : (L.graph.block k).instructions = pre ++ inst :: post) :
    blockCode L fn k = initCode L fn k ++ instsCode L fn k pre ++
      codeFrom (L.afterInsts k pre) fn k (inst :: post) := by
  rw [blockCode, codeFrom, hinsts, instsCode_append, OwnState.afterBlock, hinsts,
    OwnState.afterInsts_append]
  simp only [List.append_assoc]

/-- The place of an instruction in a graph. -/
structure Place (F : GenFunction) (inst : ZInstruction) where
  before : List Int
  k : Int
  after : List Int
  pre : List ZInstruction
  post : List ZInstruction
  blocks_eq : F.blocks = before ++ k :: after
  insts_eq : (F.block k).instructions = pre ++ inst :: post

namespace Place

variable (p : Place F inst)

/-- The state of code generation when the code of the block begins. -/
def start : OwnState := (OwnState.start F).afterBlocks p.before

/-- The state of code generation when the code of the instruction begins. -/
def state : OwnState := p.start.afterInsts p.k p.pre

/-- The state of code generation behind the code of the instruction. -/
def next : OwnState := p.state.after p.k inst

theorem mem_blocks : p.k ∈ F.blocks := p.blocks_eq ▸ List.mem_append_right _ List.mem_cons_self

theorem mem_instructions : inst ∈ (F.block p.k).instructions :=
  p.insts_eq ▸ List.mem_append_right _ List.mem_cons_self

theorem start_grown : GrownFrom F p.start.graph := (OwnState.start F).afterBlocks_grown p.before

theorem state_grown : GrownFrom F p.state.graph := p.start_grown.trans (p.start.afterInsts_grown _ _)

theorem start_instructions : (p.start.graph.block p.k).instructions = p.pre ++ inst :: p.post :=
  (p.start_grown.instructions p.k).trans p.insts_eq

theorem start_llvmBlocks (hsorted : F.blocks.Pairwise (· < ·)) : p.start.llvmBlocks p.k = 1 :=
  llvmBlocks_before hsorted p.blocks_eq

theorem state_llvmBlocks_pos (hsorted : F.blocks.Pairwise (· < ·)) : 0 < p.state.llvmBlocks p.k :=
  llvmBlocks_pos hsorted p.blocks_eq p.pre

theorem next_eq : p.next = p.start.afterInsts p.k (p.pre ++ [inst]) := by
  rw [OwnState.afterInsts_append]
  rfl

/-- The code of the instruction and of those behind it, in the LLVM block that it begins in. -/
def rest (fn : FnRef) : List LlvmInst := restFrom p.state fn p.k (inst :: p.post)

/-- The code behind the instruction, in the LLVM block that the instruction ends in. -/
def nextRest (fn : FnRef) : List LlvmInst := restFrom p.next fn p.k p.post

end Place

/-- Control stands before instruction `pc`, with `rest` left of the LLVM block. -/
inductive Located (F : GenFunction) (fn : FnRef) (pc : Int) : List LlvmInst → Prop where
  | intro {inst : ZInstruction} (p : Place F inst) (hpc : inst.idx = pc) (late : List LlvmInst) :
      Located F fn pc (p.rest fn ++ late)

/-! ### The LLVM blocks of a function -/

theorem mem_blocksBody_iff {ks : List Int} : b ∈ blocksBody L fn ks ↔
    ∃ before k after i, ks = before ++ k :: after ∧ b = .ofBlock fn k i ∧
      i < ((L.afterBlocks before).afterBlock k).llvmBlocks k := by
  induction ks generalizing L with
  | nil => simp [blocksBody]
  | cons k ks ih =>
      rw [blocksBody, List.mem_append, ih, List.mem_map]
      constructor
      · rintro (⟨i, hi, rfl⟩ | ⟨before, k', after, i, rfl, rfl, hi⟩)
        · exact ⟨[], k, ks, i, rfl, rfl, List.mem_range.mp hi⟩
        · exact ⟨k :: before, k', after, i, rfl, rfl, hi⟩
      · rintro ⟨before, k', after, i, heq, rfl, hi⟩
        cases before with
        | nil =>
            cases heq
            exact .inl ⟨i, List.mem_range.mpr hi, rfl⟩
        | cons k₁ before =>
            cases heq
            exact .inr ⟨before, k', after, i, rfl, rfl, hi⟩

namespace GeneratedFrom

variable (h : GeneratedFrom S fn F)

include h

theorem code_eq (k : Int) (i : Nat) :
    S.code (.ofBlock fn k i) = codeAt (functionCode F fn) (.ofBlock fn k i) := by
  rw [S.code_eq, BasicBlock.owner, h.owned]

theorem mem_body (hblocks : F.blocks = before ++ k :: after)
    (hi : i < (((OwnState.start F).afterBlocks before).afterBlock k).llvmBlocks k) :
    .ofBlock fn k i ∈ S.body fn := by
  rw [h.body, functionBody]
  exact mem_blocksBody_iff.mpr ⟨before, k, after, i, hblocks, rfl, hi⟩

theorem first_mem_body (hk : k ∈ F.blocks) : .ofBlock fn k 0 ∈ S.body fn := by
  obtain ⟨before, after, hblocks⟩ := List.append_of_mem hk
  refine h.mem_body hblocks ?_
  rw [OwnState.afterBlock, afterInsts_llvmBlocks_self, llvmBlocks_before h.sorted hblocks]
  omega

/-- A block that is added while block `k` is generated belongs to the function. -/
theorem added_mem_body (p : Place F inst) (hi : i < p.next.llvmBlocks p.k) :
    .ofBlock fn p.k i ∈ S.body fn := by
  refine h.mem_body p.blocks_eq (Nat.lt_of_lt_of_le hi ?_)
  show p.next.llvmBlocks p.k ≤ (p.start.afterBlock p.k).llvmBlocks p.k
  rw [OwnState.afterBlock, p.start_instructions, OwnState.afterInsts_append, OwnState.afterInsts,
    afterInsts_llvmBlocks_self]
  exact Nat.le_add_right _ _

/-- The first LLVM block of a block: the prologues from earlier blocks, the call of `init`, and the
code of its instructions. -/
theorem first_code (p : Place F inst) (hpre : p.pre = []) : ∃ rest,
    S.code (.ofBlock fn p.k 0) = prologues (F.namedBefore p.k) ++
      (codeAt (initCode p.start fn p.k) (.ofBlock fn p.k 0) ++ rest) ∧
    Located F fn inst.idx rest := by
  obtain ⟨late, hcode, -⟩ : ∃ rest, codeAt (functionCode F fn) (.ofBlock fn p.k 0) = _ ∧ _ :=
    codeAt_functionCode h.sorted p.blocks_eq 0
  have hstate : p.state = p.start := by rw [Place.state, hpre, OwnState.afterInsts]
  have hlast : p.start.last fn p.k = .ofBlock fn p.k 0 := by
    rw [OwnState.last, p.start_llvmBlocks h.sorted]
  refine ⟨_, ?_, .intro p rfl late⟩
  rw [h.code_eq, hcode, if_pos rfl]
  show _ ++ (codeAt (blockCode p.start fn p.k) _ ++ _) = _
  rw [blockCode_split p.start_instructions, codeAt_append, codeAt_append, hpre, instsCode, Place.rest,
    restFrom, hstate, OwnState.afterInsts, hlast]
  simp only [codeAt, List.filter_nil, List.map_nil, List.append_nil, List.append_assoc]

/-- An LLVM block that an instruction adds begins with what the instruction puts into it. -/
theorem added_code (p : Place F inst) (hi : p.state.llvmBlocks p.k ≤ i) :
    ∃ late, S.code (.ofBlock fn p.k i) = codeAt (instCode p.state fn p.k inst) (.ofBlock fn p.k i) ++
      (codeAt (codeFrom p.next fn p.k p.post) (.ofBlock fn p.k i) ++ late) := by
  obtain ⟨late, hcode, -⟩ : ∃ rest, codeAt (functionCode F fn) (.ofBlock fn p.k i) = _ ∧ _ :=
    codeAt_functionCode h.sorted p.blocks_eq i
  have hone := p.start_llvmBlocks h.sorted
  have hcount : p.state.llvmBlocks p.k = 1 + OwnState.addedBy p.pre := by
    rw [Place.state, afterInsts_llvmBlocks_self, hone]
  have hinit : codeAt (initCode p.start fn p.k) (.ofBlock fn p.k i) = [] := by
    refine codeAt_eq_nil fun e he hb => ?_
    have hindex := ((inOrder_initCode p.start fn p.k).bounds e he).2
    rw [hb, hone, BasicBlock.index] at hindex
    omega
  have hpre : codeAt (instsCode p.start fn p.k p.pre) (.ofBlock fn p.k i) = [] := by
    refine codeAt_eq_nil fun e he hb => ?_
    obtain ⟨pre', inst', post', hpre, hcode⟩ := mem_instsCode.mp he
    have hpos : 0 < (p.start.afterInsts p.k pre').llvmBlocks p.k := by
      rw [afterInsts_llvmBlocks_self, hone]
      omega
    have hlt := index_lt_instCode hpos hcode hb
    have hle := afterInsts_llvmBlocks_self ((p.start.afterInsts p.k pre').after p.k inst') p.k post'
    rw [Place.state, hpre, OwnState.afterInsts_append, OwnState.afterInsts] at hi
    omega
  refine ⟨late, ?_⟩
  rw [h.code_eq, hcode, if_neg (by omega)]
  show _ ++ (codeAt (blockCode p.start fn p.k) _ ++ _) = _
  rw [blockCode_split p.start_instructions, codeAt_append, codeAt_append, hinit, hpre, codeFrom_cons,
    codeAt_append]
  simp only [prologues, List.replicate_zero, List.flatten_nil, List.nil_append, List.append_assoc]
  rfl

end GeneratedFrom

end CamllVM
