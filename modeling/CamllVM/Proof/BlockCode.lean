import CamllVM.Proof.Generation

/-!
# The code of one block

All that the generation of a block creates goes into its own LLVM blocks, from the first to the
last, except for the two calls that `PUSHTRAP` puts into the handler.
-/

namespace CamllVM

variable {L : OwnState} {fn : FnRef} {k j : Int} {inst : ZInstruction}
  {e : BasicBlock × LlvmInst}

/-- The LLVM block belongs to the block `k` of `fn`. -/
def BasicBlock.IsOf (fn : FnRef) (k : Int) : BasicBlock → Prop
  | .ofBlock fn' k' _ => fn' = fn ∧ k' = k
  | .ofRestart _ => False

instance (fn : FnRef) (k : Int) (b : BasicBlock) : Decidable (b.IsOf fn k) := by
  unfold BasicBlock.IsOf
  split <;> infer_instance

/-- The place among the LLVM blocks of the block. -/
def BasicBlock.index : BasicBlock → Nat
  | .ofBlock _ _ index => index
  | .ofRestart _ => 0

def LlvmInst.isHandlerCall : LlvmInst → Bool
  | .handlerCall _ => true
  | _ => false

/-- The instructions in the blocks of `k` that are not the prologue of a handler. -/
def ownCode (fn : FnRef) (k : Int) (c : List (BasicBlock × LlvmInst)) :
    List (BasicBlock × LlvmInst) :=
  c.filter fun e => e.1.IsOf fn k ∧ e.2.isHandlerCall = false

theorem isOf_last (L : OwnState) (fn : FnRef) (k : Int) : (L.last fn k).IsOf fn k := ⟨rfl, rfl⟩

theorem owner_of_isOf {b : BasicBlock} (h : b.IsOf fn k) : b.owner = fn := by
  cases b with
  | ofBlock fn' k' i => exact h.1
  | ofRestart fn' => exact h.elim

theorem ownCode_append (fn : FnRef) (k : Int) (c c' : List (BasicBlock × LlvmInst)) :
    ownCode fn k (c ++ c') = ownCode fn k c ++ ownCode fn k c' := List.filter_append _ _

namespace OwnState

/-- The number of LLVM blocks that an instruction adds. -/
def added (inst : ZInstruction) : Nat :=
  match inst.opNum with
  | .pushTrap => 1
  | .grab | .return_ => 2
  | _ => 0

theorem after_llvmBlocks (L : OwnState) (k : Int) (inst : ZInstruction) :
    (L.after k inst).llvmBlocks =
      Function.update L.llvmBlocks k (L.llvmBlocks k + added inst) := by
  unfold after added
  cases inst.opNum <;>
    simp only [addBlock, Function.update_self, Function.update_idem, Nat.add_zero,
      Function.update_eq_self]
  cases inst.switchEntries.head? <;> rfl

end OwnState

/-- The instructions are in blocks of `k`, from the block `low` on up to `high` in this order. -/
structure InOrder (fn : FnRef) (k : Int) (low high : Nat) (c : List (BasicBlock × LlvmInst)) :
    Prop where
  isOf : ∀ e ∈ c, e.1.IsOf fn k
  own : ∀ e ∈ c, e.2.isHandlerCall = false
  bounds : ∀ e ∈ c, low ≤ e.1.index ∧ e.1.index ≤ high
  sorted : c.Pairwise fun e e' => e.1.index ≤ e'.1.index

variable {c c' : List (BasicBlock × LlvmInst)} {low mid high : Nat}

theorem inOrder_nil : InOrder fn k low high [] :=
  ⟨by simp, by simp, by simp, List.Pairwise.nil⟩

theorem InOrder.append {mid' : Nat} (h : InOrder fn k low mid c) (h' : InOrder fn k mid' high c')
    (hmid : mid ≤ mid') (hlow : low ≤ mid') (hhigh : mid ≤ high) :
    InOrder fn k low high (c ++ c') where
  isOf := fun e he => (List.mem_append.mp he).elim (h.isOf e) (h'.isOf e)
  own := fun e he => (List.mem_append.mp he).elim (h.own e) (h'.own e)
  bounds := by
    intro e he
    rcases List.mem_append.mp he with he | he
    · exact ⟨(h.bounds e he).1, (h.bounds e he).2.trans hhigh⟩
    · exact ⟨hlow.trans (h'.bounds e he).1, (h'.bounds e he).2⟩
  sorted := List.pairwise_append.mpr ⟨h.sorted, h'.sorted, fun e he e' he' =>
    (h.bounds e he).2.trans (hmid.trans (h'.bounds e' he').1)⟩

theorem inOrder_placed (L : OwnState) (fn : FnRef) (k : Int) {insts : List LlvmInst}
    (hown : ∀ inst ∈ insts, inst.isHandlerCall = false) :
    InOrder fn k (L.llvmBlocks k - 1) (L.llvmBlocks k - 1) (placed (L.last fn k) insts) where
  isOf := fun e he => (mem_placed.mp he).1 ▸ isOf_last L fn k
  own := fun e he => hown _ (mem_placed.mp he).2
  bounds := fun e he => by rw [(mem_placed.mp he).1]; exact ⟨le_refl _, le_refl _⟩
  sorted := by
    rw [placed, List.pairwise_map]
    exact List.pairwise_of_forall fun _ _ => le_refl _

theorem InOrder.ownCode_eq (h : InOrder fn k low high c) : ownCode fn k c = c :=
  List.filter_eq_self.mpr fun e he => decide_eq_true ⟨h.isOf e he, h.own e he⟩

theorem nestedClosures_own (inst : ZInstruction) (i n : Nat) :
    ∀ c ∈ nestedClosures inst i n, c.isHandlerCall = false := by
  induction n generalizing i with
  | zero => simp [nestedClosures]
  | succ n ih =>
      rw [nestedClosures]
      split
      · exact List.forall_mem_cons.mpr ⟨rfl, ih (i + 1)⟩
      · simp

theorem condBrCode_own (L : OwnState) (fn : FnRef) (k : Int) (cond : BranchCond) (brIfTrue : Bool) :
    ∀ c ∈ condBrCode L fn k cond brIfTrue, c.isHandlerCall = false := by
  unfold condBrCode
  cases (L.graph.block k).brBlock <;> cases (L.graph.block k).noBrBlock <;> cases brIfTrue <;>
    simp [LlvmInst.isHandlerCall]

theorem ownCode_prologue (b : BasicBlock) : ownCode fn k (placed b prologue) = [] := by
  simp [ownCode, prologue, LlvmInst.isHandlerCall]

/-- An instruction that adds LLVM blocks goes on in the last one. -/
theorem inOrder_instCode (L : OwnState) (fn : FnRef) (k : Int) (inst : ZInstruction)
    (hpos : 0 < L.llvmBlocks k) :
    InOrder fn k (L.llvmBlocks k - 1) ((L.after k inst).llvmBlocks k - 1)
      (ownCode fn k (instCode L fn k inst)) := by
  have hplaced : ∀ (L : OwnState) (insts : List LlvmInst),
      (∀ inst ∈ insts, inst.isHandlerCall = false) →
      InOrder fn k (L.llvmBlocks k - 1) (L.llvmBlocks k - 1)
        (ownCode fn k (placed (L.last fn k) insts)) := fun L insts hown => by
    rw [(inOrder_placed L fn k hown).ownCode_eq]
    exact inOrder_placed L fn k hown
  have hone : (L.addBlock k).llvmBlocks k = L.llvmBlocks k + 1 := Function.update_self _ _ _
  have htwo : ((L.addBlock k).addBlock k).llvmBlocks k = L.llvmBlocks k + 1 + 1 := by
    rw [← hone]
    exact Function.update_self _ _ _
  have hthree : ∀ first second third : List LlvmInst,
      (∀ inst ∈ first ++ second ++ third, inst.isHandlerCall = false) →
      InOrder fn k (L.llvmBlocks k - 1) (L.llvmBlocks k + 2 - 1)
        (ownCode fn k (placed (L.last fn k) first ++ placed ((L.addBlock k).last fn k) second ++
          placed (((L.addBlock k).addBlock k).last fn k) third)) := fun first second third hown => by
    simp only [List.forall_mem_append] at hown
    have h₁ := hplaced L first hown.1.1
    have h₂ := hplaced (L.addBlock k) second hown.1.2
    have h₃ := hplaced ((L.addBlock k).addBlock k) third hown.2
    rw [hone] at h₂
    rw [htwo] at h₃
    have h₁₂ : InOrder fn k (L.llvmBlocks k - 1) (L.llvmBlocks k) _ :=
      h₁.append h₂ (by omega) (by omega) (by omega)
    have h := h₁₂.append h₃ (by omega) (by omega) (by omega)
    rwa [← ownCode_append, ← ownCode_append] at h
  have hafter := congrFun (L.after_llvmBlocks k inst) k
  rw [Function.update_self] at hafter
  rw [hafter]
  unfold instCode OwnState.added
  cases hop : inst.opNum with
  | pushTrap =>
      have hfirst := hplaced L [.libCall .getNewBuffer, .libCall .sigsetjmp,
        .condBr .setJmpRes (.ofBlock fn (inst.arg 0) 0) ((L.addBlock k).last fn k)]
        (by simp [LlvmInst.isHandlerCall])
      have hlast := hplaced (L.addBlock k) [.libCall .pushTrap] (by simp [LlvmInst.isHandlerCall])
      rw [hone] at hlast
      dsimp only
      rw [ownCode_append, ownCode_append, ownCode_prologue, List.append_nil]
      exact hfirst.append hlast (by omega) (by omega) (by omega)
  | grab | return_ => exact hthree _ _ _ (by simp [LlvmInst.isHandlerCall])
  | closureRec => exact hplaced L _ (List.forall_mem_cons.mpr ⟨rfl, nestedClosures_own _ _ _⟩)
  | branchIf | branchIfNot => exact hplaced L _ (condBrCode_own _ _ _ _ _)
  | beq | bneq | bltInt | bleInt | bgtInt | bgeInt | bultInt | bugeInt =>
      exact hplaced L _ (condBrCode_own _ _ _ _ _)
  | restart | event | break_ | checkSignals => exact inOrder_nil
  | _ => exact hplaced L _ (by simp [LlvmInst.isHandlerCall])

/-- Only the prologue of a handler can be in another block. -/
theorem mem_instCode (he : e ∈ instCode L fn k inst) :
    e.1.IsOf fn k ∧ e.2.isHandlerCall = false ∨
      inst.opNum = .pushTrap ∧ e ∈ placed ((L.addBlock k).last fn (inst.arg 0)) prologue := by
  have hplaced : ∀ (L : OwnState) (insts : List LlvmInst),
      (∀ inst ∈ insts, inst.isHandlerCall = false) → ∀ e ∈ placed (L.last fn k) insts,
      e.1.IsOf fn k ∧ e.2.isHandlerCall = false := fun L insts hown e he =>
    ⟨(inOrder_placed L fn k hown).isOf e he, (inOrder_placed L fn k hown).own e he⟩
  unfold instCode at he
  cases hop : inst.opNum with
  | pushTrap =>
      simp only [hop, List.mem_append] at he
      rcases he with (he | he) | he
      · exact .inl (hplaced L _ (by simp [LlvmInst.isHandlerCall]) e he)
      · exact .inr ⟨rfl, he⟩
      · exact .inl (hplaced (L.addBlock k) _ (by simp [LlvmInst.isHandlerCall]) e he)
  | grab | return_ =>
      simp only [hop, List.mem_append] at he
      rcases he with (he | he) | he
      · exact .inl (hplaced L _ (by simp [LlvmInst.isHandlerCall]) e he)
      · exact .inl (hplaced (L.addBlock k) _ (by simp [LlvmInst.isHandlerCall]) e he)
      · exact .inl (hplaced ((L.addBlock k).addBlock k) _ (by simp [LlvmInst.isHandlerCall]) e he)
  | closureRec =>
      simp only [hop] at he
      exact .inl (hplaced L _ (List.forall_mem_cons.mpr ⟨rfl, nestedClosures_own _ _ _⟩) e he)
  | branchIf | branchIfNot | beq | bneq | bltInt | bleInt | bgtInt | bgeInt | bultInt | bugeInt =>
      simp only [hop] at he
      exact .inl (hplaced L _ (condBrCode_own _ _ _ _ _) e he)
  | restart | event | break_ | checkSignals =>
      simp only [hop] at he
      cases he
  | _ =>
      simp only [hop] at he
      exact .inl (hplaced L _ (by simp [LlvmInst.isHandlerCall]) e he)

/-! ### Positions -/

namespace OwnState

def afterBlocks (L : OwnState) : List Int → OwnState
  | [] => L
  | k :: ks => (L.afterBlock k).afterBlocks ks

def addedBy (insts : List ZInstruction) : Nat := (insts.map added).sum

theorem afterInsts_append (L : OwnState) (k : Int) (insts insts' : List ZInstruction) :
    L.afterInsts k (insts ++ insts') = (L.afterInsts k insts).afterInsts k insts' := by
  induction insts generalizing L with
  | nil => rfl
  | cons inst insts ih => exact ih _

theorem afterInsts_llvmBlocks (L : OwnState) (k : Int) (insts : List ZInstruction) :
    (L.afterInsts k insts).llvmBlocks =
      Function.update L.llvmBlocks k (L.llvmBlocks k + addedBy insts) := by
  induction insts generalizing L with
  | nil => simp [afterInsts, addedBy]
  | cons inst insts ih =>
      rw [afterInsts, ih, after_llvmBlocks, Function.update_self, Function.update_idem]
      simp [addedBy, Nat.add_assoc]

theorem afterBlocks_grown (L : OwnState) (ks : List Int) :
    GrownFrom L.graph (L.afterBlocks ks).graph := by
  induction ks generalizing L with
  | nil => exact .refl _
  | cons k ks ih => exact (L.afterBlock_grown k).trans (ih _)

/-- A block that has been generated has all its LLVM blocks, another one has only the first. -/
theorem afterBlocks_llvmBlocks (L : OwnState) {ks : List Int} (hnodup : ks.Nodup) (j : Int) :
    (L.afterBlocks ks).llvmBlocks j =
      L.llvmBlocks j + if j ∈ ks then addedBy (L.graph.block j).instructions else 0 := by
  induction ks generalizing L with
  | nil => rfl
  | cons k ks ih =>
      obtain ⟨hk, hnodup⟩ := List.nodup_cons.mp hnodup
      rw [afterBlocks, ih _ hnodup, (L.afterBlock_grown k).instructions, afterBlock,
        afterInsts_llvmBlocks]
      by_cases hj : j = k
      · subst hj
        simp [hk]
      · simp [hj]

end OwnState

theorem instsCode_append (L : OwnState) (fn : FnRef) (k : Int) (insts insts' : List ZInstruction) :
    instsCode L fn k (insts ++ insts') =
      instsCode L fn k insts ++ instsCode (L.afterInsts k insts) fn k insts' := by
  induction insts generalizing L with
  | nil => rfl
  | cons inst insts ih =>
      rw [List.cons_append, instsCode, ih, instsCode, List.append_assoc]
      rfl

theorem mem_instsCode {insts : List ZInstruction} : e ∈ instsCode L fn k insts ↔
    ∃ pre inst post, insts = pre ++ inst :: post ∧ e ∈ instCode (L.afterInsts k pre) fn k inst := by
  constructor
  · intro he
    induction insts generalizing L with
    | nil => cases he
    | cons inst insts ih =>
        rcases List.mem_append.mp he with he | he
        · exact ⟨[], inst, insts, rfl, he⟩
        · obtain ⟨pre, inst', post, rfl, hcode⟩ := ih he
          exact ⟨inst :: pre, inst', post, rfl, hcode⟩
  · rintro ⟨pre, inst, post, rfl, he⟩
    rw [instsCode_append]
    exact List.mem_append_right _ (List.mem_append_left _ he)

theorem blocksCode_append (L : OwnState) (fn : FnRef) (ks ks' : List Int) :
    blocksCode L fn (ks ++ ks') = blocksCode L fn ks ++ blocksCode (L.afterBlocks ks) fn ks' := by
  induction ks generalizing L with
  | nil => rfl
  | cons k ks ih =>
      rw [List.cons_append, blocksCode, ih, blocksCode, List.append_assoc]
      rfl

theorem mem_blocksCode {ks : List Int} : e ∈ blocksCode L fn ks ↔
    ∃ before k after, ks = before ++ k :: after ∧ e ∈ blockCode (L.afterBlocks before) fn k := by
  constructor
  · intro he
    induction ks generalizing L with
    | nil => cases he
    | cons k ks ih =>
        rcases List.mem_append.mp he with he | he
        · exact ⟨[], k, ks, rfl, he⟩
        · obtain ⟨before, k', after, rfl, hcode⟩ := ih he
          exact ⟨k :: before, k', after, rfl, hcode⟩
  · rintro ⟨before, k, after, rfl, he⟩
    rw [blocksCode_append]
    exact List.mem_append_right _ (List.mem_append_left _ he)

/-! ### The own code of a block -/

theorem inOrder_initCode (L : OwnState) (fn : FnRef) (k : Int) :
    InOrder fn k (L.llvmBlocks k - 1) (L.llvmBlocks k - 1) (initCode L fn k) :=
  inOrder_placed L fn k (by split <;> simp [LlvmInst.isHandlerCall])

theorem inOrder_termCode (L : OwnState) (fn : FnRef) (k : Int) :
    InOrder fn k (L.llvmBlocks k - 1) (L.llvmBlocks k - 1) (termCode L fn k) := by
  unfold termCode
  split
  · exact inOrder_nil
  · split
    · exact inOrder_nil
    · exact inOrder_placed L fn k (by simp [LlvmInst.isHandlerCall])

theorem inOrder_instsCode (L : OwnState) (fn : FnRef) (k : Int) (insts : List ZInstruction)
    (hpos : 0 < L.llvmBlocks k) :
    InOrder fn k (L.llvmBlocks k - 1) ((L.afterInsts k insts).llvmBlocks k - 1)
      (ownCode fn k (instsCode L fn k insts)) := by
  induction insts generalizing L with
  | nil => exact inOrder_nil
  | cons inst insts ih =>
      have hafter := congrFun (L.after_llvmBlocks k inst) k
      have hafterInsts := congrFun ((L.after k inst).afterInsts_llvmBlocks k insts) k
      rw [Function.update_self] at hafter hafterInsts
      have hhead := inOrder_instCode L fn k inst hpos
      have htail := ih (L.after k inst) (by omega)
      rw [OwnState.afterInsts, instsCode, ownCode_append]
      exact hhead.append htail le_rfl (by omega) (by omega)

theorem ownCode_blockCode (L : OwnState) (fn : FnRef) (k : Int) :
    ownCode fn k (blockCode L fn k) = initCode L fn k ++
      ownCode fn k (instsCode L fn k (L.graph.block k).instructions) ++
        termCode (L.afterBlock k) fn k := by
  rw [blockCode, ownCode_append, ownCode_append, (inOrder_initCode L fn k).ownCode_eq,
    (inOrder_termCode (L.afterBlock k) fn k).ownCode_eq]

theorem inOrder_blockCode (L : OwnState) (fn : FnRef) (k : Int) (hpos : 0 < L.llvmBlocks k) :
    InOrder fn k (L.llvmBlocks k - 1) ((L.afterBlock k).llvmBlocks k - 1)
      (ownCode fn k (blockCode L fn k)) := by
  have hafter := congrFun (L.afterInsts_llvmBlocks k (L.graph.block k).instructions) k
  rw [Function.update_self] at hafter
  have hblock : (L.afterBlock k).llvmBlocks k =
      L.llvmBlocks k + OwnState.addedBy (L.graph.block k).instructions := hafter
  rw [ownCode_blockCode]
  exact ((inOrder_initCode L fn k).append (inOrder_instsCode L fn k _ hpos) le_rfl le_rfl
    (by omega)).append (inOrder_termCode _ fn k) le_rfl (by omega) le_rfl

/-- The only instructions that a block puts elsewhere are prologues. -/
theorem mem_blockCode (he : e ∈ blockCode L fn k) (hown : e.2.isHandlerCall = false) :
    e.1.IsOf fn k := by
  rcases List.mem_append.mp he with he | he
  · rcases List.mem_append.mp he with he | he
    · exact (inOrder_initCode L fn k).isOf e he
    · obtain ⟨pre, inst, post, -, he⟩ := mem_instsCode.mp he
      rcases mem_instCode he with ⟨hof, -⟩ | ⟨-, he⟩
      · exact hof
      · have hprologue := (mem_placed.mp he).2
        simp only [prologue, List.mem_cons, List.not_mem_nil, or_false] at hprologue
        rcases hprologue with hcall | hcall <;> rw [hcall] at hown <;> cases hown
  · exact (inOrder_termCode _ fn k).isOf e he

theorem ownCode_blockCode_of_ne (hne : j ≠ k) : ownCode fn j (blockCode L fn k) = [] := by
  refine List.filter_eq_nil_iff.mpr fun e he => ?_
  rw [decide_eq_true_iff]
  rintro ⟨hj, hown⟩
  have hk := mem_blockCode he hown
  cases hb : e.1 with
  | ofBlock fn' k' i =>
      rw [hb] at hj hk
      exact hne (hj.2.symm.trans hk.2)
  | ofRestart fn' =>
      rw [hb] at hj
      exact hj

theorem ownCode_blocksCode_of_not_mem {ks : List Int} (hj : j ∉ ks) :
    ownCode fn j (blocksCode L fn ks) = [] := by
  induction ks generalizing L with
  | nil => rfl
  | cons k ks ih =>
      obtain ⟨hne, hj⟩ := not_or.mp (List.mem_cons.not.mp hj)
      rw [blocksCode, ownCode_append, ownCode_blockCode_of_ne hne, ih hj]
      rfl

/-- The instructions of a block are created while the block is generated. -/
theorem ownCode_functionCode {F : GenFunction} {before after : List Int}
    (hnodup : F.blocks.Nodup) (hblocks : F.blocks = before ++ k :: after) :
    ownCode fn k (functionCode F fn) =
      ownCode fn k (blockCode ((OwnState.start F).afterBlocks before) fn k) := by
  rw [hblocks] at hnodup
  obtain ⟨-, hcons, hdisjoint⟩ := List.nodup_append.mp hnodup
  have hbefore : k ∉ before := fun hmem => hdisjoint k hmem k List.mem_cons_self rfl
  have hrestart : ownCode fn k (restartCode F fn) = [] := by
    refine List.filter_eq_nil_iff.mpr fun e he => ?_
    rw [(mem_placed.mp he).1]
    simp [BasicBlock.IsOf]
  rw [functionCode, ownCode_append, hrestart, hblocks, blocksCode_append, ownCode_append,
    ownCode_blocksCode_of_not_mem hbefore, blocksCode, ownCode_append,
    ownCode_blocksCode_of_not_mem (List.nodup_cons.mp hcons).1]
  simp

theorem GenState.ownCode_log (s : GenState) (fn : FnRef) (k : Int) :
    ownCode fn k s.log = ownCode fn k (s.owned fn) := by
  rw [ownCode, ownCode, GenState.owned, List.filter_filter]
  refine List.filter_congr fun e _ => ?_
  by_cases hof : e.1.IsOf fn k
  · simp [hof, owner_of_isOf hof]
  · simp [hof]

end CamllVM
