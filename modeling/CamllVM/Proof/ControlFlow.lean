import CamllVM.Proof.CodeLayout

/-!
# Where control goes in the LLVM code

A graph follows a program if its blocks hold the instructions of the program in order and its edges
lead where the instructions do. A branch of the LLVM code of such a graph leads to the code of the
instruction that the bytecode goes on with.
-/

namespace CamllVM

variable {S : GenState} {F : GenFunction} {L : OwnState} {fn : FnRef} {k t pc : Int}
  {inst : ZInstruction} {before after : List Int} {pre post insts prog : List ZInstruction}

/-- Control does not go on behind the instruction in its block. -/
def ZInstruction.endsBlock (inst : ZInstruction) : Bool :=
  inst.isJumpInst || inst.isReturn || inst.isSwitch

/-- The blocks hold instructions of the program, each with its successors. -/
structure Follows (prog : List ZInstruction) (F : GenFunction) : Prop where
  consistent : F.Consistent
  fetch : ∀ k ∈ F.blocks, ∀ inst ∈ (F.block k).instructions,
    ∃ inst', Zam.fetch prog inst.idx = some inst' ∧ inst'.unannotated = inst.unannotated
  leader : ∀ k ∈ F.blocks, ∃ inst post, (F.block k).instructions = inst :: post ∧ inst.idx = k
  dests : ∀ k ∈ F.blocks, ∀ inst ∈ (F.block k).instructions, ∀ d ∈ inst.dests,
    d ∈ (F.block k).nextBlocks
  next : ∀ k ∈ F.blocks, ∀ pre inst inst' post,
    (F.block k).instructions = pre ++ inst :: inst' :: post → inst.endsBlock = false →
    inst'.idx = inst.idx + 1
  fallThrough : ∀ k ∈ F.blocks, ∀ inst, (F.block k).instructions.getLast? = some inst →
    inst.endsBlock = false → (F.block k).nextBlocks.head? = some (inst.idx + 1)
  brBlock : ∀ k ∈ F.blocks, ∀ inst ∈ (F.block k).instructions, inst.isJumpInst = true →
    (F.block k).brBlock = some inst.getDestIdx
  noBrBlock : ∀ k ∈ F.blocks, ∀ pre inst post, (F.block k).instructions = pre ++ inst :: post →
    inst.isCondJump = true →
    F.noBrAt k pre = some (inst.idx + 1) ∧ inst.idx + 1 ∈ (F.block k).nextBlocks

/-- The function enters its blocks where it has to. -/
structure GenFunction.EntersRight (F : GenFunction) : Prop where
  start : ∀ k ∈ F.blocks, F.EntersAtStart k
  traps : F.ExactTraps

theorem OwnState.after_previousBlocks (L : OwnState) (j : Int) (inst : ZInstruction) (k : Int) :
    (L.graph.block k).previousBlocks <:+ ((L.after j inst).graph.block k).previousBlocks := by
  unfold OwnState.after
  cases inst.opNum with
  | switch =>
      cases inst.switchEntries.head? with
      | none => exact List.suffix_rfl
      | some next =>
          dsimp only [OwnState.setNext]
          rw [GenFunction.setNext_block]
          dsimp only
          split
          · exact List.suffix_cons _ _
          · exact List.suffix_rfl
  | _ => exact List.suffix_rfl

theorem OwnState.afterInsts_previousBlocks (L : OwnState) (j : Int) (insts : List ZInstruction)
    (k : Int) :
    (L.graph.block k).previousBlocks <:+ ((L.afterInsts j insts).graph.block k).previousBlocks := by
  induction insts generalizing L with
  | nil => exact List.suffix_rfl
  | cons inst insts ih => exact (L.after_previousBlocks j inst k).trans (ih _)

theorem OwnState.afterBlocks_previousBlocks (L : OwnState) (ks : List Int) (k : Int) :
    (L.graph.block k).previousBlocks <:+ ((L.afterBlocks ks).graph.block k).previousBlocks := by
  induction ks generalizing L with
  | nil => exact List.suffix_rfl
  | cons j ks ih => exact (L.afterInsts_previousBlocks j _ k).trans (ih _)

/-- `init` is not called where control comes from another block. -/
theorem initCode_eq_nil (hprevious : (F.block k).previousBlocks ≠ []) (before : List Int) :
    initCode ((OwnState.start F).afterBlocks before) fn k = [] := by
  have hsuffix := (OwnState.start F).afterBlocks_previousBlocks before k
  have hne : (((OwnState.start F).afterBlocks before).graph.block k).previousBlocks ≠ [] := by
    intro hnil
    rw [hnil, List.suffix_nil] at hsuffix
    exact hprevious hsuffix
  rw [initCode, if_neg fun h => hne h.2, placed_nil]

theorem GenFunction.Consistent.previousBlocks_ne_nil (h : F.Consistent) (hk : k ∈ F.blocks)
    (ht : t ∈ (F.block k).nextBlocks) : (F.block t).previousBlocks ≠ [] := by
  intro hnil
  have hcount := h.transpose k hk t (h.next_mem k hk t ht)
  rw [hnil, List.count_nil] at hcount
  exact absurd (List.count_pos_iff.mpr ht) (by omega)

theorem GenFunction.EntersRight.namedBefore_eq_zero (h : F.EntersRight) (ht : F.EnteredNormally t) :
    F.namedBefore t = 0 := by
  by_contra hne
  obtain ⟨k, hk, inst, hinst, hop, rfl⟩ := exists_trap_of_namedBefore hne
  exact (h.traps k hk inst hinst hop).2.2 ht

/-- Control stands before instruction `pc`, or before a branch to its code. -/
inductive Before (S : GenState) (F : GenFunction) (fn : FnRef) (pc : Int) : List LlvmInst → Prop where
  | at {rest : List LlvmInst} (h : Located F fn pc rest) : Before S F fn pc rest
  | branch {b : BasicBlock} {rest : List LlvmInst} (hb : b ∈ S.body fn)
      (h : Located F fn pc (S.code b)) : Before S F fn pc (.br b :: rest)

section

variable (h : GeneratedFrom S fn F) (hfollows : Follows prog F) (henters : F.EntersRight)

include h hfollows

/-- The code at the start of a block that has predecessors. -/
theorem entered_code (hk : k ∈ F.blocks) (ht : t ∈ (F.block k).nextBlocks) : ∃ rest,
    S.code (.ofBlock fn t 0) = prologues (F.namedBefore t) ++ rest ∧ Located F fn t rest := by
  have htarget : t ∈ F.blocks := hfollows.consistent.next_mem k hk t ht
  obtain ⟨before, after, hblocks⟩ := List.append_of_mem htarget
  obtain ⟨inst, post, hinsts, hidx⟩ := hfollows.leader t htarget
  let p : Place F inst := ⟨before, t, after, [], post, hblocks, hinsts⟩
  obtain ⟨rest, hcode, hrest⟩ := h.first_code p rfl
  have hinit : initCode p.start fn p.k = [] :=
    initCode_eq_nil (hfollows.consistent.previousBlocks_ne_nil hk ht) before
  rw [hinit] at hcode
  exact ⟨rest, hcode, hidx ▸ hrest⟩

include henters

theorem located_of_enteredNormally (hk : k ∈ F.blocks) (ht : t ∈ (F.block k).nextBlocks)
    (hnormal : F.EnteredNormally t) :
    .ofBlock fn t 0 ∈ S.body fn ∧ Located F fn t (S.code (.ofBlock fn t 0)) := by
  obtain ⟨rest, hcode, hrest⟩ := entered_code h hfollows hk ht
  rw [henters.namedBefore_eq_zero hnormal] at hcode
  exact ⟨h.first_mem_body (hfollows.consistent.next_mem k hk t ht), hcode ▸ hrest⟩

/-- The code of a handler begins with one prologue. -/
theorem located_of_handler (hk : k ∈ F.blocks) (hinst : inst ∈ (F.block k).instructions)
    (hop : inst.opNum = .pushTrap) : .ofBlock fn (inst.arg 0) 0 ∈ S.body fn ∧
      ∃ rest, S.code (.ofBlock fn (inst.arg 0) 0) = prologue ++ rest ∧
        Located F fn (inst.arg 0) rest := by
  have hdest : inst.arg 0 ∈ (F.block k).nextBlocks := by
    refine hfollows.dests k hk inst hinst _ ?_
    simp [ZInstruction.dests, ZInstruction.isPushTrap, ZInstruction.getDestIdx, codeOffsetArgs, hop]
  obtain ⟨rest, hcode, hrest⟩ := entered_code h hfollows hk hdest
  rw [(henters.traps k hk inst hinst hop).2.1] at hcode
  exact ⟨h.first_mem_body (hfollows.consistent.next_mem k hk _ hdest), rest, hcode, hrest⟩

variable (p : Place F inst)

/-- The end of an instruction that does not end its block stands before the next one. -/
theorem before_next (hends : inst.endsBlock = false) (late : List LlvmInst) :
    Before S F fn (inst.idx + 1) (p.nextRest fn ++ late) := by
  have hk := p.mem_blocks
  cases hpost : p.post with
  | cons inst' post =>
      have hinsts : (F.block p.k).instructions = p.pre ++ inst :: inst' :: post := by
        rw [p.insts_eq, hpost]
      let p' : Place F inst' :=
        ⟨p.before, p.k, p.after, p.pre ++ [inst], post, p.blocks_eq, by rw [hinsts]; simp⟩
      have hrest : p.nextRest fn = p'.rest fn := by
        rw [Place.nextRest, hpost, p.next_eq]
        rfl
      rw [hrest, ← hfollows.next p.k hk p.pre inst inst' post hinsts hends]
      exact .at (.intro p' rfl late)
  | nil =>
      have hblock : p.start.afterBlock p.k = p.next := by
        rw [OwnState.afterBlock, p.start_instructions, hpost, p.next_eq]
      have hlast : (F.block p.k).instructions.getLast? = some inst := by
        rw [p.insts_eq, hpost, List.getLast?_concat]
      have hnext := hfollows.fallThrough p.k hk inst hlast hends
      have hend : (F.endSuccessors p.k).head? = some (inst.idx + 1) := by
        rw [GenFunction.endSuccessors, List.head?_append, hnext, Option.some_or]
      have hunsplit : F.Unsplit p.k (F.block p.k).instructions (inst.idx + 1) :=
        (henters.start p.k hk).fallThrough inst hlast hends _ hend
      have hwhole : p.next.Whole (inst.idx + 1) := by
        have hinsts : (F.block p.k).instructions = p.pre ++ [inst] := by rw [p.insts_eq, hpost]
        rw [p.next_eq, ← hinsts]
        exact (whole_iff h.sorted p.blocks_eq _ _).mpr hunsplit
      have hterm : termCode p.next fn p.k =
          placed (p.next.last fn p.k) [.br (.ofBlock fn (inst.idx + 1) 0)] := by
        have hgrown : GrownFrom F p.next.graph := p.state_grown.trans (p.state.after_grown _ _)
        have hsuccessors : (p.next.graph.block p.k).nextBlocks = F.endSuccessors p.k := by
          rw [← hblock]
          exact endSuccessors_eq h.sorted p.blocks_eq
        have hends' : (inst.isJumpInst || inst.isReturn || inst.isSwitch) = false := hends
        rw [termCode, hgrown.instructions, hlast, hsuccessors, hend]
        simp only [hends', Bool.false_eq_true, if_false, Option.toList_some, List.map_singleton,
          last_eq_first.mpr ⟨rfl, hwhole⟩]
      have hrest : p.nextRest fn = [.br (.ofBlock fn (inst.idx + 1) 0)] := by
        rw [Place.nextRest, hpost, restFrom, codeFrom, instsCode, List.nil_append, OwnState.afterInsts,
          hterm, codeAt_placed, if_pos rfl]
      obtain ⟨hbody, hlocated⟩ := located_of_enteredNormally h hfollows henters hk
        (List.mem_of_mem_head? hnext) (.fall p.k hk ⟨inst, hlast, hends, hend, hunsplit⟩)
      rw [hrest]
      exact .branch hbody hlocated

/-! ### Jumps -/

/-- `BRANCH` goes to its destination. -/
theorem branch_target (hop : inst.opNum = .branch) :
    instCode p.state fn p.k inst =
        placed (p.state.last fn p.k) [.br (.ofBlock fn inst.getDestIdx 0)] ∧
      .ofBlock fn inst.getDestIdx 0 ∈ S.body fn ∧
      Located F fn inst.getDestIdx (S.code (.ofBlock fn inst.getDestIdx 0)) := by
  have hk := p.mem_blocks
  have hmem := p.mem_instructions
  have hjump : inst.isJumpInst = true := by rw [ZInstruction.isJumpInst, hop]
  have hdest : inst.getDestIdx ∈ (F.block p.k).nextBlocks :=
    hfollows.dests p.k hk inst hmem _ (by simp [ZInstruction.dests, hjump])
  have hbr := hfollows.brBlock p.k hk inst hmem hjump
  have hunsplit := (henters.start p.k hk).branch p.pre inst p.post p.insts_eq hop _ hbr
  have hwhole : p.state.Whole inst.getDestIdx := (whole_iff h.sorted p.blocks_eq p.pre _).mpr hunsplit
  refine ⟨?_, located_of_enteredNormally h hfollows henters hk hdest
    (.jump p.k p.pre inst p.post hk p.insts_eq (.inr (.inl ⟨hop, hbr, hunsplit⟩)))⟩
  rw [← last_eq_first.mpr ⟨rfl, hwhole⟩]
  simp only [instCode, hop, p.state_grown.brBlock, hbr, Option.toList_some, List.map_singleton]

/-- A conditional jump goes to its destination or on to the next instruction. -/
theorem condBr_targets (hcond : inst.isCondJump = true) (cond : BranchCond) (brIfTrue : Bool) :
    condBrCode p.state fn p.k cond brIfTrue =
        [.condBr cond
          (.ofBlock fn (if brIfTrue = true then inst.getDestIdx else inst.idx + 1) 0)
          (.ofBlock fn (if brIfTrue = true then inst.idx + 1 else inst.getDestIdx) 0)] ∧
      ∀ t ∈ [inst.getDestIdx, inst.idx + 1],
        .ofBlock fn t 0 ∈ S.body fn ∧ Located F fn t (S.code (.ofBlock fn t 0)) := by
  have hk := p.mem_blocks
  have hmem := p.mem_instructions
  have hjump : inst.isJumpInst = true := (Bool.and_eq_true_iff.mp hcond).1
  have hdest : inst.getDestIdx ∈ (F.block p.k).nextBlocks :=
    hfollows.dests p.k hk inst hmem _ (by simp [ZInstruction.dests, hjump])
  have hbr := hfollows.brBlock p.k hk inst hmem hjump
  obtain ⟨hnoBr, hnext⟩ := hfollows.noBrBlock p.k hk p.pre inst p.post p.insts_eq hcond
  have hnoBrState : (p.state.graph.block p.k).noBrBlock = F.noBrAt p.k p.pre := by
    rw [Place.state, afterInsts_noBrBlock, if_pos rfl, Place.start,
      afterBlocks_noBrBlock _ (nodup_split h.sorted p.blocks_eq).2.1]
    rfl
  constructor
  · simp only [condBrCode, p.state_grown.brBlock, hbr, hnoBrState, hnoBr]
    cases brIfTrue <;> rfl
  · intro t ht
    rcases List.mem_cons.mp ht with rfl | ht
    · exact located_of_enteredNormally h hfollows henters hk hdest
        (.jump p.k p.pre inst p.post hk p.insts_eq (.inl ⟨hcond, .inl hbr⟩))
    · rw [List.mem_singleton.mp ht]
      exact located_of_enteredNormally h hfollows henters hk hnext
        (.jump p.k p.pre inst p.post hk p.insts_eq (.inl ⟨hcond, .inr hnoBr⟩))

/-- `SWITCH` goes to the entries of its table. -/
theorem switch_targets (hop : inst.opNum = .switch) (hne : inst.switchEntries ≠ []) : ∃ default,
    instCode p.state fn p.k inst = placed (p.state.last fn p.k)
        [.libCall (.getSwitchOffset (inst.arg 0)),
          .switch default (inst.switchEntries.map fun t => .ofBlock fn t 0)] ∧
      ∀ t ∈ inst.switchEntries,
        .ofBlock fn t 0 ∈ S.body fn ∧ Located F fn t (S.code (.ofBlock fn t 0)) := by
  have hk := p.mem_blocks
  have hmem := p.mem_instructions
  have hunsplit := (henters.start p.k hk).switch p.pre inst p.post p.insts_eq hop
  obtain ⟨next, entries, hentries⟩ := List.exists_cons_of_ne_nil hne
  refine ⟨p.state.last fn next, ?_, fun t ht => ?_⟩
  · have hcases : inst.switchEntries.map (p.state.last fn) =
        inst.switchEntries.map fun t => .ofBlock fn t 0 := List.map_congr_left fun t ht =>
      last_eq_first.mpr ⟨rfl, (whole_iff h.sorted p.blocks_eq p.pre _).mpr (hunsplit t ht)⟩
    rw [← hcases]
    simp only [instCode, hop, hentries, List.head?_cons, Option.toList_some, List.map_singleton]
  · have hdest : t ∈ (F.block p.k).nextBlocks := by
      refine hfollows.dests p.k hk inst hmem t ?_
      simp [ZInstruction.dests, ZInstruction.isJumpInst, ZInstruction.isPushTrap,
        ZInstruction.isSwitch, hop, ht]
    exact located_of_enteredNormally h hfollows henters hk hdest
      (.jump p.k p.pre inst p.post hk p.insts_eq (.inr (.inr ⟨hop, ht, hunsplit t ht⟩)))

end

end CamllVM
