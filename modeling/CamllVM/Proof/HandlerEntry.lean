import CamllVM.Proof.Prologues

/-!
# How handlers are entered

The prologue of a handler is executed as often as traps with this handler have been generated before
it, on every transfer to its first LLVM block. It is right if there is one such trap, and no other
transfer leads there.
-/

namespace CamllVM

variable {M : GenModule} {depth : Nat} {s : GenState} {L : OwnState} {fn : FnRef} {k t : Int}
  {i : Nat} {inst : ZInstruction} {F : GenFunction} {before after : List Int}
  {pre : List ZInstruction} {b : BasicBlock}

/-- The handler that a raise transfers control to. -/
def LlvmInst.raiseTargets : LlvmInst → List BasicBlock
  | .condBr .setJmpRes handler _ => [handler]
  | _ => []

/-- The LLVM blocks that control goes to otherwise. -/
def LlvmInst.normalTargets : LlvmInst → List BasicBlock
  | .br target => [target]
  | .condBr .setJmpRes _ second => [second]
  | .condBr _ ifTrue ifFalse => [ifTrue, ifFalse]
  | .switch default cases => default :: cases
  | _ => []

/-- Every raise to a handler executes the prologue once, and before anything else. A transfer of
control inside the function and a call of the function do not execute it. -/
structure PrologueExact (s : GenState) (fn : FnRef) : Prop where
  raise : ∀ e ∈ s.owned fn, ∀ b ∈ e.2.raiseTargets,
    handlerCalls (s.code b) = prologue ∧ handlerRuns (s.code b) = prologue
  normal : ∀ e ∈ s.owned fn, ∀ b ∈ e.2.normalTargets, handlerRuns (s.code b) = []
  entry : ∀ b, (s.body fn).head? = some b → handlerRuns (s.code b) = []

namespace OwnState

/-- The instruction transfers control to the first LLVM block of `t`, but not by a raise. -/
def JumpsTo (L : OwnState) (k : Int) (inst : ZInstruction) (t : Int) : Prop :=
  inst.isCondJump = true ∧
      ((L.graph.block k).brBlock = some t ∨ (L.graph.block k).noBrBlock = some t) ∨
    inst.opNum = .branch ∧ (L.graph.block k).brBlock = some t ∧ L.Whole t ∨
    inst.opNum = .switch ∧ t ∈ inst.switchEntries ∧ L.Whole t

end OwnState

theorem mem_nestedClosures {c : LlvmInst} {n : Nat} (hc : c ∈ nestedClosures inst i n) :
    ∃ j g, c = .libCall (.setClosureRecNestedClos j g) := by
  induction n generalizing i with
  | zero => cases hc
  | succ n ih =>
      rw [nestedClosures] at hc
      split at hc
      · rcases List.mem_cons.mp hc with rfl | hc
        · exact ⟨_, _, rfl⟩
        · exact ih hc
      · cases hc

theorem normalTargets_condBrCode {cond : BranchCond} (brIfTrue : Bool) (hcond : cond ≠ .setJmpRes) :
    (∃ c ∈ condBrCode L fn k cond brIfTrue, b ∈ c.normalTargets) ↔
      ∃ br noBr, (L.graph.block k).brBlock = some br ∧ (L.graph.block k).noBrBlock = some noBr ∧
        (b = .ofBlock fn br 0 ∨ b = .ofBlock fn noBr 0) := by
  have htargets : ∀ ifTrue ifFalse, b ∈ (LlvmInst.condBr cond ifTrue ifFalse).normalTargets ↔
      b = ifTrue ∨ b = ifFalse := by
    intro ifTrue ifFalse
    cases cond <;> simp [LlvmInst.normalTargets] at hcond ⊢
  unfold condBrCode
  cases hbr : (L.graph.block k).brBlock <;> cases hnoBr : (L.graph.block k).noBrBlock <;>
    cases brIfTrue <;> simp [htargets, or_comm]

theorem raiseTargets_condBrCode {cond : BranchCond} (brIfTrue : Bool) (hcond : cond ≠ .setJmpRes) :
    ∀ c ∈ condBrCode L fn k cond brIfTrue, c.raiseTargets = [] := by
  unfold condBrCode
  cases (L.graph.block k).brBlock <;> cases (L.graph.block k).noBrBlock <;> cases brIfTrue <;>
    cases cond <;> simp [LlvmInst.raiseTargets] at hcond ⊢

theorem last_eq_first {t' : Int} : L.last fn t' = .ofBlock fn t 0 ↔ t' = t ∧ L.Whole t := by
  rw [OwnState.last, BasicBlock.ofBlock.injEq, OwnState.Whole, ← Nat.sub_eq_zero_iff_le]
  constructor
  · rintro ⟨-, rfl, hzero⟩
    exact ⟨rfl, hzero⟩
  · rintro ⟨rfl, hzero⟩
    exact ⟨rfl, rfl, hzero⟩

/-- Only `JumpsTo` leads to a first LLVM block. -/
theorem normalTarget_instCode {e : BasicBlock × LlvmInst} (hpos : 0 < L.llvmBlocks k)
    (he : e ∈ instCode L fn k inst) (hb : b ∈ e.2.normalTargets) :
    ∃ t i, b = .ofBlock fn t i ∧ (i = 0 → L.JumpsTo k inst t) := by
  have hlast : ∀ t, (L.Whole t → L.JumpsTo k inst t) →
      ∃ t' i, L.last fn t = .ofBlock fn t' i ∧ (i = 0 → L.JumpsTo k inst t') := fun t ht =>
    ⟨t, _, rfl, fun hzero => ht ((index_last L fn t).mp hzero)⟩
  have hown : ∀ L' : OwnState, L.llvmBlocks k < L'.llvmBlocks k →
      ∃ t i, L'.last fn k = .ofBlock fn t i ∧ (i = 0 → L.JumpsTo k inst t) := fun L' hlt =>
    ⟨k, _, rfl, fun hzero => by omega⟩
  have hone := addBlock_llvmBlocks_self L k
  have htwo := addBlock_llvmBlocks_self (L.addBlock k) k
  have hnone : ∀ insts, (∀ c ∈ insts, c.normalTargets = []) → e ∉ placed (L.last fn k) insts := by
    intro insts hinsts he
    rw [hinsts _ (mem_placed.mp he).2] at hb
    cases hb
  have hcond : ∀ cond brIfTrue, cond ≠ .setJmpRes → inst.isCondJump = true →
      e ∈ placed (L.last fn k) (condBrCode L fn k cond brIfTrue) →
      ∃ t i, b = .ofBlock fn t i ∧ (i = 0 → L.JumpsTo k inst t) := by
    intro cond brIfTrue hcond hjump he
    obtain ⟨br, noBr, hbr, hnoBr, hb⟩ :=
      (normalTargets_condBrCode brIfTrue hcond).mp ⟨_, (mem_placed.mp he).2, hb⟩
    rcases hb with rfl | rfl
    · exact ⟨br, 0, rfl, fun _ => .inl ⟨hjump, .inl hbr⟩⟩
    · exact ⟨noBr, 0, rfl, fun _ => .inl ⟨hjump, .inr hnoBr⟩⟩
  unfold instCode at he
  cases hop : inst.opNum with
  | pushTrap =>
      simp only [hop, List.mem_append, mem_placed, List.mem_cons, List.not_mem_nil, or_false,
        prologue] at he
      rcases he with (⟨-, he | he | he⟩ | ⟨-, he | he⟩) | ⟨-, he⟩ <;> rw [he] at hb <;>
        simp only [LlvmInst.normalTargets, List.not_mem_nil, List.mem_singleton] at hb
      rw [hb]
      exact hown _ (by omega)
  | grab | return_ =>
      simp only [hop, List.mem_append, mem_placed, List.mem_cons, List.not_mem_nil, or_false] at he
      rcases he with (⟨-, he | he⟩ | ⟨-, he | he⟩) | ⟨-, he⟩ <;> rw [he] at hb <;>
        simp only [LlvmInst.normalTargets, List.not_mem_nil, List.mem_cons, or_false] at hb
      rcases hb with hb | hb <;> rw [hb] <;> exact hown _ (by omega)
  | closureRec =>
      simp only [hop] at he
      refine (hnone _ (List.forall_mem_cons.mpr ⟨rfl, fun c hc => ?_⟩) he).elim
      obtain ⟨j, g, rfl⟩ := mem_nestedClosures hc
      rfl
  | branch =>
      simp only [hop, mem_placed, List.mem_map, Option.mem_toList] at he
      obtain ⟨-, br, hbr, he⟩ := he
      rw [← he, LlvmInst.normalTargets, List.mem_singleton] at hb
      rw [hb]
      exact hlast br fun hwhole => .inr (.inl ⟨hop, hbr, hwhole⟩)
  | switch =>
      simp only [hop, mem_placed, List.mem_cons, List.mem_map, Option.mem_toList] at he
      obtain ⟨-, he | ⟨next, hnext, he⟩⟩ := he
      · rw [he] at hb
        cases hb
      · rw [← he, LlvmInst.normalTargets, List.mem_cons, List.mem_map] at hb
        have hswitch : ∀ dest ∈ inst.switchEntries,
            ∃ t i, L.last fn dest = .ofBlock fn t i ∧ (i = 0 → L.JumpsTo k inst t) :=
          fun dest hdest => hlast dest fun hwhole => .inr (.inr ⟨hop, hdest, hwhole⟩)
        rcases hb with rfl | ⟨dest, hdest, rfl⟩
        · exact hswitch next (List.mem_of_mem_head? hnext)
        · exact hswitch dest hdest
  | branchIf | branchIfNot | beq | bneq | bltInt | bleInt | bgtInt | bgeInt | bultInt | bugeInt =>
      simp only [hop] at he
      refine hcond _ _ ?_ ?_ he
      · rintro ⟨⟩
      · simp [ZInstruction.isCondJump, ZInstruction.isJumpInst, hop]
  | restart | event | break_ | checkSignals =>
      simp only [hop] at he
      cases he
  | _ =>
      simp only [hop] at he
      exact (hnone _ (by simp [LlvmInst.normalTargets]) he).elim

theorem exists_normalTarget_instCode (hgen : L.Generates k inst) (ht : L.JumpsTo k inst t) :
    ∃ e ∈ instCode L fn k inst, .ofBlock fn t 0 ∈ e.2.normalTargets := by
  have hlast : L.Whole t → .ofBlock fn t 0 = L.last fn t := fun hwhole =>
    (last_eq_first.mpr ⟨rfl, hwhole⟩).symm
  have hcond : ∀ cond brIfTrue, cond ≠ .setJmpRes → (L.graph.block k).brBlock.isSome ∧
      (L.graph.block k).noBrBlock.isSome →
      (L.graph.block k).brBlock = some t ∨ (L.graph.block k).noBrBlock = some t →
      ∃ e ∈ placed (L.last fn k) (condBrCode L fn k cond brIfTrue),
        .ofBlock fn t 0 ∈ e.2.normalTargets := by
    intro cond brIfTrue hcond hsome ht
    obtain ⟨br, hbr⟩ := Option.isSome_iff_exists.mp hsome.1
    obtain ⟨noBr, hnoBr⟩ := Option.isSome_iff_exists.mp hsome.2
    have htarget : BasicBlock.ofBlock fn t 0 = .ofBlock fn br 0 ∨
        BasicBlock.ofBlock fn t 0 = .ofBlock fn noBr 0 := by
      rw [hbr, hnoBr] at ht
      exact ht.imp (fun h => by rw [Option.some.inj h]) fun h => by rw [Option.some.inj h]
    obtain ⟨c, hc, hb⟩ := (normalTargets_condBrCode brIfTrue hcond).mpr ⟨br, noBr, hbr, hnoBr, htarget⟩
    exact ⟨_, List.mem_map_of_mem hc, hb⟩
  rcases ht with ⟨hjump, ht⟩ | ⟨hop, ht, hwhole⟩ | ⟨hop, ht, hwhole⟩
  · unfold OwnState.Generates at hgen
    unfold instCode
    cases hop : inst.opNum with
    | branchIf | branchIfNot | beq | bneq | bltInt | bleInt | bgtInt | bgeInt | bultInt | bugeInt =>
        simp only [hop] at hgen
        refine hcond _ _ ?_ hgen ht
        rintro ⟨⟩
    | _ => simp [ZInstruction.isCondJump, ZInstruction.isJumpInst, hop] at hjump
  · simp [instCode, hop, ht, LlvmInst.normalTargets, hlast hwhole]
  · obtain ⟨next, entries, hentries⟩ := List.exists_cons_of_ne_nil (List.ne_nil_of_mem ht)
    refine ⟨(L.last fn k, .switch (L.last fn next) (inst.switchEntries.map (L.last fn))), ?_, ?_⟩
    · simp [instCode, hop, hentries]
    · rw [LlvmInst.normalTargets, hlast hwhole]
      exact List.mem_cons_of_mem _ (List.mem_map_of_mem ht)

/-- A raise leads to the first LLVM block of a handler. -/
theorem raiseTarget_instCode {e : BasicBlock × LlvmInst} (he : e ∈ instCode L fn k inst)
    (hb : b ∈ e.2.raiseTargets) : inst.opNum = .pushTrap ∧ b = .ofBlock fn (inst.arg 0) 0 := by
  have hnone : ∀ insts, (∀ c ∈ insts, c.raiseTargets = []) → e ∉ placed (L.last fn k) insts := by
    intro insts hinsts he
    rw [hinsts _ (mem_placed.mp he).2] at hb
    cases hb
  unfold instCode at he
  cases hop : inst.opNum with
  | pushTrap =>
      simp only [hop, List.mem_append, mem_placed, List.mem_cons, List.not_mem_nil, or_false,
        prologue] at he
      rcases he with (⟨-, he | he | he⟩ | ⟨-, he | he⟩) | ⟨-, he⟩ <;> rw [he] at hb <;>
        simp only [LlvmInst.raiseTargets, List.not_mem_nil, List.mem_singleton] at hb
      exact ⟨rfl, hb⟩
  | grab | return_ =>
      simp only [hop, List.mem_append, mem_placed, List.mem_cons, List.not_mem_nil, or_false] at he
      rcases he with (⟨-, he | he⟩ | ⟨-, he | he⟩) | ⟨-, he⟩ <;> rw [he] at hb <;> cases hb
  | closureRec =>
      simp only [hop] at he
      refine (hnone _ (List.forall_mem_cons.mpr ⟨rfl, fun c hc => ?_⟩) he).elim
      obtain ⟨j, g, rfl⟩ := mem_nestedClosures hc
      rfl
  | branchIf | branchIfNot | beq | bneq | bltInt | bleInt | bgtInt | bgeInt | bultInt | bugeInt =>
      simp only [hop] at he
      refine (hnone _ (raiseTargets_condBrCode _ ?_) he).elim
      rintro ⟨⟩
  | restart | event | break_ | checkSignals =>
      simp only [hop] at he
      cases he
  | _ =>
      simp only [hop] at he
      exact (hnone _ (by simp [LlvmInst.raiseTargets]) he).elim

theorem exists_raiseTarget_instCode (hop : inst.opNum = .pushTrap) :
    ∃ e ∈ instCode L fn k inst, .ofBlock fn (inst.arg 0) 0 ∈ e.2.raiseTargets := by
  simp [instCode, hop, LlvmInst.raiseTargets]

/-! ### The graph when a jump is generated -/

theorem after_noBrBlock (L : OwnState) (j : Int) (inst : ZInstruction) (k : Int) :
    ((L.after j inst).graph.block k).noBrBlock =
      ((if k = j ∧ inst.isSwitch then inst.switchEntries.head? else none).or
        (L.graph.block k).noBrBlock) := by
  unfold OwnState.after
  cases hop : inst.opNum <;> simp [ZInstruction.isSwitch, hop]
  cases inst.switchEntries.head? with
  | none => simp
  | some next =>
      dsimp only [OwnState.setNext]
      rw [GenFunction.setNext_block]
      by_cases hk : k = j <;> simp [hk]

theorem afterInsts_noBrBlock (L : OwnState) (j : Int) (insts : List ZInstruction) (k : Int) :
    ((L.afterInsts j insts).graph.block k).noBrBlock =
      ((if k = j then ((insts.filter (·.isSwitch)).filterMap (·.switchEntries.head?)).getLast?
        else none).or (L.graph.block k).noBrBlock) := by
  induction insts generalizing L with
  | nil => simp [OwnState.afterInsts]
  | cons inst insts ih =>
      rw [OwnState.afterInsts, ih, after_noBrBlock]
      by_cases hk : k = j
      · cases hswitch : inst.isSwitch with
        | false => simp [hk, hswitch]
        | true =>
            cases hhead : inst.switchEntries.head? <;>
              simp [hk, hswitch, hhead, List.getLast?_cons]
      · simp [hk]

theorem afterBlocks_noBrBlock (L : OwnState) {ks : List Int} (hk : k ∉ ks) :
    ((L.afterBlocks ks).graph.block k).noBrBlock = (L.graph.block k).noBrBlock := by
  induction ks generalizing L with
  | nil => rfl
  | cons j ks ih =>
      obtain ⟨hne, hk⟩ := not_or.mp (List.mem_cons.not.mp hk)
      rw [OwnState.afterBlocks, ih _ hk, OwnState.afterBlock, afterInsts_noBrBlock, if_neg hne,
        Option.none_or]

namespace GenFunction

/-- `NoBrBlock` of block `k` when its instructions `pre` have been generated. -/
def noBrAt (F : GenFunction) (k : Int) (pre : List ZInstruction) : Option Int :=
  ((pre.filter (·.isSwitch)).filterMap (·.switchEntries.head?)).getLast?.or (F.block k).noBrBlock

/-- The instruction behind `pre` transfers control to the first LLVM block of `t`, but not by a
raise. -/
def JumpsTo (F : GenFunction) (k : Int) (pre : List ZInstruction) (inst : ZInstruction) (t : Int) :
    Prop :=
  inst.isCondJump = true ∧ ((F.block k).brBlock = some t ∨ F.noBrAt k pre = some t) ∨
    inst.opNum = .branch ∧ (F.block k).brBlock = some t ∧ F.Unsplit k pre t ∨
    inst.opNum = .switch ∧ t ∈ inst.switchEntries ∧ F.Unsplit k pre t

/-- The end of block `k` transfers control to the first LLVM block of `t`. -/
def RunsInto (F : GenFunction) (k t : Int) : Prop :=
  ∃ lastInst, (F.block k).instructions.getLast? = some lastInst ∧
    (lastInst.isJumpInst || lastInst.isReturn || lastInst.isSwitch) = false ∧
    (F.endSuccessors k).head? = some t ∧ F.Unsplit k (F.block k).instructions t

/-- Control enters `t` at the beginning by a jump or by falling through. -/
inductive EnteredNormally (F : GenFunction) (t : Int) : Prop where
  | jump (k : Int) (pre : List ZInstruction) (inst : ZInstruction) (post : List ZInstruction)
      (hk : k ∈ F.blocks) (hinsts : (F.block k).instructions = pre ++ inst :: post)
      (h : F.JumpsTo k pre inst t)
  | fall (k : Int) (hk : k ∈ F.blocks) (h : F.RunsInto k t)

/-- Every trap is the only one with its handler that is generated before the handler, it is not in
the handler, and control does not enter the handler otherwise. -/
def ExactTraps (F : GenFunction) : Prop :=
  ∀ k ∈ F.blocks, ∀ inst ∈ (F.block k).instructions, inst.opNum = .pushTrap →
    inst.arg 0 ≠ k ∧ F.namedBefore (inst.arg 0) = 1 ∧ ¬F.EnteredNormally (inst.arg 0)

end GenFunction

theorem jumpsTo_iff (hsorted : F.blocks.Pairwise (· < ·)) (hblocks : F.blocks = before ++ k :: after) :
    (((OwnState.start F).afterBlocks before).afterInsts k pre).JumpsTo k inst t ↔
      F.JumpsTo k pre inst t := by
  have hgrown := ((OwnState.start F).afterBlocks_grown before).trans
    (((OwnState.start F).afterBlocks before).afterInsts_grown k pre)
  rw [OwnState.JumpsTo, hgrown.brBlock, afterInsts_noBrBlock, if_pos rfl,
    afterBlocks_noBrBlock _ (nodup_split hsorted hblocks).2.1, whole_iff hsorted hblocks]
  rfl

/-! ### The transfers of a function -/

/-- What a function creates is created for its restart function, at the start of a block, for an
instruction or at the end of a block. -/
theorem mem_functionCode {e : BasicBlock × LlvmInst} : e ∈ functionCode F fn ↔
    e ∈ restartCode F fn ∨ ∃ before k after, F.blocks = before ++ k :: after ∧
      (e ∈ initCode ((OwnState.start F).afterBlocks before) fn k ∨
        (∃ pre inst post, (F.block k).instructions = pre ++ inst :: post ∧
          e ∈ instCode (((OwnState.start F).afterBlocks before).afterInsts k pre) fn k inst) ∨
        e ∈ termCode (((OwnState.start F).afterBlocks before).afterBlock k) fn k) := by
  rw [functionCode, List.mem_append, mem_blocksCode]
  refine or_congr_right (exists_congr fun before => exists_congr fun k => exists_congr fun after =>
    and_congr_right fun _ => ?_)
  rw [blockCode, List.mem_append, List.mem_append, mem_instsCode,
    ((OwnState.start F).afterBlocks_grown before).instructions, or_assoc]
  rfl

theorem endSuccessors_eq (hsorted : F.blocks.Pairwise (· < ·))
    (hblocks : F.blocks = before ++ k :: after) :
    ((((OwnState.start F).afterBlocks before).afterBlock k).graph.block k).nextBlocks =
      F.endSuccessors k := by
  rw [OwnState.afterBlock, afterInsts_nextBlocks, if_pos rfl,
    ((OwnState.start F).afterBlocks_grown before).instructions,
    afterBlocks_nextBlocks _ (nodup_split hsorted hblocks).2.1]
  rfl

theorem mem_termCode {e : BasicBlock × LlvmInst} : e ∈ termCode L fn k ↔
    ∃ lastInst next, (L.graph.block k).instructions.getLast? = some lastInst ∧
      (lastInst.isJumpInst || lastInst.isReturn || lastInst.isSwitch) = false ∧
      (L.graph.block k).nextBlocks.head? = some next ∧ e = (L.last fn k, .br (L.last fn next)) := by
  constructor
  · intro he
    unfold termCode at he
    cases hlast : (L.graph.block k).instructions.getLast? with
    | none =>
        rw [hlast] at he
        cases he
    | some lastInst =>
        simp only [hlast] at he
        cases hends : lastInst.isJumpInst || lastInst.isReturn || lastInst.isSwitch with
        | true =>
            rw [if_pos hends] at he
            cases he
        | false =>
            simp only [hends, Bool.false_eq_true, if_false, mem_placed, List.mem_map,
              Option.mem_toList] at he
            obtain ⟨hb, next, hnext, hinst⟩ := he
            exact ⟨lastInst, next, rfl, hends, hnext, Prod.ext hb hinst.symm⟩
  · rintro ⟨lastInst, next, hlast, hends, hnext, rfl⟩
    simp only [termCode, hlast, hends, hnext, Bool.false_eq_true, if_false, Option.toList_some,
      List.map_singleton]
    exact List.mem_singleton_self _

theorem runsInto_iff (hsorted : F.blocks.Pairwise (· < ·))
    (hblocks : F.blocks = before ++ k :: after) :
    F.RunsInto k t ↔ ∃ e ∈ termCode (((OwnState.start F).afterBlocks before).afterBlock k) fn k,
      .ofBlock fn t 0 ∈ e.2.normalTargets := by
  let L := ((OwnState.start F).afterBlocks before).afterBlock k
  have hbefore := (OwnState.start F).afterBlocks_grown before
  have hgrown : GrownFrom F L.graph := hbefore.trans (OwnState.afterBlock_grown _ k)
  have hwhole : L.Whole t ↔ F.Unsplit k (F.block k).instructions t := by
    have hinsts : (((OwnState.start F).afterBlocks before).graph.block k).instructions =
        (F.block k).instructions := hbefore.instructions k
    rw [← whole_iff hsorted hblocks, ← hinsts]
    rfl
  constructor
  · rintro ⟨lastInst, hlast, hends, hnext, hunsplit⟩
    refine ⟨_, mem_termCode.mpr ⟨lastInst, t, ?_, hends, ?_, rfl⟩, ?_⟩
    · rw [hgrown.instructions, hlast]
    · rw [endSuccessors_eq hsorted hblocks, hnext]
    · rw [LlvmInst.normalTargets, List.mem_singleton, eq_comm]
      exact last_eq_first.mpr ⟨rfl, hwhole.mpr hunsplit⟩
  · rintro ⟨e, he, htarget⟩
    obtain ⟨lastInst, next, hlast, hends, hnext, rfl⟩ := mem_termCode.mp he
    rw [LlvmInst.normalTargets, List.mem_singleton, eq_comm] at htarget
    obtain ⟨rfl, hnextWhole⟩ := last_eq_first.mp htarget
    rw [hgrown.instructions] at hlast
    rw [endSuccessors_eq hsorted hblocks] at hnext
    exact ⟨lastInst, hlast, hends, hnext, hwhole.mp hnextWhole⟩

theorem generates_at {post : List ZInstruction}
    (hgen : (OwnState.start F).GeneratesBlocks F.blocks) (hblocks : F.blocks = before ++ k :: after)
    (hinsts : (F.block k).instructions = pre ++ inst :: post) :
    (((OwnState.start F).afterBlocks before).afterInsts k pre).Generates k inst := by
  have hblock : (((OwnState.start F).afterBlocks before).graph.block k).instructions =
      pre ++ inst :: post :=
    (((OwnState.start F).afterBlocks_grown before).instructions k).trans hinsts
  rw [hblocks, generatesBlocks_append] at hgen
  have hblockGen := hgen.2.1.1
  rw [hblock, generatesInsts_append] at hblockGen
  exact hblockGen.2.1

theorem llvmBlocks_pos (hsorted : F.blocks.Pairwise (· < ·))
    (hblocks : F.blocks = before ++ k :: after) (pre : List ZInstruction) :
    0 < (((OwnState.start F).afterBlocks before).afterInsts k pre).llvmBlocks k := by
  rw [afterInsts_llvmBlocks_self, llvmBlocks_before hsorted hblocks]
  omega

theorem normalTarget_functionCode (hsorted : F.blocks.Pairwise (· < ·))
    {e : BasicBlock × LlvmInst} (he : e ∈ functionCode F fn) (hb : b ∈ e.2.normalTargets) :
    ∃ t i, b = .ofBlock fn t i ∧ (i = 0 → F.EnteredNormally t) := by
  rcases mem_functionCode.mp he with he | ⟨before, k, after, hblocks, he⟩
  · unfold restartCode at he
    split at he <;> simp only [mem_placed, List.mem_cons, List.not_mem_nil, or_false, and_false] at he
    rcases he.2 with he | he | he <;> rw [he] at hb <;> cases hb
  · have hk : k ∈ F.blocks := hblocks ▸ List.mem_append_right _ List.mem_cons_self
    rcases he with he | ⟨pre, inst, post, hinsts, he⟩ | he
    · unfold initCode at he
      split at he <;> simp only [mem_placed, List.mem_cons, List.not_mem_nil, or_false,
        and_false] at he
      rw [he.2] at hb
      cases hb
    · obtain ⟨t, i, rfl, hjump⟩ := normalTarget_instCode (llvmBlocks_pos hsorted hblocks pre) he hb
      exact ⟨t, i, rfl, fun hi =>
        .jump k pre inst post hk hinsts ((jumpsTo_iff hsorted hblocks).mp (hjump hi))⟩
    · obtain ⟨lastInst, next, -, -, -, hbr⟩ := mem_termCode.mp he
      have htarget := hb
      rw [hbr, LlvmInst.normalTargets, List.mem_singleton] at htarget
      refine ⟨next, _, htarget, fun hi => .fall k hk ((runsInto_iff hsorted hblocks).mpr ⟨e, he, ?_⟩)⟩
      rwa [← hi, ← OwnState.last, ← htarget]

theorem exists_normalTarget_functionCode (hsorted : F.blocks.Pairwise (· < ·))
    (hgen : (OwnState.start F).GeneratesBlocks F.blocks) (ht : F.EnteredNormally t) :
    ∃ e ∈ functionCode F fn, .ofBlock fn t 0 ∈ e.2.normalTargets := by
  cases ht with
  | jump k pre inst post hk hinsts hjump =>
      obtain ⟨before, after, hblocks⟩ := List.append_of_mem hk
      obtain ⟨e, he, htarget⟩ : ∃ e ∈ instCode _ fn k inst, _ := exists_normalTarget_instCode
        (generates_at hgen hblocks hinsts) ((jumpsTo_iff hsorted hblocks).mpr hjump)
      exact ⟨e, mem_functionCode.mpr
        (.inr ⟨before, k, after, hblocks, .inr (.inl ⟨pre, inst, post, hinsts, he⟩)⟩), htarget⟩
  | fall k hk hfall =>
      obtain ⟨before, after, hblocks⟩ := List.append_of_mem hk
      obtain ⟨e, he, htarget⟩ := (@runsInto_iff fn k t F before after hsorted hblocks).mp hfall
      exact ⟨e, mem_functionCode.mpr
        (.inr ⟨before, k, after, hblocks, .inr (.inr he)⟩), htarget⟩

theorem raiseTarget_functionCode {e : BasicBlock × LlvmInst} (he : e ∈ functionCode F fn)
    (hb : b ∈ e.2.raiseTargets) : ∃ k ∈ F.blocks, ∃ inst ∈ (F.block k).instructions,
      inst.opNum = .pushTrap ∧ b = .ofBlock fn (inst.arg 0) 0 := by
  rcases mem_functionCode.mp he with he | ⟨before, k, after, hblocks, he⟩
  · unfold restartCode at he
    split at he <;> simp only [mem_placed, List.mem_cons, List.not_mem_nil, or_false, and_false] at he
    rcases he.2 with he | he | he <;> rw [he] at hb <;> cases hb
  · rcases he with he | ⟨pre, inst, post, hinsts, he⟩ | he
    · unfold initCode at he
      split at he <;> simp only [mem_placed, List.mem_cons, List.not_mem_nil, or_false,
        and_false] at he
      rw [he.2] at hb
      cases hb
    · exact ⟨k, hblocks ▸ List.mem_append_right _ List.mem_cons_self, inst,
        hinsts ▸ List.mem_append_right _ List.mem_cons_self, raiseTarget_instCode he hb⟩
    · obtain ⟨lastInst, next, -, -, -, rfl⟩ := mem_termCode.mp he
      cases hb

/-! ### Traps -/

theorem namedBy_pos {insts : List ZInstruction} :
    0 < namedBy insts t ↔ ∃ inst ∈ insts, inst.opNum = .pushTrap ∧ inst.arg 0 = t := by
  simp [namedBy, List.countP_pos_iff]

theorem exists_trap_of_namedBefore (h : F.namedBefore t ≠ 0) :
    ∃ k ∈ F.blocks, ∃ inst ∈ (F.block k).instructions, inst.opNum = .pushTrap ∧ inst.arg 0 = t := by
  by_contra hnone
  refine h (List.sum_eq_zero fun n hn => ?_)
  obtain ⟨k, hk, rfl⟩ := List.mem_map.mp hn
  by_contra hpos
  exact hnone ⟨k, List.mem_of_mem_filter hk, namedBy_pos.mp (Nat.pos_of_ne_zero hpos)⟩

theorem handler_mem (hgen : (OwnState.start F).GeneratesBlocks F.blocks) (hk : k ∈ F.blocks)
    (hinst : inst ∈ (F.block k).instructions) (hop : inst.opNum = .pushTrap) :
    inst.arg 0 ∈ F.blocks := by
  obtain ⟨before, after, hblocks⟩ := List.append_of_mem hk
  obtain ⟨pre, post, hinsts⟩ := List.append_of_mem hinst
  have hgenInst := generates_at hgen hblocks hinsts
  have hgrown := ((OwnState.start F).afterBlocks_grown before).trans
    (((OwnState.start F).afterBlocks before).afterInsts_grown k pre)
  rw [OwnState.Generates, hop] at hgenInst
  exact hgrown.blocks ▸ hgenInst

theorem handlerRuns_of_not_mem (hgen : (OwnState.start F).GeneratesBlocks F.blocks)
    (ht : t ∉ F.blocks) (i : Nat) :
    handlerRuns (codeAt (functionCode F fn) (.ofBlock fn t i)) = [] := by
  have hnone : ((F.blocks.map fun k => namedBy (F.block k).instructions t)).sum = 0 := by
    refine List.sum_eq_zero fun n hn => ?_
    obtain ⟨k, hk, rfl⟩ := List.mem_map.mp hn
    by_contra hpos
    obtain ⟨inst, hinst, hop, rfl⟩ := namedBy_pos.mp (Nat.pos_of_ne_zero hpos)
    exact ht (handler_mem hgen hk hinst hop)
  have hrestart : codeAt (restartCode F fn) (.ofBlock fn t i) = [] := by
    rw [restartCode, codeAt_placed, if_neg]
    rintro ⟨⟩
  rw [functionCode, codeAt_append, hrestart, codeAt_blocksCode ht]
  simp only [OwnState.start, hnone]
  split <;> rfl

theorem index_lt_instCode {e : BasicBlock × LlvmInst} (hpos : 0 < L.llvmBlocks k)
    (he : e ∈ instCode L fn k inst) (hb : e.1 = .ofBlock fn k i) :
    i < (L.after k inst).llvmBlocks k := by
  have hafter : (L.after k inst).llvmBlocks k = L.llvmBlocks k + OwnState.added inst := by
    rw [OwnState.after_llvmBlocks, Function.update_self]
  rcases mem_instCode he with ⟨hof, hown⟩ | ⟨htrap, he⟩
  · have hmem : e ∈ ownCode fn k (instCode L fn k inst) :=
      List.mem_filter.mpr ⟨he, decide_eq_true ⟨hof, hown⟩⟩
    have hindex := ((inOrder_instCode L fn k inst hpos).bounds e hmem).2
    rw [hb, BasicBlock.index] at hindex
    omega
  · have hlast := (mem_placed.mp he).1.symm.trans hb
    rw [OwnState.last, BasicBlock.ofBlock.injEq] at hlast
    obtain ⟨-, hself, hindex⟩ := hlast
    rw [hself, addBlock_llvmBlocks_self] at hindex
    simp only [OwnState.added, htrap] at hafter
    omega

/-- The block that a trap adds begins with the prologue if it is the handler of the trap. -/
theorem codeAt_self_trap {post : List ZInstruction} (hpos : 0 < L.llvmBlocks k)
    (hinsts : (L.graph.block k).instructions = pre ++ inst :: post) (hop : inst.opNum = .pushTrap)
    (hself : inst.arg 0 = k) : ∃ rest,
      codeAt (blockCode L fn k) (.ofBlock fn k ((L.afterInsts k pre).llvmBlocks k)) =
        prologue ++ rest := by
  have hcount := afterInsts_llvmBlocks_self L k pre
  have hinit : codeAt (initCode L fn k) (.ofBlock fn k ((L.afterInsts k pre).llvmBlocks k)) = [] := by
    refine codeAt_eq_nil fun e he hb => ?_
    have hindex := ((inOrder_initCode L fn k).bounds e he).2
    rw [hb, BasicBlock.index] at hindex
    omega
  have hpre : codeAt (instsCode L fn k pre) (.ofBlock fn k ((L.afterInsts k pre).llvmBlocks k)) = [] := by
    refine codeAt_eq_nil fun e he hb => ?_
    obtain ⟨pre', inst', post', rfl, hcode⟩ := mem_instsCode.mp he
    have hposInst : 0 < (L.afterInsts k pre').llvmBlocks k := by
      rw [afterInsts_llvmBlocks_self]
      omega
    have hlt := index_lt_instCode hposInst hcode hb
    rw [OwnState.afterInsts_append] at hlt
    have hle := afterInsts_llvmBlocks_self ((L.afterInsts k pre').after k inst') k post'
    rw [OwnState.afterInsts] at hlt
    omega
  have hlast : ∀ L' : OwnState, L'.llvmBlocks k - 1 ≠ (L.afterInsts k pre).llvmBlocks k →
      L'.last fn k ≠ .ofBlock fn k ((L.afterInsts k pre).llvmBlocks k) := fun L' hne h =>
    hne (BasicBlock.ofBlock.inj h).2.2
  have hsecond : ((L.afterInsts k pre).addBlock k).last fn k =
      .ofBlock fn k ((L.afterInsts k pre).llvmBlocks k) := by
    rw [OwnState.last, addBlock_llvmBlocks_self, Nat.add_sub_cancel]
  rw [blockCode, codeAt_append, codeAt_append, hinit, hinsts, instsCode_append, codeAt_append, hpre,
    instsCode, codeAt_append]
  simp only [instCode, hop, hself, codeAt_append, codeAt_placed, if_pos hsecond,
    if_neg (hlast (L.afterInsts k pre) (by omega)), List.nil_append, List.append_assoc]
  exact ⟨_, rfl⟩

/-! ### Exactly once -/

theorem body_head (hsorted : F.blocks.Pairwise (· < ·)) (h : (functionBody F fn).head? = some b) :
    ∃ k ∈ F.blocks, b = .ofBlock fn k 0 ∧ F.namedBefore k = 0 := by
  cases hblocks : F.blocks with
  | nil =>
      rw [functionBody, hblocks] at h
      cases h
  | cons k ks =>
      have hcount : ((OwnState.start F).afterBlock k).llvmBlocks k = 1 + _ :=
        afterInsts_llvmBlocks_self (OwnState.start F) k _
      refine ⟨k, List.mem_cons_self, ?_, ?_⟩
      · rw [functionBody, hblocks, blocksBody, hcount, Nat.add_comm, List.range_succ_eq_map] at h
        exact (Option.some.inj h).symm
      · rw [GenFunction.namedBefore, show F.blocks.filter (· < k) = [] from
          filter_lt_of_sorted hsorted hblocks]
        rfl

/-- The prologue is executed once by every raise to a handler and not otherwise if and only if the
traps of the function are exact. -/
theorem prologueExact_iff (hcode : codeGen M depth .main (.start M) = some s)
    (hfn : fn ∈ s.generated) (hsorted : (M.function fn).blocks.Pairwise (· < ·)) :
    PrologueExact s fn ↔ (M.function fn).ExactTraps := by
  let F := M.function fn
  obtain ⟨howned, hbody, hgen, -⟩ := (codeGen_main hcode).1.complete fn hfn List.not_mem_nil
  have hblock : ∀ t i, s.code (.ofBlock fn t i) = codeAt (functionCode F fn) (.ofBlock fn t i) :=
    fun t i => by rw [s.code_eq, BasicBlock.owner, howned]
  constructor
  · intro hexact k hk inst hinst hop
    have hhandler := handler_mem hgen hk hinst hop
    obtain ⟨before, after, hblocks⟩ := List.append_of_mem hk
    obtain ⟨pre, post, hinsts⟩ := List.append_of_mem hinst
    have hraise : handlerCalls (s.code (.ofBlock fn (inst.arg 0) 0)) = prologue ∧
        handlerRuns (s.code (.ofBlock fn (inst.arg 0) 0)) = prologue := by
      obtain ⟨e, he, hb⟩ : ∃ e ∈ instCode
          (((OwnState.start F).afterBlocks before).afterInsts k pre) fn k inst, _ :=
        exists_raiseTarget_instCode hop
      refine hexact.raise e ?_ _ hb
      rw [howned]
      exact mem_functionCode.mpr
        (.inr ⟨before, k, after, hblocks, .inr (.inl ⟨pre, inst, post, hinsts, he⟩)⟩)
    refine ⟨fun hself => ?_, ?_, fun hentered => ?_⟩
    · let L := (OwnState.start F).afterBlocks before
      have hblockInsts : (L.graph.block k).instructions = pre ++ inst :: post :=
        (((OwnState.start F).afterBlocks_grown before).instructions k).trans hinsts
      have hpos : 0 < (L.afterInsts k pre).llvmBlocks k := llvmBlocks_pos hsorted hblocks pre
      obtain ⟨rest, hself⟩ : ∃ rest, codeAt (blockCode L fn k) _ = prologue ++ rest :=
        codeAt_self_trap (by rw [llvmBlocks_before hsorted hblocks]; exact Nat.one_pos) hblockInsts
          hop hself
      obtain ⟨rest', hcodeAt, -⟩ : ∃ rest', codeAt (functionCode F fn) _ = _ ∧ _ :=
        codeAt_functionCode hsorted hblocks ((L.afterInsts k pre).llvmBlocks k)
      have hnormal := hexact.normal (((L.afterInsts k pre).last fn k),
        .condBr .setJmpRes (.ofBlock fn (inst.arg 0) 0) (((L.afterInsts k pre).addBlock k).last fn k))
        (by
          rw [howned]
          refine mem_functionCode.mpr
            (.inr ⟨before, k, after, hblocks, .inr (.inl ⟨pre, inst, post, hinsts, ?_⟩)⟩)
          simp [instCode, hop, L, F]) _ (List.mem_singleton_self _)
      rw [OwnState.last, addBlock_llvmBlocks_self, Nat.add_sub_cancel, hblock, hcodeAt, if_neg hpos.ne',
        hself, List.append_assoc] at hnormal
      cases hnormal
    · rw [hblock, handlerCalls_functionCode hsorted hgen hhandler] at hraise
      exact (prologues_eq_prologue _).mp hraise.1
    · obtain ⟨e, he, hb⟩ := exists_normalTarget_functionCode hsorted hgen hentered
      have hnormal := hexact.normal e (howned ▸ he) _ hb
      rw [hraise.2] at hnormal
      cases hnormal
  · intro htraps
    have hruns : ∀ t ∈ F.blocks, ∀ i, handlerRuns (s.code (.ofBlock fn t i)) =
        prologues (if i = 0 then F.namedBefore t else 0) := fun t ht i => by
      rw [hblock, handlerRuns_functionCode hsorted hgen ht fun inst hinst hop =>
        (htraps t ht inst hinst hop).1]
    refine ⟨fun e he b hb => ?_, fun e he b hb => ?_, fun b hb => ?_⟩
    · rw [howned] at he
      obtain ⟨k, hk, inst, hinst, hop, rfl⟩ := raiseTarget_functionCode he hb
      have hhandler := handler_mem hgen hk hinst hop
      rw [hruns _ hhandler, hblock, handlerCalls_functionCode hsorted hgen hhandler, if_pos rfl,
        (htraps k hk inst hinst hop).2.1]
      exact ⟨rfl, rfl⟩
    · rw [howned] at he
      obtain ⟨t, i, rfl, hentered⟩ := normalTarget_functionCode hsorted he hb
      by_cases ht : t ∈ F.blocks
      · have hzero : (if i = 0 then F.namedBefore t else 0) = 0 := by
          rw [ite_eq_right_iff]
          intro hi
          by_contra hnamed
          obtain ⟨k, hk, inst, hinst, hop, rfl⟩ := exists_trap_of_namedBefore hnamed
          exact (htraps k hk inst hinst hop).2.2 (hentered hi)
        rw [hruns t ht, hzero]
        rfl
      · rw [hblock, handlerRuns_of_not_mem hgen ht]
    · rw [hbody] at hb
      obtain ⟨k, hk, rfl, hnamed⟩ := body_head hsorted hb
      rw [hruns k hk, if_pos rfl, hnamed]
      rfl

/-- Two traps with one handler. -/
def sharedHandler : List ZInstruction :=
  [{ ZInstruction.ofArgs .pushTrap 3 0 with idx := 0, annotation := .blockStart },
    { ZInstruction.ofArgs .pushTrap 3 0 with idx := 1 },
    { ZInstruction.blank .stop with idx := 2 },
    { ZInstruction.blank .stop with idx := 3, annotation := .blockStart }]

def sharedHandlerModule : GenModule :=
  ⟨[], ((GenFunction.new 0 0).buildBlocks sharedHandler).getD (.new 0 0)⟩

def sharedHandlerState : GenState :=
  (codeGen sharedHandlerModule 1 .main (.start sharedHandlerModule)).getD (.start sharedHandlerModule)

theorem prologueExact_iff_sharedHandler :
    PrologueExact sharedHandlerState .main ↔ (sharedHandlerModule.function .main).ExactTraps :=
  @prologueExact_iff _ 1 _ _ rfl (by decide) (by decide)

/-- Every raise pops two traps. -/
theorem not_prologueExact_sharedHandler :
    generateFunction (.new 0 0) sharedHandler = some (sharedHandlerModule.function .main) ∧
      codeGen sharedHandlerModule 1 .main (.start sharedHandlerModule) = some sharedHandlerState ∧
      (.ofBlock .main 0 0, .condBr .setJmpRes (.ofBlock .main 3 0) (.ofBlock .main 0 1)) ∈
        sharedHandlerState.owned .main ∧
      handlerRuns (sharedHandlerState.code (.ofBlock .main 3 0)) = prologue ++ prologue ∧
      ¬PrologueExact sharedHandlerState .main := by
  have hmem : (.ofBlock .main 0 0, .condBr .setJmpRes (.ofBlock .main 3 0) (.ofBlock .main 0 1)) ∈
      sharedHandlerState.owned .main := by decide +kernel
  have hruns : handlerRuns (sharedHandlerState.code (.ofBlock .main 3 0)) = prologue ++ prologue := by
    decide +kernel
  refine ⟨GenFunction.generateFunction_of_finished rfl (by decide), rfl, hmem, hruns, fun h => ?_⟩
  have honce := (h.raise _ hmem _ (List.mem_singleton_self _)).2
  rw [hruns] at honce
  cases honce

end CamllVM
