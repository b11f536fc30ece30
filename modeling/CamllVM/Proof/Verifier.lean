import CamllVM.Proof.TerminatedBlocks
import CamllVM.Proof.Compilation

/-!
# What `verifyFunction` finds

`CodeGen` of a function ends with `verifyFunction`, which ends the program if the LLVM function is not
well formed. The types of the instructions and the order of definitions and uses are the same in all
code of an instruction; what depends on the program is where terminators stand and where they lead.
-/

namespace CamllVM

variable {prog insts : List ZInstruction} {firstInst lastInst : Int} {M : GenModule} {S : GenState}
  {depth : Nat} {F : GenFunction} {L : OwnState} {fn : FnRef} {k t : Int} {i : Nat}
  {inst : ZInstruction} {before after : List Int} {pre post : List ZInstruction} {b : BasicBlock}
  {e : BasicBlock × LlvmInst}

/-- The LLVM blocks that a terminator leads to. -/
def LlvmInst.successors : LlvmInst → List BasicBlock
  | .br target => [target]
  | .condBr _ ifTrue ifFalse => [ifTrue, ifFalse]
  | .switch default cases => default :: cases
  | _ => []

/-- `verifyFunction` passes for the LLVM function and for its restart function. -/
structure GenState.Verified (s : GenState) (fn : FnRef) : Prop where
  terminated : ∀ b ∈ s.body fn, Terminated LlvmInst.isTerminator (s.code b)
  inside : ∀ b ∈ s.body fn, ∀ inst ∈ s.code b, ∀ target ∈ inst.successors, target ∈ s.body fn
  entry : ∃ b, (s.body fn).head? = some b ∧
    ∀ b' ∈ s.body fn, ∀ inst ∈ s.code b', b ∉ inst.successors
  restart : s.code (.ofRestart fn) = [] ∨
    Terminated LlvmInst.isTerminator (s.code (.ofRestart fn))

/-- Only the last instruction of a block ends it, no trap names an earlier block or the first one, and
control does not come back to the beginning of the first one. -/
structure GenFunction.WellFormed (F : GenFunction) : Prop where
  ends : ∀ k ∈ F.blocks, EndsLast (F.block k).instructions
  handlers : ∀ k ∈ F.blocks, ∀ inst ∈ (F.block k).instructions, inst.opNum = .pushTrap →
    k ≤ inst.arg 0 ∧ F.blocks.head? ≠ some (inst.arg 0)
  entry : ∀ k ∈ F.blocks.head?, ¬F.EnteredNormally k

theorem mem_successors {a : LlvmInst} :
    b ∈ a.successors ↔ b ∈ a.raiseTargets ∨ b ∈ a.normalTargets := by
  cases a with
  | condBr cond ifTrue ifFalse =>
      cases cond <;> simp [LlvmInst.successors, LlvmInst.raiseTargets, LlvmInst.normalTargets]
  | _ => simp [LlvmInst.successors, LlvmInst.raiseTargets, LlvmInst.normalTargets]

/-! ### The code of an LLVM block -/

namespace GenFunction

/-- The number of traps with the handler `t` in the blocks that are generated behind it. -/
def namedAfter (F : GenFunction) (t : Int) : Nat :=
  ((F.blocks.filter (t < ·)).map fun k => namedBy (F.block k).instructions t).sum

/-- The number of LLVM blocks of a block when it has been generated. -/
def llvmBlocks (F : GenFunction) (k : Int) : Nat := 1 + OwnState.addedBy (F.block k).instructions

theorem namedAfter_eq_zero :
    F.namedAfter t = 0 ↔ ∀ k ∈ F.blocks, ∀ inst ∈ (F.block k).instructions, inst.opNum = .pushTrap →
      inst.arg 0 = t → k ≤ t := by
  simp only [namedAfter, List.sum_eq_zero_iff, List.forall_mem_map, List.mem_filter,
    decide_eq_true_iff, and_imp]
  refine forall₂_congr fun k _ => ?_
  rw [← not_iff_not]
  push Not
  constructor
  · rintro ⟨hlt, hnamed⟩
    obtain ⟨inst, hinst, hop, harg⟩ := namedBy_pos.mp (Nat.pos_of_ne_zero hnamed)
    exact ⟨inst, hinst, hop, harg, hlt⟩
  · rintro ⟨inst, hinst, hop, harg, hlt⟩
    exact ⟨hlt, (namedBy_pos.mpr ⟨inst, hinst, hop, harg⟩).ne'⟩

end GenFunction

theorem filter_gt_of_sorted (hsorted : F.blocks.Pairwise (· < ·))
    (hblocks : F.blocks = before ++ k :: after) : F.blocks.filter (k < ·) = after := by
  rw [hblocks] at hsorted ⊢
  obtain ⟨-, hcons, hlt⟩ := List.pairwise_append.mp hsorted
  have hbefore : before.filter (fun x => decide (k < x)) = [] := by
    refine List.filter_eq_nil_iff.mpr fun x hx => ?_
    have hk := hlt x hx k List.mem_cons_self
    simp only [decide_eq_true_eq]
    omega
  have hafter : after.filter (fun x => decide (k < x)) = after :=
    List.filter_eq_self.mpr fun x hx => decide_eq_true ((List.pairwise_cons.mp hcons).1 x hx)
  rw [List.filter_append, hbefore, List.nil_append, List.filter_cons_of_neg (by simp), hafter]

theorem afterBlock_llvmBlocks (hsorted : F.blocks.Pairwise (· < ·))
    (hblocks : F.blocks = before ++ k :: after) :
    (((OwnState.start F).afterBlocks before).afterBlock k).llvmBlocks k = F.llvmBlocks k := by
  rw [OwnState.afterBlock, afterInsts_llvmBlocks_self, llvmBlocks_before hsorted hblocks,
    ((OwnState.start F).afterBlocks_grown before).instructions]
  rfl

/-- The code of an LLVM block: the prologues of earlier traps in the first one, what is created for
its block, and the prologues of later traps in the last one. -/
theorem codeAt_functionCode_eq (hsorted : F.blocks.Pairwise (· < ·))
    (hblocks : F.blocks = before ++ k :: after) (i : Nat) :
    codeAt (functionCode F fn) (.ofBlock fn k i) =
      prologues (if i = 0 then F.namedBefore k else 0) ++
        (codeAt (blockCode ((OwnState.start F).afterBlocks before) fn k) (.ofBlock fn k i) ++
          prologues (if i = F.llvmBlocks k - 1 then F.namedAfter k else 0)) := by
  obtain ⟨-, hnotBefore, hnotAfter⟩ := nodup_split hsorted hblocks
  have hrestart : codeAt (restartCode F fn) (.ofBlock fn k i) = [] := by
    rw [restartCode, codeAt_placed, if_neg]
    rintro ⟨⟩
  have hgrown : GrownFrom F
      ((((OwnState.start F).afterBlocks before).afterBlock k)).graph :=
    ((OwnState.start F).afterBlocks_grown before).trans (OwnState.afterBlock_grown _ k)
  rw [functionCode, codeAt_append, hrestart, List.nil_append, hblocks, blocksCode_append,
    codeAt_append, codeAt_blocksCode hnotBefore, blocksCode, codeAt_append,
    codeAt_blocksCode hnotAfter, afterBlock_llvmBlocks hsorted hblocks, GenFunction.namedBefore,
    filter_lt_of_sorted hsorted hblocks, GenFunction.namedAfter, filter_gt_of_sorted hsorted hblocks]
  simp only [hgrown.instructions]
  congr 1
  · by_cases hi : i = 0 <;> simp [OwnState.start, hi, prologues]
  · congr 1
    split <;> rfl

theorem prologues_goesOn (n : Nat) : ∀ a ∈ prologues n, a.isTerminator = false := fun a ha =>
  isTerminator_eq_false (isHandlerCall_prologues n a ha)

theorem prologues_eq_nil (n : Nat) : prologues n = [] ↔ n = 0 := by
  rw [← List.length_eq_zero_iff, prologues_length]
  omega

theorem exists_split_of_mem_dropLast {l : List ZInstruction} (h : inst ∈ l.dropLast) :
    ∃ pre post, l = pre ++ inst :: post ∧ post ≠ [] := by
  obtain ⟨pre, post, hsplit⟩ := List.append_of_mem h
  have hne : l ≠ [] := by
    rintro rfl
    cases h
  refine ⟨pre, post ++ [l.getLast hne], ?_, List.append_ne_nil_of_right_ne_nil _ (by simp)⟩
  rw [← List.cons_append, ← List.append_assoc, ← hsplit, List.dropLast_append_getLast]

/-! ### Terminators -/

/-- The code of a block before, for and behind an instruction. -/
theorem Place.blockCode_eq (p : Place F inst) (fn : FnRef) : blockCode p.start fn p.k =
    initCode p.start fn p.k ++ instsCode p.start fn p.k p.pre ++ instCode p.state fn p.k inst ++
      codeFrom p.next fn p.k p.post := by
  rw [blockCode_split p.start_instructions, codeFrom_cons, ← List.append_assoc]
  rfl

namespace GeneratedFrom

variable (h : GeneratedFrom S fn F)

include h

theorem mem_body_iff : b ∈ S.body fn ↔
    ∃ k ∈ F.blocks, ∃ i < F.llvmBlocks k, b = .ofBlock fn k i := by
  rw [h.body, functionBody, mem_blocksBody_iff]
  constructor
  · rintro ⟨before, k, after, i, hblocks, rfl, hi⟩
    rw [afterBlock_llvmBlocks h.sorted hblocks] at hi
    exact ⟨k, hblocks ▸ List.mem_append_right _ List.mem_cons_self, i, hi, rfl⟩
  · rintro ⟨k, hk, i, hi, rfl⟩
    obtain ⟨before, after, hblocks⟩ := List.append_of_mem hk
    exact ⟨before, k, after, i, hblocks, rfl, afterBlock_llvmBlocks h.sorted hblocks ▸ hi⟩

theorem terminated_code (hends : ∀ k ∈ F.blocks, EndsLast (F.block k).instructions)
    (hnamed : ∀ k ∈ F.blocks, F.namedAfter k = 0) (hb : b ∈ S.body fn) :
    Terminated LlvmInst.isTerminator (S.code b) := by
  obtain ⟨k, hk, i, hi, rfl⟩ := h.mem_body_iff.mp hb
  obtain ⟨before, after, hblocks⟩ := List.append_of_mem hk
  let L := (OwnState.start F).afterBlocks before
  have hinsts : (L.graph.block k).instructions = (F.block k).instructions :=
    ((OwnState.start F).afterBlocks_grown before).instructions k
  have hgen := h.generates
  rw [hblocks, generatesBlocks_append] at hgen
  have hone : L.llvmBlocks k = 1 := llvmBlocks_before h.sorted hblocks
  have hseal : Sealed fn k _ _ true (blockCode L fn k) :=
    sealed_blockCode (hone ▸ Nat.one_pos) hgen.2.1.1 hgen.2.1.2 (hinsts ▸ hends k hk)
  rw [hone, afterBlock_llvmBlocks h.sorted hblocks] at hseal
  have hcode : Terminated LlvmInst.isTerminator (codeAt (blockCode L fn k) (.ofBlock fn k i)) := by
    rcases Nat.lt_or_ge i (F.llvmBlocks k - 1) with hlt | hge
    · exact hseal.left i (Nat.zero_le _) hlt
    · obtain rfl : i = F.llvmBlocks k - 1 := by omega
      exact hseal.last rfl
  rw [h.code_eq, codeAt_functionCode_eq h.sorted hblocks, hnamed k hk, ite_self,
    (prologues_eq_nil 0).mpr rfl, List.append_nil]
  exact hcode.append (prologues_goesOn _)

theorem endsLast_of_terminated
    (hterm : ∀ b ∈ S.body fn, Terminated LlvmInst.isTerminator (S.code b)) (hk : k ∈ F.blocks) :
    EndsLast (F.block k).instructions := by
  intro inst hinst
  by_contra hends
  obtain ⟨pre, post, hinsts, hpost⟩ := exists_split_of_mem_dropLast hinst
  obtain ⟨before, after, hblocks⟩ := List.append_of_mem hk
  let p : Place F inst := ⟨before, k, after, pre, post, hblocks, hinsts⟩
  have hgenBlock := h.generates
  rw [hblocks, generatesBlocks_append] at hgenBlock
  obtain ⟨-, ⟨hgen, hblockTerm⟩, -⟩ := hgenBlock
  have hsplit : ((OwnState.start F).afterBlocks before).afterBlock k = p.next.afterInsts k post := by
    show p.start.afterBlock p.k = _
    rw [OwnState.afterBlock, p.start_instructions, OwnState.afterInsts_append]
    rfl
  obtain ⟨⟨b, a⟩, he, rfl, ha⟩ := @exists_terminator_instCode _ fn _ _
    (generates_at h.generates hblocks hinsts) (Bool.not_eq_false _ ▸ hends)
  have hnext : codeAt (codeFrom p.next fn k post) (p.next.last fn k) ≠ [] := by
    refine exists_first_codeFrom ?_ hpost ?_ (hsplit ▸ hblockTerm)
    · have hgrown : GrownFrom F p.next.graph := p.state_grown.trans (p.state.after_grown _ _)
      rw [hgrown.instructions, hinsts]
      exact ⟨pre ++ [inst], by simp⟩
    · have hgen' : p.start.GeneratesInsts p.k (p.start.graph.block p.k).instructions := hgen
      rw [p.start_instructions, generatesInsts_append] at hgen'
      exact hgen'.2.2
  have hbody : p.next.last fn k ∈ S.body fn := by
    refine h.added_mem_body p (Nat.sub_lt ?_ Nat.one_pos)
    exact (p.state_llvmBlocks_pos h.sorted).trans_le (llvmBlocks_le_after p.state p.k inst p.k)
  have hcode := hterm _ hbody
  have hblock : blockCode ((OwnState.start F).afterBlocks before) fn k =
      initCode p.start fn k ++ instsCode p.start fn k pre ++ instCode p.state fn k inst ++
        codeFrom p.next fn k post := p.blockCode_eq fn
  rw [OwnState.last, h.code_eq, codeAt_functionCode_eq h.sorted hblocks, hblock, codeAt_append,
    List.append_assoc, ← List.append_assoc (prologues _), ← OwnState.last] at hcode
  have hnil := hcode.right_eq_nil (a := a) ?_ ha
  · exact hnext (List.append_eq_nil_iff.mp hnil).1
  · exact List.mem_append_right _ (mem_codeAt.mpr (List.mem_append_right _ he))

theorem namedAfter_of_terminated
    (hterm : ∀ b ∈ S.body fn, Terminated LlvmInst.isTerminator (S.code b)) (hk : k ∈ F.blocks) :
    F.namedAfter k = 0 := by
  obtain ⟨before, after, hblocks⟩ := List.append_of_mem hk
  have hgen := h.generates
  rw [hblocks, generatesBlocks_append] at hgen
  obtain ⟨⟨b, a⟩, he, rfl, ha⟩ := @exists_terminator_blockCode _ fn _ hgen.2.1.1 hgen.2.1.2
  have hpos : 0 < F.llvmBlocks k := Nat.lt_of_lt_of_le Nat.one_pos (Nat.le_add_right _ _)
  have hcode := hterm (.ofBlock fn k (F.llvmBlocks k - 1))
    (h.mem_body_iff.mpr ⟨k, hk, _, Nat.sub_lt hpos Nat.one_pos, rfl⟩)
  rw [h.code_eq, codeAt_functionCode_eq h.sorted hblocks, if_pos rfl, ← List.append_assoc] at hcode
  refine (prologues_eq_nil _).mp (hcode.right_eq_nil (a := a) (List.mem_append_right _ ?_) ha)
  rw [mem_codeAt, ← afterBlock_llvmBlocks h.sorted hblocks]
  exact he

/-- The LLVM blocks are terminated if and only if only the last instruction of a block ends it and no
trap names an earlier block. -/
theorem terminated_iff : (∀ b ∈ S.body fn, Terminated LlvmInst.isTerminator (S.code b)) ↔
    (∀ k ∈ F.blocks, EndsLast (F.block k).instructions) ∧ ∀ k ∈ F.blocks, F.namedAfter k = 0 := by
  constructor
  · intro hterm
    exact ⟨fun k hk => h.endsLast_of_terminated hterm hk, fun k hk =>
      h.namedAfter_of_terminated hterm hk⟩
  · rintro ⟨hends, hnamed⟩ b hb
    exact h.terminated_code hends hnamed hb

end GeneratedFrom

/-! ### Branches -/

/-- What a block is connected to exists. -/
structure GenFunction.Linked (F : GenFunction) : Prop where
  brBlock : ∀ k ∈ F.blocks, ∀ t, (F.block k).brBlock = some t → t ∈ F.blocks
  noBrBlock : ∀ k ∈ F.blocks, ∀ t, (F.block k).noBrBlock = some t → t ∈ F.blocks
  nextBlocks : ∀ k ∈ F.blocks, ∀ t ∈ (F.block k).nextBlocks, t ∈ F.blocks

theorem GenFunction.Linked.setNext (h : F.Linked) (ht : t ∈ F.blocks) :
    (F.setNext k t false).Linked where
  brBlock j hj t' ht' := by
    rw [setNext_block] at ht'
    exact h.brBlock j hj t' (by simpa using ht')
  noBrBlock j hj t' ht' := by
    rw [setNext_block] at ht'
    dsimp only at ht'
    split at ht'
    · exact Option.some.inj ht' ▸ ht
    · exact h.noBrBlock j hj t' ht'
  nextBlocks j hj t' ht' := by
    rw [setNext_block] at ht'
    dsimp only at ht'
    split at ht'
    · rcases List.mem_append.mp ht' with ht' | ht'
      · exact h.nextBlocks j hj t' ht'
      · exact List.mem_singleton.mp ht' ▸ ht
    · exact h.nextBlocks j hj t' ht'

namespace OwnState

theorem after_linked (h : L.graph.Linked) (hgen : L.Generates k inst) :
    (L.after k inst).graph.Linked := by
  unfold Generates at hgen
  unfold after
  cases hop : inst.opNum with
  | switch =>
      simp only [hop] at hgen
      obtain ⟨next, entries, hentries⟩ := List.exists_cons_of_ne_nil hgen.1
      simp only [hentries, List.head?_cons]
      exact h.setNext (hgen.2 next (by rw [hentries]; exact List.mem_cons_self))
  | _ => exact h

theorem afterInsts_linked (h : L.graph.Linked) (hgen : L.GeneratesInsts k insts) :
    (L.afterInsts k insts).graph.Linked := by
  induction insts generalizing L with
  | nil => exact h
  | cons inst insts ih => exact ih (after_linked h hgen.1) hgen.2

theorem afterBlocks_linked {ks : List Int} (h : L.graph.Linked) (hgen : L.GeneratesBlocks ks) :
    (L.afterBlocks ks).graph.Linked := by
  induction ks generalizing L with
  | nil => exact h
  | cons k ks ih => exact ih (afterInsts_linked h hgen.1.1) hgen.2

end OwnState

/-- The graph that `generateFunction` makes is linked. -/
theorem linked_of_generateFunction {id arity : Int} (hordered : insts.Pairwise (·.idx < ·.idx))
    (h : generateFunction (.new id arity) insts = some F) : F.Linked := by
  obtain ⟨F₀, first, hbuilt, hrounds⟩ := GenFunction.generateFunction_built hordered h
  have hnamed : ∀ (test : NextEdge → Bool) (edges : List NextEdge) (j t : Int),
      ((edges.filter fun e => e.source == j && test e).getLast?).map NextEdge.target = some t →
      t ∈ (edges.filter (·.source == j)).map NextEdge.target := by
    intro test edges j t ht
    obtain ⟨e, he, rfl⟩ := Option.map_eq_some_iff.mp ht
    obtain ⟨hmem, hsource⟩ := List.mem_filter.mp (List.mem_of_getLast? he)
    exact List.mem_map_of_mem (List.mem_filter.mpr ⟨hmem, (Bool.and_eq_true_iff.mp hsource).1⟩)
  have hnext : ∀ j ∈ F.blocks, ∀ t ∈ (F₀.block j).nextBlocks, t ∈ F.blocks := by
    intro j hj t ht
    refine hrounds.consistent.next_mem j hj t ?_
    rw [hrounds.kept j hj]
    exact ht
  have hrecorded := hbuilt.scanned.recorded
  refine ⟨fun j hj t ht => hnext j hj t ?_, fun j hj t ht => hnext j hj t ?_, fun j hj t ht => ?_⟩
  · rw [hrounds.kept j hj, hrecorded.brBlock] at ht
    rw [hrecorded.nextBlocks]
    exact hnamed _ _ j t ht
  · rw [hrounds.kept j hj, hrecorded.noBrBlock] at ht
    rw [hrecorded.nextBlocks]
    exact hnamed _ _ j t ht
  · exact hrounds.consistent.next_mem j hj t ht

theorem successors_condBrCode {a : LlvmInst} {cond : BranchCond} {brIfTrue : Bool}
    (ha : a ∈ condBrCode L fn k cond brIfTrue) (hb : b ∈ a.successors) :
    ∃ t, ((L.graph.block k).brBlock = some t ∨ (L.graph.block k).noBrBlock = some t) ∧
      b = .ofBlock fn t 0 := by
  unfold condBrCode at ha
  cases hbr : (L.graph.block k).brBlock <;> cases hnoBr : (L.graph.block k).noBrBlock <;>
    cases brIfTrue <;> simp [hbr, hnoBr] at ha
  all_goals
    rw [ha] at hb
    simp only [LlvmInst.successors, List.mem_cons, List.not_mem_nil, or_false] at hb
    rcases hb with rfl | rfl <;> simp

/-- The code of an instruction leads to blocks that exist by then. -/
theorem successor_instCode (hpos : ∀ j, 0 < L.llvmBlocks j) (hlinked : L.graph.Linked)
    (hk : k ∈ L.graph.blocks) (hgen : L.Generates k inst) (he : e ∈ instCode L fn k inst)
    (hb : b ∈ e.2.successors) :
    ∃ t ∈ L.graph.blocks, ∃ i < (L.after k inst).llvmBlocks t, b = .ofBlock fn t i := by
  have hle := llvmBlocks_le_after L k inst
  have hlast : ∀ t ∈ L.graph.blocks, ∃ t' ∈ L.graph.blocks,
      ∃ i < (L.after k inst).llvmBlocks t', L.last fn t = .ofBlock fn t' i := by
    intro t ht
    have hpos := hpos t
    have hle := hle t
    exact ⟨t, ht, _, by omega, rfl⟩
  have hfirst : ∀ t ∈ L.graph.blocks, ∃ t' ∈ L.graph.blocks,
      ∃ i < (L.after k inst).llvmBlocks t', BasicBlock.ofBlock fn t 0 = .ofBlock fn t' i :=
    fun t ht => ⟨t, ht, 0, (hpos t).trans_le (hle t), rfl⟩
  have hcond : ∀ cond brIfTrue, e ∈ placed (L.last fn k) (condBrCode L fn k cond brIfTrue) →
      ∃ t ∈ L.graph.blocks, ∃ i < (L.after k inst).llvmBlocks t, b = .ofBlock fn t i := by
    intro cond brIfTrue he
    obtain ⟨t, ht, rfl⟩ := successors_condBrCode (mem_placed.mp he).2 hb
    exact hfirst t (ht.elim (hlinked.brBlock k hk t) (hlinked.noBrBlock k hk t))
  have hafter := congrFun (L.after_llvmBlocks k inst) k
  rw [Function.update_self] at hafter
  have hone := addBlock_llvmBlocks_self L k
  have htwo := addBlock_llvmBlocks_self (L.addBlock k) k
  have hown : ∀ L' : OwnState, 0 < L'.llvmBlocks k →
      L'.llvmBlocks k ≤ (L.after k inst).llvmBlocks k → ∃ t ∈ L.graph.blocks,
        ∃ i < (L.after k inst).llvmBlocks t, L'.last fn k = .ofBlock fn t i :=
    fun L' hpos hle => ⟨k, hk, _, by omega, rfl⟩
  have hnone : ∀ insts, (∀ c ∈ insts, c.successors = []) → e ∉ placed (L.last fn k) insts := by
    intro insts hinsts he
    rw [hinsts _ (mem_placed.mp he).2] at hb
    cases hb
  unfold OwnState.Generates at hgen
  unfold instCode at he
  cases hop : inst.opNum with
  | pushTrap =>
      simp only [hop] at hgen
      simp only [OwnState.added, hop] at hafter
      simp only [hop, List.mem_append, mem_placed, List.mem_cons, List.not_mem_nil, or_false,
        prologue] at he
      rcases he with (⟨-, he | he | he⟩ | ⟨-, he | he⟩) | ⟨-, he⟩ <;> rw [he] at hb <;>
        simp only [LlvmInst.successors, List.not_mem_nil, List.mem_cons, or_false] at hb
      rcases hb with rfl | rfl
      · exact hfirst _ hgen
      · exact hown _ (by omega) (by omega)
  | grab | return_ =>
      simp only [OwnState.added, hop] at hafter
      simp only [hop, List.mem_append, mem_placed, List.mem_cons, List.not_mem_nil, or_false] at he
      rcases he with (⟨-, he | he⟩ | ⟨-, he | he⟩) | ⟨-, he⟩ <;> rw [he] at hb <;>
        simp only [LlvmInst.successors, List.not_mem_nil, List.mem_cons, or_false] at hb
      rcases hb with rfl | rfl <;> exact hown _ (by omega) (by omega)
  | closureRec =>
      simp only [hop] at he
      refine (hnone _ (List.forall_mem_cons.mpr ⟨rfl, fun c hc => ?_⟩) he).elim
      obtain ⟨j, g, rfl⟩ := mem_nestedClosures hc
      rfl
  | branch =>
      simp only [hop, mem_placed, List.mem_map, Option.mem_toList] at he
      obtain ⟨-, br, hbr, he⟩ := he
      rw [← he, LlvmInst.successors, List.mem_singleton] at hb
      rw [hb]
      exact hlast br (hlinked.brBlock k hk br hbr)
  | switch =>
      simp only [hop] at hgen
      simp only [hop, mem_placed, List.mem_cons, List.mem_map, Option.mem_toList] at he
      obtain ⟨-, he | ⟨next, hnext, he⟩⟩ := he
      · rw [he] at hb
        cases hb
      · rw [← he, LlvmInst.successors, List.mem_cons, List.mem_map] at hb
        rcases hb with rfl | ⟨dest, hdest, rfl⟩
        · exact hlast next (hgen.2 next (List.mem_of_mem_head? hnext))
        · exact hlast dest (hgen.2 dest hdest)
  | branchIf | branchIfNot | beq | bneq | bltInt | bleInt | bgtInt | bgeInt | bultInt | bugeInt =>
      simp only [hop] at he
      exact hcond _ _ he
  | restart | event | break_ | checkSignals =>
      simp only [hop] at he
      cases he
  | _ =>
      simp only [hop] at he
      exact (hnone _ (by simp [LlvmInst.successors]) he).elim

theorem llvmBlocks_le_afterBlocks (L : OwnState) (ks : List Int) (j : Int) :
    L.llvmBlocks j ≤ (L.afterBlocks ks).llvmBlocks j := by
  induction ks generalizing L with
  | nil => exact le_rfl
  | cons k ks ih => exact (llvmBlocks_le_afterInsts L k _ j).trans (ih _)

/-- In the course of code generation a block has at most the LLVM blocks that it has in the end. -/
theorem llvmBlocks_le (hsorted : F.blocks.Pairwise (· < ·)) (hblocks : F.blocks = before ++ k :: after)
    (hpre : pre <+: (F.block k).instructions) (t : Int) :
    (((OwnState.start F).afterBlocks before).afterInsts k pre).llvmBlocks t ≤ F.llvmBlocks t := by
  obtain ⟨hnodup, hnot, -⟩ := nodup_split hsorted hblocks
  rw [OwnState.afterInsts_llvmBlocks]
  by_cases ht : t = k
  · obtain ⟨post, hpost⟩ := hpre
    rw [ht, Function.update_self, llvmBlocks_before hsorted hblocks, GenFunction.llvmBlocks, ← hpost,
      OwnState.addedBy, OwnState.addedBy, List.map_append, List.sum_append]
    omega
  · rw [Function.update_of_ne ht, OwnState.afterBlocks_llvmBlocks _ hnodup, GenFunction.llvmBlocks]
    simp only [OwnState.start]
    split <;> omega

theorem generates_before (hgen : (OwnState.start F).GeneratesBlocks F.blocks)
    (hblocks : F.blocks = before ++ k :: after) :
    (OwnState.start F).GeneratesBlocks before ∧
      ((OwnState.start F).afterBlocks before).GeneratesInsts k (F.block k).instructions ∧
      (((OwnState.start F).afterBlocks before).afterBlock k).Terminates k := by
  rw [hblocks, generatesBlocks_append] at hgen
  obtain ⟨hbefore, ⟨hinsts, hterm⟩, -⟩ := hgen
  rw [((OwnState.start F).afterBlocks_grown before).instructions] at hinsts
  exact ⟨hbefore, hinsts, hterm⟩

/-- The code of a function leads to LLVM blocks of the function. -/
theorem successor_functionCode (hsorted : F.blocks.Pairwise (· < ·)) (hlinked : F.Linked)
    (hgen : (OwnState.start F).GeneratesBlocks F.blocks) (he : e ∈ functionCode F fn)
    (hb : b ∈ e.2.successors) :
    ∃ t ∈ F.blocks, ∃ i < F.llvmBlocks t, b = .ofBlock fn t i := by
  rcases mem_functionCode.mp he with he | ⟨before, k, after, hblocks, he⟩
  · unfold restartCode at he
    split at he <;> simp only [mem_placed, List.mem_cons, List.not_mem_nil, or_false, and_false] at he
    rcases he.2 with he | he | he <;> rw [he] at hb <;> cases hb
  · have hk : k ∈ F.blocks := hblocks ▸ List.mem_append_right _ List.mem_cons_self
    obtain ⟨hgenBefore, hgenInsts, hterm⟩ := generates_before hgen hblocks
    let L := (OwnState.start F).afterBlocks before
    have hbefore : GrownFrom F L.graph := (OwnState.start F).afterBlocks_grown before
    have hlinkedBefore : L.graph.Linked := OwnState.afterBlocks_linked hlinked hgenBefore
    have hpos : ∀ j, 0 < L.llvmBlocks j := fun j =>
      Nat.lt_of_lt_of_le Nat.one_pos (llvmBlocks_le_afterBlocks (OwnState.start F) before j)
    rcases he with he | ⟨pre, inst, post, hinsts, he⟩ | he
    · unfold initCode at he
      split at he <;> simp only [mem_placed, List.mem_cons, List.not_mem_nil, or_false,
        and_false] at he
      rw [he.2] at hb
      cases hb
    · have hgrown : GrownFrom F (L.afterInsts k pre).graph := hbefore.trans (L.afterInsts_grown k pre)
      rw [hinsts, generatesInsts_append] at hgenInsts
      obtain ⟨t, ht, i, hi, rfl⟩ := successor_instCode
        (fun j => (hpos j).trans_le (llvmBlocks_le_afterInsts L k pre j))
        (OwnState.afterInsts_linked hlinkedBefore hgenInsts.1) (hgrown.blocks ▸ hk) hgenInsts.2.1 he hb
      refine ⟨t, hgrown.blocks ▸ ht, i, hi.trans_le ?_, rfl⟩
      have hprefix : pre ++ [inst] <+: (F.block k).instructions :=
        ⟨post, by rw [hinsts, List.append_assoc]; rfl⟩
      have hle := llvmBlocks_le hsorted hblocks hprefix t
      rwa [OwnState.afterInsts_append] at hle
    · obtain ⟨lastInst, next, -, -, hnext, rfl⟩ := mem_termCode.mp he
      have hgrown : GrownFrom F (L.afterBlock k).graph := hbefore.trans (L.afterBlock_grown k)
      have hinsts : (L.graph.block k).instructions = (F.block k).instructions :=
        hbefore.instructions k
      have hlinkedAfter : (L.afterBlock k).graph.Linked :=
        OwnState.afterInsts_linked hlinkedBefore (hinsts ▸ hgenInsts)
      have hmem := hlinkedAfter.nextBlocks k (hgrown.blocks ▸ hk) next (List.mem_of_mem_head? hnext)
      have hle : (L.afterBlock k).llvmBlocks next ≤ F.llvmBlocks next := by
        rw [OwnState.afterBlock, hinsts]
        exact llvmBlocks_le hsorted hblocks List.prefix_rfl next
      have hnextPos : 0 < (L.afterBlock k).llvmBlocks next :=
        (hpos next).trans_le (llvmBlocks_le_afterInsts L k _ next)
      rw [LlvmInst.successors, List.mem_singleton] at hb
      exact ⟨next, hgrown.blocks ▸ hmem, _, (Nat.sub_lt hnextPos Nat.one_pos).trans_le hle, hb⟩

/-- A terminator is in an LLVM block of the function. -/
theorem source_functionCode (hsorted : F.blocks.Pairwise (· < ·)) (he : e ∈ functionCode F fn)
    (hb : b ∈ e.2.successors) : ∃ k ∈ F.blocks, ∃ i < F.llvmBlocks k, e.1 = .ofBlock fn k i := by
  have hown : e.2.isHandlerCall = false := by
    cases hcode : e.2 with
    | handlerCall c =>
        rw [hcode] at hb
        cases hb
    | _ => rfl
  rcases List.mem_append.mp he with he | he
  · unfold restartCode at he
    split at he <;> simp only [mem_placed, List.mem_cons, List.not_mem_nil, or_false, and_false] at he
    rcases he.2 with he | he | he <;> rw [he] at hb <;> cases hb
  · obtain ⟨before, k, after, hblocks, he⟩ := mem_blocksCode.mp he
    have hof := mem_blockCode he hown
    have hone := llvmBlocks_before hsorted hblocks
    have hindex := ((inOrder_blockCode _ fn k (hone ▸ Nat.one_pos)).bounds e
      (List.mem_filter.mpr ⟨he, decide_eq_true ⟨hof, hown⟩⟩)).2
    rw [afterBlock_llvmBlocks hsorted hblocks] at hindex
    cases hblock : e.1 with
    | ofBlock fn' k' i =>
        rw [hblock] at hof hindex
        obtain ⟨rfl, rfl⟩ := hof
        have hlt : i < F.llvmBlocks k' := by
          unfold GenFunction.llvmBlocks at hindex ⊢
          rw [BasicBlock.index] at hindex
          omega
        exact ⟨k', hblocks ▸ List.mem_append_right _ List.mem_cons_self, i, hlt, rfl⟩
    | ofRestart fn' =>
        rw [hblock] at hof
        exact hof.elim

/-! ### The verification of a function -/

section

variable (h : GeneratedFrom S fn F)

include h

theorem GeneratedFrom.mem_functionCode {a : LlvmInst} (hb : b ∈ S.body fn) (ha : a ∈ S.code b) :
    (b, a) ∈ functionCode F fn := by
  obtain ⟨k, -, i, -, rfl⟩ := h.mem_body_iff.mp hb
  rw [h.code_eq, mem_codeAt] at ha
  exact ha

theorem GeneratedFrom.inside (hlinked : F.Linked) {a : LlvmInst} {target : BasicBlock}
    (hb : b ∈ S.body fn) (ha : a ∈ S.code b) (htarget : target ∈ a.successors) :
    target ∈ S.body fn :=
  h.mem_body_iff.mpr
    (successor_functionCode h.sorted hlinked h.generates (h.mem_functionCode hb ha) htarget)

/-- Nothing leads to the first LLVM block of `t` if and only if no trap names `t` and control does not
enter it otherwise. -/
theorem GeneratedFrom.unreached_iff :
    (∀ b ∈ S.body fn, ∀ a ∈ S.code b, .ofBlock fn t 0 ∉ a.successors) ↔
      (∀ k ∈ F.blocks, ∀ inst ∈ (F.block k).instructions, inst.opNum = .pushTrap →
        inst.arg 0 ≠ t) ∧ ¬F.EnteredNormally t := by
  have hfrom : ∀ e ∈ functionCode F fn, .ofBlock fn t 0 ∈ e.2.successors →
      ∃ b ∈ S.body fn, ∃ a ∈ S.code b, .ofBlock fn t 0 ∈ a.successors := by
    intro e he htarget
    obtain ⟨k, hk, i, hi, hblock⟩ := source_functionCode h.sorted he htarget
    refine ⟨e.1, h.mem_body_iff.mpr ⟨k, hk, i, hi, hblock⟩, e.2, ?_, htarget⟩
    rw [hblock, h.code_eq, mem_codeAt, ← hblock]
    exact he
  constructor
  · intro hnone
    refine ⟨fun k hk inst hinst hop harg => ?_, fun hentered => ?_⟩
    · obtain ⟨before, after, hblocks⟩ := List.append_of_mem hk
      obtain ⟨pre, post, hinsts⟩ := List.append_of_mem hinst
      obtain ⟨e, he, htarget⟩ : ∃ e ∈ instCode
          (((OwnState.start F).afterBlocks before).afterInsts k pre) fn k inst, _ :=
        exists_raiseTarget_instCode hop
      have hmem : e ∈ functionCode F fn := CamllVM.mem_functionCode.mpr
        (.inr ⟨before, k, after, hblocks, .inr (.inl ⟨pre, inst, post, hinsts, he⟩)⟩)
      rw [harg] at htarget
      obtain ⟨b, hb, a, ha, htarget⟩ := hfrom e hmem (mem_successors.mpr (.inl htarget))
      exact hnone b hb a ha htarget
    · obtain ⟨e, he, htarget⟩ := exists_normalTarget_functionCode h.sorted h.generates hentered
      obtain ⟨b, hb, a, ha, htarget⟩ := hfrom e he (mem_successors.mpr (.inr htarget))
      exact hnone b hb a ha htarget
  · rintro ⟨htraps, hentered⟩ b hb a ha htarget
    have he := h.mem_functionCode hb ha
    rcases mem_successors.mp htarget with htarget | htarget
    · obtain ⟨k, hk, inst, hinst, hop, hblock⟩ := raiseTarget_functionCode he htarget
      exact htraps k hk inst hinst hop (BasicBlock.ofBlock.inj hblock).2.1.symm
    · obtain ⟨t', i, hblock, hnormal⟩ := normalTarget_functionCode h.sorted he htarget
      obtain ⟨-, rfl, rfl⟩ := BasicBlock.ofBlock.inj hblock
      exact hentered (hnormal rfl)

theorem GeneratedFrom.verified_iff (hlinked : F.Linked) (hne : F.blocks ≠ []) :
    S.Verified fn ↔ F.WellFormed := by
  obtain ⟨first, ks, hblocks⟩ := List.exists_cons_of_ne_nil hne
  have hhead : (S.body fn).head? = some (.ofBlock fn first 0) := h.body_head hblocks
  have hrestart : S.code (.ofRestart fn) = [] ∨
      Terminated LlvmInst.isTerminator (S.code (.ofRestart fn)) := by
    rw [S.code_eq, BasicBlock.owner, h.owned, codeAt_ofRestart]
    split
    · exact .inr (by simp [LlvmInst.isTerminator])
    · exact .inl rfl
  constructor
  · rintro ⟨hterm, -, ⟨b, hb, hentry⟩, -⟩
    obtain rfl : b = .ofBlock fn first 0 := Option.some.inj (hb.symm.trans hhead)
    obtain ⟨hends, hafter⟩ := h.terminated_iff.mp hterm
    obtain ⟨htraps, hentered⟩ := h.unreached_iff.mp hentry
    refine ⟨hends, fun k hk inst hinst hop => ⟨?_, ?_⟩, fun k hk => ?_⟩
    · exact GenFunction.namedAfter_eq_zero.mp
        (hafter _ (handler_mem h.generates hk hinst hop)) k hk inst hinst hop rfl
    · rw [hblocks, List.head?_cons]
      exact fun heq => htraps k hk inst hinst hop (Option.some.inj heq).symm
    · rw [hblocks, List.head?_cons] at hk
      exact Option.some.inj hk ▸ hentered
  · rintro ⟨hends, hhandlers, hentry⟩
    refine ⟨h.terminated_iff.mpr ⟨hends, fun k hk => ?_⟩, fun b hb a ha target htarget => ?_,
      ⟨_, hhead, h.unreached_iff.mpr ⟨fun k hk inst hinst hop harg => ?_, ?_⟩⟩, hrestart⟩
    · refine GenFunction.namedAfter_eq_zero.mpr fun j hj inst hinst hop harg => ?_
      exact harg ▸ (hhandlers j hj inst hinst hop).1
    · exact h.inside hlinked hb ha htarget
    · refine (hhandlers k hk inst hinst hop).2 ?_
      rw [hblocks, List.head?_cons, harg]
    · exact hentry first (by rw [hblocks]; rfl)

end

instance : Decidable F.WellFormed :=
  decidable_of_iff ((∀ k ∈ F.blocks, EndsLast (F.block k).instructions) ∧
      (∀ k ∈ F.blocks, ∀ inst ∈ (F.block k).instructions, inst.opNum = .pushTrap →
        k ≤ inst.arg 0 ∧ F.blocks.head? ≠ some (inst.arg 0)) ∧
      ∀ k ∈ F.blocks.head?, ¬F.EnteredNormally k)
    ⟨fun h => ⟨h.1, h.2.1, h.2.2⟩, fun h => ⟨h.ends, h.handlers, h.entry⟩⟩

/-- The verification of a generated function passes if and only if its graph is well formed. -/
theorem verifyFunction_passes_iff {host : Host} {tabInst : List Int} {size : Int}
    (hread : readInstructions host tabInst size = some insts)
    (hannotate : annotateNodes insts = some prog)
    (hgenerate : generate prog firstInst lastInst = some M)
    (hcode : codeGen M depth .main (.start M) = some S) (hfn : fn ∈ S.generated) :
    S.Verified fn ↔ (M.function fn).WellFormed := by
  obtain ⟨hidx, -⟩ := annotateNodes_spec (readInstructions_decoded hread) hannotate
  obtain ⟨lists, hlists⟩ := sources_of_generate hgenerate
  obtain ⟨l, -, hsource⟩ := exists_source hidx hgenerate hlists (has_of_mem_generated hcode hfn)
  obtain ⟨id, arity, hfunction⟩ := hsource.generated
  obtain ⟨F₀, first, hbuilt, hrounds⟩ :=
    GenFunction.generateFunction_built hsource.part.ordered hfunction
  have hcomplete := (codeGen_main hcode).1.complete fn hfn List.not_mem_nil
  have h : GeneratedFrom S fn (M.function fn) :=
    ⟨hrounds.consistent.sorted, hcomplete.owned, hcomplete.body, hcomplete.generates⟩
  refine h.verified_iff (linked_of_generateFunction hsource.part.ordered hfunction) fun hnil => ?_
  have hhead := hrounds.head
  rw [hnil] at hhead
  cases hhead

theorem verifyFunction_passes_iff_applyIdentity :
    applyIdentityState.Verified .main ∧ applyIdentityState.Verified (.closure 1) := by
  have hread := applyIdentity.readInstructions_words (by decide)
  have hverify : ∀ fn ∈ applyIdentityState.generated,
      (applyIdentityState.Verified fn ↔ (applyIdentityModule.function fn).WellFormed) := fun fn hfn =>
    @verifyFunction_passes_iff _ _ 0 0 _ _ 2 fn .littleEndian _ _ hread rfl generate_applyIdentity
      rfl hfn
  constructor
  · exact (hverify .main (by decide)).mpr (by decide)
  · exact (hverify (.closure 1) (by decide)).mpr (by decide)

end CamllVM
