import CamllVM.Lib.Terminated
import CamllVM.Proof.CodeLayout
import CamllVM.Proof.ControlFlow

/-!
# The ends of LLVM blocks

Every LLVM block that an instruction leaves gets a terminator, and the one in which it ends gets none
unless control does not go on behind it. So the LLVM blocks of a block are terminated if only its
last instruction ends it.
-/

namespace CamllVM

variable {L : OwnState} {F : GenFunction} {fn : FnRef} {k t : Int} {i : Nat} {inst : ZInstruction}
  {before after : List Int} {pre post insts : List ZInstruction} {b : BasicBlock}
  {c : List LlvmInst}

theorem codeAt_placed_last : codeAt (placed (L.last fn k) c) (.ofBlock fn k i) =
    if i = L.llvmBlocks k - 1 then c else [] := by
  rw [codeAt_placed, OwnState.last]
  refine if_congr ?_ rfl rfl
  rw [BasicBlock.ofBlock.injEq]
  exact ⟨fun h => h.2.2.symm, fun h => ⟨rfl, rfl, h.symm⟩⟩

theorem mem_codeAt {c : List (BasicBlock × LlvmInst)} {e : LlvmInst} :
    e ∈ codeAt c b ↔ (b, e) ∈ c := by
  simp [codeAt]

/-- The code goes into the LLVM blocks of `k` from `low` up to `high`. All but the last one are
terminated; the last one is if `ends`, and else it can go on. -/
structure Sealed (fn : FnRef) (k : Int) (low high : Nat) (ends : Bool)
    (c : List (BasicBlock × LlvmInst)) : Prop where
  outside : ∀ i, i < low ∨ high < i → codeAt c (.ofBlock fn k i) = []
  left : ∀ i, low ≤ i → i < high → Terminated LlvmInst.isTerminator (codeAt c (.ofBlock fn k i))
  last : ends = true → Terminated LlvmInst.isTerminator (codeAt c (.ofBlock fn k high))
  goesOn : ends = false → ∀ a ∈ codeAt c (.ofBlock fn k high), a.isTerminator = false

variable {low mid high : Nat} {ends : Bool} {c' c'' : List (BasicBlock × LlvmInst)}

theorem sealed_placed (hends : ends = true → Terminated LlvmInst.isTerminator c)
    (hgoesOn : ends = false → ∀ a ∈ c, a.isTerminator = false) :
    Sealed fn k (L.llvmBlocks k - 1) (L.llvmBlocks k - 1) ends (placed (L.last fn k) c) where
  outside i hi := by rw [codeAt_placed_last, if_neg (by omega)]
  left i hlow hhigh := by omega
  last h := by
    rw [codeAt_placed_last, if_pos rfl]
    exact hends h
  goesOn h := by
    rw [codeAt_placed_last, if_pos rfl]
    exact hgoesOn h

/-- What goes into other blocks changes nothing for those of `k`. -/
theorem sealed_other (h : ∀ i, codeAt c' (.ofBlock fn k i) = []) (low : Nat) :
    Sealed fn k low low false c' where
  outside i _ := h i
  left i hlow hhigh := by omega
  last h := by cases h
  goesOn _ a ha := by
    rw [h] at ha
    cases ha

namespace Sealed

/-- A block in which control can go on is gone on with. -/
theorem extend (h : Sealed fn k low mid false c') (h' : Sealed fn k mid high ends c'')
    (hlow : low ≤ mid) (hhigh : mid ≤ high) : Sealed fn k low high ends (c' ++ c'') where
  outside i hi := by
    rw [codeAt_append, h.outside i (by omega), h'.outside i (by omega)]
    rfl
  left i hi hlt := by
    rw [codeAt_append]
    rcases Nat.lt_trichotomy i mid with hmid | rfl | hmid
    · rw [h'.outside i (.inl hmid), List.append_nil]
      exact h.left i hi hmid
    · exact (h'.left i le_rfl hlt).append (h.goesOn rfl)
    · rw [h.outside i (.inr hmid)]
      exact h'.left i hmid.le hlt
  last hends := by
    rw [codeAt_append]
    rcases hhigh.eq_or_lt with rfl | hlt
    · exact (h'.last hends).append (h.goesOn rfl)
    · rw [h.outside high (.inr hlt)]
      exact h'.last hends
  goesOn hends a ha := by
    rw [codeAt_append, List.mem_append] at ha
    refine ha.elim (fun ha => ?_) (h'.goesOn hends a)
    rcases hhigh.eq_or_lt with rfl | hlt
    · exact h.goesOn rfl a ha
    · rw [h.outside high (.inr hlt)] at ha
      cases ha

/-- Behind a block that is left comes the next one. -/
theorem next (h : Sealed fn k low mid true c') (h' : Sealed fn k (mid + 1) high ends c'')
    (hlow : low ≤ mid) (hhigh : mid < high) : Sealed fn k low high ends (c' ++ c'') where
  outside i hi := by
    rw [codeAt_append, h.outside i (by omega), h'.outside i (by omega)]
    rfl
  left i hi hlt := by
    rw [codeAt_append]
    rcases Nat.lt_trichotomy i mid with hmid | rfl | hmid
    · rw [h'.outside i (.inl (by omega)), List.append_nil]
      exact h.left i hi hmid
    · rw [h'.outside i (.inl (by omega)), List.append_nil]
      exact h.last rfl
    · rw [h.outside i (.inr hmid)]
      exact h'.left i hmid hlt
  last hends := by
    rw [codeAt_append, h.outside high (.inr hhigh)]
    exact h'.last hends
  goesOn hends a ha := by
    rw [codeAt_append, h.outside high (.inr hhigh)] at ha
    exact h'.goesOn hends a ha

end Sealed

theorem nestedClosures_goesOn (inst : ZInstruction) (i n : Nat) :
    ∀ a ∈ nestedClosures inst i n, a.isTerminator = false := by
  intro a ha
  obtain ⟨j, g, rfl⟩ := mem_nestedClosures ha
  rfl

theorem prologue_goesOn : ∀ a ∈ prologue, a.isTerminator = false := by
  simp [prologue, LlvmInst.isTerminator]

theorem terminated_condBrCode {cond : BranchCond} (brIfTrue : Bool)
    (hsome : (L.graph.block k).brBlock.isSome ∧ (L.graph.block k).noBrBlock.isSome) :
    Terminated LlvmInst.isTerminator (condBrCode L fn k cond brIfTrue) := by
  obtain ⟨br, hbr⟩ := Option.isSome_iff_exists.mp hsome.1
  obtain ⟨noBr, hnoBr⟩ := Option.isSome_iff_exists.mp hsome.2
  simp only [condBrCode, hbr, hnoBr]
  cases brIfTrue <;> exact Terminated.singleton_iff.mpr rfl

/-- An instruction terminates the LLVM blocks that it leaves. -/
theorem sealed_instCode (hpos : 0 < L.llvmBlocks k) (hgen : L.Generates k inst) :
    Sealed fn k (L.llvmBlocks k - 1) ((L.after k inst).llvmBlocks k - 1) inst.endsBlock
      (instCode L fn k inst) := by
  have hone : (L.addBlock k).llvmBlocks k - 1 = L.llvmBlocks k - 1 + 1 := by
    rw [addBlock_llvmBlocks_self]
    omega
  have htwo : ((L.addBlock k).addBlock k).llvmBlocks k - 1 = L.llvmBlocks k - 1 + 1 + 1 := by
    rw [addBlock_llvmBlocks_self, addBlock_llvmBlocks_self]
    omega
  have hthree : ∀ first second third : List LlvmInst, ∀ ends,
      Terminated LlvmInst.isTerminator first → Terminated LlvmInst.isTerminator second →
      (ends = true → Terminated LlvmInst.isTerminator third) →
      (ends = false → ∀ a ∈ third, a.isTerminator = false) →
      Sealed fn k (L.llvmBlocks k - 1) (((L.addBlock k).addBlock k).llvmBlocks k - 1) ends
        (placed (L.last fn k) first ++ placed ((L.addBlock k).last fn k) second ++
          placed (((L.addBlock k).addBlock k).last fn k) third) := by
    intro first second third ends hfirst hsecond hends hgoesOn
    have h₁ : Sealed fn k _ _ true (placed (L.last fn k) first) :=
      sealed_placed (fun _ => hfirst) (by simp)
    have h₂ : Sealed fn k _ _ true (placed ((L.addBlock k).last fn k) second) :=
      sealed_placed (fun _ => hsecond) (by simp)
    have h₃ : Sealed fn k _ _ ends (placed (((L.addBlock k).addBlock k).last fn k) third) :=
      sealed_placed hends hgoesOn
    rw [hone] at h₂
    rw [htwo] at h₃ ⊢
    exact (h₁.next h₂ le_rfl (by omega)).next h₃ (by omega) (by omega)
  have hplain : ∀ insts : List LlvmInst, (∀ a ∈ insts, a.isTerminator = false) →
      Sealed fn k (L.llvmBlocks k - 1) (L.llvmBlocks k - 1) false (placed (L.last fn k) insts) :=
    fun insts h => sealed_placed (by simp) fun _ => h
  have hended : ∀ insts : List LlvmInst, Terminated LlvmInst.isTerminator insts →
      Sealed fn k (L.llvmBlocks k - 1) (L.llvmBlocks k - 1) true (placed (L.last fn k) insts) :=
    fun insts h => sealed_placed (fun _ => h) (by simp)
  unfold OwnState.Generates at hgen
  unfold instCode OwnState.after ZInstruction.endsBlock ZInstruction.isJumpInst
    ZInstruction.isReturn ZInstruction.isSwitch
  cases hop : inst.opNum with
  | pushTrap =>
      have hfirst := hended [.libCall .getNewBuffer, .libCall .sigsetjmp,
        .condBr .setJmpRes (.ofBlock fn (inst.arg 0) 0) ((L.addBlock k).last fn k)]
        (by simp [LlvmInst.isTerminator])
      -- The prologue is in the new block if the handler is the block itself.
      have hprologue : Sealed fn k (L.llvmBlocks k - 1 + 1) (L.llvmBlocks k - 1 + 1) false
          (placed ((L.addBlock k).last fn (inst.arg 0)) prologue) := by
        by_cases hself : inst.arg 0 = k
        · rw [hself, ← hone]
          exact sealed_placed (by simp) fun _ => prologue_goesOn
        · refine sealed_other (fun i => codeAt_eq_nil fun e he hb => hself ?_) _
          have hlast := (mem_placed.mp he).1.symm.trans hb
          exact (BasicBlock.ofBlock.inj hlast).2.1
      have hsecond : Sealed fn k (L.llvmBlocks k - 1 + 1) (L.llvmBlocks k - 1 + 1) false
          (placed ((L.addBlock k).last fn k) [.libCall .pushTrap]) := by
        rw [← hone]
        exact sealed_placed (by simp) fun _ => by simp [LlvmInst.isTerminator]
      dsimp only
      rw [hone, List.append_assoc]
      exact hfirst.next (hprologue.extend hsecond le_rfl le_rfl) le_rfl (Nat.lt_succ_self _)
  | grab =>
      exact hthree _ _ _ _ (by simp [LlvmInst.isTerminator]) (by simp [LlvmInst.isTerminator])
        (by simp) (by simp [LlvmInst.isTerminator])
  | return_ =>
      exact hthree _ _ _ _ (by simp [LlvmInst.isTerminator]) (by simp [LlvmInst.isTerminator])
        (by simp [LlvmInst.isTerminator]) (by simp)
  | closureRec => exact hplain _ (List.forall_mem_cons.mpr ⟨rfl, nestedClosures_goesOn _ _ _⟩)
  | branchIf | branchIfNot | beq | bneq | bltInt | bleInt | bgtInt | bgeInt | bultInt | bugeInt =>
      simp only [hop] at hgen
      exact hended _ (terminated_condBrCode _ hgen)
  | branch =>
      simp only [hop] at hgen
      obtain ⟨br, hbr⟩ := Option.isSome_iff_exists.mp hgen
      simp only [hbr]
      exact hended _ (Terminated.singleton_iff.mpr rfl)
  | switch =>
      simp only [hop] at hgen
      obtain ⟨next, entries, hentries⟩ := List.exists_cons_of_ne_nil hgen.1
      simp only [hentries]
      exact hended _ (by simp [LlvmInst.isTerminator])
  | restart | event | break_ => simp only [hop] at hgen
  | checkSignals => exact sealed_other (fun _ => rfl) _
  | raise | stop | appterm | appterm1 | appterm2 | appterm3 =>
      exact hended _ (by simp [LlvmInst.isTerminator])
  | _ => exact hplain _ (by simp [LlvmInst.isTerminator])

/-! ### Blocks whose last instruction ends them -/

/-- Only the last instruction may end the block. -/
def EndsLast (insts : List ZInstruction) : Prop := ∀ inst ∈ insts.dropLast, inst.endsBlock = false

instance (insts : List ZInstruction) : Decidable (EndsLast insts) :=
  inferInstanceAs (Decidable (∀ inst ∈ insts.dropLast, _))

theorem EndsLast.tail (h : EndsLast (inst :: insts)) (hne : insts ≠ []) :
    inst.endsBlock = false ∧ EndsLast insts := by
  rw [EndsLast, List.dropLast_cons_of_ne_nil hne, List.forall_mem_cons] at h
  exact h

theorem llvmBlocks_le_after (L : OwnState) (k : Int) (inst : ZInstruction) (j : Int) :
    L.llvmBlocks j ≤ (L.after k inst).llvmBlocks j := by
  rw [OwnState.after_llvmBlocks]
  by_cases hj : j = k
  · rw [hj, Function.update_self]
    exact Nat.le_add_right _ _
  · rw [Function.update_of_ne hj]

theorem llvmBlocks_le_afterInsts (L : OwnState) (k : Int) (insts : List ZInstruction) (j : Int) :
    L.llvmBlocks j ≤ (L.afterInsts k insts).llvmBlocks j := by
  induction insts generalizing L with
  | nil => exact le_rfl
  | cons inst insts ih => exact (llvmBlocks_le_after L k inst j).trans (ih _)

/-- The end of a block, behind its last instruction. -/
theorem sealed_termCode (hlast : (L.graph.block k).instructions.getLast? = some inst)
    (hterm : L.Terminates k) (hends : inst.endsBlock = false) :
    Sealed fn k (L.llvmBlocks k - 1) (L.llvmBlocks k - 1) true (termCode L fn k) := by
  obtain ⟨inst', hlast', hnext⟩ := hterm
  obtain rfl : inst' = inst := Option.some.inj (hlast'.symm.trans hlast)
  obtain ⟨next, nexts, hnexts⟩ := List.exists_cons_of_ne_nil (hnext hends)
  have hends' : (inst'.isJumpInst || inst'.isReturn || inst'.isSwitch) = false := hends
  have hcode : termCode L fn k = placed (L.last fn k) [.br (L.last fn next)] := by
    simp only [termCode, hlast, hends', hnexts, List.head?_cons, Option.toList_some,
      List.map_singleton, Bool.false_eq_true, if_false]
  rw [hcode]
  exact sealed_placed (fun _ => Terminated.singleton_iff.mpr rfl) (by simp)

theorem sealed_codeFrom (hne : insts ≠ []) (hinsts : insts <:+ (L.graph.block k).instructions)
    (hpos : 0 < L.llvmBlocks k) (hgen : L.GeneratesInsts k insts)
    (hterm : (L.afterInsts k insts).Terminates k) (hends : EndsLast insts) :
    Sealed fn k (L.llvmBlocks k - 1) ((L.afterInsts k insts).llvmBlocks k - 1) true
      (codeFrom L fn k insts) := by
  induction insts generalizing L with
  | nil => exact absurd rfl hne
  | cons inst insts ih =>
      obtain ⟨hgenInst, hgenInsts⟩ := hgen
      have hgrown := L.after_grown k inst
      have hle := llvmBlocks_le_after L k inst k
      have hhead : Sealed fn k _ _ inst.endsBlock (instCode L fn k inst) :=
        sealed_instCode hpos hgenInst
      rw [codeFrom_cons, OwnState.afterInsts]
      by_cases hnil : insts = []
      · subst hnil
        have hlast : ((L.after k inst).graph.block k).instructions.getLast? = some inst := by
          obtain ⟨pre, hpre⟩ := hinsts
          rw [hgrown.instructions, ← hpre, List.getLast?_concat]
        show Sealed fn k _ ((L.after k inst).llvmBlocks k - 1) true
          (instCode L fn k inst ++ termCode (L.after k inst) fn k)
        cases hinst : inst.endsBlock with
        | true =>
            have hinst' : (inst.isJumpInst || inst.isReturn || inst.isSwitch) = true := hinst
            have hcode : termCode (L.after k inst) fn k = [] := by
              simp only [termCode, hlast, hinst', if_true]
            rw [hcode, List.append_nil, ← hinst]
            exact hhead
        | false =>
            rw [hinst] at hhead
            exact hhead.extend (sealed_termCode hlast hterm hinst) (by omega) le_rfl
      · obtain ⟨hinst, hends⟩ := hends.tail hnil
        have htail := ih hnil (by rw [hgrown.instructions]; exact (List.suffix_cons _ _).trans hinsts)
          (by omega) hgenInsts hterm hends
        have hle' := llvmBlocks_le_afterInsts (L.after k inst) k insts k
        rw [hinst] at hhead
        exact hhead.extend htail (by omega) (by omega)

theorem blockCode_eq (L : OwnState) (fn : FnRef) (k : Int) :
    blockCode L fn k = initCode L fn k ++ codeFrom L fn k (L.graph.block k).instructions := by
  rw [blockCode, codeFrom, List.append_assoc]
  rfl

/-- All LLVM blocks of a block are terminated. -/
theorem sealed_blockCode (hpos : 0 < L.llvmBlocks k)
    (hgen : L.GeneratesInsts k (L.graph.block k).instructions)
    (hterm : (L.afterBlock k).Terminates k) (hends : EndsLast (L.graph.block k).instructions) :
    Sealed fn k (L.llvmBlocks k - 1) ((L.afterBlock k).llvmBlocks k - 1) true
      (blockCode L fn k) := by
  have hne : (L.graph.block k).instructions ≠ [] := by
    obtain ⟨inst, hlast, -⟩ := hterm
    rw [(L.afterBlock_grown k).instructions] at hlast
    intro hnil
    rw [hnil] at hlast
    cases hlast
  have hle := llvmBlocks_le_afterInsts L k (L.graph.block k).instructions k
  have hinit : Sealed fn k (L.llvmBlocks k - 1) (L.llvmBlocks k - 1) false (initCode L fn k) := by
    refine sealed_placed (by simp) fun _ => ?_
    split <;> simp [LlvmInst.isTerminator]
  rw [blockCode_eq]
  exact hinit.extend (sealed_codeFrom hne List.suffix_rfl hpos hgen hterm hends) le_rfl
    (Nat.sub_le_sub_right hle 1)

/-- A block goes on where an instruction of it has ended. -/
theorem exists_first_codeFrom (hinsts : insts <:+ (L.graph.block k).instructions) (hne : insts ≠ [])
    (hgen : L.GeneratesInsts k insts) (hterm : (L.afterInsts k insts).Terminates k) :
    codeAt (codeFrom L fn k insts) (L.last fn k) ≠ [] := by
  obtain ⟨⟨b, a⟩, he, rfl⟩ : ∃ e ∈ codeFrom L fn k insts, e.1 = L.last fn k := by
    rcases @exists_first_instsCode L fn k insts with ⟨e, he, hfirst⟩ | ⟨hnone, hsame⟩
    · exact ⟨e, List.mem_append_left _ he, hfirst⟩
    · obtain ⟨pre, inst, rfl⟩ := (List.eq_nil_or_concat' insts).resolve_left hne
      have hends : inst.endsBlock = false := by
        by_contra hends
        obtain ⟨e, he, -⟩ := @exists_terminator_instCode _ fn _ _ (generatesInsts_append.mp hgen).2.1
          (Bool.not_eq_false _ ▸ hends)
        have hmem : e ∈ instsCode L fn k (pre ++ [inst]) :=
          mem_instsCode.mpr ⟨pre, inst, [], rfl, he⟩
        rw [hnone] at hmem
        cases hmem
      have hlast : ((L.afterInsts k (pre ++ [inst])).graph.block k).instructions.getLast? =
          some inst := by
        obtain ⟨pre', hpre'⟩ := hinsts
        rw [(L.afterInsts_grown k _).instructions, ← hpre', ← List.append_assoc,
          List.getLast?_concat]
      have hseal : Sealed fn k _ _ true (termCode (L.afterInsts k (pre ++ [inst])) fn k) :=
        sealed_termCode hlast hterm hends
      obtain ⟨a, ha⟩ := List.exists_mem_of_ne_nil _ (hseal.last rfl).ne_nil
      exact ⟨_, List.mem_append_right _ (mem_codeAt.mp ha), hsame⟩
  exact List.ne_nil_of_mem (mem_codeAt.mpr he)

end CamllVM
