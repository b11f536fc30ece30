import CamllVM.Proof.LandingPoints

/-!
# The prologue of an exception handler

Every `PUSHTRAP` puts a prologue at the end of the last LLVM block that its handler has so far. This
is the first one, before its own code, if the handler has not been generated yet, and it is behind
that code otherwise.
-/

namespace CamllVM

variable {M : GenModule} {depth : Nat} {s : GenState} {L : OwnState} {fn : FnRef} {k t : Int}
  {i : Nat} {inst : ZInstruction} {F : GenFunction} {before after : List Int}
  {pre : List ZInstruction} {c c' : List (BasicBlock × LlvmInst)} {b : BasicBlock}

def codeAt (c : List (BasicBlock × LlvmInst)) (b : BasicBlock) : List LlvmInst :=
  (c.filter fun e => e.1 = b).map Prod.snd

theorem codeAt_append : codeAt (c ++ c') b = codeAt c b ++ codeAt c' b := by simp [codeAt]

theorem codeAt_eq_nil (h : ∀ e ∈ c, e.1 ≠ b) : codeAt c b = [] := by
  rw [codeAt, List.map_eq_nil_iff, List.filter_eq_nil_iff]
  exact fun e he => by simpa using h e he

theorem codeAt_placed (b' : BasicBlock) (insts : List LlvmInst) :
    codeAt (placed b' insts) b = if b' = b then insts else [] := by
  by_cases hb : b' = b <;> simp [codeAt, placed, List.filter_map, Function.comp_def, hb]

theorem GenState.code_eq (s : GenState) (b : BasicBlock) : s.code b = codeAt (s.owned b.owner) b := by
  rw [GenState.code, codeAt, GenState.owned, List.filter_filter]
  congr 1
  refine List.filter_congr fun e _ => ?_
  by_cases he : e.1 = b <;> simp [he]

/-- The prologues of some traps with the same handler. -/
def prologues (n : Nat) : List LlvmInst := (List.replicate n prologue).flatten

theorem prologues_add (m n : Nat) : prologues (m + n) = prologues m ++ prologues n := by
  rw [prologues, ← List.replicate_append_replicate, List.flatten_append]
  rfl

theorem prologues_length (n : Nat) : (prologues n).length = 2 * n := by
  simp [prologues, prologue, Nat.mul_comm]

theorem prologues_eq_prologue (n : Nat) : prologues n = prologue ↔ n = 1 := by
  constructor
  · intro h
    have hlength := congrArg List.length h
    rw [prologues_length] at hlength
    have htwo : prologue.length = 2 := rfl
    omega
  · rintro rfl
    rfl

theorem isHandlerCall_prologues (n : Nat) : ∀ inst ∈ prologues n, inst.isHandlerCall = true := by
  intro inst hinst
  obtain ⟨l, hl, hinst⟩ := List.mem_flatten.mp hinst
  rw [(List.mem_replicate.mp hl).2] at hinst
  simp only [prologue, List.mem_cons, List.not_mem_nil, or_false] at hinst
  rcases hinst with rfl | rfl <;> rfl

/-- The calls for handlers that an LLVM block begins with. -/
def handlerCalls (code : List LlvmInst) : List LlvmInst := code.takeWhile LlvmInst.isHandlerCall

/-- The code begins with an instruction that is not the call of a prologue. -/
def OpensOwn (code : List LlvmInst) : Prop :=
  ∃ inst rest, code = inst :: rest ∧ inst.isHandlerCall = false

theorem handlerCalls_prologues {code : List LlvmInst} (n : Nat) (h : OpensOwn code)
    (rest : List LlvmInst) : handlerCalls (prologues n ++ (code ++ rest)) = prologues n := by
  obtain ⟨inst, insts, rfl, hown⟩ := h
  rw [handlerCalls, List.takeWhile_append_of_pos (isHandlerCall_prologues n), List.cons_append,
    List.takeWhile_cons_of_neg (by simp [hown]), List.append_nil]

/-- Where all is own code and there is some, own code comes first. -/
theorem opensOwn_codeAt (hown : ∀ e ∈ c, e.1 = b → e.2.isHandlerCall = false)
    (hsome : ∃ e ∈ c, e.1 = b) : OpensOwn (codeAt c b) := by
  have hne : codeAt c b ≠ [] := by
    obtain ⟨e, he, hb⟩ := hsome
    exact List.ne_nil_of_mem (List.mem_map_of_mem (List.mem_filter.mpr ⟨he, decide_eq_true hb⟩))
  obtain ⟨inst, rest, hcode⟩ := List.exists_cons_of_ne_nil hne
  have hmem : inst ∈ codeAt c b := hcode ▸ List.mem_cons_self
  obtain ⟨e, he, rfl⟩ := List.mem_map.mp hmem
  obtain ⟨he, hb⟩ := List.mem_filter.mp he
  exact ⟨_, rest, hcode, hown e he (of_decide_eq_true hb)⟩

/-! ### What traps put into the blocks of others -/

/-- The number of traps whose handler is `t`. -/
def namedBy (insts : List ZInstruction) (t : Int) : Nat :=
  insts.countP fun inst => inst.opNum = .pushTrap ∧ inst.arg 0 = t

theorem codeAt_instCode (hne : t ≠ k) : codeAt (instCode L fn k inst) (.ofBlock fn t i) =
    if i = L.llvmBlocks t - 1 then prologues (namedBy [inst] t) else [] := by
  by_cases hop : inst.opNum = .pushTrap
  · have hcount : (L.addBlock k).llvmBlocks t = L.llvmBlocks t := Function.update_of_ne hne _ _
    have hlast : ((L.addBlock k).last fn (inst.arg 0) = .ofBlock fn t i) ↔
        inst.arg 0 = t ∧ i = L.llvmBlocks t - 1 := by
      rw [OwnState.last, BasicBlock.ofBlock.injEq, ← hcount]
      constructor
      · rintro ⟨-, rfl, rfl⟩
        exact ⟨rfl, rfl⟩
      · rintro ⟨rfl, rfl⟩
        exact ⟨rfl, rfl, rfl⟩
    have hown : ∀ L : OwnState, L.last fn k ≠ .ofBlock fn t i := fun L h =>
      hne (BasicBlock.ofBlock.inj h).2.1.symm
    simp only [instCode, hop, codeAt_append, codeAt_placed, hlast, if_neg (hown _),
      List.nil_append, List.append_nil]
    by_cases harg : inst.arg 0 = t <;> by_cases hi : i = L.llvmBlocks t - 1 <;>
      simp [namedBy, hop, harg, hi, prologues]
  · have hnone : namedBy [inst] t = 0 := by simp [namedBy, hop]
    rw [hnone]
    refine (codeAt_eq_nil fun e he hb => ?_).trans (by split <;> rfl)
    rcases mem_instCode he with ⟨hof, -⟩ | ⟨htrap, -⟩
    · rw [hb] at hof
      exact hne hof.2
    · exact hop htrap

theorem namedBy_append (insts insts' : List ZInstruction) (t : Int) :
    namedBy (insts ++ insts') t = namedBy insts t + namedBy insts' t := List.countP_append

/-- A block of others has got no LLVM block in the meantime. -/
theorem codeAt_instsCode {insts : List ZInstruction} (hne : t ≠ k) :
    codeAt (instsCode L fn k insts) (.ofBlock fn t i) =
      if i = L.llvmBlocks t - 1 then prologues (namedBy insts t) else [] := by
  induction insts generalizing L with
  | nil => simp [instsCode, codeAt, namedBy, prologues]
  | cons inst insts ih =>
      have hcount : (L.after k inst).llvmBlocks t = L.llvmBlocks t := by
        rw [OwnState.after_llvmBlocks, Function.update_of_ne hne]
      have hsum : namedBy (inst :: insts) t = namedBy [inst] t + namedBy insts t :=
        namedBy_append [inst] insts t
      rw [instsCode, codeAt_append, codeAt_instCode hne, ih, hcount, hsum, prologues_add]
      split <;> rfl

theorem codeAt_blockCode (hne : t ≠ k) : codeAt (blockCode L fn k) (.ofBlock fn t i) =
    if i = L.llvmBlocks t - 1 then prologues (namedBy (L.graph.block k).instructions t) else [] := by
  have hother : ∀ c : List (BasicBlock × LlvmInst), (∀ e ∈ c, e.1.IsOf fn k) →
      codeAt c (.ofBlock fn t i) = [] := fun c hc => codeAt_eq_nil fun e he hb => by
    have hof := hc e he
    rw [hb] at hof
    exact hne hof.2
  rw [blockCode, codeAt_append, codeAt_append, hother _ (inOrder_initCode L fn k).isOf,
    hother _ (inOrder_termCode (L.afterBlock k) fn k).isOf, codeAt_instsCode hne, List.nil_append,
    List.append_nil]

theorem codeAt_blocksCode {ks : List Int} (ht : t ∉ ks) :
    codeAt (blocksCode L fn ks) (.ofBlock fn t i) = if i = L.llvmBlocks t - 1 then
      prologues ((ks.map fun k => namedBy (L.graph.block k).instructions t).sum) else [] := by
  induction ks generalizing L with
  | nil => simp [blocksCode, codeAt, prologues]
  | cons k ks ih =>
      obtain ⟨hne, ht⟩ := not_or.mp (List.mem_cons.not.mp ht)
      have hcount : (L.afterBlock k).llvmBlocks t = L.llvmBlocks t := by
        rw [OwnState.afterBlock, OwnState.afterInsts_llvmBlocks, Function.update_of_ne hne]
      rw [blocksCode, codeAt_append, codeAt_blockCode hne, ih ht, hcount, List.map_cons,
        List.sum_cons, prologues_add]
      simp only [(L.afterBlock_grown k).instructions]
      split <;> rfl

/-! ### What a run of an LLVM block executes -/

def LlvmInst.isTerminator : LlvmInst → Bool
  | .retVoid | .br _ | .condBr _ _ _ | .switch _ _ => true
  | _ => false

/-- The calls for handlers that are executed when control enters an LLVM block. -/
def handlerRuns (code : List LlvmInst) : List LlvmInst :=
  (code.takeWhile fun inst => !inst.isTerminator).filter LlvmInst.isHandlerCall

theorem isTerminator_eq_false {inst : LlvmInst} (h : inst.isHandlerCall = true) :
    inst.isTerminator = false := by
  cases inst with
  | handlerCall c => rfl
  | _ => cases h

theorem handlerRuns_prologues_append (n : Nat) (code : List LlvmInst) :
    handlerRuns (prologues n ++ code) = prologues n ++ handlerRuns code := by
  have hterm : ∀ inst ∈ prologues n, (!inst.isTerminator) = true := fun inst hinst => by
    rw [isTerminator_eq_false (isHandlerCall_prologues n inst hinst), Bool.not_false]
  rw [handlerRuns, List.takeWhile_append_of_pos hterm, List.filter_append,
    List.filter_eq_self.mpr (isHandlerCall_prologues n), handlerRuns]

/-- Behind the own code of a block nothing is executed. -/
theorem handlerRuns_own {own rest : List LlvmInst}
    (hown : ∀ inst ∈ own, inst.isHandlerCall = false)
    (hrest : rest = [] ∨ ∃ inst ∈ own, inst.isTerminator = true) : handlerRuns (own ++ rest) = [] := by
  induction own with
  | nil =>
      obtain rfl | ⟨inst, hinst, -⟩ := hrest
      · rfl
      · cases hinst
  | cons inst own ih =>
      obtain ⟨hinst, hown⟩ := List.forall_mem_cons.mp hown
      rw [handlerRuns, List.cons_append]
      by_cases hterm : inst.isTerminator = true
      · rw [List.takeWhile_cons_of_neg (by simp [hterm])]
        rfl
      · rw [List.takeWhile_cons_of_pos (by simp [hterm]), List.filter_cons_of_neg (by simp [hinst])]
        refine ih hown (hrest.imp_right ?_)
        rintro ⟨inst', hinst', hterm'⟩
        rcases List.mem_cons.mp hinst' with rfl | hinst'
        · exact absurd hterm' hterm
        · exact ⟨inst', hinst', hterm'⟩

/-! ### The own code of a block -/

theorem exists_first_instCode (h : instCode L fn k inst ≠ []) :
    ∃ e ∈ instCode L fn k inst, e.1 = L.last fn k := by
  unfold instCode at h ⊢
  cases hop : inst.opNum with
  | branch =>
      simp only [hop] at h ⊢
      obtain ⟨e, he⟩ := List.exists_mem_of_ne_nil _ h
      exact ⟨e, he, (mem_placed.mp he).1⟩
  | branchIf | branchIfNot | beq | bneq | bltInt | bleInt | bgtInt | bgeInt | bultInt | bugeInt =>
      simp only [hop] at h ⊢
      obtain ⟨e, he⟩ := List.exists_mem_of_ne_nil _ h
      exact ⟨e, he, (mem_placed.mp he).1⟩
  | restart | event | break_ | checkSignals =>
      simp only [hop] at h
      exact absurd rfl h
  | _ => exact ⟨_, List.mem_cons_self, rfl⟩

theorem added_of_instCode_eq_nil (h : instCode L fn k inst = []) : OwnState.added inst = 0 := by
  unfold instCode at h
  unfold OwnState.added
  cases hop : inst.opNum <;> simp [hop] at h ⊢

theorem after_last_of_instCode_eq_nil (h : instCode L fn k inst = []) :
    (L.after k inst).last fn k = L.last fn k := by
  rw [OwnState.last, OwnState.after_llvmBlocks, Function.update_self, added_of_instCode_eq_nil h]
  rfl

/-- The first instruction of a block that is not empty goes into its first LLVM block. -/
theorem exists_first_instsCode {insts : List ZInstruction} :
    (∃ e ∈ instsCode L fn k insts, e.1 = L.last fn k) ∨
      instsCode L fn k insts = [] ∧ (L.afterInsts k insts).last fn k = L.last fn k := by
  induction insts generalizing L with
  | nil => exact .inr ⟨rfl, rfl⟩
  | cons inst insts ih =>
      rw [instsCode, OwnState.afterInsts]
      by_cases hnil : instCode L fn k inst = []
      · rw [hnil, List.nil_append, ← after_last_of_instCode_eq_nil hnil]
        exact ih
      · obtain ⟨e, he, hlast⟩ := exists_first_instCode hnil
        exact .inl ⟨e, List.mem_append_left _ he, hlast⟩

theorem generatesInsts_append {insts insts' : List ZInstruction} :
    L.GeneratesInsts k (insts ++ insts') ↔
      L.GeneratesInsts k insts ∧ (L.afterInsts k insts).GeneratesInsts k insts' := by
  induction insts generalizing L with
  | nil => simp [OwnState.GeneratesInsts, OwnState.afterInsts]
  | cons inst insts ih =>
      rw [List.cons_append, OwnState.GeneratesInsts, OwnState.GeneratesInsts, ih, and_assoc]
      rfl

/-- An instruction that ends a block creates a terminator. -/
theorem exists_terminator_instCode (hgen : L.Generates k inst)
    (hends : (inst.isJumpInst || inst.isReturn || inst.isSwitch) = true) :
    ∃ e ∈ instCode L fn k inst, e.1 = (L.after k inst).last fn k ∧ e.2.isTerminator = true := by
  have hcond : ∀ cond brIfTrue, (L.graph.block k).brBlock.isSome ∧
      (L.graph.block k).noBrBlock.isSome →
      ∃ e ∈ placed (L.last fn k) (condBrCode L fn k cond brIfTrue),
        e.1 = L.last fn k ∧ e.2.isTerminator = true := by
    intro cond brIfTrue hsome
    obtain ⟨br, hbr⟩ := Option.isSome_iff_exists.mp hsome.1
    obtain ⟨noBr, hnoBr⟩ := Option.isSome_iff_exists.mp hsome.2
    cases brIfTrue <;> simp [condBrCode, hbr, hnoBr, LlvmInst.isTerminator]
  unfold OwnState.Generates at hgen
  unfold instCode OwnState.after
  cases hop : inst.opNum with
  | branch =>
      simp only [hop] at hgen
      obtain ⟨br, hbr⟩ := Option.isSome_iff_exists.mp hgen
      simp [hbr, LlvmInst.isTerminator]
  | branchIf | branchIfNot | beq | bneq | bltInt | bleInt | bgtInt | bgeInt | bultInt | bugeInt =>
      simp only [hop] at hgen
      exact hcond _ _ hgen
  | switch =>
      simp only [hop] at hgen
      obtain ⟨next, entries, hentries⟩ := List.exists_cons_of_ne_nil hgen.1
      simp [hentries, LlvmInst.isTerminator]
  | return_ => exact ⟨_, List.mem_append_right _ List.mem_cons_self, rfl, rfl⟩
  | raise | stop | appterm | appterm1 | appterm2 | appterm3 =>
      simp [LlvmInst.isTerminator]
  | _ => simp [ZInstruction.isJumpInst, ZInstruction.isReturn, ZInstruction.isSwitch, hop] at hends

/-- The last LLVM block of a block that has been generated has a terminator. -/
theorem exists_terminator_blockCode (hgen : L.GeneratesInsts k (L.graph.block k).instructions)
    (hterm : (L.afterBlock k).Terminates k) :
    ∃ e ∈ blockCode L fn k, e.1 = (L.afterBlock k).last fn k ∧ e.2.isTerminator = true := by
  obtain ⟨inst, hlast, hnext⟩ := hterm
  have hinsts := hlast
  rw [(L.afterBlock_grown k).instructions, List.getLast?_eq_some_iff] at hinsts
  obtain ⟨pre, hinsts⟩ := hinsts
  cases hends : inst.isJumpInst || inst.isReturn || inst.isSwitch with
  | true =>
      rw [hinsts, generatesInsts_append] at hgen
      obtain ⟨e, he, hblock, hterm⟩ := @exists_terminator_instCode _ fn _ _ hgen.2.1 hends
      refine ⟨e, List.mem_append_left _ (List.mem_append_right _ ?_), ?_, hterm⟩
      · exact mem_instsCode.mpr ⟨pre, inst, [], hinsts, he⟩
      · rw [hblock, OwnState.afterBlock, hinsts, OwnState.afterInsts_append]
        rfl
  | false =>
      obtain ⟨next, nexts, hnexts⟩ := List.exists_cons_of_ne_nil (hnext hends)
      refine ⟨((L.afterBlock k).last fn k, .br ((L.afterBlock k).last fn next)),
        List.mem_append_right _ ?_, rfl, rfl⟩
      simp [termCode, hlast, hends, hnexts]

theorem exists_first_blockCode
    (hlast : ∃ e ∈ blockCode L fn k, e.1 = (L.afterBlock k).last fn k) :
    ∃ e ∈ blockCode L fn k, e.1 = L.last fn k := by
  rcases @exists_first_instsCode L fn k (L.graph.block k).instructions with ⟨e, he, hfirst⟩ | ⟨-, hsame⟩
  · exact ⟨e, List.mem_append_left _ (List.mem_append_right _ he), hfirst⟩
  · obtain ⟨e, he, hlast⟩ := hlast
    exact ⟨e, he, hlast.trans hsame⟩

/-- A call for a handler comes from a trap. -/
theorem handlerCall_blockCode {e : BasicBlock × LlvmInst} (he : e ∈ blockCode L fn k)
    (hcall : e.2.isHandlerCall = true) : ∃ pre inst post,
      (L.graph.block k).instructions = pre ++ inst :: post ∧ inst.opNum = .pushTrap ∧
        e.1 = ((L.afterInsts k pre).addBlock k).last fn (inst.arg 0) := by
  have hnot : e.2.isHandlerCall ≠ false := by simp [hcall]
  rcases List.mem_append.mp he with he | he
  · rcases List.mem_append.mp he with he | he
    · exact absurd ((inOrder_initCode L fn k).own e he) hnot
    · obtain ⟨pre, inst, post, hinsts, he⟩ := mem_instsCode.mp he
      rcases mem_instCode he with ⟨-, hown⟩ | ⟨htrap, he⟩
      · exact absurd hown hnot
      · exact ⟨pre, inst, post, hinsts, htrap, (mem_placed.mp he).1⟩
  · exact absurd ((inOrder_termCode _ fn k).own e he) hnot

theorem afterInsts_llvmBlocks_self (L : OwnState) (k : Int) (insts : List ZInstruction) :
    (L.afterInsts k insts).llvmBlocks k = L.llvmBlocks k + OwnState.addedBy insts := by
  rw [OwnState.afterInsts_llvmBlocks, Function.update_self]

theorem addBlock_llvmBlocks_self (L : OwnState) (k : Int) :
    (L.addBlock k).llvmBlocks k = L.llvmBlocks k + 1 := Function.update_self _ _ _

/-- A block that names itself as a handler puts the prologue behind its first LLVM block. -/
theorem own_first_blockCode {e : BasicBlock × LlvmInst} (hpos : 0 < L.llvmBlocks k)
    (he : e ∈ blockCode L fn k) (hfirst : e.1 = L.last fn k) : e.2.isHandlerCall = false := by
  by_contra hcall
  obtain ⟨pre, inst, post, -, -, hlast⟩ := handlerCall_blockCode he (Bool.not_eq_false _ ▸ hcall)
  rw [hfirst, OwnState.last, OwnState.last, BasicBlock.ofBlock.injEq] at hlast
  obtain ⟨-, hself, hindex⟩ := hlast
  rw [← hself, addBlock_llvmBlocks_self, afterInsts_llvmBlocks_self] at hindex
  omega

theorem own_blockCode {e : BasicBlock × LlvmInst}
    (hself : ∀ inst ∈ (L.graph.block k).instructions, inst.opNum = .pushTrap → inst.arg 0 ≠ k)
    (he : e ∈ blockCode L fn k) (hof : e.1.IsOf fn k) : e.2.isHandlerCall = false := by
  by_contra hcall
  obtain ⟨pre, inst, post, hinsts, htrap, hlast⟩ :=
    handlerCall_blockCode he (Bool.not_eq_false _ ▸ hcall)
  rw [hlast] at hof
  exact hself inst (hinsts ▸ List.mem_append_right _ List.mem_cons_self) htrap hof.2

/-! ### The code of a function -/

theorem generatesBlocks_append {ks ks' : List Int} :
    L.GeneratesBlocks (ks ++ ks') ↔
      L.GeneratesBlocks ks ∧ (L.afterBlocks ks).GeneratesBlocks ks' := by
  induction ks generalizing L with
  | nil => simp [OwnState.GeneratesBlocks, OwnState.afterBlocks]
  | cons k ks ih =>
      rw [List.cons_append, OwnState.GeneratesBlocks, ih, ← and_assoc]
      rfl

namespace GenFunction

/-- The number of traps with the handler `t` in the blocks that are generated before it. -/
def namedBefore (F : GenFunction) (t : Int) : Nat :=
  ((F.blocks.filter (· < t)).map fun k => namedBy (F.block k).instructions t).sum

end GenFunction

theorem filter_lt_of_sorted (hsorted : F.blocks.Pairwise (· < ·))
    (hblocks : F.blocks = before ++ k :: after) : F.blocks.filter (· < k) = before := by
  rw [hblocks] at hsorted ⊢
  obtain ⟨-, hcons, hlt⟩ := List.pairwise_append.mp hsorted
  have hbefore : before.filter (fun x => decide (x < k)) = before :=
    List.filter_eq_self.mpr fun x hx => decide_eq_true (hlt x hx k List.mem_cons_self)
  have hafter : (k :: after).filter (fun x => decide (x < k)) = [] := by
    refine List.filter_eq_nil_iff.mpr fun x hx => ?_
    rcases List.mem_cons.mp hx with rfl | hx
    · simp
    · have hgt := (List.pairwise_cons.mp hcons).1 x hx
      simp only [decide_eq_true_eq]
      omega
  rw [List.filter_append, hbefore, hafter, List.append_nil]

theorem nodup_split (hsorted : F.blocks.Pairwise (· < ·)) (hblocks : F.blocks = before ++ k :: after) :
    before.Nodup ∧ k ∉ before ∧ k ∉ after := by
  have hnodup : F.blocks.Nodup := hsorted.imp ne_of_lt
  rw [hblocks] at hnodup
  obtain ⟨hbefore, hcons, hdisjoint⟩ := List.nodup_append.mp hnodup
  exact ⟨hbefore, fun h => hdisjoint k h k List.mem_cons_self rfl, (List.nodup_cons.mp hcons).1⟩

/-- A block has one LLVM block when its generation begins. -/
theorem llvmBlocks_before (hsorted : F.blocks.Pairwise (· < ·))
    (hblocks : F.blocks = before ++ k :: after) :
    ((OwnState.start F).afterBlocks before).llvmBlocks k = 1 := by
  obtain ⟨hnodup, hk, -⟩ := nodup_split hsorted hblocks
  rw [OwnState.afterBlocks_llvmBlocks _ hnodup, if_neg hk]
  rfl

/-- The prologues from earlier blocks, the own code, and the prologues from later blocks. -/
theorem codeAt_functionCode (hsorted : F.blocks.Pairwise (· < ·))
    (hblocks : F.blocks = before ++ t :: after) (i : Nat) : ∃ rest,
      codeAt (functionCode F fn) (.ofBlock fn t i) = prologues (if i = 0 then F.namedBefore t else 0) ++
        (codeAt (blockCode ((OwnState.start F).afterBlocks before) fn t) (.ofBlock fn t i) ++ rest) ∧
      (.ofBlock fn t i ≠ (((OwnState.start F).afterBlocks before).afterBlock t).last fn t →
        rest = []) := by
  obtain ⟨-, hnotBefore, hnotAfter⟩ := nodup_split hsorted hblocks
  have hrestart : codeAt (restartCode F fn) (.ofBlock fn t i) = [] := by
    rw [restartCode, codeAt_placed, if_neg]
    rintro ⟨⟩
  let L := (OwnState.start F).afterBlocks before
  refine ⟨codeAt (blocksCode (L.afterBlock t) fn after) (.ofBlock fn t i), ?_, fun hi => ?_⟩
  · rw [functionCode, codeAt_append, hrestart, List.nil_append, hblocks, blocksCode_append,
      codeAt_append, codeAt_blocksCode hnotBefore, blocksCode, codeAt_append, GenFunction.namedBefore,
      filter_lt_of_sorted hsorted hblocks]
    congr 1
    by_cases hi : i = 0 <;> simp [OwnState.start, hi, prologues]
  · rw [codeAt_blocksCode hnotAfter, if_neg]
    rintro rfl
    exact hi rfl

/-- Control that enters the handler `t` at the beginning runs the prologues of the traps before it. -/
theorem handlerCalls_functionCode (hsorted : F.blocks.Pairwise (· < ·))
    (hgen : (OwnState.start F).GeneratesBlocks F.blocks) (ht : t ∈ F.blocks) :
    handlerCalls (codeAt (functionCode F fn) (.ofBlock fn t 0)) = prologues (F.namedBefore t) := by
  obtain ⟨before, after, hblocks⟩ := List.append_of_mem ht
  obtain ⟨rest, hcode, -⟩ : ∃ rest, codeAt (functionCode F fn) (.ofBlock fn t 0) = _ ∧ _ :=
    codeAt_functionCode hsorted hblocks 0
  let L := (OwnState.start F).afterBlocks before
  have hone : L.llvmBlocks t = 1 := llvmBlocks_before hsorted hblocks
  have hfirst : L.last fn t = .ofBlock fn t 0 := by rw [OwnState.last, hone]
  rw [hblocks, generatesBlocks_append] at hgen
  obtain ⟨e, he, hlast, -⟩ : ∃ e ∈ blockCode L fn t, _ :=
    exists_terminator_blockCode hgen.2.1.1 hgen.2.1.2
  rw [hcode, if_pos rfl]
  refine handlerCalls_prologues _ (opensOwn_codeAt (fun e he hb => ?_) ?_) rest
  · exact own_first_blockCode (hone ▸ Nat.one_pos) he (hb.trans hfirst.symm)
  · rw [← hfirst]
    exact exists_first_blockCode ⟨e, he, hlast⟩

theorem handlerRuns_functionCode (hsorted : F.blocks.Pairwise (· < ·))
    (hgen : (OwnState.start F).GeneratesBlocks F.blocks) (ht : t ∈ F.blocks)
    (hself : ∀ inst ∈ (F.block t).instructions, inst.opNum = .pushTrap → inst.arg 0 ≠ t) (i : Nat) :
    handlerRuns (codeAt (functionCode F fn) (.ofBlock fn t i)) =
      prologues (if i = 0 then F.namedBefore t else 0) := by
  obtain ⟨before, after, hblocks⟩ := List.append_of_mem ht
  obtain ⟨rest, hcode, hrest⟩ : ∃ rest, codeAt (functionCode F fn) (.ofBlock fn t i) = _ ∧ _ :=
    codeAt_functionCode hsorted hblocks i
  let L := (OwnState.start F).afterBlocks before
  have hgrown : GrownFrom F L.graph := (OwnState.start F).afterBlocks_grown before
  rw [← hgrown.instructions] at hself
  rw [hblocks, generatesBlocks_append] at hgen
  obtain ⟨e, he, hlast, hterm⟩ : ∃ e ∈ blockCode L fn t, _ :=
    exists_terminator_blockCode hgen.2.1.1 hgen.2.1.2
  rw [hcode, handlerRuns_prologues_append, handlerRuns_own, List.append_nil]
  · intro inst hinst
    obtain ⟨e', he', rfl⟩ := List.mem_map.mp hinst
    obtain ⟨he', hb⟩ := List.mem_filter.mp he'
    exact own_blockCode hself he' (of_decide_eq_true hb ▸ ⟨rfl, rfl⟩)
  · by_cases hb : BasicBlock.ofBlock fn t i = (L.afterBlock t).last fn t
    · refine .inr ⟨e.2, List.mem_map_of_mem (List.mem_filter.mpr ⟨he, ?_⟩), hterm⟩
      exact decide_eq_true (hlast.trans hb.symm)
    · exact .inl (hrest hb)

end CamllVM
