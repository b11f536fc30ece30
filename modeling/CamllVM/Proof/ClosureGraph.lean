import CamllVM.Proof.BlockCode

/-!
# Code generation over the graph of closures

Every call of `CodeGen` for another function comes from a function that has no code yet, so that the
number of these bounds the depth of the calls. What a block emits stays in its own LLVM blocks, in
the order of its instructions.
-/

namespace CamllVM

variable {M : GenModule} {gen : FnRef → GenState → Option GenState} {act : List FnRef}
  {fn g : FnRef} {k : Int} {s s' : GenState} {inst : ZInstruction} {depth n : Nat}

def GenModule.refs (M : GenModule) : List FnRef := .main :: M.functions.map fun f => .closure f.id

/-- Code can be generated for the function, and the functions that it refers to exist. -/
structure GenModule.Generable (M : GenModule) (fn : FnRef) : Prop where
  generates : (OwnState.start (M.function fn)).GeneratesBlocks (M.function fn).blocks
  refs : ∀ g, M.Refers fn g → M.Has g

theorem mem_refs (h : M.Has fn) : fn ∈ M.refs := by
  cases fn with
  | main => exact List.mem_cons_self
  | closure id =>
      obtain ⟨f, hf⟩ := Option.isSome_iff_exists.mp h
      have hid : f.id = id := by simpa using List.find?_some hf
      refine List.mem_cons_of_mem _ (List.mem_map.mpr ⟨f, List.mem_of_find?_eq_some hf, ?_⟩)
      rw [hid]

def unfinished (M : GenModule) (s : GenState) : Nat :=
  (M.refs.filter (· ∉ s.generated)).length

theorem unfinished_le (h : s.generated ⊆ s'.generated) : unfinished M s' ≤ unfinished M s := by
  refine (List.monotone_filter_right M.refs fun g hg => ?_).length_le
  rw [decide_eq_true_iff] at hg ⊢
  exact fun hmem => hg (h hmem)

theorem unfinished_enter (hfn : fn ∉ s.generated) (hhas : M.Has fn) :
    unfinished M { s with generated := fn :: s.generated } < unfinished M s := by
  have hsub : M.refs.filter (· ∉ fn :: s.generated) =
      (M.refs.filter (· ∉ s.generated)).filter (· ≠ fn) := by
    rw [List.filter_filter]
    refine List.filter_congr fun g _ => ?_
    by_cases hg : g = fn <;> simp [hg]
  rw [unfinished, unfinished, hsub]
  exact List.length_filter_lt_length_iff_exists.mpr
    ⟨fn, List.mem_filter.mpr ⟨mem_refs hhas, by simpa using hfn⟩, by simp⟩

/-! ### Code generation comes to an end -/

/-- `gen` generates code in every state with at most `n` functions left. -/
def Total (M : GenModule) (gen : FnRef → GenState → Option GenState) (n : Nat) : Prop :=
  ∀ act s g, InProgress M act s → g ∉ s.generated → M.Reaches .main g → M.Has g →
    unfinished M s ≤ n → ∃ s', gen g s = some s'

theorem getPtrToFunc_total (htotal : Total M gen n) (h : InProgress M act s)
    {id : Int} (hreach : M.Reaches .main (.closure id)) (hhas : M.Has (.closure id))
    (hleft : unfinished M s ≤ n) : ∃ s', getPtrToFunc M gen fn k id s = some s' := by
  by_cases hmem : .closure id ∈ s.generated
  · exact ⟨_, getPtrToFunc_eq_some.mpr ⟨hhas, s, if_pos hmem, rfl⟩⟩
  · obtain ⟨s₁, hs₁⟩ := htotal act s _ h hmem hreach hhas hleft
    exact ⟨_, getPtrToFunc_eq_some.mpr ⟨hhas, s₁, by rw [if_neg hmem, hs₁], rfl⟩⟩

theorem emit_total {b : BasicBlock} (hpoint : s.insertPoint = some b) (llvmInst : LlvmInst) :
    ∃ s', s.emit llvmInst = some s' := by
  have hput : s.put .main (s.own .main) b [] = s := GenState.put_own hpoint
  rw [← hput, GenState.emit_put]
  exact ⟨_, rfl⟩

theorem genNestedClosures_total (hgen : Completes M gen) (htotal : Total M gen n) (hfn : fn ∉ act)
    {i m : Nat} (hop : inst.opNum = .closureRec) (hreach : ∀ r ∈ inst.fnRefs, M.Reaches .main r)
    (hhas : ∀ r ∈ inst.fnRefs, M.Has r) (hin : i + m ≤ max 1 (inst.arg 0).toNat)
    (hbound : i + m ≤ 32) (h : InProgress M (fn :: act) s) (hleft : unfinished M s ≤ n) :
    ∃ s', genNestedClosures M gen fn k inst i m s = some s' := by
  induction m generalizing i s with
  | zero => exact ⟨s, rfl⟩
  | succ m ih =>
      have hi : i < 32 := by omega
      have hmem := fnRefs_closureRec hop hi (by omega)
      obtain ⟨s₁, hs₁⟩ : ∃ s₁, getPtrToFunc M gen fn k _ s = some s₁ :=
        getPtrToFunc_total htotal h (hreach _ hmem) (hhas _ hmem) hleft
      obtain ⟨hp₁, -, hpoint₁⟩ := getPtrToFunc_proceeds hgen h (hreach _ hmem) hfn hs₁
      obtain ⟨s₂, hs₂⟩ := emit_total hpoint₁
        (.libCall (.setClosureRecNestedClos i (.closure inst.closureRecFns[i])))
      obtain ⟨hp₂, -⟩ := emit_proceeds hp₁.progress hfn rfl hpoint₁ hs₂
      have hleft₂ := unfinished_le (M := M) (hp₁.trans hp₂).generated
      obtain ⟨s₃, hs₃⟩ := ih (i := i + 1) (by omega) (by omega) hp₂.progress (hleft₂.trans hleft)
      refine ⟨s₃, ?_⟩
      rw [genNestedClosures, dif_pos hi]
      simp only [hs₁, hs₂, Option.bind_eq_bind, Option.bind_some]
      exact hs₃

theorem genCodeForInst_total (hgen : Completes M gen) (htotal : Total M gen n) (hfn : fn ∉ act)
    (h : InProgress M (fn :: act) s) (hreach : ∀ r ∈ inst.fnRefs, M.Reaches .main r)
    (hhas : ∀ r ∈ inst.fnRefs, M.Has r) (hpoint : s.insertPoint = some ((s.own fn).last fn k))
    (hgenerates : (s.own fn).Generates k inst) (hleft : unfinished M s ≤ n) :
    ∃ s', genCodeForInst M gen fn k inst s = some s' := by
  by_cases hrefs : inst.refersToFns = true
  · rw [ZInstruction.refersToFns, Bool.or_eq_true, ZInstruction.isClosure, ZInstruction.isClosureRec,
      beq_iff_eq, beq_iff_eq] at hrefs
    rcases hrefs with hop | hop
    · have hmem : FnRef.closure (inst.arg 1) ∈ inst.fnRefs := by
        simp [ZInstruction.fnRefs, ZInstruction.isClosure, hop]
      obtain ⟨s₁, hs₁⟩ : ∃ s₁, getPtrToFunc M gen fn k _ s = some s₁ :=
        getPtrToFunc_total htotal h (hreach _ hmem) (hhas _ hmem) hleft
      obtain ⟨-, -, hpoint₁⟩ := getPtrToFunc_proceeds hgen h (hreach _ hmem) hfn hs₁
      obtain ⟨s₂, hs₂⟩ := emit_total hpoint₁
        (.libCall (.closure (inst.arg 0) (.closure (inst.arg 1))))
      refine ⟨s₂, ?_⟩
      simp only [genCodeForInst, hop, hs₁, Option.bind_eq_bind, Option.bind_some]
      exact hs₂
    · have hmem : FnRef.closure (inst.closureRecFn 0) ∈ inst.fnRefs :=
        fnRefs_closureRec (i := 0) hop (by omega) (by omega)
      obtain ⟨s₁, hs₁⟩ : ∃ s₁, getPtrToFunc M gen fn k _ s = some s₁ :=
        getPtrToFunc_total htotal h (hreach _ hmem) (hhas _ hmem) hleft
      obtain ⟨hp₁, -, hpoint₁⟩ := getPtrToFunc_proceeds hgen h (hreach _ hmem) hfn hs₁
      obtain ⟨s₂, hs₂⟩ := emit_total hpoint₁ (.libCall
        (.closureRec (inst.arg 0) (inst.arg 1) (.closure (inst.closureRecFn 0))))
      obtain ⟨hp₂, -⟩ := emit_proceeds hp₁.progress hfn rfl hpoint₁ hs₂
      have hleft₂ := unfinished_le (M := M) (hp₁.trans hp₂).generated
      have hbound : (inst.arg 0).toNat ≤ 32 := by simpa [OwnState.Generates, hop] using hgenerates
      obtain ⟨s₃, hs₃⟩ : ∃ s₃,
          genNestedClosures M gen fn k inst 1 ((inst.arg 0).toNat - 1) s₂ = some s₃ :=
        genNestedClosures_total hgen htotal hfn hop hreach hhas (by omega) (by omega)
          hp₂.progress (hleft₂.trans hleft)
      refine ⟨s₃, ?_⟩
      simp only [genCodeForInst, hop, hs₁, hs₂, Option.bind_eq_bind, Option.bind_some]
      exact hs₃
  · have hput : s.put fn (s.own fn) _ [] = s := GenState.put_own hpoint
    rw [← hput]
    exact ⟨_, (genCodeForInst_put (Bool.eq_false_iff.mpr hrefs)).mpr ⟨hgenerates, rfl⟩⟩

theorem genCodeForInsts_total (hgen : Completes M gen) (htotal : Total M gen n) (hfn : fn ∉ act)
    {insts : List ZInstruction} (h : InProgress M (fn :: act) s)
    (hreach : ∀ inst ∈ insts, ∀ r ∈ inst.fnRefs, M.Reaches .main r)
    (hhas : ∀ inst ∈ insts, ∀ r ∈ inst.fnRefs, M.Has r)
    (hpoint : s.insertPoint = some ((s.own fn).last fn k))
    (hgenerates : (s.own fn).GeneratesInsts k insts) (hleft : unfinished M s ≤ n) :
    ∃ s', genCodeForInsts M gen fn k insts s = some s' := by
  induction insts generalizing s with
  | nil => exact ⟨s, rfl⟩
  | cons inst insts ih =>
      obtain ⟨hinst, hinsts⟩ := hgenerates
      have hreach' := hreach inst List.mem_cons_self
      obtain ⟨s₁, hs₁⟩ := genCodeForInst_total hgen htotal hfn h hreach'
        (hhas inst List.mem_cons_self) hpoint hinst hleft
      obtain ⟨hp₁, hpoint₁, -⟩ := genCodeForInst_proceeds hgen hfn h hreach' hpoint hs₁
      rw [← hp₁.own] at hpoint₁ hinsts
      obtain ⟨s₂, hs₂⟩ := ih hp₁.progress (fun i hi => hreach i (List.mem_cons_of_mem inst hi))
        (fun i hi => hhas i (List.mem_cons_of_mem inst hi)) hpoint₁ hinsts
        ((unfinished_le hp₁.generated).trans hleft)
      refine ⟨s₂, ?_⟩
      simp only [genCodeForInsts, hs₁, Option.bind_eq_bind, Option.bind_some]
      exact hs₂

theorem codeGenBlocks_total (hgen : Completes M gen) (htotal : Total M gen n) (hfn : fn ∉ act)
    {F : GenFunction} {ks : List Int} (h : InProgress M (fn :: act) s)
    (hinsts : ∀ k, ((s.own fn).graph.block k).instructions = (F.block k).instructions)
    (hreach : ∀ k ∈ ks, ∀ inst ∈ (F.block k).instructions, ∀ r ∈ inst.fnRefs, M.Reaches .main r)
    (hhas : ∀ k ∈ ks, ∀ inst ∈ (F.block k).instructions, ∀ r ∈ inst.fnRefs, M.Has r)
    (hgenerates : (s.own fn).GeneratesBlocks ks) (hleft : unfinished M s ≤ n) :
    ∃ s', codeGenBlocks M gen fn ks s = some s' := by
  induction ks generalizing s with
  | nil => exact ⟨s, rfl⟩
  | cons k ks ih =>
      obtain ⟨⟨hblock, hterm⟩, hrest⟩ := hgenerates
      have hreach' : ∀ inst ∈ ((s.own fn).graph.block k).instructions, ∀ r ∈ inst.fnRefs,
          M.Reaches .main r := hinsts k ▸ hreach k List.mem_cons_self
      have hp₀ := proceeds_put (L := s.own fn) (b := (s.own fn).last fn k) h hfn
        (owner_initCode (s.own fn) fn k)
      obtain ⟨s₁, hs₁⟩ := genCodeForInsts_total (k := k) hgen htotal hfn hp₀.progress hreach'
        (hinsts k ▸ hhas k List.mem_cons_self) (by rw [hp₀.own]; rfl) (by rwa [hp₀.own])
        ((unfinished_le hp₀.generated).trans hleft)
      have hblock₁ : codeGenBlock M gen fn k s = some s₁ := (codeGenBlock_eq M gen fn k s).trans hs₁
      obtain ⟨hp₁, -⟩ := codeGenBlock_proceeds hgen hfn h hreach' hblock₁
      rw [← hp₁.own] at hterm hrest
      have hs₂ := genTermInst_put.mpr ⟨hterm, rfl⟩
      have hp₂ := proceeds_put (L := s₁.own fn) (b := (s₁.own fn).last fn k) hp₁.progress hfn
        (owner_termCode (s₁.own fn) fn k)
      have hp₃ := pushBlocks_proceeds hp₂.progress hfn k
      rw [hp₂.own] at hp₃
      have hp := (hp₁.trans hp₂).trans hp₃
      rw [← hp.own] at hrest
      obtain ⟨s₃, hs₃⟩ := ih hp.progress
        (fun j => by
          rw [hp.own.trans hp₁.own, ((s.own fn).afterBlock_grown k).instructions, hinsts j])
        (fun j hj => hreach j (List.mem_cons_of_mem k hj))
        (fun j hj => hhas j (List.mem_cons_of_mem k hj)) hrest
        ((unfinished_le hp.generated).trans hleft)
      refine ⟨s₃, ?_⟩
      simp only [codeGenBlocks, hblock₁, hs₂, Option.bind_eq_bind, Option.bind_some]
      exact hs₃

/-- The functions in progress have an LLVM function, so that the depth of the calls is bounded by the
number of the others. -/
theorem codeGen_total (hgenerable : ∀ fn, M.Reaches .main fn → M.Generable fn) (depth : Nat) :
    Total M (codeGen M depth) depth := by
  induction depth with
  | zero =>
      intro act s g _ hg _ hhas hleft
      have hlt := unfinished_enter hg hhas
      omega
  | succ depth ih =>
      intro act s g h hg hreach hhas hleft
      have hact : g ∉ act := fun hmem => hg (h.active g hmem)
      have hgraph : s.graph g = M.function g := congrArg OwnState.graph (h.fresh g hg).1
      have hlt := unfinished_enter hg hhas
      have hp₁ : Proceeds M act g { s with generated := g :: s.generated } { s with
          generated := g :: s.generated
          insertPoint := if (M.function g).id ≠ mainFunctionId then some (.ofRestart g)
            else s.insertPoint
          log := s.log ++ restartCode (M.function g) g } _ (restartCode (M.function g) g) [] :=
        proceeds_of_log (h.enter hg hreach) hact rfl (fun _ _ => rfl) rfl rfl
          (owner_restartCode (M.function g) g)
      have hown : GenState.own { s with
          generated := g :: s.generated
          insertPoint := if (M.function g).id ≠ mainFunctionId then some (.ofRestart g)
            else s.insertPoint
          log := s.log ++ restartCode (M.function g) g } g = .start (M.function g) :=
        (h.fresh g hg).1
      rw [codeGen, codeGenFunction_eq, hgraph]
      refine codeGenBlocks_total (codeGen_completes M depth) ih hact hp₁.progress
        (F := M.function g) (fun k => ?_) (fun k hk inst hinst r hr => ?_)
        (fun k hk inst hinst r hr => ?_) ?_ (by exact Nat.le_of_lt_succ (hlt.trans_le hleft))
      · rw [hown]
        rfl
      · exact hreach.tail ⟨k, hk, inst, hinst, hr⟩
      · exact (hgenerable g hreach).refs r ⟨k, hk, inst, hinst, hr⟩
      · rw [hown]
        exact (hgenerable g hreach).generates

/-! ### Calls in program order -/

/-- A call for an instruction. `init`, `restart` and the prologues are not. -/
def LlvmInst.isInstCall : LlvmInst → Bool
  | .instCalls _ => true
  | .libCall .init | .libCall .restart => false
  | .libCall _ => true
  | _ => false

/-- The calls for an instruction of `fn`. -/
def instCalls (fn : FnRef) (inst : ZInstruction) : List LlvmInst :=
  match inst.opNum with
  | .pushTrap => [.libCall .getNewBuffer, .libCall .sigsetjmp, .libCall .pushTrap]
  | .popTrap => [.libCall .removeExceptionContext, .libCall .popTrap]
  | .raise => [.libCall .throwException]
  | .closureRec =>
      .libCall (.closureRec (inst.arg 0) (inst.arg 1) (.closure (inst.closureRecFn 0))) ::
        nestedClosures inst 1 ((inst.arg 0).toNat - 1)
  | .closure => [.libCall (.closure (inst.arg 0) (.closure (inst.arg 1)))]
  | .grab => [.libCall (.checkGrab (inst.arg 0)), .libCall (.createRestartClosure fn),
      .libCall (.substractExtraArgs (inst.arg 0))]
  | .apply1 => [.libCall .apply1]
  | .apply2 => [.libCall .apply2]
  | .apply3 => [.libCall .apply3]
  | .apply => [.libCall (.apply (inst.arg 0))]
  | .appterm1 => [.libCall (.appterm1 (inst.arg 0))]
  | .appterm2 => [.libCall (.appterm2 (inst.arg 0))]
  | .appterm3 => [.libCall (.appterm3 (inst.arg 0))]
  | .appterm => [.libCall (.appterm (inst.arg 0) (inst.arg 1))]
  | .return_ => [.libCall (.handleReturn (inst.arg 0))]
  | .switch => [.libCall (.getSwitchOffset (inst.arg 0))]
  | .stop | .branch | .branchIf | .branchIfNot
  | .beq | .bneq | .bltInt | .bleInt | .bgtInt | .bgeInt | .bultInt | .bugeInt => []
  | .restart | .event | .break_ | .checkSignals => []
  | _ => [.instCalls inst]

def callsOf (c : List (BasicBlock × LlvmInst)) : List LlvmInst :=
  (c.map Prod.snd).filter LlvmInst.isInstCall

theorem callsOf_append (c c' : List (BasicBlock × LlvmInst)) :
    callsOf (c ++ c') = callsOf c ++ callsOf c' := by simp [callsOf]

theorem callsOf_placed (b : BasicBlock) (insts : List LlvmInst) :
    callsOf (placed b insts) = insts.filter LlvmInst.isInstCall := by
  simp [callsOf, placed, Function.comp_def]

theorem nestedClosures_calls (inst : ZInstruction) (i n : Nat) :
    (nestedClosures inst i n).filter LlvmInst.isInstCall = nestedClosures inst i n := by
  induction n generalizing i with
  | zero => rfl
  | succ n ih =>
      rw [nestedClosures]
      split
      · exact (List.filter_cons_of_pos rfl).trans (congrArg _ (ih (i + 1)))
      · rfl

theorem condBrCode_calls (L : OwnState) (fn : FnRef) (k : Int) (cond : BranchCond)
    (brIfTrue : Bool) : (condBrCode L fn k cond brIfTrue).filter LlvmInst.isInstCall = [] := by
  unfold condBrCode
  cases (L.graph.block k).brBlock <;> cases (L.graph.block k).noBrBlock <;> cases brIfTrue <;> rfl

theorem callsOf_instCode (L : OwnState) (fn : FnRef) (k : Int) (inst : ZInstruction) :
    callsOf (instCode L fn k inst) = instCalls fn inst := by
  unfold instCode instCalls
  cases hop : inst.opNum with
  | closureRec =>
      dsimp only
      rw [callsOf_placed]
      exact (List.filter_cons_of_pos rfl).trans (congrArg _ (nestedClosures_calls _ _ _))
  | branchIf | branchIfNot | beq | bneq | bltInt | bleInt | bgtInt | bgeInt | bultInt | bugeInt =>
      dsimp only
      rw [callsOf_placed, condBrCode_calls]
  | branch =>
      dsimp only
      rw [callsOf_placed]
      cases (L.graph.block k).brBlock <;> rfl
  | switch =>
      dsimp only
      rw [callsOf_placed]
      cases inst.switchEntries.head? <;> rfl
  | _ => rfl

theorem callsOf_instsCode (L : OwnState) (fn : FnRef) (k : Int) (insts : List ZInstruction) :
    callsOf (instsCode L fn k insts) = insts.flatMap (instCalls fn) := by
  induction insts generalizing L with
  | nil => rfl
  | cons inst insts ih => rw [instsCode, callsOf_append, callsOf_instCode, ih, List.flatMap_cons]

theorem callsOf_blockCode (L : OwnState) (fn : FnRef) (k : Int) :
    callsOf (blockCode L fn k) = (L.graph.block k).instructions.flatMap (instCalls fn) := by
  have hinit : callsOf (initCode L fn k) = [] := by
    unfold initCode
    split <;> rfl
  have hterm : callsOf (termCode (L.afterBlock k) fn k) = [] := by
    unfold termCode
    split
    · rfl
    · split
      · rfl
      · rw [callsOf_placed]
        cases (((L.afterBlock k).graph.block k).nextBlocks).head? <;> rfl
  rw [blockCode, callsOf_append, callsOf_append, hinit, hterm, callsOf_instsCode, List.nil_append,
    List.append_nil]

/-- The calls of a block are in its own LLVM blocks. -/
theorem callsOf_ownCode_blockCode (L : OwnState) (fn : FnRef) (k : Int) :
    callsOf (ownCode fn k (blockCode L fn k)) = callsOf (blockCode L fn k) := by
  rw [callsOf, callsOf, List.filter_map, List.filter_map, ownCode, List.filter_filter]
  congr 1
  refine List.filter_congr fun e he => ?_
  by_cases hcall : e.2.isInstCall = true
  · have hown : e.2.isHandlerCall = false := by
      cases h : e.2 <;> rw [h] at hcall <;> first | rfl | cases hcall
    simp [hcall, hown, mem_blockCode he hown]
  · simp [hcall]

/-! ### The body of a function -/

/-- A list that is sorted by a key is the sequence of the parts with equal keys. -/
theorem flatMap_filter_eq {α : Type} (key : α → Nat) {l : List α} {n : Nat}
    (hsorted : l.Pairwise fun a b => key a ≤ key b) (hlt : ∀ a ∈ l, key a < n) :
    ((List.range n).flatMap fun i => l.filter fun a => key a = i) = l := by
  induction n generalizing l with
  | zero =>
      cases l with
      | nil => rfl
      | cons a l => exact absurd (hlt a List.mem_cons_self) (Nat.not_lt_zero _)
  | succ n ih =>
      have hsplit : l.filter (fun a => key a < n) ++ l.filter (fun a => key a = n) = l := by
        clear ih
        induction l with
        | nil => rfl
        | cons a l ihl =>
            obtain ⟨hle, hsorted⟩ := List.pairwise_cons.mp hsorted
            have hrest := ihl hsorted fun b hb => hlt b (List.mem_cons_of_mem a hb)
            by_cases ha : key a = n
            · have hnone : l.filter (fun a => key a < n) = [] := by
                refine List.filter_eq_nil_iff.mpr fun b hb => ?_
                have hab := hle b hb
                rw [decide_eq_true_iff]
                omega
              rw [hnone, List.nil_append] at hrest
              simp [ha, hnone, hrest]
            · have hlow : key a < n := by
                have ha' := hlt a List.mem_cons_self
                omega
              simp [ha, hlow, hrest]
      have hbelow := ih (l := l.filter fun a => key a < n) (hsorted.filter _)
        fun a ha => by simpa using (List.mem_filter.mp ha).2
      have hparts : ((List.range n).flatMap fun i => l.filter fun a => key a = i) =
          (List.range n).flatMap fun i => (l.filter fun a => key a < n).filter fun a => key a = i := by
        refine List.flatMap_congr fun i hi => ?_
        rw [List.filter_filter]
        refine List.filter_congr fun a _ => ?_
        have hi' := List.mem_range.mp hi
        by_cases ha : key a = i
        · simp [ha, hi']
        · simp [ha]
      rw [List.range_succ, List.flatMap_append, List.flatMap_singleton, hparts, hbelow, hsplit]

theorem filter_functionBody {F : GenFunction} {before after : List Int} (hnodup : F.blocks.Nodup)
    (hblocks : F.blocks = before ++ k :: after) :
    (functionBody F fn).filter (fun b => b.IsOf fn k) =
      (List.range ((((OwnState.start F).afterBlocks before).afterBlock k).llvmBlocks k)).map
        (.ofBlock fn k) := by
  have hpart : ∀ (L : OwnState) (j : Int) (n : Nat),
      ((List.range n).map (BasicBlock.ofBlock fn j)).filter (fun b => b.IsOf fn k) =
        if j = k then (List.range n).map (BasicBlock.ofBlock fn k) else [] := by
    intro L j n
    by_cases hj : j = k
    · subst hj
      simp [BasicBlock.IsOf, List.filter_map, Function.comp_def]
    · simp [BasicBlock.IsOf, List.filter_map, Function.comp_def, hj]
  have hnone : ∀ (L : OwnState) (ks : List Int), k ∉ ks →
      (blocksBody L fn ks).filter (fun b => b.IsOf fn k) = [] := by
    intro L ks hk
    induction ks generalizing L with
    | nil => rfl
    | cons j ks ih =>
        obtain ⟨hne, hk⟩ := not_or.mp (List.mem_cons.not.mp hk)
        rw [blocksBody, List.filter_append, hpart L, if_neg (Ne.symm hne), ih _ hk]
        rfl
  have hat : ∀ (L : OwnState) (before : List Int), k ∉ before → k ∉ after →
      (blocksBody L fn (before ++ k :: after)).filter (fun b => b.IsOf fn k) =
        (List.range (((L.afterBlocks before).afterBlock k).llvmBlocks k)).map (.ofBlock fn k) := by
    intro L before hbefore hafter
    induction before generalizing L with
    | nil =>
        rw [List.nil_append, blocksBody, List.filter_append, hpart L, if_pos rfl, hnone _ _ hafter,
          List.append_nil]
        rfl
    | cons j before ih =>
        obtain ⟨hne, hbefore⟩ := not_or.mp (List.mem_cons.not.mp hbefore)
        rw [List.cons_append, blocksBody, List.filter_append, hpart L, if_neg (Ne.symm hne),
          ih _ hbefore]
        rfl
  rw [functionBody, hblocks]
  rw [hblocks] at hnodup
  obtain ⟨-, hcons, hdisjoint⟩ := List.nodup_append.mp hnodup
  exact hat _ _ (fun hmem => hdisjoint k hmem k List.mem_cons_self rfl) (List.nodup_cons.mp hcons).1

/-- The body of a function holds the LLVM blocks of its blocks, and read in their order they make
the calls of the instructions in program order. -/
structure CodeInOrder (M : GenModule) (fn : FnRef) (s : GenState) : Prop where
  blocks : ∀ b ∈ s.body fn, ∃ k ∈ (M.function fn).blocks, b.IsOf fn k
  nodup : (s.body fn).Nodup
  calls : ∀ k ∈ (M.function fn).blocks,
    (((s.body fn).filter fun b => b.IsOf fn k).flatMap s.code).filter LlvmInst.isInstCall =
      ((M.function fn).block k).instructions.flatMap (instCalls fn)

theorem mem_blocksBody {L : OwnState} {ks : List Int} {b : BasicBlock}
    (hb : b ∈ blocksBody L fn ks) : ∃ k ∈ ks, b.IsOf fn k := by
  induction ks generalizing L with
  | nil => cases hb
  | cons k ks ih =>
      rcases List.mem_append.mp hb with hb | hb
      · obtain ⟨i, -, rfl⟩ := List.mem_map.mp hb
        exact ⟨k, List.mem_cons_self, rfl, rfl⟩
      · obtain ⟨j, hj, hof⟩ := ih hb
        exact ⟨j, List.mem_cons_of_mem k hj, hof⟩

theorem isOf_unique {b : BasicBlock} {j : Int} (h : b.IsOf fn k) (h' : b.IsOf fn j) : k = j := by
  cases b with
  | ofBlock fn' k' i => exact h.2.symm.trans h'.2
  | ofRestart fn' => exact h.elim

theorem nodup_blocksBody (L : OwnState) {ks : List Int} (hnodup : ks.Nodup) :
    (blocksBody L fn ks).Nodup := by
  induction ks generalizing L with
  | nil => exact List.nodup_nil
  | cons k ks ih =>
      obtain ⟨hk, hnodup⟩ := List.nodup_cons.mp hnodup
      refine List.nodup_append.mpr ⟨?_, ih _ hnodup, ?_⟩
      · exact List.nodup_range.map fun i j hij => (BasicBlock.ofBlock.inj hij).2.2
      · rintro b hb b' hb' rfl
        obtain ⟨i, -, rfl⟩ := List.mem_map.mp hb
        obtain ⟨j, hj, hof⟩ := mem_blocksBody hb'
        have hof' : (BasicBlock.ofBlock fn k i).IsOf fn k := ⟨rfl, rfl⟩
        exact hk (isOf_unique hof' hof ▸ hj)

theorem code_calls (s : GenState) (fn : FnRef) (k : Int) (i : Nat) :
    (s.code (.ofBlock fn k i)).filter LlvmInst.isInstCall =
      callsOf ((ownCode fn k s.log).filter fun e => e.1.index = i) := by
  rw [GenState.code, callsOf, List.filter_map, List.filter_map, ownCode, List.filter_filter,
    List.filter_filter, List.filter_filter]
  congr 1
  refine List.filter_congr fun e _ => ?_
  by_cases hcall : e.2.isInstCall = true
  · have hown : e.2.isHandlerCall = false := by
      cases h : e.2 <;> rw [h] at hcall <;> first | rfl | cases hcall
    cases hb : e.1 with
    | ofBlock fn' k' i' =>
        by_cases hfn : fn' = fn <;> by_cases hk : k' = k <;> by_cases hi : i' = i <;>
          simp [BasicBlock.IsOf, BasicBlock.index, hcall, hown, hfn, hk, hi]
    | ofRestart fn' => simp [BasicBlock.IsOf, BasicBlock.index, hown]
  · simp [hcall]

theorem Complete.codeInOrder (h : Complete M fn s) (hnodup : (M.function fn).blocks.Nodup) :
    CodeInOrder M fn s where
  blocks := by
    intro b hb
    rw [h.body] at hb
    exact mem_blocksBody hb
  nodup := by
    rw [h.body]
    exact nodup_blocksBody _ hnodup
  calls := by
    intro k hk
    obtain ⟨before, after, hblocks⟩ := List.append_of_mem hk
    let L := (OwnState.start (M.function fn)).afterBlocks before
    have hpos : 0 < L.llvmBlocks k := by
      have hbefore : before.Nodup := by
        rw [hblocks] at hnodup
        exact (List.nodup_append.mp hnodup).1
      have hcount : L.llvmBlocks k = 1 + _ :=
        (OwnState.start (M.function fn)).afterBlocks_llvmBlocks hbefore k
      omega
    have hown : ownCode fn k s.log = ownCode fn k (blockCode L fn k) := by
      rw [s.ownCode_log, h.owned, ownCode_functionCode hnodup hblocks]
    have horder := inOrder_blockCode L fn k hpos
    have hparts := flatMap_filter_eq (fun e : BasicBlock × LlvmInst => e.1.index)
      (n := (L.afterBlock k).llvmBlocks k) horder.sorted fun e he => by
        have hbound := (horder.bounds e he).2
        have hgrow := congrFun (L.afterInsts_llvmBlocks k (L.graph.block k).instructions) k
        rw [Function.update_self] at hgrow
        have hgrow' : (L.afterBlock k).llvmBlocks k =
          L.llvmBlocks k + OwnState.addedBy (L.graph.block k).instructions := hgrow
        omega
    calc
      (((s.body fn).filter fun b => b.IsOf fn k).flatMap s.code).filter LlvmInst.isInstCall =
          (List.range ((L.afterBlock k).llvmBlocks k)).flatMap fun i =>
            (s.code (.ofBlock fn k i)).filter LlvmInst.isInstCall := by
        rw [h.body, filter_functionBody hnodup hblocks, List.flatMap_map, List.filter_flatMap]
      _ = callsOf ((List.range ((L.afterBlock k).llvmBlocks k)).flatMap fun i =>
            (ownCode fn k (blockCode L fn k)).filter fun e => e.1.index = i) := by
        simp only [code_calls, hown, callsOf, List.map_flatMap, List.filter_flatMap]
      _ = callsOf (blockCode L fn k) := by rw [hparts, callsOf_ownCode_blockCode]
      _ = ((M.function fn).block k).instructions.flatMap (instCalls fn) := by
        rw [callsOf_blockCode, ((OwnState.start (M.function fn)).afterBlocks_grown before).instructions]
        rfl

theorem codeGen_isSome_iff (hdepth : M.functions.length < depth) :
    (codeGen M depth .main (.start M)).isSome ↔ ∀ fn, M.Reaches .main fn → M.Generable fn := by
  constructor
  · intro hsome fn hreach
    obtain ⟨s, hs⟩ := Option.isSome_iff_exists.mp hsome
    obtain ⟨hprogress, hreached⟩ := codeGen_main hs
    have hcomplete := hprogress.complete fn ((hreached fn).mpr hreach) List.not_mem_nil
    exact ⟨hcomplete.generates, fun g hg => (hcomplete.refs g hg).1⟩
  · intro hgenerable
    have hleft : unfinished M (.start M) ≤ depth := by
      refine (List.length_filter_le _ _).trans ?_
      simpa [GenModule.refs] using hdepth
    obtain ⟨s, hs⟩ := codeGen_total hgenerable depth [] _ .main (inProgress_start M)
      List.not_mem_nil .refl trivial hleft
    exact hs ▸ rfl

/-! ### Closures that refer to each other -/

theorem refers_iff : M.Refers fn g ↔ g ∈ (M.function fn).blocks.flatMap fun k =>
    ((M.function fn).block k).instructions.flatMap ZInstruction.fnRefs := by
  simp [GenModule.Refers, List.mem_flatMap]

/-- `main` makes a closure of a function which makes one of itself and of another one, and this one
of both. -/
def mutualClosures : GenModule :=
  let build (id : Int) (insts : List ZInstruction) :=
    ((GenFunction.new id 1).buildBlocks insts).getD (.new id 1)
  ⟨[build 10 [{ ZInstruction.ofArgs .pushTrap 13 0 with idx := 10, annotation := .functionStart },
        { ZInstruction.ofArgs .closure 0 10 with idx := 11 },
        { ZInstruction.ofArgs .closure 0 20 with idx := 12 },
        { ZInstruction.ofArgs .return_ 1 0 with idx := 13, annotation := .blockStart }],
      build 20 [{ ZInstruction.ofArgs .closureRec 2 0 with
          idx := 20
          annotation := .functionStart
          closureRecFns := Vector.ofFn fun j => if j.val = 0 then 10 else 20 },
        { ZInstruction.ofArgs .return_ 1 0 with idx := 21 }]],
    build 0 [{ ZInstruction.ofArgs .closure 0 10 with idx := 0 },
      { ZInstruction.blank .stop with idx := 1 }]⟩

/-- A main function that holds an instruction which is not handled. -/
def unhandledEvent : GenModule :=
  ⟨[], ((GenFunction.new 0 0).buildBlocks [{ ZInstruction.blank .event with idx := 0 },
    { ZInstruction.blank .stop with idx := 1 }]).getD (.new 0 0)⟩

end CamllVM
