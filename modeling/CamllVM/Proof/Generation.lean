import CamllVM.Proof.Emission
import CamllVM.Proof.Graph

/-!
# Code generation creates the code of each function

`put` is the only way in which the generation of a function changes the state between two calls of
`CodeGen`. Such a call leaves the functions in progress alone and completes the ones that it starts.
-/

namespace CamllVM

variable {M : GenModule} {gen : FnRef → GenState → Option GenState} {fn g : FnRef} {k : Int}
  {s s' : GenState} {L L' : OwnState} {b b' : BasicBlock} {c c' : List (BasicBlock × LlvmInst)}
  {inst : ZInstruction}

namespace GenState

/-- The graph and the number of LLVM blocks of a function. -/
def own (s : GenState) (fn : FnRef) : OwnState := ⟨s.graph fn, s.llvmBlocks fn⟩

/-- The instructions in blocks of a function, in the order in which they are created. -/
def owned (s : GenState) (fn : FnRef) : List (BasicBlock × LlvmInst) :=
  s.log.filter fun e => e.1.owner = fn

/-- The state after a part of the generation of `fn` that ends with insertions at the end of `b`. -/
def put (s : GenState) (fn : FnRef) (L : OwnState) (b : BasicBlock)
    (code : List (BasicBlock × LlvmInst)) : GenState :=
  { s with
    graph := Function.update s.graph fn L.graph
    llvmBlocks := Function.update s.llvmBlocks fn L.llvmBlocks
    insertPoint := some b
    log := s.log ++ code }

theorem put_own (h : s.insertPoint = some b) : s.put fn (s.own fn) b [] = s := by
  simp [put, own, ← h]

theorem setInsertPoint_eq (s : GenState) (fn : FnRef) (b : BasicBlock) :
    s.setInsertPoint b = s.put fn (s.own fn) b [] := by
  simp [put, own, setInsertPoint]

@[simp]
theorem own_put : (s.put fn L b c).own fn = L := by simp [put, own]

@[simp]
theorem put_put : (s.put fn L b c).put fn L' b' c' = s.put fn L' b' (c ++ c') := by
  simp [put]

@[simp]
theorem setInsertPoint_put : (s.put fn L b c).setInsertPoint b' = s.put fn L b' c := rfl

@[simp]
theorem emit_put (inst : LlvmInst) :
    (s.put fn L b c).emit inst = some (s.put fn L b (c ++ [(b, inst)])) := by
  simp [emit, put]

@[simp]
theorem emitAll_put (insts : List LlvmInst) :
    (s.put fn L b c).emitAll insts = some (s.put fn L b (c ++ placed b insts)) := by
  induction insts generalizing c with
  | nil => simp [emitAll]
  | cons inst insts ih => simp [emitAll, ih]

@[simp]
theorem addBlock_put : (s.put fn L b c).addBlock fn k = s.put fn (L.addBlock k) b c := by
  simp only [addBlock, put, OwnState.addBlock, Function.update_self, mk.injEq, true_and, and_true]
  funext fn' k'
  by_cases hfn : fn' = fn
  · subst hfn
    by_cases hk : k' = k <;> simp [hk]
  · simp [hfn]

@[simp]
theorem setNext_put (next : Int) (isBrBlock : Bool) :
    (s.put fn L b c).setNext fn k next isBrBlock = s.put fn (L.setNext k next isBrBlock) b c := by
  simp [setNext, put, OwnState.setNext]

@[simp]
theorem llvmBlock_put : (s.put fn L b c).llvmBlock fn = L.last fn := by
  funext k
  simp [llvmBlock, put, OwnState.last]

@[simp]
theorem graph_put : (s.put fn L b c).graph fn = L.graph := by simp [put]

@[simp]
theorem block_put : (s.put fn L b c).block fn k = L.graph.block k := by simp [block]

@[simp]
theorem findBlock_put : (s.put fn L b c).findBlock fn = L.graph.find := by
  funext k
  simp [findBlock]

@[simp]
theorem generated_put : (s.put fn L b c).generated = s.generated := rfl

@[simp]
theorem body_put : (s.put fn L b c).body = s.body := rfl

@[simp]
theorem insertPoint_put : (s.put fn L b c).insertPoint = some b := rfl

theorem llvmBlock_eq (s : GenState) (fn : FnRef) (k : Int) :
    s.llvmBlock fn k = (s.own fn).last fn k := rfl

end GenState

/-! ### Instructions that refer to no function -/

def ZInstruction.refersToFns (inst : ZInstruction) : Bool := inst.isClosure || inst.isClosureRec

/-- Code can be generated for an instruction of block `k`, as far as the function itself is
concerned. -/
def OwnState.Generates (L : OwnState) (k : Int) (inst : ZInstruction) : Prop :=
  match inst.opNum with
  | .pushTrap => inst.arg 0 ∈ L.graph.blocks
  | .grab => L.graph.id ≠ mainFunctionId
  | .branch => (L.graph.block k).brBlock.isSome
  | .branchIf | .branchIfNot
  | .beq | .bneq | .bltInt | .bleInt | .bgtInt | .bgeInt | .bultInt | .bugeInt =>
      (L.graph.block k).brBlock.isSome ∧ (L.graph.block k).noBrBlock.isSome
  | .switch => inst.switchEntries ≠ [] ∧ ∀ dest ∈ inst.switchEntries, dest ∈ L.graph.blocks
  | .closureRec => (inst.arg 0).toNat ≤ 32
  | .restart | .event | .break_ => False
  | _ => True

theorem mapM_find {F : GenFunction} {dests ks : List Int} :
    dests.mapM F.find = some ks ↔ (∀ dest ∈ dests, dest ∈ F.blocks) ∧ ks = dests := by
  induction dests generalizing ks with
  | nil => simp [eq_comm]
  | cons dest dests ih =>
      simp only [List.mapM_cons, Option.bind_eq_bind, Option.bind_eq_some_iff,
        GenFunction.find_eq_some, ih, List.forall_mem_cons]
      constructor
      · rintro ⟨_, ⟨hdest, rfl⟩, _, ⟨hdests, rfl⟩, hks⟩
        cases hks
        exact ⟨⟨hdest, hdests⟩, rfl⟩
      · rintro ⟨⟨hdest, hdests⟩, rfl⟩
        exact ⟨dest, ⟨hdest, rfl⟩, dests, ⟨hdests, rfl⟩, rfl⟩

theorem genCondBr_put (cond : BranchCond) (brIfTrue : Bool) :
    genCondBr fn k cond brIfTrue (s.put fn L b c) = some s' ↔
      ((L.graph.block k).brBlock.isSome ∧ (L.graph.block k).noBrBlock.isSome) ∧
        s.put fn L b (c ++ placed b (condBrCode L fn k cond brIfTrue)) = s' := by
  unfold genCondBr condBrCode
  rw [GenState.block_put]
  cases (L.graph.block k).brBlock with
  | none => simp
  | some br =>
      cases (L.graph.block k).noBrBlock with
      | none => simp
      | some noBr => cases brIfTrue <;> simp

theorem genPushTrap_put (handler : Int) :
    genPushTrap fn k handler (s.put fn L b c) = some s' ↔
      handler ∈ L.graph.blocks ∧
        s.put fn (L.addBlock k) ((L.addBlock k).last fn k) (c ++
          (placed b [.libCall .getNewBuffer, .libCall .sigsetjmp,
              .condBr .setJmpRes (.ofBlock fn handler 0) ((L.addBlock k).last fn k)] ++
            placed ((L.addBlock k).last fn handler) prologue ++
            placed ((L.addBlock k).last fn k) [.libCall .pushTrap])) = s' := by
  simp [genPushTrap, prologue, Option.bind_eq_some_iff, GenFunction.find_eq_some]

theorem genGrab_put (required : Int) :
    genGrab fn k required (s.put fn L b c) = some s' ↔
      L.graph.id ≠ mainFunctionId ∧
        s.put fn ((L.addBlock k).addBlock k) (((L.addBlock k).addBlock k).last fn k) (c ++
          (placed b [.libCall (.checkGrab required),
              .condBr .checkGrab (((L.addBlock k).addBlock k).last fn k) ((L.addBlock k).last fn k)] ++
            placed ((L.addBlock k).last fn k) [.libCall (.createRestartClosure fn), .retVoid] ++
            placed (((L.addBlock k).addBlock k).last fn k)
              [.libCall (.substractExtraArgs required)])) = s' := by
  simp [genGrab]

theorem genReturn_put (stsz : Int) :
    genReturn fn k stsz (s.put fn L b c) = some s' ↔
      s.put fn ((L.addBlock k).addBlock k) (((L.addBlock k).addBlock k).last fn k) (c ++
        (placed b [.libCall (.handleReturn stsz),
            .condBr .handleReturn ((L.addBlock k).last fn k) (((L.addBlock k).addBlock k).last fn k)] ++
          placed ((L.addBlock k).last fn k) [.callPtr true, .retVoid] ++
          placed (((L.addBlock k).addBlock k).last fn k) [.retVoid])) = s' := by
  simp [genReturn]

theorem genSwitch_put : genSwitch fn k inst (s.put fn L b c) = some s' ↔
    (inst.switchEntries ≠ [] ∧ ∀ dest ∈ inst.switchEntries, dest ∈ L.graph.blocks) ∧
      ∃ next, inst.switchEntries.head? = some next ∧
        s.put fn (L.setNext k next false) b (c ++ placed b
          [.libCall (.getSwitchOffset (inst.arg 0)),
            .switch (L.last fn next) (inst.switchEntries.map (L.last fn))]) = s' := by
  unfold genSwitch
  cases hentries : inst.switchEntries with
  | nil => simp
  | cons next nexts =>
      simp only [GenState.emit_put, GenState.findBlock_put, GenState.setNext_put,
        GenState.llvmBlock_put, List.head?_cons, Option.bind_eq_bind, Option.bind_some,
        Option.bind_eq_some_iff, GenFunction.find_eq_some, mapM_find]
      constructor
      · rintro ⟨n, ⟨-, hn⟩, ks, ⟨hdests, hks⟩, hput⟩
        subst hn hks
        refine ⟨⟨List.cons_ne_nil _ _, hdests⟩, n, rfl, ?_⟩
        simpa using hput
      · rintro ⟨⟨-, hdests⟩, n, hn, hput⟩
        cases hn
        refine ⟨next, ⟨hdests next List.mem_cons_self, rfl⟩, _, ⟨hdests, rfl⟩, ?_⟩
        simpa using hput

theorem genCodeForInst_put (hrefs : inst.refersToFns = false) :
    genCodeForInst M gen fn k inst (s.put fn L (L.last fn k) []) = some s' ↔
      L.Generates k inst ∧
      s.put fn (L.after k inst) ((L.after k inst).last fn k) (instCode L fn k inst) = s' := by
  unfold genCodeForInst OwnState.Generates OwnState.after instCode
  cases hop : inst.opNum with
  | closure => simp [ZInstruction.refersToFns, ZInstruction.isClosure, hop] at hrefs
  | closureRec => simp [ZInstruction.refersToFns, ZInstruction.isClosureRec, hop] at hrefs
  | branch => cases hbr : (L.graph.block k).brBlock <;> simp [hbr]
  | switch =>
      rw [genSwitch_put]
      refine and_congr_right fun hentries => ?_
      obtain ⟨next, nexts, hnext⟩ := List.exists_cons_of_ne_nil hentries.1
      simp [hnext]
  | _ => simp [genCondBr_put, genPushTrap_put, genGrab_put, genReturn_put]

/-! ### Functions in progress -/

/-- The functions to which an instruction asks for a pointer. -/
def ZInstruction.fnRefs (inst : ZInstruction) : List FnRef :=
  if inst.isClosure then [.closure (inst.arg 1)]
  else if inst.isClosureRec then
    (inst.closureRecFns.toList.take (max 1 (inst.arg 0).toNat)).map .closure
  else []

def GenModule.function (M : GenModule) (fn : FnRef) : GenFunction := (GenState.start M).graph fn

/-- An instruction in a block of `fn` refers to `g`. -/
def GenModule.Refers (M : GenModule) (fn g : FnRef) : Prop :=
  ∃ k ∈ (M.function fn).blocks, ∃ inst ∈ ((M.function fn).block k).instructions, g ∈ inst.fnRefs

def GenModule.Has (M : GenModule) : FnRef → Prop
  | .main => True
  | .closure id => (M.find id).isSome

def GenModule.Reaches (M : GenModule) : FnRef → FnRef → Prop := Relation.ReflTransGen M.Refers

/-- Nothing that belongs to `fn` has changed. -/
structure Untouched (fn : FnRef) (s s' : GenState) : Prop where
  own : s'.own fn = s.own fn
  owned : s'.owned fn = s.owned fn
  body : s'.body fn = s.body fn

theorem Untouched.refl (fn : FnRef) (s : GenState) : Untouched fn s s := ⟨rfl, rfl, rfl⟩

theorem Untouched.trans {s'' : GenState} (h : Untouched fn s s') (h' : Untouched fn s' s'') : Untouched fn s s'' :=
  ⟨h'.own.trans h.own, h'.owned.trans h.owned, h'.body.trans h.body⟩

/-- Code can be generated for the instructions of block `k`, one after the other. -/
def OwnState.GeneratesInsts (L : OwnState) (k : Int) : List ZInstruction → Prop
  | [] => True
  | inst :: insts => L.Generates k inst ∧ (L.after k inst).GeneratesInsts k insts

/-- `genTermInst` finds what it needs. -/
def OwnState.Terminates (L : OwnState) (k : Int) : Prop :=
  ∃ inst, (L.graph.block k).instructions.getLast? = some inst ∧
    ((inst.isJumpInst || inst.isReturn || inst.isSwitch) = false → (L.graph.block k).nextBlocks ≠ [])

/-- Code can be generated for some blocks, one after the other. -/
def OwnState.GeneratesBlocks (L : OwnState) : List Int → Prop
  | [] => True
  | k :: ks =>
      (L.GeneratesInsts k (L.graph.block k).instructions ∧ (L.afterBlock k).Terminates k) ∧
        (L.afterBlock k).GeneratesBlocks ks

/-- The code of `fn` has been generated. -/
structure Complete (M : GenModule) (fn : FnRef) (s : GenState) : Prop where
  owned : s.owned fn = functionCode (M.function fn) fn
  body : s.body fn = functionBody (M.function fn) fn
  generates : (OwnState.start (M.function fn)).GeneratesBlocks (M.function fn).blocks
  refs : ∀ g, M.Refers fn g → M.Has g ∧ g ∈ s.generated

/-- The functions of `act` are in progress, the other ones with an LLVM function are complete. -/
structure InProgress (M : GenModule) (act : List FnRef) (s : GenState) : Prop where
  active : ∀ g ∈ act, g ∈ s.generated
  nodup : s.generated.Nodup
  reached : ∀ g ∈ s.generated, M.Reaches .main g
  fresh : ∀ g, g ∉ s.generated → s.own g = .start (M.function g) ∧ s.owned g = [] ∧ s.body g = []
  complete : ∀ g ∈ s.generated, g ∉ act → Complete M g s

/-- From `s` to `s'` the generation of `fn` has created `code` and put `blocks` into the function. -/
structure Proceeds (M : GenModule) (act : List FnRef) (fn : FnRef) (s s' : GenState)
    (L' : OwnState) (code : List (BasicBlock × LlvmInst)) (blocks : List BasicBlock) : Prop where
  progress : InProgress M (fn :: act) s'
  frame : ∀ g ∈ act, Untouched g s s'
  generated : s.generated ⊆ s'.generated
  own : s'.own fn = L'
  owned : s'.owned fn = s.owned fn ++ code
  body : s'.body fn = s.body fn ++ blocks

variable {act : List FnRef} {blocks blocks' : List BasicBlock}

theorem Proceeds.refl (h : InProgress M (fn :: act) s) :
    Proceeds M act fn s s (s.own fn) [] [] where
  progress := h
  frame := fun g _ => Untouched.refl g s
  generated := List.Subset.refl _
  own := rfl
  owned := (List.append_nil _).symm
  body := (List.append_nil _).symm

theorem Proceeds.trans {s'' : GenState} (h : Proceeds M act fn s s' L c blocks)
    (h' : Proceeds M act fn s' s'' L' c' blocks') :
    Proceeds M act fn s s'' L' (c ++ c') (blocks ++ blocks') where
  progress := h'.progress
  frame := fun g hg => (h.frame g hg).trans (h'.frame g hg)
  generated := List.Subset.trans h.generated h'.generated
  own := h'.own
  owned := by rw [h'.owned, h.owned, List.append_assoc]
  body := by rw [h'.body, h.body, List.append_assoc]

theorem InProgress.of_frame (h : InProgress M (fn :: act) s) (hgen : s'.generated = s.generated)
    (hframe : ∀ g ≠ fn, Untouched g s s') : InProgress M (fn :: act) s' where
  active := fun g hg => hgen ▸ h.active g hg
  nodup := hgen ▸ h.nodup
  reached := fun g hg => h.reached g (hgen ▸ hg)
  fresh := by
    intro g hg
    rw [hgen] at hg
    have hne : g ≠ fn := by
      rintro rfl
      exact hg (h.active g List.mem_cons_self)
    obtain ⟨hown, howned, hbody⟩ := h.fresh g hg
    have hsame := hframe g hne
    exact ⟨hsame.own.trans hown, hsame.owned.trans howned, hsame.body.trans hbody⟩
  complete := by
    intro g hg hact
    rw [hgen] at hg
    have hne : g ≠ fn := by
      rintro rfl
      exact hact List.mem_cons_self
    have hcomplete := h.complete g hg hact
    have hsame := hframe g hne
    exact ⟨hsame.owned.trans hcomplete.owned, hsame.body.trans hcomplete.body,
      hcomplete.generates, fun r hr => hgen ▸ hcomplete.refs r hr⟩

theorem proceeds_of_log (h : InProgress M (fn :: act) s) (hfn : fn ∉ act)
    (hgen : s'.generated = s.generated) (hown : ∀ g ≠ fn, s'.own g = s.own g)
    (hlog : s'.log = s.log ++ c) (hbody : s'.body = s.body) (hc : ∀ e ∈ c, e.1.owner = fn) :
    Proceeds M act fn s s' (s'.own fn) c [] := by
  have hsame : ∀ g ≠ fn, Untouched g s s' := by
    intro g hne
    refine ⟨hown g hne, ?_, congrFun hbody g⟩
    have hnone : c.filter (fun e => e.1.owner = g) = [] := by
      refine List.filter_eq_nil_iff.mpr fun e he => ?_
      simpa [hc e he] using hne.symm
    rw [GenState.owned, hlog, List.filter_append, hnone, List.append_nil]
    rfl
  have hall : c.filter (fun e => e.1.owner = fn) = c :=
    List.filter_eq_self.mpr fun e he => decide_eq_true (hc e he)
  refine ⟨h.of_frame hgen hsame, fun g hg => ?_, hgen ▸ List.Subset.refl _, rfl, ?_, ?_⟩
  · refine hsame g ?_
    rintro rfl
    exact hfn hg
  · rw [GenState.owned, hlog, List.filter_append, hall]
    rfl
  · rw [hbody, List.append_nil]

theorem proceeds_put (h : InProgress M (fn :: act) s) (hfn : fn ∉ act)
    (hc : ∀ e ∈ c, e.1.owner = fn) : Proceeds M act fn s (s.put fn L b c) L c [] := by
  have hown : ∀ g ≠ fn, (s.put fn L b c).own g = s.own g := fun g hne => by
    simp [GenState.own, GenState.put, hne]
  have hput : Proceeds M act fn s (s.put fn L b c) ((s.put fn L b c).own fn) c [] :=
    proceeds_of_log h hfn rfl hown rfl rfl hc
  rwa [GenState.own_put] at hput

/-! ### One instruction -/

theorem owner_placed (h : b.owner = fn) (insts : List LlvmInst) :
    ∀ e ∈ placed b insts, e.1.owner = fn := by
  intro e he
  rw [(mem_placed.mp he).1, h]

theorem owner_instCode (L : OwnState) (fn : FnRef) (k : Int) (inst : ZInstruction) :
    ∀ e ∈ instCode L fn k inst, e.1.owner = fn := by
  have hlast : ∀ (L : OwnState) (k : Int), (L.last fn k).owner = fn := fun _ _ => rfl
  have happend : ∀ c c' : List (BasicBlock × LlvmInst), (∀ e ∈ c, e.1.owner = fn) →
      (∀ e ∈ c', e.1.owner = fn) → ∀ e ∈ c ++ c', e.1.owner = fn := fun c c' h h' e he =>
    (List.mem_append.mp he).elim (h e) (h' e)
  unfold instCode
  cases inst.opNum <;>
    first
    | exact owner_placed (hlast _ _) _
    | exact happend _ _ (happend _ _ (owner_placed (hlast _ _) _) (owner_placed (hlast _ _) _))
        (owner_placed (hlast _ _) _)
    | exact fun e he => absurd he List.not_mem_nil

/-- What the generation of an unfinished function does to the others. -/
def Completes (M : GenModule) (gen : FnRef → GenState → Option GenState) : Prop :=
  ∀ act s s' g, InProgress M act s → g ∉ s.generated → M.Reaches .main g → gen g s = some s' →
    InProgress M act s' ∧ (∀ a ∈ act, Untouched a s s') ∧ s.generated ⊆ s'.generated ∧
      g ∈ s'.generated

theorem getPtrToFunc_eq_some {id : Int} : getPtrToFunc M gen fn k id s = some s' ↔
    (M.find id).isSome ∧ ∃ s₁,
      (if .closure id ∈ s.generated then some s else gen (.closure id) s) = some s₁ ∧
        s₁.setInsertPoint (s₁.llvmBlock fn k) = s' := by
  unfold getPtrToFunc
  cases hfind : M.find id with
  | none => simp
  | some F => by_cases hmem : .closure id ∈ s.generated <;> simp [hmem, Option.bind_eq_some_iff]

theorem getPtrToFunc_proceeds (hgen : Completes M gen) (h : InProgress M (fn :: act) s)
    {id : Int} (hreach : M.Reaches .main (.closure id)) (hfn : fn ∉ act)
    (hptr : getPtrToFunc M gen fn k id s = some s') :
    Proceeds M act fn s s' (s.own fn) [] [] ∧
      (M.Has (.closure id) ∧ .closure id ∈ s'.generated) ∧
      s'.insertPoint = some ((s.own fn).last fn k) := by
  obtain ⟨hfind, s₁, hs₁, rfl⟩ := getPtrToFunc_eq_some.mp hptr
  have hproceeds : Proceeds M act fn s s₁ (s.own fn) [] [] ∧ .closure id ∈ s₁.generated := by
    split at hs₁
    · next hmem =>
        cases hs₁
        exact ⟨.refl h, hmem⟩
    · next hmem =>
        obtain ⟨hprogress, hsame, hsub, hmem⟩ := hgen _ _ _ _ h hmem hreach hs₁
        have hown := hsame fn List.mem_cons_self
        exact ⟨⟨hprogress, fun g hg => hsame g (List.mem_cons_of_mem fn hg), hsub, hown.own,
          hown.owned.trans (List.append_nil _).symm, hown.body.trans (List.append_nil _).symm⟩, hmem⟩
  obtain ⟨hproceeds, hmem⟩ := hproceeds
  rw [GenState.llvmBlock_eq, hproceeds.own, GenState.setInsertPoint_eq s₁ fn]
  have hput := proceeds_put (L := s₁.own fn) (b := (s.own fn).last fn k) hproceeds.progress hfn
    (c := []) fun _ he => absurd he List.not_mem_nil
  rw [hproceeds.own] at hput ⊢
  exact ⟨hproceeds.trans hput, ⟨hfind, hmem⟩, rfl⟩

theorem emit_proceeds (h : InProgress M (fn :: act) s) (hfn : fn ∉ act) (hb : b.owner = fn)
    (hin : s.insertPoint = some b) {llvmInst : LlvmInst} (hemit : s.emit llvmInst = some s') :
    Proceeds M act fn s s' (s.own fn) [(b, llvmInst)] [] ∧ s'.insertPoint = some b := by
  have hput : s.put fn (s.own fn) b [] = s := GenState.put_own hin
  rw [← hput, GenState.emit_put, List.nil_append] at hemit
  cases hemit
  exact ⟨proceeds_put h hfn (owner_placed hb [llvmInst]), rfl⟩

theorem fnRefs_closureRec (hop : inst.opNum = .closureRec) {i : Nat} (hi : i < 32)
    (hlt : i < max 1 (inst.arg 0).toNat) :
    FnRef.closure inst.closureRecFns[i] ∈ inst.fnRefs := by
  have hclosure : inst.isClosure = false := by simp [ZInstruction.isClosure, hop]
  have hrec : inst.isClosureRec = true := by simp [ZInstruction.isClosureRec, hop]
  rw [ZInstruction.fnRefs, hclosure, hrec]
  refine List.mem_map_of_mem (List.mem_take_iff_getElem.mpr ⟨i, ?_, ?_⟩)
  · simpa using ⟨by simpa using hlt, hi⟩
  · simp

theorem genNestedClosures_proceeds (hgen : Completes M gen) (hfn : fn ∉ act) {i n : Nat}
    (hop : inst.opNum = .closureRec) (hreach : ∀ r ∈ inst.fnRefs, M.Reaches .main r)
    (hin : i + n ≤ max 1 (inst.arg 0).toNat) (h : InProgress M (fn :: act) s)
    (hpoint : s.insertPoint = some ((s.own fn).last fn k))
    (hnested : genNestedClosures M gen fn k inst i n s = some s') :
    Proceeds M act fn s s' (s.own fn)
        (placed ((s.own fn).last fn k) (nestedClosures inst i n)) [] ∧
      s'.insertPoint = some ((s.own fn).last fn k) ∧ (0 < n → i + n ≤ 32) ∧
      ∀ j, i ≤ j → j < i + n → ∀ hj : j < 32,
        M.Has (.closure inst.closureRecFns[j]) ∧ .closure inst.closureRecFns[j] ∈ s'.generated := by
  induction n generalizing i s with
  | zero =>
      cases hnested
      exact ⟨.refl h, hpoint, fun hn => by omega, fun j hij hj => by omega⟩
  | succ n ih =>
      rw [genNestedClosures] at hnested
      split at hnested
      · next hi =>
          obtain ⟨s₁, hptr, hnested⟩ := Option.bind_eq_some_iff.mp hnested
          obtain ⟨s₂, hemit, hnested⟩ := Option.bind_eq_some_iff.mp hnested
          obtain ⟨hp₁, ⟨hhas, hmem⟩, hpoint₁⟩ := getPtrToFunc_proceeds hgen h
            (hreach _ (fnRefs_closureRec hop hi (by omega))) hfn hptr
          obtain ⟨hp₂, hpoint₂⟩ := emit_proceeds hp₁.progress hfn rfl hpoint₁ hemit
          have hown : s₂.own fn = s.own fn := hp₂.own.trans hp₁.own
          rw [← hown] at hpoint₂
          obtain ⟨hp₃, hpoint₃, hbound, hrest⟩ := ih (by omega) hp₂.progress hpoint₂ hnested
          rw [hown] at hp₃ hpoint₃
          have hp := (hp₁.trans hp₂).trans hp₃
          rw [nestedClosures, dif_pos hi]
          refine ⟨hp, hpoint₃, fun _ => by omega, fun j hij hj hj32 => ?_⟩
          by_cases hji : j = i
          · subst hji
            exact ⟨hhas, hp₃.generated (hp₂.generated hmem)⟩
          · exact hrest j (by omega) (by omega) hj32
      · cases hnested

theorem genCodeForInst_proceeds (hgen : Completes M gen) (hfn : fn ∉ act)
    (h : InProgress M (fn :: act) s) (hreach : ∀ r ∈ inst.fnRefs, M.Reaches .main r)
    (hpoint : s.insertPoint = some ((s.own fn).last fn k))
    (hinst : genCodeForInst M gen fn k inst s = some s') :
    Proceeds M act fn s s' ((s.own fn).after k inst) (instCode (s.own fn) fn k inst) [] ∧
      s'.insertPoint = some (((s.own fn).after k inst).last fn k) ∧ (s.own fn).Generates k inst ∧
      ∀ r ∈ inst.fnRefs, M.Has r ∧ r ∈ s'.generated := by
  by_cases hrefs : inst.refersToFns = true
  · rw [ZInstruction.refersToFns, Bool.or_eq_true, ZInstruction.isClosure, ZInstruction.isClosureRec,
      beq_iff_eq, beq_iff_eq] at hrefs
    rcases hrefs with hop | hop
    · simp only [genCodeForInst, hop] at hinst
      obtain ⟨s₁, hptr, hemit⟩ := Option.bind_eq_some_iff.mp hinst
      have hfnRefs : inst.fnRefs = [.closure (inst.arg 1)] := by
        simp [ZInstruction.fnRefs, ZInstruction.isClosure, hop]
      rw [hfnRefs] at hreach ⊢
      obtain ⟨hp₁, ⟨hhas, hmem⟩, hpoint₁⟩ := getPtrToFunc_proceeds hgen h
        (hreach _ (List.mem_singleton_self _)) hfn hptr
      obtain ⟨hp₂, hpoint₂⟩ := emit_proceeds hp₁.progress hfn rfl hpoint₁ hemit
      rw [hp₁.own] at hp₂
      have hafter : (s.own fn).after k inst = s.own fn := by simp [OwnState.after, hop]
      have hcode : instCode (s.own fn) fn k inst = placed ((s.own fn).last fn k)
          [.libCall (.closure (inst.arg 0) (.closure (inst.arg 1)))] := by simp [instCode, hop]
      rw [hafter, hcode]
      refine ⟨hp₁.trans hp₂, hpoint₂, by simp [OwnState.Generates, hop], fun r hr => ?_⟩
      rw [List.mem_singleton.mp hr]
      exact ⟨hhas, hp₂.generated hmem⟩
    · simp only [genCodeForInst, hop] at hinst
      obtain ⟨s₁, hptr, hinst⟩ := Option.bind_eq_some_iff.mp hinst
      obtain ⟨s₂, hemit, hnested⟩ := Option.bind_eq_some_iff.mp hinst
      obtain ⟨hp₁, ⟨hhas, hmem⟩, hpoint₁⟩ := getPtrToFunc_proceeds hgen h
        (hreach _ (fnRefs_closureRec (i := 0) hop (by omega) (by omega))) hfn hptr
      obtain ⟨hp₂, hpoint₂⟩ := emit_proceeds hp₁.progress hfn rfl hpoint₁ hemit
      have hown : s₂.own fn = s.own fn := hp₂.own.trans hp₁.own
      rw [← hown] at hpoint₂
      obtain ⟨hp₃, hpoint₃, hbound, hrest⟩ := genNestedClosures_proceeds hgen hfn hop hreach (by omega)
        hp₂.progress hpoint₂ hnested
      rw [hown] at hp₃ hpoint₃
      have hafter : (s.own fn).after k inst = s.own fn := by simp [OwnState.after, hop]
      have hcode : instCode (s.own fn) fn k inst = placed ((s.own fn).last fn k)
          (.libCall (.closureRec (inst.arg 0) (inst.arg 1) (.closure (inst.closureRecFn 0))) ::
            nestedClosures inst 1 ((inst.arg 0).toNat - 1)) := by simp [instCode, hop]
      rw [hafter, hcode]
      have hgenerates : (s.own fn).Generates k inst := by
        simp only [OwnState.Generates, hop]
        omega
      refine ⟨(hp₁.trans hp₂).trans hp₃, hpoint₃, hgenerates, fun r hr => ?_⟩
      have hfnRefs : inst.fnRefs =
          (inst.closureRecFns.toList.take (max 1 (inst.arg 0).toNat)).map .closure := by
        simp [ZInstruction.fnRefs, ZInstruction.isClosure, ZInstruction.isClosureRec, hop]
      rw [hfnRefs] at hr
      obtain ⟨id, hid, rfl⟩ := List.mem_map.mp hr
      obtain ⟨j, hj, rfl⟩ := List.mem_take_iff_getElem.mp hid
      rw [Vector.length_toList] at hj
      rw [Vector.getElem_toList]
      by_cases hzero : j = 0
      · subst hzero
        exact ⟨hhas, hp₃.generated (hp₂.generated hmem)⟩
      · exact hrest j (by omega) (by omega) (by omega)
  · have hput : s.put fn (s.own fn) _ [] = s := GenState.put_own hpoint
    rw [← hput] at hinst
    obtain ⟨hgenerates, rfl⟩ := (genCodeForInst_put (Bool.eq_false_iff.mpr hrefs)).mp hinst
    refine ⟨proceeds_put h hfn (owner_instCode _ _ _ _), rfl, hgenerates, fun r hr => ?_⟩
    rw [ZInstruction.refersToFns, Bool.or_eq_true, not_or, Bool.not_eq_true, Bool.not_eq_true]
      at hrefs
    rw [ZInstruction.fnRefs, hrefs.1, hrefs.2] at hr
    cases hr

theorem genCodeForInsts_proceeds (hgen : Completes M gen) (hfn : fn ∉ act)
    {insts : List ZInstruction} (h : InProgress M (fn :: act) s)
    (hreach : ∀ inst ∈ insts, ∀ r ∈ inst.fnRefs, M.Reaches .main r)
    (hpoint : s.insertPoint = some ((s.own fn).last fn k))
    (hinsts : genCodeForInsts M gen fn k insts s = some s') :
    Proceeds M act fn s s' ((s.own fn).afterInsts k insts) (instsCode (s.own fn) fn k insts) [] ∧
      (s.own fn).GeneratesInsts k insts ∧
      ∀ inst ∈ insts, ∀ r ∈ inst.fnRefs, M.Has r ∧ r ∈ s'.generated := by
  induction insts generalizing s with
  | nil =>
      cases hinsts
      exact ⟨.refl h, trivial, fun _ hmem => absurd hmem List.not_mem_nil⟩
  | cons inst insts ih =>
      obtain ⟨s₁, hinst, hinsts⟩ := Option.bind_eq_some_iff.mp hinsts
      obtain ⟨hp₁, hpoint₁, hgenerates, hrefs⟩ := genCodeForInst_proceeds hgen hfn h
        (hreach inst List.mem_cons_self) hpoint hinst
      rw [← hp₁.own] at hpoint₁
      obtain ⟨hp₂, hrestGenerates, hrest⟩ := ih hp₁.progress
        (fun i hi => hreach i (List.mem_cons_of_mem inst hi)) hpoint₁ hinsts
      rw [hp₁.own] at hp₂ hrestGenerates
      refine ⟨hp₁.trans hp₂, ⟨hgenerates, hrestGenerates⟩, fun i hi r hr => ?_⟩
      rcases List.mem_cons.mp hi with rfl | hi
      · exact ⟨(hrefs r hr).1, hp₂.generated (hrefs r hr).2⟩
      · exact hrest i hi r hr

/-! ### Blocks -/

theorem owner_initCode (L : OwnState) (fn : FnRef) (k : Int) :
    ∀ e ∈ initCode L fn k, e.1.owner = fn := owner_placed rfl _

theorem owner_termCode (L : OwnState) (fn : FnRef) (k : Int) :
    ∀ e ∈ termCode L fn k, e.1.owner = fn := by
  unfold termCode
  split
  · exact fun _ he => absurd he List.not_mem_nil
  · split
    · exact fun _ he => absurd he List.not_mem_nil
    · exact owner_placed rfl _

theorem codeGenBlock_eq (M : GenModule) (gen : FnRef → GenState → Option GenState) (fn : FnRef)
    (k : Int) (s : GenState) : codeGenBlock M gen fn k s =
      genCodeForInsts M gen fn k (s.block fn k).instructions
        (s.put fn (s.own fn) ((s.own fn).last fn k) (initCode (s.own fn) fn k)) := by
  rw [codeGenBlock, GenState.setInsertPoint_eq s fn, GenState.llvmBlock_eq, initCode]
  by_cases hinit : (s.graph fn).id = mainFunctionId ∧ (s.block fn k).previousBlocks = []
  · have hown : (s.own fn).graph.id = mainFunctionId ∧
        ((s.own fn).graph.block k).previousBlocks = [] := hinit
    simp [hown]
    rfl
  · have hown : ¬((s.own fn).graph.id = mainFunctionId ∧
        ((s.own fn).graph.block k).previousBlocks = []) := hinit
    simp [hown]
    rfl

theorem genTermInst_put : genTermInst fn k s = some s' ↔ (s.own fn).Terminates k ∧
    s.put fn (s.own fn) ((s.own fn).last fn k) (termCode (s.own fn) fn k) = s' := by
  rw [genTermInst, GenState.setInsertPoint_eq s fn, GenState.llvmBlock_eq, termCode,
    OwnState.Terminates]
  simp only [GenState.block_put]
  cases hlast : ((s.own fn).graph.block k).instructions.getLast? with
  | none => simp
  | some inst =>
      simp only [Option.bind_eq_bind, Option.bind_some, Option.some.injEq, exists_eq_left']
      cases inst.isJumpInst || inst.isReturn || inst.isSwitch with
      | true => simp
      | false => cases hnext : ((s.own fn).graph.block k).nextBlocks <;> simp

theorem pushBlocks_proceeds (h : InProgress M (fn :: act) s) (hfn : fn ∉ act) (k : Int) :
    Proceeds M act fn s (pushBlocks fn k s) (s.own fn) []
      ((List.range ((s.own fn).llvmBlocks k)).map (.ofBlock fn k)) := by
  have hsame : ∀ g ≠ fn, Untouched g s (pushBlocks fn k s) := fun g hne =>
    ⟨rfl, rfl, Function.update_of_ne hne _ _⟩
  refine ⟨h.of_frame rfl hsame, fun g hg => ?_, List.Subset.refl _, rfl,
    (List.append_nil _).symm, Function.update_self _ _ _⟩
  refine hsame g ?_
  rintro rfl
  exact hfn hg

theorem codeGenBlock_proceeds (hgen : Completes M gen) (hfn : fn ∉ act)
    (h : InProgress M (fn :: act) s)
    (hreach : ∀ inst ∈ ((s.own fn).graph.block k).instructions, ∀ r ∈ inst.fnRefs,
      M.Reaches .main r)
    (hblock : codeGenBlock M gen fn k s = some s') :
    Proceeds M act fn s s' ((s.own fn).afterBlock k) (initCode (s.own fn) fn k ++
        instsCode (s.own fn) fn k ((s.own fn).graph.block k).instructions) [] ∧
      (s.own fn).GeneratesInsts k ((s.own fn).graph.block k).instructions ∧
      ∀ inst ∈ ((s.own fn).graph.block k).instructions, ∀ r ∈ inst.fnRefs,
        M.Has r ∧ r ∈ s'.generated := by
  rw [codeGenBlock_eq] at hblock
  have hp₁ := proceeds_put (L := s.own fn) (b := (s.own fn).last fn k) h hfn
    (owner_initCode (s.own fn) fn k)
  obtain ⟨hp₂, hgenerates, hrefs⟩ := genCodeForInsts_proceeds hgen hfn hp₁.progress hreach
    (by rw [hp₁.own]; rfl) hblock
  rw [hp₁.own] at hp₂ hgenerates
  exact ⟨hp₁.trans hp₂, hgenerates, hrefs⟩

theorem codeGenBlocks_proceeds (hgen : Completes M gen) (hfn : fn ∉ act) {F : GenFunction}
    {ks : List Int} (h : InProgress M (fn :: act) s)
    (hinsts : ∀ k, ((s.own fn).graph.block k).instructions = (F.block k).instructions)
    (hreach : ∀ k ∈ ks, ∀ inst ∈ (F.block k).instructions, ∀ r ∈ inst.fnRefs, M.Reaches .main r)
    (hblocks : codeGenBlocks M gen fn ks s = some s') :
    ∃ L, Proceeds M act fn s s' L (blocksCode (s.own fn) fn ks) (blocksBody (s.own fn) fn ks) ∧
      (s.own fn).GeneratesBlocks ks ∧
      ∀ k ∈ ks, ∀ inst ∈ (F.block k).instructions, ∀ r ∈ inst.fnRefs,
        M.Has r ∧ r ∈ s'.generated := by
  induction ks generalizing s with
  | nil =>
      cases hblocks
      exact ⟨_, .refl h, trivial, fun _ hmem => absurd hmem List.not_mem_nil⟩
  | cons k ks ih =>
      obtain ⟨s₁, hblock, hblocks⟩ := Option.bind_eq_some_iff.mp hblocks
      obtain ⟨s₂, hterm, hblocks⟩ := Option.bind_eq_some_iff.mp hblocks
      obtain ⟨hp₁, hgenerates, hrefs⟩ := codeGenBlock_proceeds hgen hfn h
        (hinsts k ▸ hreach k List.mem_cons_self) hblock
      obtain ⟨hterminates, rfl⟩ := genTermInst_put.mp hterm
      rw [hp₁.own] at hterminates
      have hp₂ := proceeds_put (L := s₁.own fn) (b := (s₁.own fn).last fn k) hp₁.progress hfn
        (owner_termCode (s₁.own fn) fn k)
      have hp₃ := pushBlocks_proceeds hp₂.progress hfn k
      rw [hp₂.own] at hp₃
      have hp := (hp₁.trans hp₂).trans hp₃
      have hown := hp.own.trans hp₁.own
      obtain ⟨L, hp₄, hrestGenerates, hrest⟩ := ih hp.progress
        (fun j => by rw [hown, ((s.own fn).afterBlock_grown k).instructions, hinsts j])
        (fun j hj => hreach j (List.mem_cons_of_mem k hj)) hblocks
      rw [hown] at hp₄ hrestGenerates
      have hall := hp.trans hp₄
      rw [hp₁.own] at hall
      refine ⟨L, ?_, ⟨⟨hgenerates, hterminates⟩, hrestGenerates⟩, fun j hj i hi r hr => ?_⟩
      · simpa [blocksCode, blocksBody, blockCode] using hall
      · rcases List.mem_cons.mp hj with rfl | hj
        · obtain ⟨hhas, hmem⟩ := hrefs i (hinsts j ▸ hi) r hr
          exact ⟨hhas, hp₄.generated (hp₃.generated hmem)⟩
        · exact hrest j hj i hi r hr

/-! ### Functions -/

theorem codeGenFunction_eq (M : GenModule) (gen : FnRef → GenState → Option GenState) (fn : FnRef)
    (s : GenState) : codeGenFunction M gen fn s =
      let s₁ := { s with generated := fn :: s.generated }
      let b := if (s.graph fn).id ≠ mainFunctionId then some (.ofRestart fn) else s.insertPoint
      codeGenBlocks M gen fn (s.graph fn).blocks
        { s₁ with insertPoint := b, log := s₁.log ++ restartCode (s.graph fn) fn } := by
  rw [codeGenFunction, restartCode]
  by_cases hmain : (s.graph fn).id = mainFunctionId
  · simp [hmain]
  · have hput := @GenState.emitAll_put fn { s with generated := fn :: s.generated } (s.own fn)
      (.ofRestart fn) [] [.libCall .restart, .callFn fn, .retVoid]
    rw [generateRestartFunction, GenState.setInsertPoint_eq _ fn]
    have hown : GenState.own { s with generated := fn :: s.generated } fn = s.own fn := rfl
    rw [hown, hput]
    simp [hmain, GenState.put, GenState.own]

theorem InProgress.enter (h : InProgress M act s) (hfn : fn ∉ s.generated)
    (hreach : M.Reaches .main fn) :
    InProgress M (fn :: act) { s with generated := fn :: s.generated } where
  active := by
    intro g hg
    rcases List.mem_cons.mp hg with rfl | hg
    · exact List.mem_cons_self
    · exact List.mem_cons_of_mem fn (h.active g hg)
  nodup := List.nodup_cons.mpr ⟨hfn, h.nodup⟩
  reached := by
    intro g hg
    rcases List.mem_cons.mp hg with rfl | hg
    · exact hreach
    · exact h.reached g hg
  fresh := fun g hg => h.fresh g fun hmem => hg (List.mem_cons_of_mem fn hmem)
  complete := by
    intro g hg hact
    obtain ⟨hne, hact⟩ := not_or.mp (List.mem_cons.not.mp hact)
    obtain ⟨howned, hbody, hgenerates, hrefs⟩ := h.complete g (List.mem_of_ne_of_mem hne hg) hact
    exact ⟨howned, hbody, hgenerates, fun r hr =>
      ⟨(hrefs r hr).1, List.mem_cons_of_mem fn (hrefs r hr).2⟩⟩

theorem InProgress.leave (h : InProgress M (fn :: act) s) (hcomplete : Complete M fn s) :
    InProgress M act s where
  active := fun g hg => h.active g (List.mem_cons_of_mem fn hg)
  nodup := h.nodup
  reached := h.reached
  fresh := h.fresh
  complete := by
    intro g hg hact
    by_cases hfn : g = fn
    · subst hfn
      exact hcomplete
    · exact h.complete g hg fun hmem => (List.mem_cons.mp hmem).elim hfn hact

theorem owner_restartCode (F : GenFunction) (fn : FnRef) :
    ∀ e ∈ restartCode F fn, e.1.owner = fn := owner_placed rfl _

theorem codeGenFunction_completes (hgen : Completes M gen) :
    Completes M (codeGenFunction M gen) := by
  intro act s s' fn h hfn hreach hcode
  have hact : fn ∉ act := fun hmem => hfn (h.active fn hmem)
  obtain ⟨hown, howned, hbody⟩ := h.fresh fn hfn
  have hgraph : s.graph fn = M.function fn := congrArg OwnState.graph hown
  rw [codeGenFunction_eq, hgraph] at hcode
  have henter := h.enter hfn hreach
  let s₁ : GenState := { s with
    generated := fn :: s.generated
    insertPoint := if (M.function fn).id ≠ mainFunctionId then some (.ofRestart fn)
      else s.insertPoint
    log := s.log ++ restartCode (M.function fn) fn }
  have hp₁ : Proceeds M act fn { s with generated := fn :: s.generated } s₁ (s₁.own fn)
      (restartCode (M.function fn) fn) [] :=
    proceeds_of_log henter hact rfl (fun _ _ => rfl) rfl rfl (owner_restartCode (M.function fn) fn)
  obtain ⟨L, hp₂, hgenerates, hrefs⟩ := codeGenBlocks_proceeds hgen hact hp₁.progress
    (F := M.function fn) (fun k => congrArg (fun F => (GenFunction.block F k).instructions) hgraph)
    (fun k hk inst hinst r hr => hreach.tail ⟨k, hk, inst, hinst, hr⟩) hcode
  have hp := hp₁.trans hp₂
  have hcomplete : Complete M fn s' := by
    refine ⟨?_, ?_, ?_, fun r hr => ?_⟩
    · have hcreated : s'.owned fn = s.owned fn ++
          (restartCode (M.function fn) fn ++ blocksCode (s.own fn) fn (M.function fn).blocks) :=
        hp.owned
      rw [hcreated, howned, hown, List.nil_append, functionCode]
    · have hpushed : s'.body fn =
          s.body fn ++ ([] ++ blocksBody (s.own fn) fn (M.function fn).blocks) := hp.body
      rw [hpushed, hbody, hown, List.nil_append, List.nil_append, functionBody]
    · rw [← hown]
      exact hgenerates
    · obtain ⟨k, hk, inst, hinst, hr⟩ := hr
      exact hrefs k hk inst hinst r hr
  have hleave := hp.progress.leave hcomplete
  refine ⟨hleave, fun g hg => ?_, fun g hg => hp.generated (List.mem_cons_of_mem fn hg),
    hp.generated List.mem_cons_self⟩
  obtain ⟨ho, hl, hb⟩ := hp.frame g hg
  exact ⟨ho, hl, hb⟩

theorem codeGen_completes (M : GenModule) (depth : Nat) : Completes M (codeGen M depth) := by
  induction depth with
  | zero => exact fun act s s' g _ _ _ hgen => absurd hgen (by simp [codeGen])
  | succ depth ih => exact codeGenFunction_completes ih

theorem inProgress_start (M : GenModule) : InProgress M [] (.start M) where
  active := fun _ hmem => absurd hmem List.not_mem_nil
  nodup := List.nodup_nil
  reached := fun _ hmem => absurd hmem List.not_mem_nil
  fresh := fun _ _ => ⟨rfl, rfl, rfl⟩
  complete := fun _ hmem => absurd hmem List.not_mem_nil

theorem codeGen_main {depth : Nat} (h : codeGen M depth .main (.start M) = some s) :
    InProgress M [] s ∧ ∀ g, g ∈ s.generated ↔ M.Reaches .main g := by
  obtain ⟨hprogress, -, -, hmain⟩ :=
    codeGen_completes M depth [] _ _ _ (inProgress_start M) List.not_mem_nil .refl h
  refine ⟨hprogress, fun g => ⟨hprogress.reached g, fun hreach => ?_⟩⟩
  induction hreach with
  | refl => exact hmain
  | tail _ hrefers ih => exact ((hprogress.complete _ ih List.not_mem_nil).refs _ hrefers).2

end CamllVM
