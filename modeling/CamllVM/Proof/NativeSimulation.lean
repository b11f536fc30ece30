import CamllVM.Proof.NativeSteps

/-!
# The LLVM code simulates the bytecode

A state of the LLVM code belongs to a state of the bytecode if it has the same machine and every
native frame stands before the instruction that the bytecode goes on with. Every step of the bytecode
is then a run of the LLVM code to a state that belongs to the next one.
-/

namespace CamllVM

open Simulation

variable {prog : List ZInstruction} {M : GenModule} {S : GenState} {rt : Runtime} {z z' : Zam}
  {n n' : Native} {inst : ZInstruction} {s s' : Exec} {m : Machine} {pc : Int} {pcs : List Int}

/-- The function with an `Id`. -/
def fnWithId (id : Int) : FnRef := if id = mainFunctionId then .main else .closure id

/-- The code of a module whose functions follow the program and enter their blocks right. -/
structure Compiled (prog : List ZInstruction) (M : GenModule) (S : GenState) : Prop where
  main : .main ∈ S.generated
  generated : ∀ fn ∈ S.generated, GeneratedFrom S fn (M.function fn)
  follows : ∀ fn ∈ S.generated, Follows prog (M.function fn)
  enters : ∀ fn ∈ S.generated, (M.function fn).EntersRight
  refs : ∀ fn ∈ S.generated, ∀ g, M.Refers fn g → g ∈ S.generated
  closures : ∀ id, .closure id ∈ S.generated → id ≠ mainFunctionId ∧
    (M.function (.closure id)).id ≠ mainFunctionId ∧
    (M.function (.closure id)).blocks.head? = some id

/-- A frame of the function with the number `id` is before instruction `pc`. -/
structure LlvmFrame.At (M : GenModule) (S : GenState) (id pc : Int) (frame : LlvmFrame) : Prop where
  fn : frame.fn = fnWithId id
  generated : frame.fn ∈ S.generated
  before : Before S (M.function frame.fn) frame.fn pc frame.rest

/-- The functions that wait, with the instructions that they go on with. -/
inductive Waiting (M : GenModule) (S : GenState) : List Int → List Int → List LlvmFrame → Prop where
  | nil : Waiting M S [] [] []
  | cons {id pc : Int} {ids pcs : List Int} {frame : LlvmFrame} {frames : List LlvmFrame}
      (hframe : frame.At M S id pc) (h : Waiting M S ids pcs frames) :
      Waiting M S (id :: ids) (pc :: pcs) (frame :: frames)

/-- The second return of `__sigsetjmp` leads to the prologue of the handler and then to its first
instruction. -/
structure SavedFrame.At (M : GenModule) (S : GenState) (buf : JmpBuf) (saved : SavedFrame) : Prop where
  fn : saved.frame.fn = fnWithId buf.fn
  callers : saved.callers = buf.callers.map fnWithId
  generated : saved.frame.fn ∈ S.generated
  handler : ∃ second rest, saved.frame.rest =
    .condBr .setJmpRes (.ofBlock saved.frame.fn buf.handler 0) second :: rest
  body : .ofBlock saved.frame.fn buf.handler 0 ∈ S.body saved.frame.fn
  prologue : ∃ rest, S.code (.ofBlock saved.frame.fn buf.handler 0) = CamllVM.prologue ++ rest ∧
    Located (M.function saved.frame.fn) saved.frame.fn buf.handler rest

def SavedAll (M : GenModule) (S : GenState) (bufs : Nat → Option JmpBuf)
    (saved : Nat → Option SavedFrame) : Prop :=
  ∀ i buf, bufs i = some buf → ∃ frame, saved i = some frame ∧ frame.At M S buf

/-- A state of the LLVM code belongs to a state of the bytecode. -/
structure Belongs (M : GenModule) (S : GenState) (z : Zam) (n : Native) : Prop where
  machine : n.machine = z.exec.machine
  frame : n.frame.At M S z.exec.fn z.pc
  callers : Waiting M S z.exec.callers z.returns n.callers
  jmpBufs : SavedAll M S z.exec.jmpBufs n.jmpBufs

namespace Waiting

variable {ids ids' : List Int} {frames : List LlvmFrame}

theorem fns (h : Waiting M S ids pcs frames) : frames.map LlvmFrame.fn = ids.map fnWithId := by
  induction h with
  | nil => rfl
  | cons hframe _ ih => rw [List.map_cons, List.map_cons, hframe.fn, ih]

theorem lengths (h : Waiting M S ids pcs frames) :
    pcs.length = ids.length ∧ frames.length = ids.length := by
  induction h with
  | nil => exact ⟨rfl, rfl⟩
  | cons _ _ ih => exact ⟨congrArg Nat.succ ih.1, congrArg Nat.succ ih.2⟩

theorem drop (h : Waiting M S ids pcs frames) (j : Nat) :
    Waiting M S (ids.drop j) (pcs.drop j) (frames.drop j) := by
  induction h generalizing j with
  | nil => simpa using .nil
  | cons hframe h ih =>
      cases j with
      | zero => exact .cons hframe h
      | succ j => exact ih j

end Waiting

/-- What a step of an instruction of the bytecode is matched with. -/
def Matched (M : GenModule) (S : GenState) (rt : Runtime) (z : Zam) (inst : ZInstruction)
    (n : Native) : Stepped → Prop
  | .finished => Finishes (Native.step S rt) n
  | .running s => ∀ z', z.follow inst s = some z' →
      (s.control = .entry → .closure s.fn ∈ S.generated) →
      ∃ n', Belongs M S z' n' ∧
        (Advances (Native.step S rt) n n' ∨ n' = n ∧ z'.pc = inst.idx + 1)

theorem Matched.of_advances {o : Stepped} (h : Matched M S rt z inst n' o)
    (hadvance : Advances (Native.step S rt) n n') : Matched M S rt z inst n o := by
  cases o with
  | finished => exact Finishes.of_reaches hadvance.reaches h
  | running s =>
      intro z' hfollow hknown
      obtain ⟨n₁, hbelongs, hadvance' | ⟨rfl, -⟩⟩ := h z' hfollow hknown
      · exact ⟨n₁, hbelongs, .inl (hadvance.trans hadvance')⟩
      · exact ⟨n₁, hbelongs, .inl hadvance⟩

/-! ### Entering a function -/

theorem codeAt_blocksCode_ofRestart (L : OwnState) (fn : FnRef) (ks : List Int) :
    codeAt (blocksCode L fn ks) (.ofRestart fn) = [] := by
  refine codeAt_eq_nil fun e he hb => ?_
  obtain ⟨before, k, after, -, he⟩ := mem_blocksCode.mp he
  rcases List.mem_append.mp he with he | he
  · rcases List.mem_append.mp he with he | he
    · have hof := (inOrder_initCode _ fn k).isOf e he
      rw [hb] at hof
      exact hof
    · obtain ⟨pre, inst, post, -, he⟩ := mem_instsCode.mp he
      rcases mem_instCode he with ⟨hof, -⟩ | ⟨-, he⟩
      · rw [hb] at hof
        exact hof
      · cases (mem_placed.mp he).1.symm.trans hb
  · have hof := (inOrder_termCode _ fn k).isOf e he
    rw [hb] at hof
    exact hof

theorem codeAt_ofRestart (F : GenFunction) (fn : FnRef) : codeAt (functionCode F fn) (.ofRestart fn) =
    if F.id ≠ mainFunctionId then [.libCall .restart, .callFn fn, .retVoid] else [] := by
  rw [functionCode, codeAt_append, codeAt_blocksCode_ofRestart, restartCode, codeAt_placed,
    if_pos rfl, List.append_nil]

theorem GeneratedFrom.body_head {F : GenFunction} {fn : FnRef} (h : GeneratedFrom S fn F) {k : Int}
    {ks : List Int} (hblocks : F.blocks = k :: ks) : (S.body fn).head? = some (.ofBlock fn k 0) := by
  have hcount : ((OwnState.start F).afterBlock k).llvmBlocks k =
      1 + OwnState.addedBy (F.block k).instructions := afterInsts_llvmBlocks_self (OwnState.start F) k _
  rw [h.body, functionBody, hblocks, blocksBody, hcount, Nat.add_comm, List.range_succ_eq_map]
  rfl

section

variable (hC : Compiled prog M S)

include hC

/-- The frame of a function that is called is before its first instruction. -/
theorem exists_entryFrame {id : Int} (hgen : .closure id ∈ S.generated) :
    ∃ frame, S.entryFrame (.closure id) = some frame ∧ frame.At M S id id := by
  obtain ⟨hne, hid, hhead⟩ := hC.closures id hgen
  have h := hC.generated _ hgen
  obtain ⟨ks, hblocks⟩ := List.head?_eq_some_iff.mp hhead
  have hk : id ∈ (M.function (.closure id)).blocks := hblocks ▸ List.mem_cons_self
  obtain ⟨inst, post, hinsts, hidx⟩ := (hC.follows _ hgen).leader id hk
  let p : Place (M.function (.closure id)) inst := ⟨[], id, ks, [], post, hblocks, hinsts⟩
  obtain ⟨rest, hcode, hrest⟩ := h.first_code p rfl
  have hnamed : (M.function (.closure id)).namedBefore id = 0 := by
    rw [GenFunction.namedBefore, filter_lt_of_sorted h.sorted (show _ = [] ++ _ :: _ from hblocks)]
    rfl
  have hinit : initCode p.start (.closure id) p.k = [] := by
    rw [initCode, if_neg fun hmain => hid hmain.1, placed_nil]
  rw [hnamed, hinit] at hcode
  refine ⟨⟨.closure id, S.code (.ofBlock (.closure id) id 0)⟩, ?_, ⟨?_, hgen, ?_⟩⟩
  · rw [GenState.entryFrame, h.body_head hblocks]
    rfl
  · rw [fnWithId, if_neg hne]
  · have hlocated : Located (M.function (.closure id)) (.closure id) id
        (S.code (.ofBlock (.closure id) id 0)) := by
      rw [hcode]
      exact hidx ▸ hrest
    exact .at hlocated

theorem restart_code {id : Int} (hgen : .closure id ∈ S.generated) :
    S.code (.ofRestart (.closure id)) = [.libCall .restart, .callFn (.closure id), .retVoid] := by
  rw [S.code_eq, BasicBlock.owner, (hC.generated _ hgen).owned,
    codeAt_ofRestart, if_pos (hC.closures id hgen).2.1]

/-- The call of a code address leads to the first instruction of the function. -/
theorem enter_sim {code : CodePtr} (henter : s.enter m code = some s')
    (hknown : .closure s'.fn ∈ S.generated) {returns : List Int} {callers : List LlvmFrame}
    {jmpBufs : Nat → Option SavedFrame} (hcallers : Waiting M S s.callers returns callers)
    (hjmpBufs : SavedAll M S s.jmpBufs jmpBufs) :
    s'.control = .entry ∧ s'.callers = s.callers ∧ ∃ frame n', S.frameAt code = some frame ∧
      Reaches (Native.step S rt) ⟨m.scan, .void, frame, callers, jmpBufs⟩ n' ∧
      Belongs M S ⟨s', s'.fn, returns⟩ n' := by
  cases code with
  | fn id =>
      cases henter
      obtain ⟨frame, hframe, hat⟩ := exists_entryFrame hC hknown
      exact ⟨rfl, rfl, frame, _, hframe, .refl, rfl, hat, hcallers, hjmpBufs⟩
  | restart id =>
      simp only [Exec.enter, Option.bind_eq_bind, Option.bind_eq_some_iff] at henter
      obtain ⟨m₁, hrestart, henter⟩ := henter
      cases henter
      obtain ⟨frame, hframe, hat⟩ := exists_entryFrame hC hknown
      let n₀ : Native := ⟨m.scan, .void, ⟨.closure id, []⟩, callers, jmpBufs⟩
      have hcall : LibCall.run rt n₀.machine .restart = some (.next (m₁, .void)) := by
        rw [LibCall.run, hrestart]
        rfl
      have hfn : ((n₀.withRest [.retVoid]).returned m₁ .void).execInst S rt (.callFn (.closure id)) =
          some (.running ⟨m₁.scan, .void, frame, callers, jmpBufs⟩) := by
        simp only [Native.execInst, hframe, Option.bind_eq_bind, Option.bind_some]
        rfl
      refine ⟨rfl, rfl, ⟨.closure id, S.code (.ofRestart (.closure id))⟩,
        ⟨m₁.scan, .void, frame, callers, jmpBufs⟩, if_pos hknown, ?_, rfl, hat, hcallers, hjmpBufs⟩
      rw [restart_code hC hknown]
      exact Native.reaches_cons (n := n₀) (Native.execInst_libCall hcall)
        (Native.reaches_cons (n := n₀.returned m₁ .void) hfn .refl)

end

/-! ### Leaving a function and landing in a handler -/

theorem leave_sim (n' : Native) (hB : Belongs M S z n) (hmachine : n'.machine = m)
    (hcallers : n'.callers = n.callers) (hjmpBufs : n'.jmpBufs = n.jmpBufs) (rest : List LlvmInst) :
    Matched M S rt z inst (n'.withRest (.retVoid :: rest)) (z.exec.leave m) := by
  have hstep : (n'.withRest (.retVoid :: rest)).step S rt = some (n'.withRest rest).leave := rfl
  have hwait := hB.callers
  unfold Exec.leave
  generalize hids : z.exec.callers = ids at hwait ⊢
  generalize hpcs : z.returns = pcs at hwait
  generalize hframes : n.callers = frames at hwait
  cases hwait with
  | nil =>
      refine ⟨_, .refl, ?_⟩
      rw [hstep, Native.leave, Native.withRest_callers, hcallers, hframes]
  | @cons id pc ids pcs frame frames hframe hwait =>
      intro z' hfollow _
      simp only [Zam.follow, hids, hpcs, List.length_cons, Nat.lt_succ_self, if_true,
        Option.some.injEq] at hfollow
      subst hfollow
      refine ⟨⟨m, .void, frame, frames, n.jmpBufs⟩, ⟨rfl, hframe, hwait, hB.jmpBufs⟩,
        .inl (.single ?_)⟩
      rw [Steps, hstep, Native.leave, Native.withRest_callers, hcallers, hframes, ← hmachine,
        ← hjmpBufs]
      rfl

theorem suffix_of_cons_suffix {α : Type} {a b : α} {l l' : List α} (h : a :: l <:+ b :: l') :
    l <:+ l' := by
  rcases List.suffix_cons_iff.mp h with heq | hsuffix
  · cases heq
    exact List.suffix_rfl
  · exact (List.suffix_cons a l).trans hsuffix

theorem land_sim (hB : Belongs M S z n) {i : Nat} (hland : z.exec.land i m = some s')
    (rest : List LlvmInst) (r : Register) (m' : Machine) : ∃ n₁,
    ((n.returned m' r).withRest rest).land i m = some n₁ ∧ ∀ z', z.follow inst s' = some z' →
      ∃ n', Reaches (Native.step S rt) n₁ n' ∧ Belongs M S z' n' := by
  obtain ⟨buf, m₁, m₂, hbuf, hsuffix, hvalue, hremove, rfl⟩ := Exec.land_eq_some hland
  obtain ⟨saved, hsaved, hat⟩ := hB.jmpBufs i buf hbuf
  obtain ⟨second, later, hrest⟩ := hat.handler
  obtain ⟨code, hcode, hlocated⟩ := hat.prologue
  have hwait := hB.callers
  have hfns : saved.frame.fn :: saved.callers <:+ n.frame.fn :: n.callers.map LlvmFrame.fn := by
    rw [hat.fn, hat.callers, hB.frame.fn, hwait.fns]
    exact hsuffix.map fnWithId
  have hlive : buf.callers <:+ z.exec.callers := suffix_of_cons_suffix hsuffix
  have hlength : saved.callers.length = buf.callers.length := by rw [hat.callers, List.length_map]
  refine ⟨⟨m, .bit true, saved.frame, n.callers.drop (n.callers.length - saved.callers.length),
    n.jmpBufs⟩, ?_, fun z' hfollow => ?_⟩
  · have hsaved' : ((n.returned m' r).withRest rest).jmpBufs i = some saved := hsaved
    simp only [Native.land, hsaved', Option.bind_eq_bind, Option.bind_some]
    exact if_pos hfns
  · cases hfollow
    let n₁ : Native := ⟨m, .bit true, saved.frame,
      n.callers.drop (n.callers.length - saved.callers.length), n.jmpBufs⟩
    have hvalue' : LibCall.run rt m .getExceptionValue = some (.next (m₁, .void)) := by
      rw [LibCall.run, hvalue]
      rfl
    have hremove' : LibCall.run rt m₁ .removeExceptionContext = some (.next (m₂, .void)) := by
      rw [LibCall.run, hremove]
      rfl
    refine ⟨(n₁.returned m₂ .void).withRest code, ?_, rfl, ⟨hat.fn, hat.generated, .at hlocated⟩, ?_,
      hB.jmpBufs⟩
    · show Reaches (Native.step S rt) n₁ _
      rw [← n₁.withRest_self hrest]
      refine Native.reaches_cons (Native.execInst_condBr true rfl hat.body) ?_
      rw [if_pos rfl, hcode]
      exact Native.reaches_cons (n := n₁) (Native.execInst_handlerCall hvalue')
        (Native.reaches_cons (n := n₁.returned m₁ .void) (Native.execInst_handlerCall hremove') .refl)
    · have hdrop := hwait.drop (z.exec.callers.length - buf.callers.length)
      rw [← List.suffix_iff_eq_drop.mp hlive] at hdrop
      show Waiting M S buf.callers (z.returns.drop (z.returns.length - buf.callers.length))
        (n.callers.drop (n.callers.length - saved.callers.length))
      rwa [hwait.lengths.1, hwait.lengths.2, hlength]

/-! ### Instructions without a control transfer -/

theorem nestedClosures_sameCall {i n : Nat} {calls : List RuntimeCall}
    (h : inst.nestedClosures i n = some calls) : ∃ lib : List LibCall,
      nestedClosures inst i n = lib.map .libCall ∧ List.Forall₂ (Native.SameCall rt) lib calls := by
  induction n generalizing i calls with
  | zero =>
      cases h
      exact ⟨[], rfl, .nil⟩
  | succ n ih =>
      rw [ZInstruction.nestedClosures] at h
      split at h
      · next hi =>
          simp only [Option.bind_eq_bind, Option.bind_eq_some_iff] at h
          obtain ⟨calls', hcalls', h⟩ := h
          cases h
          obtain ⟨lib, hlib, hsame⟩ := ih hcalls'
          refine ⟨.setClosureRecNestedClos i (.closure inst.closureRecFns[i]) :: lib, ?_,
            .cons (fun m => ⟨_, ?_, rfl⟩) hsame⟩
          · rw [nestedClosures, dif_pos hi, hlib]
            rfl
          · simp [LibCall.run, countOf, FnRef.address]
      · cases h

/-- The code of an instruction without a control transfer. -/
theorem instCode_of_runtimeCalls {calls : List RuntimeCall} (h : inst.runtimeCalls = some calls)
    (L : OwnState) (fn : FnRef) (k : Int) :
    inst.endsBlock = false ∧ OwnState.added inst = 0 ∧
      (∀ m, inst.next m = some (inst.idx + 1)) ∧
      (instCode L fn k inst = placed (L.last fn k) [.instCalls inst] ∨
        ∃ lib : List LibCall, instCode L fn k inst = placed (L.last fn k) (lib.map .libCall) ∧
          List.Forall₂ (Native.SameCall rt) lib calls) := by
  have hkind : inst.endsBlock = false ∧ OwnState.added inst = 0 ∧
      ∀ m, inst.next m = some (inst.idx + 1) := by
    cases hop : inst.opNum <;>
      simp [ZInstruction.runtimeCalls, ZInstruction.endsBlock, ZInstruction.isJumpInst,
        ZInstruction.isReturn, ZInstruction.isSwitch, OwnState.added, ZInstruction.next, hop] at h ⊢
  refine ⟨hkind.1, hkind.2.1, hkind.2.2, ?_⟩
  cases hop : inst.opNum with
  | closure =>
      simp only [ZInstruction.runtimeCalls, hop, Option.bind_eq_bind, Option.bind_eq_some_iff] at h
      obtain ⟨nvars, hnvars, h⟩ := h
      cases h
      refine .inr ⟨[.closure (inst.arg 0) (.closure (inst.arg 1))], ?_, .cons (fun m => ?_) .nil⟩
      · simp only [instCode, hop]
        rfl
      · have hcount : countOf (inst.arg 0) = some nvars := hnvars
        exact ⟨m.closure rt nvars (.fn (inst.arg 1)), by simp [LibCall.run, hcount, FnRef.address], rfl⟩
  | closureRec =>
      simp only [ZInstruction.runtimeCalls, hop, Option.bind_eq_bind, Option.bind_eq_some_iff] at h
      obtain ⟨nfuncs, hnfuncs, rest, hrest, nvars, hnvars, h⟩ := h
      cases h
      obtain ⟨lib, hlib, hsame⟩ := nestedClosures_sameCall hrest
      have hcount : countOf (inst.arg 0) = some nfuncs := hnfuncs
      have hcount' : countOf (inst.arg 1) = some nvars := hnvars
      have hnat : (inst.arg 0).toNat = nfuncs := by
        unfold countOf at hcount
        split at hcount
        · exact Option.some.inj hcount
        · cases hcount
      refine .inr ⟨.closureRec (inst.arg 0) (inst.arg 1) (.closure (inst.closureRecFn 0)) :: lib, ?_,
        .cons (fun m => ?_) hsame⟩
      · simp only [instCode, hop, hnat, hlib]
        rfl
      · exact ⟨m.closureRec rt nfuncs nvars (.fn inst.closureRecFns[0]),
          by simp [LibCall.run, hcount, hcount', FnRef.address, ZInstruction.closureRecFn], rfl⟩
  | checkSignals =>
      simp only [ZInstruction.runtimeCalls, hop, Option.some.injEq] at h
      subst h
      refine .inr ⟨[], ?_, .nil⟩
      simp only [instCode, hop]
      rfl
  | _ =>
      first
        | (simp only [ZInstruction.runtimeCalls, hop, reduceCtorEq] at h; done)
        | exact .inl (by simp only [instCode, hop])

theorem follow_inside (m : Machine) (bufs : Nat → Option JmpBuf) :
    z.follow inst { z.exec with machine := m, jmpBufs := bufs, control := .inside } =
      (inst.next z.exec.machine).map fun pc =>
        ⟨{ z.exec with machine := m, jmpBufs := bufs, control := .inside }, pc, z.returns⟩ := by
  simp only [Zam.follow, lt_irrefl, if_false]
  cases inst.next z.exec.machine <;> rfl

section

variable (hC : Compiled prog M S) (hB : Belongs M S z n) (p : Place (M.function n.frame.fn) inst)
  {late : List LlvmInst} (hrest : n.frame.rest = p.rest n.frame.fn ++ late) {o : Stepped}

include hC hB

/-- Behind an instruction that does not end its block. -/
theorem belongs_next (hends : inst.endsBlock = false) (m : Machine) (r : Register)
    (late : List LlvmInst) {bufs : Nat → Option JmpBuf} {saved : Nat → Option SavedFrame}
    (hbufs : SavedAll M S bufs saved) :
    Belongs M S ⟨{ z.exec with machine := m, jmpBufs := bufs, control := .inside }, inst.idx + 1,
        z.returns⟩
      { (n.returned m r).withRest (p.nextRest n.frame.fn ++ late) with jmpBufs := saved } where
  machine := rfl
  frame := ⟨hB.frame.fn, hB.frame.generated,
    before_next (hC.generated _ hB.frame.generated) (hC.follows _ hB.frame.generated)
      (hC.enters _ hB.frame.generated) p hends late⟩
  callers := hB.callers
  jmpBufs := hbufs

omit hC in
/-- At the start of a block. -/
theorem belongs_jump {t : Int} {rest : List LlvmInst} (m : Machine) (r : Register)
    (ht : Located (M.function n.frame.fn) n.frame.fn t rest) :
    Belongs M S ⟨{ z.exec with machine := m, control := .inside }, t, z.returns⟩
      ((n.returned m r).withRest rest) where
  machine := rfl
  frame := ⟨hB.frame.fn, hB.frame.generated, .at ht⟩
  callers := hB.callers
  jmpBufs := hB.jmpBufs

include hrest

omit hC hB in
theorem withRest_front {cs : List LlvmInst}
    (hcode : instCode p.state n.frame.fn p.k inst = placed (p.state.last n.frame.fn p.k) cs)
    (hadded : OwnState.added inst = 0) :
    n = n.withRest (cs ++ (p.nextRest n.frame.fn ++ late)) := by
  refine (n.withRest_self ?_).symm
  rw [hrest, Place.rest, restFrom_cons hcode hadded, List.append_assoc]
  rfl

omit hC hB in
theorem exists_front {cs : List LlvmInst} {c : List (BasicBlock × LlvmInst)}
    (hcode : instCode p.state n.frame.fn p.k inst = placed (p.state.last n.frame.fn p.k) cs ++ c) :
    ∃ late, n = n.withRest (cs ++ late) := by
  obtain ⟨late', hfront⟩ := restFrom_append hcode
  refine ⟨late' ++ late, (n.withRest_self ?_).symm⟩
  rw [hrest, Place.rest, hfront, List.append_assoc]

theorem matched_runtimeCalls {calls : List RuntimeCall} (hcalls : inst.runtimeCalls = some calls)
    (hexec : z.exec.exec rt inst = some o) : Matched M S rt z inst n o := by
  rw [Exec.exec_of_runtimeCalls hcalls, ← hB.machine] at hexec
  obtain ⟨oc, hrun, hsettle⟩ := Option.bind_eq_some_iff.mp hexec
  obtain ⟨hends, hadded, hnext, hcode⟩ :=
    instCode_of_runtimeCalls hcalls p.state n.frame.fn p.k
  have hgo : ∀ (m : Machine) (r : Register) (z' : Zam),
      z.follow inst { z.exec with machine := m, control := .inside } = some z' →
      Belongs M S z' ((n.returned m r).withRest (p.nextRest n.frame.fn ++ late)) ∧
        z'.pc = inst.idx + 1 := by
    intro m r z' hfollow
    rw [follow_inside, hnext, Option.map_some] at hfollow
    cases hfollow
    exact ⟨belongs_next hC hB p hends m r late hB.jmpBufs, rfl⟩
  rcases hcode with hcode | ⟨lib, hcode, hsame⟩
  · rw [withRest_front p hrest hcode hadded]
    have hinst : (n.withRest (p.nextRest n.frame.fn ++ late)).execInst S rt (.instCalls inst) = _ :=
      Native.execInst_instCalls hcalls hrun
    cases oc with
    | next m =>
        cases hsettle
        intro z' hfollow _
        exact ⟨_, (hgo m n.register z' hfollow).1, .inl (Native.advances_cons hinst .refl)⟩
    | jump j =>
        cases j with
        | exit =>
            cases hsettle
            exact Native.finishes_cons hinst
        | longjmp i m =>
            obtain ⟨s', hland, rfl⟩ := Option.map_eq_some_iff.mp hsettle
            obtain ⟨n₁, hn₁, hreach⟩ := land_sim hB hland
              (p.nextRest n.frame.fn ++ late) n.register n.machine
            intro z' hfollow _
            obtain ⟨n', hn', hbelongs⟩ := hreach z' hfollow
            refine ⟨n', hbelongs, .inl (Native.advances_cons (hinst.trans ?_) hn')⟩
            exact congrArg (Option.map Next.running) hn₁
  · obtain ⟨m, r, rfl, hreach⟩ := Native.reaches_libCalls (S := S) hsame
      (p.nextRest n.frame.fn ++ late) hrun
    cases hsettle
    rw [← withRest_front p hrest hcode hadded] at hreach
    intro z' hfollow _
    obtain ⟨hbelongs, hpc⟩ := hgo m r z' hfollow
    refine ⟨_, hbelongs, ?_⟩
    rcases Relation.reflTransGen_iff_eq_or_transGen.mp hreach with heq | hadvance
    · exact .inr ⟨heq, hpc⟩
    · exact .inl hadvance

end

end CamllVM
