import CamllVM.Proof.NativeSimulation

/-!
# The simulation of control transfers

Calls, returns, traps and jumps of the bytecode, one after the other, and with them every step of a
run.
-/

namespace CamllVM

open Simulation

variable {prog : List ZInstruction} {M : GenModule} {S : GenState} {rt : Runtime} {z z' : Zam}
  {n n' : Native} {inst : ZInstruction} {s s' : Exec} {m : Machine} {o : Stepped} {c : LibCall}
  {late : List LlvmInst}

section

variable (hC : Compiled prog M S) (hB : Belongs M S z n) (p : Place (M.function n.frame.fn) inst)
  (hrest : n.frame.rest = p.rest n.frame.fn ++ late)

include hC hB

/-! ### Calls -/

omit hC in
/-- A library function that raises instead of returning. -/
theorem matched_jump {j : Jump} {α : Type} {next : α → Option Stepped} (rest : List LlvmInst)
    (hrun : c.run rt n.machine = some (.jump j)) (hexec : z.exec.settle (.jump j) next = some o) :
    Matched M S rt z inst (n.withRest (.libCall c :: rest)) o := by
  have hinst : (n.withRest rest).execInst S rt (.libCall c) = _ := Native.execInst_libCall_jump hrun
  cases j with
  | exit =>
      cases hexec
      exact Native.finishes_cons hinst
  | longjmp i m =>
      obtain ⟨s', hland, rfl⟩ := Option.map_eq_some_iff.mp hexec
      obtain ⟨n₁, hn₁, hreach⟩ := land_sim hB hland rest n.register n.machine
      intro z' hfollow _
      obtain ⟨n', hn', hbelongs⟩ := hreach z' hfollow
      exact ⟨n', hbelongs, .inl (Native.advances_cons
        (hinst.trans (congrArg (Option.map Next.running) hn₁)) hn')⟩

/-- The call of the code in the register. -/
theorem matched_callPtr (n' : Native) {code : CodePtr} (isTailCall : Bool) (rest : List LlvmInst)
    (hregister : n'.register = .code (some code)) (hmachine : n'.machine = m)
    (hjmpBufs : n'.jmpBufs = n.jmpBufs) {ids returns : List Int}
    (hcallers : Waiting M S ids returns
      (if isTailCall = true then n'.callers else (n'.withRest rest).frame :: n'.callers))
    (henter : { z.exec with callers := ids }.enter m code = some s')
    (hfollow : z.follow inst s' = some z') (hknown : s'.control = .entry → .closure s'.fn ∈ S.generated)
    (hreturns : (if z.exec.callers.length < ids.length then (inst.idx + 1) :: z.returns
      else z.returns) = returns) :
    ∃ n₁, Belongs M S z' n₁ ∧
      Advances (Native.step S rt) (n'.withRest (.callPtr isTailCall :: rest)) n₁ := by
  have hentry : s'.control = .entry := by
    obtain ⟨id, m', rfl, -⟩ := Exec.enter_cases henter
    rfl
  obtain ⟨-, hids, frame, n₁, hframe, hreach, hbelongs⟩ :=
    @enter_sim _ _ _ rt { z.exec with callers := ids } _ _ hC _ henter (hknown hentry) _ _ _
      hcallers hB.jmpBufs
  have hids' : s'.callers = ids := hids
  rw [Zam.follow, hentry, hids', hreturns] at hfollow
  cases hfollow
  refine ⟨n₁, hbelongs, Native.advances_cons ?_ hreach⟩
  simp only [Native.execInst, Native.withRest_register, hregister, hframe, Option.bind_eq_bind,
    Option.bind_some]
  rw [← hmachine, ← hjmpBufs]
  rfl

include hrest

theorem matched_callBy {oc : Option (Outcome (Machine × CodePtr))}
    (hcode : instCode p.state n.frame.fn p.k inst =
      placed (p.state.last n.frame.fn p.k) [.libCall c, .callPtr false])
    (hadded : OwnState.added inst = 0) (hends : inst.endsBlock = false)
    (hrun : c.run rt n.machine = LibCall.callee oc) (hexec : z.exec.callBy oc = some o) :
    Matched M S rt z inst n o := by
  rw [withRest_front p hrest hcode hadded]
  obtain ⟨oc, rfl, hsettle⟩ := Option.bind_eq_some_iff.mp hexec
  cases oc with
  | jump j => exact matched_jump hB _ hrun hsettle
  | next mc =>
      obtain ⟨m, code⟩ := mc
      obtain ⟨s', hcall, rfl⟩ := Option.map_eq_some_iff.mp hsettle
      intro z' hfollow hknown
      have hframe : LlvmFrame.At M S z.exec.fn (inst.idx + 1)
          (n.withRest (p.nextRest n.frame.fn ++ late)).frame :=
        ⟨hB.frame.fn, hB.frame.generated,
          before_next (hC.generated _ hB.frame.generated) (hC.follows _ hB.frame.generated)
            (hC.enters _ hB.frame.generated) p hends late⟩
      obtain ⟨n₁, hbelongs, hadvance⟩ := matched_callPtr hC hB
        (n.returned m (.code (some code))) false
        (p.nextRest n.frame.fn ++ late) rfl rfl rfl (.cons hframe hB.callers) hcall hfollow hknown
        (if_pos (Nat.lt_succ_self _))
      exact ⟨n₁, hbelongs, .inl (Native.advances_cons (Native.execInst_libCall hrun) hadvance.reaches)⟩

theorem matched_tailCallBy {oc : Option (Outcome (Machine × CodePtr))}
    (hcode : instCode p.state n.frame.fn p.k inst =
      placed (p.state.last n.frame.fn p.k) [.libCall c, .callPtr true, .retVoid])
    (hadded : OwnState.added inst = 0) (hrun : c.run rt n.machine = LibCall.callee oc)
    (hexec : z.exec.tailCallBy oc = some o) : Matched M S rt z inst n o := by
  rw [withRest_front p hrest hcode hadded]
  obtain ⟨oc, rfl, hsettle⟩ := Option.bind_eq_some_iff.mp hexec
  cases oc with
  | jump j => exact matched_jump hB _ hrun hsettle
  | next mc =>
      obtain ⟨m, code⟩ := mc
      obtain ⟨s', henter, rfl⟩ := Option.map_eq_some_iff.mp hsettle
      intro z' hfollow hknown
      obtain ⟨n₁, hbelongs, hadvance⟩ := matched_callPtr hC hB
        (n.returned m (.code (some code))) true
        (.retVoid :: (p.nextRest n.frame.fn ++ late)) rfl rfl rfl hB.callers henter hfollow hknown
        (if_neg (lt_irrefl _))
      exact ⟨n₁, hbelongs, .inl (Native.advances_cons (Native.execInst_libCall hrun) hadvance.reaches)⟩

omit hrest in
/-- An instruction that goes on with the next one. -/
theorem matched_goOn (hends : inst.endsBlock = false)
    (hnext : inst.next z.exec.machine = some (inst.idx + 1)) (r : Register) (late : List LlvmInst)
    {bufs : Nat → Option JmpBuf} {saved : Nat → Option SavedFrame} (hbufs : SavedAll M S bufs saved)
    (hadvance : Advances (Native.step S rt) n
      { (n.returned m r).withRest (p.nextRest n.frame.fn ++ late) with jmpBufs := saved }) :
    Matched M S rt z inst n
      (.running { z.exec with machine := m, jmpBufs := bufs, control := .inside }) := by
  intro z' hfollow _
  rw [follow_inside, hnext, Option.map_some] at hfollow
  cases hfollow
  exact ⟨_, belongs_next hC hB p hends m r late hbufs, .inl hadvance⟩

/-! ### Returns -/

omit hC in
theorem matched_stop (hcode : instCode p.state n.frame.fn p.k inst =
      placed (p.state.last n.frame.fn p.k) [.retVoid]) (hadded : OwnState.added inst = 0)
    (hexec : some (z.exec.leave z.exec.machine) = some o) : Matched M S rt z inst n o := by
  cases hexec
  rw [withRest_front p hrest hcode hadded]
  exact leave_sim _ hB hB.machine rfl rfl _

theorem matched_return (hop : inst.opNum = .return_) (hexec : z.exec.exec rt inst = some o) :
    Matched M S rt z inst n o := by
  simp only [Exec.exec, hop, Option.bind_eq_bind, Option.bind_eq_some_iff] at hexec
  obtain ⟨stsz, hstsz, ⟨m, code⟩, hreturn, hexec⟩ := hexec
  let i := p.state.llvmBlocks p.k
  have hcode : instCode p.state n.frame.fn p.k inst = placed (p.state.last n.frame.fn p.k)
      [.libCall (.handleReturn (inst.arg 0)), .condBr .handleReturn
        ((p.state.addBlock p.k).last n.frame.fn p.k)
        (((p.state.addBlock p.k).addBlock p.k).last n.frame.fn p.k)] ++
      placed ((p.state.addBlock p.k).last n.frame.fn p.k) [.callPtr true, .retVoid] ++
      placed (((p.state.addBlock p.k).addBlock p.k).last n.frame.fn p.k) [.retVoid] := by
    simp only [instCode, hop]
  obtain ⟨⟨hinvoke, late₁, hcode₁⟩, hleave, late₂, hcode₂⟩ := code_tested
    (hC.generated _ hB.frame.generated) p (i := i) (by simp only [OwnState.added, hop]) rfl hcode
  rw [last_addBlock, last_addBlock, addBlock_llvmBlocks_self, List.append_assoc] at hcode
  obtain ⟨late₀, hn⟩ := exists_front p hrest hcode
  have hrun : LibCall.run rt n.machine (.handleReturn (inst.arg 0)) = some (.next (m, .code code)) := by
    have hcount : countOf (inst.arg 0) = some stsz := hstsz
    simp only [LibCall.run, hB.machine, hcount, hreturn, Option.bind_eq_bind, Option.bind_some]
    rfl
  have hfirst := Native.execInst_libCall (S := S) (n := n.withRest (.condBr .handleReturn
    (.ofBlock n.frame.fn p.k i) (.ofBlock n.frame.fn p.k (i + 1)) :: late₀)) hrun
  rw [hn]
  cases code with
  | some code =>
      obtain ⟨s', henter, heq⟩ := Option.bind_eq_some_iff.mp hexec
      cases heq
      intro z' hfollow hknown
      obtain ⟨n₁, hbelongs, hadvance⟩ := matched_callPtr hC hB
        (n.returned m (.code (some code))) true (.retVoid :: late₁) rfl rfl rfl hB.callers
        henter hfollow hknown (if_neg (lt_irrefl _))
      refine ⟨n₁, hbelongs, .inl (Native.advances_cons hfirst (Native.reaches_cons
        (n := n.returned m (.code (some code)))
        (Native.execInst_condBr true rfl hinvoke) ?_))⟩
      rw [if_pos rfl, hcode₁]
      exact hadvance.reaches
  | none =>
      cases hexec
      have hmatched : Matched M S rt z inst
          ((n.returned m (.code none)).withRest (S.code (.ofBlock n.frame.fn p.k (i + 1))))
          (z.exec.leave m) := by
        rw [hcode₂]
        exact leave_sim (n.returned m (.code none)) hB rfl rfl rfl
          (p.nextRest n.frame.fn ++ late₂)
      exact hmatched.of_advances (Native.advances_cons hfirst (Native.reaches_cons
        (n := n.returned m (.code none)) (Native.execInst_condBr false rfl hleave) .refl))

theorem matched_grab (hop : inst.opNum = .grab) (hexec : z.exec.exec rt inst = some o) :
    Matched M S rt z inst n o := by
  let i := p.state.llvmBlocks p.k
  have hcode : instCode p.state n.frame.fn p.k inst = placed (p.state.last n.frame.fn p.k)
      [.libCall (.checkGrab (inst.arg 0)), .condBr .checkGrab
        (((p.state.addBlock p.k).addBlock p.k).last n.frame.fn p.k)
        ((p.state.addBlock p.k).last n.frame.fn p.k)] ++
      placed ((p.state.addBlock p.k).last n.frame.fn p.k)
        [.libCall (.createRestartClosure n.frame.fn), .retVoid] ++
      placed (((p.state.addBlock p.k).addBlock p.k).last n.frame.fn p.k)
        [.libCall (.substractExtraArgs (inst.arg 0))] := by
    simp only [instCode, hop]
  obtain ⟨⟨hrestart, late₁, hcode₁⟩, hcontinue, late₂, hcode₂⟩ := code_tested
    (hC.generated _ hB.frame.generated) p (i := i) (by simp only [OwnState.added, hop]) rfl hcode
  rw [last_addBlock, last_addBlock, addBlock_llvmBlocks_self, List.append_assoc] at hcode
  obtain ⟨late₀, hn⟩ := exists_front p hrest hcode
  let bit := n.machine.checkGrab (inst.arg 0)
  have htest : ∀ b, (if bit = true then .ofBlock n.frame.fn p.k (i + 1)
      else .ofBlock n.frame.fn p.k i) = b → b ∈ S.body n.frame.fn →
      Advances (Native.step S rt) n ((n.returned n.machine (.bit bit)).withRest (S.code b)) := by
    rintro b rfl hb
    conv => lhs; rw [hn]
    exact Native.advances_cons (Native.execInst_libCall rfl) (Native.reaches_cons
      (n := n.returned n.machine (.bit bit)) (Native.execInst_condBr bit rfl hb) .refl)
  simp only [Exec.exec, hop, ← hB.machine] at hexec
  split at hexec
  · next hcheck =>
      cases hexec
      refine matched_goOn hC hB p (by simp [ZInstruction.endsBlock, ZInstruction.isJumpInst,
        ZInstruction.isReturn, ZInstruction.isSwitch, hop]) (by simp [ZInstruction.next, hop])
        .void late₂ hB.jmpBufs ((htest _ (if_pos hcheck) hcontinue).trans ?_)
      rw [hcode₂]
      exact Native.advances_cons (n := n.returned n.machine (.bit bit)) (Native.execInst_libCall rfl)
        .refl
  · next hcheck =>
      split at hexec
      · cases hexec
      · next hmain =>
          obtain ⟨m, hclosure, heq⟩ := Option.bind_eq_some_iff.mp hexec
          cases heq
          have hfn : n.frame.fn = .closure z.exec.fn := by
            rw [hB.frame.fn, fnWithId, if_neg hmain]
          have hrun : LibCall.run rt n.machine (.createRestartClosure n.frame.fn) =
              some (.next (m, .void)) := by
            rw [hfn]
            simp only [LibCall.run, FnRef.restartAddress, hclosure, Option.bind_eq_bind,
              Option.bind_some]
            rfl
          refine Matched.of_advances ?_ ((htest _ (if_neg hcheck) hrestart).trans_left
            (?_ : Reaches _ _ ((n.returned m .void).withRest (.retVoid :: late₁))))
          · exact leave_sim (n.returned m .void) hB rfl rfl rfl late₁
          · rw [hcode₁]
            exact Native.reaches_cons (n := n.returned n.machine (.bit bit))
              (Native.execInst_libCall hrun) .refl

/-! ### Traps -/

theorem matched_pushTrap (hop : inst.opNum = .pushTrap) (hexec : z.exec.exec rt inst = some o) :
    Matched M S rt z inst n o := by
  simp only [Exec.exec, hop, Option.bind_eq_bind, Option.bind_eq_some_iff] at hexec
  obtain ⟨⟨i, m₁⟩, hbuffer, m, hpush, hexec⟩ := hexec
  cases hexec
  have hgenerated := hC.generated _ hB.frame.generated
  have hfollows := hC.follows _ hB.frame.generated
  have henters := hC.enters _ hB.frame.generated
  have hself := (henters.traps p.k p.mem_blocks inst p.mem_instructions hop).1
  let j := p.state.llvmBlocks p.k
  obtain ⟨hbody, late₁, hcode₁⟩ := code_pushTrap hgenerated p hop hself (i := j) rfl
  obtain ⟨hhandler, rest, hprologue, hlocated⟩ :=
    located_of_handler hgenerated hfollows henters p.mem_blocks p.mem_instructions hop
  have hcode : instCode p.state n.frame.fn p.k inst = placed (p.state.last n.frame.fn p.k)
      [.libCall .getNewBuffer, .libCall .sigsetjmp, .condBr .setJmpRes
        (.ofBlock n.frame.fn (inst.arg 0) 0) ((p.state.addBlock p.k).last n.frame.fn p.k)] ++
      placed ((p.state.addBlock p.k).last n.frame.fn (inst.arg 0)) prologue ++
      placed ((p.state.addBlock p.k).last n.frame.fn p.k) [.libCall .pushTrap] := by
    simp only [instCode, hop]
  rw [last_addBlock, List.append_assoc] at hcode
  obtain ⟨late₀, hn⟩ := exists_front p hrest hcode
  let behind : List LlvmInst := .condBr .setJmpRes (.ofBlock n.frame.fn (inst.arg 0) 0)
    (.ofBlock n.frame.fn p.k j) :: late₀
  let saved : SavedFrame := ⟨⟨n.frame.fn, behind⟩, n.callers.map LlvmFrame.fn⟩
  have hsaved : saved.At M S ⟨z.exec.fn, z.exec.callers, inst.arg 0⟩ :=
    ⟨hB.frame.fn, hB.callers.fns, hB.frame.generated, ⟨_, _, rfl⟩, hhandler, rest, hprologue,
      hlocated⟩
  have hbufs : SavedAll M S
      (fun k => if k = i then some ⟨z.exec.fn, z.exec.callers, inst.arg 0⟩ else z.exec.jmpBufs k)
      (fun k => if k = i then some saved else n.jmpBufs k) := by
    intro k buf hbuf
    dsimp only at hbuf ⊢
    split at hbuf
    · next hk =>
        cases hbuf
        exact ⟨saved, if_pos hk, hsaved⟩
    · next hk =>
        rw [if_neg hk]
        exact hB.jmpBufs k buf hbuf
  refine matched_goOn hC hB p (by simp [ZInstruction.endsBlock, ZInstruction.isJumpInst,
    ZInstruction.isReturn, ZInstruction.isSwitch, hop]) (by simp [ZInstruction.next, hop])
    .void late₁ hbufs ?_
  have hrun₁ : LibCall.run rt n.machine .getNewBuffer = some (.next (m₁, .jmpBuf i)) := by
    simp only [LibCall.run, hB.machine, hbuffer, Option.bind_eq_bind, Option.bind_some]
    rfl
  have hrun₂ : LibCall.run rt m₁ .pushTrap = some (.next (m, .void)) := by
    rw [LibCall.run, hpush]
    rfl
  let n₁ : Native := n.returned m₁ (.jmpBuf i)
  let n₂ : Native := { n₁ with
    register := .bit false, jmpBufs := fun k => if k = i then some saved else n.jmpBufs k }
  have hset : (n₁.withRest behind).execInst S rt (.libCall .sigsetjmp) =
      some (.running (n₂.withRest behind)) := rfl
  conv => lhs; rw [hn]
  refine Native.advances_cons (Native.execInst_libCall hrun₁) (Native.reaches_cons (n := n₁) hset
    (Native.reaches_cons (n := n₂) (Native.execInst_condBr false rfl hbody) ?_))
  rw [if_neg Bool.false_ne_true, hcode₁]
  exact Native.reaches_cons (n := n₂) (Native.execInst_libCall hrun₂) .refl

theorem matched_popTrap (hop : inst.opNum = .popTrap) (hexec : z.exec.exec rt inst = some o) :
    Matched M S rt z inst n o := by
  simp only [Exec.exec, hop, Option.bind_eq_bind, Option.bind_eq_some_iff] at hexec
  obtain ⟨m₁, hremove, m, hpop, hexec⟩ := hexec
  cases hexec
  have hcode : instCode p.state n.frame.fn p.k inst = placed (p.state.last n.frame.fn p.k)
      [.libCall .removeExceptionContext, .libCall .popTrap] := by simp only [instCode, hop]
  refine matched_goOn hC hB p (by simp [ZInstruction.endsBlock, ZInstruction.isJumpInst,
    ZInstruction.isReturn, ZInstruction.isSwitch, hop]) (by simp [ZInstruction.next, hop])
    .void late hB.jmpBufs ?_
  have hrun₁ : LibCall.run rt n.machine .removeExceptionContext = some (.next (m₁, .void)) := by
    rw [LibCall.run, hB.machine, hremove]
    rfl
  have hrun₂ : LibCall.run rt m₁ .popTrap = some (.next (m, .void)) := by
    rw [LibCall.run, hpop]
    rfl
  conv => lhs; rw [withRest_front p hrest hcode (by simp only [OwnState.added, hop])]
  exact Native.advances_cons (Native.execInst_libCall hrun₁)
    (Native.reaches_cons (n := n.returned m₁ .void) (Native.execInst_libCall hrun₂) .refl)

omit hC in
theorem matched_raise (hop : inst.opNum = .raise) (hexec : z.exec.exec rt inst = some o) :
    Matched M S rt z inst n o := by
  have hcode : instCode p.state n.frame.fn p.k inst =
      placed (p.state.last n.frame.fn p.k) [.libCall .throwException, .retVoid] := by
    simp only [instCode, hop]
  rw [withRest_front p hrest hcode (by simp only [OwnState.added, hop])]
  simp only [Exec.exec, hop, ← hB.machine] at hexec
  exact matched_jump hB _ rfl hexec

/-! ### Jumps -/

omit hC hrest in
/-- The last instruction of a block goes to the start of another one. -/
theorem matched_target {t : Int} {b : BasicBlock} (r : Register)
    (hnext : inst.next z.exec.machine = some t) (hlocated : Located (M.function n.frame.fn)
      n.frame.fn t (S.code b))
    (hadvance : Advances (Native.step S rt) n ((n.returned m r).withRest (S.code b))) :
    Matched M S rt z inst n (.running { z.exec with machine := m, control := .inside }) := by
  intro z' hfollow _
  rw [follow_inside, hnext, Option.map_some] at hfollow
  cases hfollow
  exact ⟨_, belongs_jump hB m r hlocated, .inl hadvance⟩

theorem matched_branch (hop : inst.opNum = .branch) (hexec : z.exec.exec rt inst = some o) :
    Matched M S rt z inst n o := by
  simp only [Exec.exec, hop] at hexec
  cases hexec
  obtain ⟨hcode, hbody, hlocated⟩ := branch_target (hC.generated _ hB.frame.generated)
    (hC.follows _ hB.frame.generated) (hC.enters _ hB.frame.generated) p hop
  refine matched_target hB n.register (by simp [ZInstruction.next, hop]) hlocated ?_
  conv => lhs; rw [withRest_front p hrest hcode (by simp only [OwnState.added, hop])]
  rw [← hB.machine]
  exact Native.advances_cons (Native.execInst_br hbody) .refl

/-- A conditional jump goes where its test says. -/
theorem matched_condBr (cond : BranchCond) (brIfTrue : Bool) (hcond : inst.isCondJump = true)
    (hcode : instCode p.state n.frame.fn p.k inst = placed (p.state.last n.frame.fn p.k)
      (condBrCode p.state n.frame.fn p.k cond brIfTrue)) (hadded : OwnState.added inst = 0)
    (hnext : inst.next z.exec.machine = do
      return if (← cond.test z.exec.machine) = brIfTrue then inst.getDestIdx else inst.idx + 1)
    (hexec : z.exec.goOn z.exec.machine = some o) : Matched M S rt z inst n o := by
  cases hexec
  obtain ⟨hbranch, htargets⟩ := condBr_targets (hC.generated _ hB.frame.generated)
    (hC.follows _ hB.frame.generated) (hC.enters _ hB.frame.generated) p hcond cond brIfTrue
  rw [hbranch] at hcode
  intro z' hfollow hknown
  rw [← hB.machine] at hnext
  cases htest : cond.test n.machine with
  | none =>
      rw [follow_inside, ← hB.machine, hnext, htest] at hfollow
      cases hfollow
  | some bit =>
      have hblock : (if bit = true then
            BasicBlock.ofBlock n.frame.fn (if brIfTrue = true then inst.getDestIdx else inst.idx + 1) 0
          else .ofBlock n.frame.fn (if brIfTrue = true then inst.idx + 1 else inst.getDestIdx) 0) =
          .ofBlock n.frame.fn (if bit = brIfTrue then inst.getDestIdx else inst.idx + 1) 0 := by
        cases bit <;> cases brIfTrue <;> rfl
      obtain ⟨hbody, hlocated⟩ := htargets (if bit = brIfTrue then inst.getDestIdx else inst.idx + 1)
        (by split <;> simp)
      have hinst := @Native.execInst_condBr S rt n _ bit _ _ (Native.test_eq htest) (hblock ▸ hbody)
      rw [hblock] at hinst
      rw [htest, hB.machine] at hnext
      refine matched_target hB n.register hnext hlocated ?_ z' hfollow hknown
      conv => lhs; rw [withRest_front p hrest hcode hadded]
      rw [← hB.machine]
      exact Native.advances_cons hinst .refl

theorem matched_switch (hop : inst.opNum = .switch) (hexec : z.exec.exec rt inst = some o) :
    Matched M S rt z inst n o := by
  simp only [Exec.exec, hop] at hexec
  cases hexec
  intro z' hfollow hknown
  have hnext := hfollow
  rw [follow_inside, Option.map_eq_some_iff] at hnext
  obtain ⟨t, hnext, -⟩ := hnext
  have hentry := hnext
  simp only [ZInstruction.next, hop, Option.bind_eq_bind, Option.bind_eq_some_iff] at hentry
  obtain ⟨v, hoffset, hentry⟩ := hentry
  split at hentry
  · next hv =>
      have ht : t ∈ inst.switchEntries := List.mem_of_getElem? hentry
      obtain ⟨default, hcode, htargets⟩ := switch_targets (hC.generated _ hB.frame.generated)
        (hC.follows _ hB.frame.generated) (hC.enters _ hB.frame.generated) p hop
        (List.ne_nil_of_mem ht)
      obtain ⟨hbody, hlocated⟩ := htargets t ht
      have htarget : switchTarget default (inst.switchEntries.map fun t => .ofBlock n.frame.fn t 0) v =
          .ofBlock n.frame.fn t 0 := by
        rw [switchTarget, if_pos hv, List.getD_eq_getElem?_getD, List.getElem?_map, hentry]
        rfl
      have hrun : LibCall.run rt n.machine (.getSwitchOffset (inst.arg 0)) =
          some (.next (n.machine, .offset v)) := by
        simp only [LibCall.run, hB.machine, hoffset, Option.bind_eq_bind, Option.bind_some]
        rfl
      have hinst : (n.returned n.machine (.offset v)).execInst S rt
          (.switch default (inst.switchEntries.map fun t => .ofBlock n.frame.fn t 0)) =
          some (.running ((n.returned n.machine (.offset v)).withRest
            (S.code (.ofBlock n.frame.fn t 0)))) := by
        rw [← htarget] at hbody ⊢
        exact Native.goTo_eq hbody
      refine matched_target hB (.offset v) hnext hlocated ?_ z' hfollow hknown
      conv => lhs; rw [withRest_front p hrest hcode (by simp only [OwnState.added, hop])]
      rw [← hB.machine]
      exact Native.advances_cons (Native.execInst_libCall hrun)
        (Native.reaches_cons (n := n.returned n.machine (.offset v)) hinst .refl)
  · cases hentry

/-! ### Every instruction -/

theorem matched_calls (hnone : inst.runtimeCalls = none) (hexec : z.exec.exec rt inst = some o) :
    Matched M S rt z inst n o := by
  have hmachine := hB.machine
  cases hop : inst.opNum with
  | pushTrap => exact matched_pushTrap hC hB p hrest hop hexec
  | popTrap => exact matched_popTrap hC hB p hrest hop hexec
  | raise => exact matched_raise hB p hrest hop hexec
  | grab => exact matched_grab hC hB p hrest hop hexec
  | return_ => exact matched_return hC hB p hrest hop hexec
  | branch => exact matched_branch hC hB p hrest hop hexec
  | switch => exact matched_switch hC hB p hrest hop hexec
  | stop =>
      simp only [Exec.exec, hop] at hexec
      exact matched_stop hB p hrest (by simp only [instCode, hop]) (by simp only [OwnState.added, hop])
        hexec
  | apply1 =>
      simp only [Exec.exec, hop, ← hmachine] at hexec
      exact matched_callBy hC hB p hrest (c := .apply1) (by simp only [instCode, hop])
        (by simp only [OwnState.added, hop]) (by simp [ZInstruction.endsBlock, ZInstruction.isJumpInst,
          ZInstruction.isReturn, ZInstruction.isSwitch, hop]) rfl hexec
  | apply2 =>
      simp only [Exec.exec, hop, ← hmachine] at hexec
      exact matched_callBy hC hB p hrest (c := .apply2) (by simp only [instCode, hop])
        (by simp only [OwnState.added, hop]) (by simp [ZInstruction.endsBlock, ZInstruction.isJumpInst,
          ZInstruction.isReturn, ZInstruction.isSwitch, hop]) rfl hexec
  | apply3 =>
      simp only [Exec.exec, hop, ← hmachine] at hexec
      exact matched_callBy hC hB p hrest (c := .apply3) (by simp only [instCode, hop])
        (by simp only [OwnState.added, hop]) (by simp [ZInstruction.endsBlock, ZInstruction.isJumpInst,
          ZInstruction.isReturn, ZInstruction.isSwitch, hop]) rfl hexec
  | apply =>
      have hcall : z.exec.callBy ((n.machine.apply (inst.arg 0)).map .next) = some o := by
        rw [← hexec, hmachine]
        simp only [Exec.exec, hop, Exec.callBy]
        cases z.exec.machine.apply (inst.arg 0) with
        | none => rfl
        | some mc =>
            obtain ⟨m, code⟩ := mc
            simp only [Option.map_some, Option.bind_eq_bind, Option.bind_some, Exec.settle]
            cases z.exec.call m code <;> rfl
      exact matched_callBy hC hB p hrest (c := .apply (inst.arg 0)) (by simp only [instCode, hop])
        (by simp only [OwnState.added, hop]) (by simp [ZInstruction.endsBlock, ZInstruction.isJumpInst,
          ZInstruction.isReturn, ZInstruction.isSwitch, hop]) rfl hcall
  | appterm1 =>
      simp only [Exec.exec, hop, Option.bind_eq_bind, Option.bind_eq_some_iff, ← hmachine] at hexec
      obtain ⟨slotsize, hslotsize, hexec⟩ := hexec
      have hcount : countOf (inst.arg 0) = some slotsize := hslotsize
      exact matched_tailCallBy hC hB p hrest (c := .appterm1 (inst.arg 0))
        (by simp only [instCode, hop]) (by simp only [OwnState.added, hop])
        (by simp only [LibCall.run, hcount, Option.bind_eq_bind, Option.bind_some]) hexec
  | appterm2 =>
      simp only [Exec.exec, hop, Option.bind_eq_bind, Option.bind_eq_some_iff, ← hmachine] at hexec
      obtain ⟨slotsize, hslotsize, hexec⟩ := hexec
      have hcount : countOf (inst.arg 0) = some slotsize := hslotsize
      exact matched_tailCallBy hC hB p hrest (c := .appterm2 (inst.arg 0))
        (by simp only [instCode, hop]) (by simp only [OwnState.added, hop])
        (by simp only [LibCall.run, hcount, Option.bind_eq_bind, Option.bind_some]) hexec
  | appterm3 =>
      simp only [Exec.exec, hop, Option.bind_eq_bind, Option.bind_eq_some_iff, ← hmachine] at hexec
      obtain ⟨slotsize, hslotsize, hexec⟩ := hexec
      have hcount : countOf (inst.arg 0) = some slotsize := hslotsize
      exact matched_tailCallBy hC hB p hrest (c := .appterm3 (inst.arg 0))
        (by simp only [instCode, hop]) (by simp only [OwnState.added, hop])
        (by simp only [LibCall.run, hcount, Option.bind_eq_bind, Option.bind_some]) hexec
  | appterm =>
      simp only [Exec.exec, hop, Option.bind_eq_bind, Option.bind_eq_some_iff, ← hmachine] at hexec
      obtain ⟨nargs, hnargs, slotsize, hslotsize, hexec⟩ := hexec
      have hcount : countOf (inst.arg 0) = some nargs := hnargs
      have hcount' : countOf (inst.arg 1) = some slotsize := hslotsize
      exact matched_tailCallBy hC hB p hrest (c := .appterm (inst.arg 0) (inst.arg 1))
        (by simp only [instCode, hop]) (by simp only [OwnState.added, hop])
        (by simp only [LibCall.run, hcount, hcount', Option.bind_eq_bind, Option.bind_some]) hexec
  | branchIf =>
      simp only [Exec.exec, hop] at hexec
      exact matched_condBr hC hB p hrest .accuIsTrue true (by simp [ZInstruction.isCondJump,
        ZInstruction.isJumpInst, hop]) (by simp only [instCode, hop])
        (by simp only [OwnState.added, hop]) (by simp only [ZInstruction.next, hop]) hexec
  | branchIfNot =>
      simp only [Exec.exec, hop] at hexec
      exact matched_condBr hC hB p hrest .accuIsTrue false (by simp [ZInstruction.isCondJump,
        ZInstruction.isJumpInst, hop]) (by simp only [instCode, hop])
        (by simp only [OwnState.added, hop]) (by simp only [ZInstruction.next, hop]) hexec
  | beq | bneq | bltInt | bleInt | bgtInt | bgeInt | bultInt | bugeInt =>
      simp only [Exec.exec, hop] at hexec
      exact matched_condBr hC hB p hrest (.compare inst.opNum (inst.arg 0)) true (by simp [ZInstruction.isCondJump,
        ZInstruction.isJumpInst, hop]) (by simp only [instCode, hop])
        (by simp only [OwnState.added, hop]) (by simp only [ZInstruction.next, hop]) hexec
  | _ =>
      simp only [Exec.exec, hop, hnone] at hexec
      cases hexec

/-- The code of an instruction does what the instruction does. -/
theorem matched_exec (hexec : z.exec.exec rt inst = some o) : Matched M S rt z inst n o := by
  cases hcalls : inst.runtimeCalls with
  | none => exact matched_calls hC hB p hrest hcalls hexec
  | some calls => exact matched_runtimeCalls hC hB p hrest hcalls hexec

end

end CamllVM
