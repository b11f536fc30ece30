import CamllVM.Proof.RaisePaths

/-!
# No stale word on the stack

The collector takes every word from the stack pointer up to the stack base for a root. Each operation
that lowers the stack pointer writes the words that it uncovers, but for three: `apply1` and `apply2`
leave out the word for a return address, and `pushTrap` the word for the address of the handler.
-/

namespace CamllVM

open Runs

/-- An instruction whose code moves the stack pointer over a word without writing it. -/
def ZInstruction.LeavesHole (inst : ZInstruction) : Prop :=
  inst.opNum = .apply1 ∨ inst.opNum = .apply2 ∨ inst.opNum = .pushTrap

theorem ZInstruction.LeavesHole.not_other {inst : ZInstruction} (h : inst.LeavesHole) :
    inst.runtimeCalls = none ∧ inst.tailOperands = none ∧ inst.isBranch = false ∧
      ∀ op ∈ [OpCode.assign, .grab, .apply, .return_, .stop, .popTrap], inst.opNum ≠ op := by
  rcases h with hop | hop | hop <;>
    simp [runtimeCalls, tailOperands, isBranch, isJumpInst, isSwitch, hop]

/-- A state in which no handler has been installed. -/
structure Machine.NoHandler (m : Machine) : Prop where
  nextExceptionContext : m.nextExceptionContext = none
  camlExternalRaise : m.camlExternalRaise = .null

variable {rt : Runtime} {inst : ZInstruction} {s s' : Exec} {m m₁ : Machine} {c : CodePtr}

theorem SameHandlers.noHandler (h : SameHandlers m m₁) (hm : m.NoHandler) : m₁.NoHandler :=
  ⟨h.nextExceptionContext.trans hm.1, h.camlExternalRaise.trans hm.2⟩

theorem Raises.not_noHandler {exn : Value} {i : Nat} (h : Raises rt inst m exn i m₁) :
    ¬m.NoHandler := by
  intro hm
  cases h with
  | raise hop hcontext => cases hm.nextExceptionContext.symm.trans hcontext
  | primitive _ _ _ _ _ hraised =>
      cases hraised with
      | longjmp hbuf => cases hm.camlExternalRaise.symm.trans hbuf
  | overflow _ _ hraised =>
      cases hraised with
      | longjmp hbuf => cases hm.camlExternalRaise.symm.trans hbuf

theorem Machine.NoStale.scan (hm : m.NoStale) : m.scan.NoStale := by
  refine ⟨hm.stack, fun stack hmem => ?_⟩
  rcases List.mem_cons.mp hmem with rfl | hmem
  · exact hm.stack
  · exact hm.scans stack hmem

theorem Exec.enter_noStale (h : s.enter m c = some s') (hm : m.NoStale) : s'.machine.NoStale := by
  obtain ⟨id, m', rfl, ⟨-, rfl⟩ | ⟨-, vs, env, rfl⟩⟩ := enter_cases h
  · exact hm.scan
  · have hrestarted : (m.scan.restarted vs env).NoStale :=
      ⟨(StackWords.written_map_some vs).append hm.stack, hm.scan.scans⟩
    exact hrestarted.scan

theorem Exec.enter_stale (h : s.enter m c = some s') (hm : ¬m.stack.Written) :
    ¬s'.machine.NoStale := by
  intro hstale
  obtain ⟨id, m', rfl, ⟨-, rfl⟩ | ⟨-, vs, env, rfl⟩⟩ := enter_cases h
  · exact hm hstale.stack
  · exact hm fun w hw => hstale.stack w (List.mem_append_right _ hw)

theorem Applies.noStale (h : Applies inst m m₁ c) (hhole : ¬inst.LeavesHole) (hm : m.NoStale) :
    m₁.NoStale := by
  cases h with
  | apply => exact ⟨hm.stack, hm.scans⟩
  | @framed args w _ _ hargs hstack hsome hnone hchecked =>
      obtain ⟨sp, threshold, rfl⟩ := hchecked
      have hthree : 3 ≤ args.length := by
        unfold ZInstruction.framedArgs at hargs
        split at hargs
        · next hop => exact absurd (.inl hop) hhole
        · next hop => exact absurd (.inr (.inl hop)) hhole
        · exact Nat.le_of_eq (Option.some.inj hargs)
        · cases hargs
      obtain ⟨v, rfl⟩ := Option.isSome_iff_exists.mp (hsome hthree)
      exact ⟨(StackWords.written_map_some args).append ((((hm.stack.drop args.length).cons
        (.int m.extraArgs)).cons m.env).cons v), hm.scans⟩

theorem TailCalls.noStale (h : TailCalls inst m m₁ c) (hm : m.NoStale) : m₁.NoStale := by
  cases h with
  | @appterm args slotsize _ _ _ _ _ _ hchecked =>
      obtain ⟨sp, threshold, rfl⟩ := hchecked
      exact ⟨(StackWords.written_map_some args).append (hm.stack.drop slotsize), hm.scans⟩
  | @return_ n => exact ⟨hm.stack.drop n, hm.scans⟩

theorem StackWords.Written.of_append (front : StackWords) {rest : StackWords}
    (h : StackWords.Written (front ++ rest)) : rest.Written :=
  fun w hw => h w (List.mem_append_right front hw)

/-- A step that writes every word it uncovers keeps the stack free of stale words. -/
theorem noStale_step (h : ExecStep rt inst s s') (hhole : ¬inst.LeavesHole)
    (hs : s.machine.NoStale) (hnone : s.machine.NoHandler) :
    s'.machine.NoStale ∧ s'.machine.NoHandler := by
  have hhandler : s'.machine.NoHandler := by
    rcases h.keepsHandlers_or with hkeeps | ⟨i, m₁, m₂, hop, -⟩ | ⟨m₁, m₂, -, hremove, -⟩ |
      ⟨exn, i, m₁, hraises, -⟩
    · exact hkeeps.machine.noHandler hnone
    · exact absurd (.inr (.inr hop)) hhole
    · obtain ⟨context, hcontext, -⟩ := Machine.removeExceptionContext_eq_some hremove
      cases hnone.nextExceptionContext.symm.trans hcontext
    · exact absurd hnone hraises.not_noHandler
  refine ⟨?_, hhandler⟩
  cases h with
  | straight hcs hassign heffect => exact heffect.noStale hs
  | assign hop hn hassign =>
      obtain ⟨-, rfl⟩ := Machine.assign_eq hassign
      exact ⟨hs.stack.set _ _, hs.scans⟩
  | branch | stop => exact hs
  | grab => exact ⟨hs.stack, hs.scans⟩
  | partialCall hop hlt hrestart hcallers =>
      obtain ⟨m₁, args, w, env, extra, extraArgs, rest, hreserve, -, hstack, -, rfl⟩ :=
        Machine.createRestartClosure_cases hrestart
      have hm₁ := (Machine.effect_reserve hreserve).noStale hs
      have hwritten := hm₁.stack
      rw [hstack] at hwritten
      exact ⟨StackWords.Written.of_append (args.map some ++ [w, some env, some extra])
        (by rw [List.append_assoc]; exact hwritten), hm₁.scans⟩
  | call happlies hcall => exact Exec.enter_noStale hcall (happlies.noStale hhole hs)
  | tailCall htail henter => exact Exec.enter_noStale henter (htail.noStale hs)
  | @return_ n w env extra extraArgs rest _ _ hop hn hle hextra hdrop =>
      have hwritten := hs.stack.drop n
      rw [hdrop] at hwritten
      exact ⟨StackWords.Written.of_append [w, some env, some extra] hwritten, hs.scans⟩
  | pushTrap hop => exact absurd (.inr (.inr hop)) hhole
  | popTrap hop hremove =>
      obtain ⟨context, hcontext, -⟩ := Machine.removeExceptionContext_eq_some hremove
      cases hnone.nextExceptionContext.symm.trans hcontext
  | land hraises => exact absurd hnone hraises.not_noHandler

theorem not_written_of_none (front rest : StackWords) :
    ¬StackWords.Written (front ++ none :: rest) := fun h =>
  Bool.noConfusion (h none (List.mem_append_right front List.mem_cons_self))

/-- The step of one of the three instructions leaves a stale word. -/
theorem stale_step (h : ExecStep rt inst s s') (hhole : inst.LeavesHole)
    (hnone : s.machine.NoHandler) : ¬s'.machine.NoStale := by
  obtain ⟨hcalls, htail, hbranch, hother⟩ := hhole.not_other
  cases h with
  | straight hcs => cases hcalls.symm.trans hcs
  | branch hbranch' => cases hbranch.symm.trans hbranch'
  | assign hop | grab hop | partialCall hop | return_ hop | stop hop | popTrap hop =>
      exact absurd hop (hother _ (by simp))
  | call happlies hcall =>
      refine Exec.enter_stale hcall ?_
      cases happlies with
      | apply hop => exact absurd hop (hother _ (by simp))
      | @framed args w _ _ hargs hstack hsome hnone hchecked =>
          obtain ⟨sp, threshold, rfl⟩ := hchecked
          have htwo : args.length < 3 := by
            rcases hhole with hop | hop | hop <;>
              simp only [ZInstruction.framedArgs, hop, Option.some.injEq, reduceCtorEq] at hargs <;>
              omega
          rw [hnone htwo]
          exact not_written_of_none _ _
  | tailCall htail' henter =>
      cases htail' with
      | appterm hoperands => cases htail.symm.trans hoperands
      | return_ hop => exact absurd hop (hother _ (by simp))
  | pushTrap hop hbuffer hpush =>
      cases hpush
      exact fun hstale => not_written_of_none [] _ hstale.stack
  | land hraises => exact absurd hnone hraises.not_noHandler

/-- The stack and every stack that may have been scanned are free of stale words at every point of a
run exactly if the run executes neither `APPLY1` nor `APPLY2` nor `PUSHTRAP`. -/
theorem noStale_iff (hkeep : rt.KeepsStack) (heap : Heap) (globalData : Value) (threshold : Nat)
    {run : List (ZInstruction × Exec)}
    (hrun : IsRun (Exec.step rt) (.atStart heap globalData threshold) run) :
    AllStates (fun s => s.machine.NoStale) (.atStart heap globalData threshold) run ↔
      AllSteps (fun _ inst _ => ¬inst.LeavesHole) (.atStart heap globalData threshold) run := by
  let P (s : Exec) : Prop := s.machine.NoStale ∧ s.machine.NoHandler
  have hstart : P (.atStart heap globalData threshold) :=
    ⟨⟨fun _ hw => absurd hw List.not_mem_nil, fun _ hw => absurd hw List.not_mem_nil⟩, rfl, rfl⟩
  have hstep : ∀ s inst s', P s → s.step rt inst = some s' →
      (s'.machine.NoStale ↔ ¬inst.LeavesHole) ∧ (¬inst.LeavesHole → P s') := by
    intro s inst s' hs hstep
    have hexec := Exec.step_cases hkeep hstep
    have hforward : ¬inst.LeavesHole → P s' := fun hhole => noStale_step hexec hhole hs.1 hs.2
    exact ⟨⟨fun hstale hhole => stale_step hexec hhole hs.2 hstale, fun hhole => (hforward hhole).1⟩,
      hforward⟩
  have hexact := allStates_iff_allSteps (C := fun _ inst _ => ¬inst.LeavesHole)
    (fun s inst s' hs h => ⟨fun hs' => (hstep s inst s' hs h).1.mp hs'.1,
      (hstep s inst s' hs h).2⟩) hrun hstart
  refine ⟨fun hall => hexact.mp ?_, fun hcond => ?_⟩
  · exact allStates_of_step (fun s inst s' hs h hstale => (hstep s inst s' hs h).2
      ((hstep s inst s' hs h).1.mp hstale)) hrun hall.allSteps hstart
  · have hall := hexact.mpr hcond
    exact ⟨hall.1.1, fun e he => (hall.2 e he).1⟩

/-- The call of a function without free variables with one argument. -/
def callOfOne : List ZInstruction :=
  [.blank .const0, .blank .push, .ofArgs .closure 0 7,
    .blank .apply1]

theorem noStale_iff_callOfOne :
    AllStates (fun s => s.machine.NoStale) (.atStart [] .unit 100)
        (trace (Exec.step .idle) (.atStart [] .unit 100) callOfOne) ↔
      AllSteps (fun _ inst _ => ¬inst.LeavesHole) (.atStart [] .unit 100)
        (trace (Exec.step .idle) (.atStart [] .unit 100) callOfOne) :=
  noStale_iff Runtime.idle_keepsStack [] .unit 100 (isRun_trace _ _ _)

/-- `APPLY1` enters the function with a frame whose first word is stale. -/
theorem not_noStale_callOfOne :
    (last (.atStart [] .unit 100) (trace (Exec.step .idle) (.atStart [] .unit 100)
        callOfOne)).machine.scans =
      [[some (.int 0), none, some (.raw 0), some (.int 0)],
        [some (.int 0), some (.raw 0), some (.int 0)]] ∧
      ¬(last (.atStart [] .unit 100) (trace (Exec.step .idle) (.atStart [] .unit 100)
        callOfOne)).machine.NoStale := by
  refine ⟨rfl, fun hstale => ?_⟩
  have hscan := hstale.scans [some (.int 0), none, some (.raw 0), some (.int 0)]
    List.mem_cons_self
  exact not_written_of_none [some (.int 0)] _ hscan

end CamllVM
